import Lexis.Literal.Digits
import Lexis.Reading
import Lexis.Token

/-!
# Radix literals

Integers in hexadecimal, octal and binary digits. A mark after a leading zero names the radix; the
text of the token holds the digits alone.
-/

namespace Lexis

/-- The radixes that a mark after a leading zero can name. -/
inductive Radix where
  | hex | oct | bin
  deriving DecidableEq, Repr

namespace Radix

/-- The radix that a mark names; the octal mark has no upper-case form. -/
def ofMark? : Char → Option Radix
  | 'x' | 'X' => some hex
  | 'o' => some oct
  | 'b' | 'B' => some bin
  | _ => none

/-- The digits of a radix. -/
def isDigit : Radix → Char → Bool
  | hex, c => c.isDigit || ('a' ≤ c && c ≤ 'f') || ('A' ≤ c && c ≤ 'F')
  | oct, c => '0' ≤ c && c ≤ '7'
  | bin, c => c == '0' || c == '1'

/-- The kind of a literal in a radix. -/
def kind : Radix → ValueKind
  | hex => .intHex
  | oct => .intOct
  | bin => .intBin

/-- The fault of a mark that no digit follows. -/
def fault : Radix → Fault
  | hex => .invalidHexNumber
  | oct => .invalidOctNumber
  | bin => .invalidBinNumber

/-- Reads the digits that follow the mark. -/
def read (radix : Radix) (text : List Char) : Reading Lexeme :=
  let run := Digits.run radix.isDigit text
  let digits := Digits.ofRun run
  if digits.isEmpty then .fault radix.fault run.length
  else .found (.ofValue radix.kind digits) run.length

/-- The digits lie within the text. -/
theorem length_read_le (radix : Radix) (text : List Char) :
    (radix.read text).length ≤ text.length := by
  have hrun := Digits.length_run_le radix.isDigit text
  unfold read
  dsimp only
  split <;> exact hrun

end Radix

end Lexis
