/-!
# Hexadecimal code units

Four hexadecimal digits, in either case, stand for one 16-bit code unit. A unit that is not a
surrogate is a character by itself; a high surrogate and a low surrogate together are a character
beyond the first 65536.
-/

namespace Lexis.Text

/-- The value of a hexadecimal digit of either case. -/
def hexDigit? (c : Char) : Option Nat :=
  if '0' ≤ c ∧ c ≤ '9' then some (c.toNat - '0'.toNat)
  else if 'a' ≤ c ∧ c ≤ 'f' then some (c.toNat - 'a'.toNat + 10)
  else if 'A' ≤ c ∧ c ≤ 'F' then some (c.toNat - 'A'.toNat + 10)
  else none

namespace CodeUnit

/-- The code unit that the first four characters of a text spell. -/
def read? : List Char → Option Nat
  | a :: b :: c :: d :: _ => do
    let a ← hexDigit? a
    let b ← hexDigit? b
    let c ← hexDigit? c
    let d ← hexDigit? d
    some (((a * 16 + b) * 16 + c) * 16 + d)
  | _ => none

/-- The first half of a surrogate pair. -/
def isHigh (unit : Nat) : Bool := 0xD800 ≤ unit && unit ≤ 0xDBFF

/-- The second half of a surrogate pair. -/
def isLow (unit : Nat) : Bool := 0xDC00 ≤ unit && unit ≤ 0xDFFF

/-- The character that a unit is by itself. -/
def char? (unit : Nat) : Option Char :=
  if isHigh unit || isLow unit then none else some (Char.ofNat unit)

/-- The character that a surrogate pair stands for. -/
def pair? (high low : Nat) : Option Char :=
  if isHigh high && isLow low then
    some (Char.ofNat (0x10000 + (high - 0xD800) * 0x400 + (low - 0xDC00)))
  else none

/-- A code unit is spelled with four characters. -/
theorem four_le_length {text : List Char} {unit : Nat} (h : read? text = some unit) :
    4 ≤ text.length := by
  unfold read? at h
  split at h
  · simp
  · simp at h

end CodeUnit

end Lexis.Text
