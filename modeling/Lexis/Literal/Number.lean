import Lexis.Literal.Decimal
import Lexis.Literal.Radix

/-!
# Numbers

A number starts with a digit. It is a radix literal where a leading zero and a radix mark open it,
and a decimal literal otherwise.
-/

namespace Lexis.Number

/-- The radix that the front of a text names. -/
def radix? : List Char → Option Radix
  | '0' :: mark :: _ => Radix.ofMark? mark
  | _ => none

/-- Reads a number. -/
def read (text : List Char) : Reading Lexeme :=
  match radix? text with
  | some radix => (radix.read (text.drop 2)).shift 2
  | none => Decimal.read text

/-- A number takes up at least the digit that it starts with. -/
theorem one_le_length_read {c : Char} (rest : List Char) (h : c.isDigit) :
    1 ≤ (read (c :: rest)).length := by
  unfold read
  split
  · simp only [Reading.length_shift]
    omega
  · have hrun : 1 ≤ (Digits.run Char.isDigit (c :: rest)).length := by
      simp [Digits.run, h]
    simp only [Decimal.read, Reading.length_shift]
    omega

/-- A number lies within the text. -/
theorem length_read_le (text : List Char) : (read text).length ≤ text.length := by
  unfold read
  split
  · rename_i radix hradix
    have hlen := radix.length_read_le (text.drop 2)
    have htwo : 2 ≤ text.length := by
      unfold radix? at hradix
      split at hradix
      · simp
      · simp at hradix
    rw [List.length_drop] at hlen
    rw [Reading.length_shift]
    omega
  · exact Decimal.length_read_le text

end Lexis.Number
