import Lexis.Comment
import Lexis.Literal.Number
import Lexis.Literal.TextBlock
import Lexis.Operator.Munch
import Lexis.Word

/-!
# The front of a text

The first character of a text, and sometimes the second, decides what stands at its front: a lexeme,
a piece of trivia (white space or a comment), or a fault. The answer hangs on the text alone, not on
where the text stands. Main statements: every front takes up at least one character, and no more than
the text has.
-/

namespace Lexis.Front

/-- Reads the front of the text `c :: rest`; trivia is found as `none`. -/
def read (c : Char) (rest : List Char) : Reading (Option Lexeme) :=
  if c.isDigit then (Number.read (c :: rest)).map some
  else if c.isAlpha then (Word.read (c :: rest)).map some
  else if c = '#' then (Word.readMarked rest).map some
  else if c = '\x60' then (Word.readExtended rest).map some
  else if Quoted.isQuote c then
    ((Quoted.read c rest).map fun text => some (.ofValue .string text)).shift 1
  else if c = '\\' ∧ rest.head? = some '\\' then
    ((TextBlock.read (rest.drop 1)).map fun text => some (.ofValue .string text)).shift 2
  else if c = '/' ∧ rest.head? = some '/' then Comment.readLine (rest.drop 1)
  else if c = '/' ∧ rest.head? = some '*' then Comment.readBlock (rest.drop 1)
  else
    match Operator.isStarter c, Text.isBlank c with
    | true, _ => (Operator.read c rest).map some
    | false, true => .found none 1
    | false, false => .fault (.unknownCharacter c) 1

/-- Every front takes up at least one character. -/
theorem one_le_length_read (c : Char) (rest : List Char) : 1 ≤ (read c rest).length := by
  unfold read
  split
  · exact Number.one_le_length_read rest (by assumption)
  split
  · exact Word.one_le_length_read rest (by assumption)
  split
  · exact Word.one_le_length_readMarked rest
  split
  · exact Word.one_le_length_readExtended rest
  split
  · exact Nat.le_add_right 1 _
  split
  · exact Nat.le_add_right_of_le (Nat.le_succ 1)
  split
  · exact Nat.le_of_succ_le (Comment.two_le_length_readLine _)
  split
  · exact Nat.le_of_succ_le (Comment.two_le_length_readBlock _)
  split
  · exact Operator.one_le_length_read (by assumption) rest
  · exact Nat.le_refl 1
  · exact Nat.le_refl 1

/-- Every front lies within the text. -/
theorem length_read_le (c : Char) (rest : List Char) :
    (read c rest).length ≤ rest.length + 1 := by
  have htail : ∀ d, rest.head? = some d → (rest.drop 1).length + 1 = rest.length := by
    intro d hd
    cases rest with
    | nil => simp at hd
    | cons _ more => rfl
  unfold read
  split
  · exact Number.length_read_le (c :: rest)
  split
  · exact Word.length_run_le (c :: rest)
  split
  · exact Word.length_readMarked_le rest
  split
  · exact Word.length_readExtended_le rest
  split
  · have hlen := Quoted.length_read_le c rest
    rw [Reading.length_shift, Reading.length_map]
    omega
  split
  · rename_i hblock
    have hlen := TextBlock.length_read_le (rest.drop 1)
    have hrest := htail _ hblock.2
    rw [Reading.length_shift, Reading.length_map]
    omega
  split
  · rename_i hline
    have hlen := Comment.length_readLine_le (rest.drop 1)
    have hrest := htail _ hline.2
    omega
  split
  · rename_i hblock
    have hlen := Comment.length_readBlock_le (rest.drop 1)
    have hrest := htail _ hblock.2
    omega
  split
  · exact Operator.length_read_le c rest
  · exact Nat.succ_pos _
  · exact Nat.succ_pos _

end Lexis.Front
