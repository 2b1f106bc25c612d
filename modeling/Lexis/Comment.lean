import Lexis.Reading
import Lexis.Text.Blank
import Lexis.Token

/-!
# Comments

Two slashes open a comment that runs to the end of the line. With exactly three slashes it is
documentation, which is a token; with two, or with four and more, it is no token. A block comment runs
to the first closing mark and does not nest.
-/

namespace Lexis.Comment

open Text

/-- The rest of a line, without the line break. -/
def lineRest (text : List Char) : List Char := text.takeWhile fun c => !isLineEnd c

/-- Tells whether the text that follows two slashes makes them open documentation. -/
def isDocumentation : List Char → Bool
  | '/' :: rest => rest.head? != some '/'
  | _ => false

/-- The text of a documentation line, without one white-space character at its front. -/
def documentationText (line : List Char) : List Char :=
  match line with
  | [] => []
  | c :: rest => if isBlank c then rest else line

/-- Reads the comment whose two slashes stand right before the text. The length counts the slashes;
nothing is found where the comment is no documentation. -/
def readLine (text : List Char) : Reading (Option Lexeme) :=
  if isDocumentation text then
    let line := lineRest (text.drop 1)
    .found (some (.ofValue .documentation (documentationText line))) (3 + line.length)
  else .found none (2 + (lineRest text).length)

/-- The number of characters up to the end of the first closing mark. -/
def closing? : List Char → Option Nat
  | [] => none
  | c :: rest =>
    if c = '*' ∧ rest.head? = some '/' then some 2 else (closing? rest).map (· + 1)

/-- Reads the block comment whose opening mark stands right before the text. The length counts that
mark. -/
def readBlock (text : List Char) : Reading (Option Lexeme) :=
  match closing? text with
  | some n => .found none (2 + n)
  | none => .fault .unterminatedComment (2 + text.length)

/-- A line comment takes up at least its two slashes. -/
theorem two_le_length_readLine (text : List Char) : 2 ≤ (readLine text).length := by
  unfold readLine
  split <;> simp only [Reading.length_found] <;> omega

/-- A block comment takes up at least its opening mark. -/
theorem two_le_length_readBlock (text : List Char) : 2 ≤ (readBlock text).length := by
  unfold readBlock
  split <;> simp only [Reading.length_found, Reading.length_fault] <;> omega

/-- The rest of a line lies within the text. -/
theorem length_lineRest_le (text : List Char) : (lineRest text).length ≤ text.length :=
  (List.takeWhile_sublist _).length_le

/-- A line comment lies within its slashes and the text. -/
theorem length_readLine_le (text : List Char) : (readLine text).length ≤ text.length + 2 := by
  unfold readLine
  split
  · rename_i hdoc
    have hone : 1 ≤ text.length := by
      cases text with
      | nil => simp [isDocumentation] at hdoc
      | cons c rest => simp
    have hline := length_lineRest_le (text.drop 1)
    rw [List.length_drop] at hline
    rw [Reading.length_found]
    omega
  · have hline := length_lineRest_le text
    rw [Reading.length_found]
    omega

/-- The closing mark lies within the text. -/
theorem closing?_le {text : List Char} {n : Nat} (h : closing? text = some n) :
    n ≤ text.length := by
  induction text generalizing n with
  | nil => simp [closing?] at h
  | cons c rest ih =>
    unfold closing? at h
    split at h
    · rename_i hclose
      simp only [Option.some.injEq] at h
      cases rest with
      | nil => simp at hclose
      | cons d more => simp [← h]
    · simp only [Option.map_eq_some_iff] at h
      obtain ⟨m, hm, rfl⟩ := h
      exact Nat.succ_le_succ (ih hm)

/-- A block comment lies within its opening mark and the text. -/
theorem length_readBlock_le (text : List Char) : (readBlock text).length ≤ text.length + 2 := by
  unfold readBlock
  split
  · rename_i n hn
    have hlen := closing?_le hn
    rw [Reading.length_found]
    omega
  · rw [Reading.length_fault]
    omega

end Lexis.Comment
