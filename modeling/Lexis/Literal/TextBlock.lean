import Lexis.Literal.Escape

/-!
# Text blocks

A string of whole lines: each line of the block follows two backslashes, and the lines after the
first may be indented. The block ends at the first line that does not start with a backslash, and the
line break and the indentation in front of that line still belong to it.
-/

namespace Lexis.TextBlock

open Text

/-- Reads the text block whose first two backslashes stand right before the text. -/
def read (text : List Char) : Reading (List Char) :=
  match text with
  | [] => .found [] 0
  | c :: rest =>
    if c = '\\' then
      let escape := Escape.read rest
      (read (rest.drop (escape.length - 1))).cons escape
    else if c = '\n' then
      let indent := (rest.takeWhile isBlank).length
      match rest.drop indent with
      | '\\' :: '\\' :: _ => (read (rest.drop (indent + 2))).cons ⟨['\n'], 1 + indent + 2⟩
      | '\\' :: _ => .fault .malformedTextBlock (1 + indent + 1)
      | _ => .found [] (1 + indent)
    else (read rest).cons (.verbatim c)
termination_by text.length

/-- A text block lies within the text. -/
theorem length_read_le (text : List Char) : (read text).length ≤ text.length := by
  fun_induction read text with
  | case1 => exact Nat.le_refl 0
  | case2 rest escape ih =>
    have hone : 1 ≤ escape.length := Escape.one_le_length_read rest
    have hle : escape.length ≤ rest.length + 1 := Escape.length_read_le rest
    rw [List.length_drop] at ih
    rw [Reading.length_cons, List.length_cons]
    omega
  | case3 rest indent _ hline _ ih =>
    have hlen := congrArg List.length hline
    simp only [List.length_drop, List.length_cons] at hlen ih
    rw [Reading.length_cons, List.length_cons]
    change 1 + indent + 2 + _ ≤ _
    omega
  | case4 rest _ indent _ hline =>
    have hlen := congrArg List.length hline
    simp only [List.length_drop, List.length_cons] at hlen
    rw [Reading.length_fault, List.length_cons]
    omega
  | case5 rest indent _ _ _ =>
    have hrun : indent ≤ rest.length := (List.takeWhile_sublist isBlank).length_le
    rw [Reading.length_found, List.length_cons]
    omega
  | case6 c rest _ _ ih =>
    rw [Reading.length_cons, List.length_cons]
    change 1 + _ ≤ _
    omega

end Lexis.TextBlock
