import Lexis.Literal.Escape

/-!
# Quoted strings

A string between two equal quotes, read with escapes or verbatim. Line breaks may stand in it. A
string that is never closed takes up the rest of the text.
-/

namespace Lexis.Quoted

/-- The two characters that open a string. -/
def isQuote (c : Char) : Bool := c == '\x22' || c == '\x27'

/-- Reads the string that `quote` opened right before the text, with its escapes decoded. -/
def read (quote : Char) (text : List Char) : Reading (List Char) :=
  match text with
  | [] => .fault .unterminatedString 0
  | c :: rest =>
    if c = '\\' then
      let escape := Escape.read rest
      (read quote (rest.drop (escape.length - 1))).cons escape
    else if c = quote then .found [] 1
    else (read quote rest).cons (.verbatim c)
termination_by text.length

/-- Reads the string that `quote` opened right before the text, with every character kept. -/
def readRaw (quote : Char) (text : List Char) : Reading (List Char) :=
  let content := text.takeWhile (· != quote)
  if content.length < text.length then .found content (content.length + 1)
  else .fault .unterminatedString text.length

/-- A string lies within the text. -/
theorem length_read_le (quote : Char) (text : List Char) :
    (read quote text).length ≤ text.length := by
  fun_induction read quote text with
  | case1 => exact Nat.le_refl 0
  | case2 rest escape ih =>
    have hone : 1 ≤ escape.length := Escape.one_le_length_read rest
    have hle : escape.length ≤ rest.length + 1 := Escape.length_read_le rest
    rw [List.length_drop] at ih
    rw [Reading.length_cons, List.length_cons]
    omega
  | case3 => exact Nat.succ_pos _
  | case4 c rest _ _ ih =>
    rw [Reading.length_cons, List.length_cons]
    change 1 + _ ≤ _
    omega

/-- A verbatim string lies within the text. -/
theorem length_readRaw_le (quote : Char) (text : List Char) :
    (readRaw quote text).length ≤ text.length := by
  unfold readRaw
  dsimp only
  split
  · assumption
  · exact Nat.le_refl _

end Lexis.Quoted
