/-!
# Positions

Rows and columns are counted from one, and every counter stops at a ceiling instead of wrapping.
A `Place` is where one character stands; a `Position` is where a token starts and how many source
characters it takes up.
-/

namespace Lexis

/-- The largest row, column or length that is ever reported. -/
def ceiling : Nat := 0xFFFFFFFF

/-- A number is printed in digits alone. -/
theorem not_mem_toString {c : Char} (h : c.isDigit = false) (n : Nat) :
    c ∉ (toString n).toList := by
  rw [Nat.toString_eq_ofList_toDigits, String.toList_ofList]
  intro hc
  rw [Nat.isDigit_of_mem_toDigits (by decide) (by decide) hc] at h
  cases h

/-- Where a token starts and how many source characters it takes up. -/
structure Position where
  row : Nat
  col : Nat
  len : Nat
  deriving DecidableEq, Repr, Hashable, Inhabited

namespace Position

/-- A position that takes up no source characters. -/
def isEmpty (p : Position) : Bool := p.len == 0

/-- The printed form names the row and the column only. -/
protected def toString (p : Position) : String := s!"[{p.row}:{p.col}]"

instance : ToString Position := ⟨Position.toString⟩

end Position

/-- The row and column of one character of a text. -/
structure Place where
  row : Nat
  col : Nat
  deriving DecidableEq, Repr, Inhabited

namespace Place

/-- The place of the first character of a text. -/
def start : Place := ⟨1, 1⟩

/-- The place that follows a character: a line feed opens a new row, a tab moves `tab` columns on,
and any other character moves one column on. -/
def after (tab : Nat) (p : Place) (c : Char) : Place :=
  if c = '\n' then ⟨min ceiling (p.row + 1), 1⟩
  else if c = '\t' then ⟨p.row, min ceiling (p.col + tab)⟩
  else ⟨p.row, min ceiling (p.col + 1)⟩

/-- The place that follows a whole text. -/
def afterText (tab : Nat) (p : Place) (text : List Char) : Place :=
  text.foldl (after tab) p

/-- The position of a token of `length` characters that starts here. -/
def position (p : Place) (length : Nat) : Position :=
  ⟨p.row, p.col, min ceiling length⟩

/-- A length up to the ceiling is reported as it is. -/
theorem position_of_le {length : Nat} (h : length ≤ ceiling) (p : Place) :
    p.position length = ⟨p.row, p.col, length⟩ := by
  rw [position, Nat.min_eq_right h]

@[simp] theorem afterText_nil (tab : Nat) (p : Place) : p.afterText tab [] = p := rfl

/-- Moving over two texts in a row is moving over the two joined. -/
theorem afterText_append (tab : Nat) (p : Place) (s t : List Char) :
    p.afterText tab (s ++ t) = (p.afterText tab s).afterText tab t :=
  List.foldl_append

end Place

end Lexis
