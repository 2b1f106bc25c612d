import Lexis.Position

/-!
# Cursors

A cursor stands in front of the rest of a text and knows the place of its first character.
-/

namespace Lexis

/-- The rest of a text and the place where it starts. -/
structure Cursor where
  rest : List Char
  place : Place
  deriving DecidableEq, Repr

namespace Cursor

/-- The cursor at the start of a text. -/
def ofText (text : List Char) : Cursor := ⟨text, .start⟩

/-- Moves over `n` characters, or to the end of the text where there are fewer. -/
def skip (tab n : Nat) (cursor : Cursor) : Cursor :=
  ⟨cursor.rest.drop n, cursor.place.afterText tab (cursor.rest.take n)⟩

@[simp] theorem rest_skip (tab n : Nat) (cursor : Cursor) :
    (cursor.skip tab n).rest = cursor.rest.drop n := rfl

@[simp] theorem skip_zero (tab : Nat) (cursor : Cursor) : cursor.skip tab 0 = cursor := rfl

/-- Moving twice is moving over both numbers of characters at once. -/
theorem skip_skip (tab m n : Nat) (cursor : Cursor) :
    (cursor.skip tab m).skip tab n = cursor.skip tab (m + n) := by
  simp only [skip, List.drop_drop, ← Place.afterText_append, List.take_add]

end Cursor

end Lexis
