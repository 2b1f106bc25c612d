import Lexis.Fault

/-!
# Readings

A reader looks at the front of a text and answers with what it found there, or with what is wrong,
together with the number of characters that this takes up. It never says what is left: that is the
text without so many characters. Beside each reader stand the bounds on that number: at least one
character, and no more than there are.
-/

namespace Lexis

/-- A decoded text and the number of source characters it was written with. -/
structure Piece where
  text : List Char
  length : Nat
  deriving DecidableEq, Repr

namespace Piece

/-- A character that stands for itself. -/
def verbatim (c : Char) : Piece := ⟨[c], 1⟩

end Piece

/-- What stands at the front of a text, and how many characters it takes up. -/
structure Reading (α : Type) where
  result : Except Fault α
  length : Nat

namespace Reading

/-- A well-formed front. -/
def found {α : Type} (value : α) (length : Nat) : Reading α := ⟨.ok value, length⟩

/-- A malformed front. -/
def fault {α : Type} (fault : Fault) (length : Nat) : Reading α := ⟨.error fault, length⟩

/-- Changes what was found. -/
def map {α β : Type} (f : α → β) (reading : Reading α) : Reading β :=
  ⟨reading.result.map f, reading.length⟩

/-- The same reading with `n` more characters in front. -/
def shift {α : Type} (n : Nat) (reading : Reading α) : Reading α :=
  ⟨reading.result, n + reading.length⟩

/-- Puts a piece in front of a text that was read. -/
def cons (piece : Piece) (reading : Reading (List Char)) : Reading (List Char) :=
  (reading.map (piece.text ++ ·)).shift piece.length

@[simp] theorem length_found {α : Type} (value : α) (n : Nat) : (found value n).length = n := rfl

@[simp] theorem length_fault {α : Type} (f : Fault) (n : Nat) :
    (fault f n : Reading α).length = n := rfl

@[simp] theorem length_map {α β : Type} (f : α → β) (reading : Reading α) :
    (reading.map f).length = reading.length := rfl

@[simp] theorem length_shift {α : Type} (n : Nat) (reading : Reading α) :
    (reading.shift n).length = n + reading.length := rfl

@[simp] theorem length_cons (piece : Piece) (reading : Reading (List Char)) :
    (reading.cons piece).length = piece.length + reading.length := rfl

end Reading

end Lexis
