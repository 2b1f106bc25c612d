import Lexis.Reading

/-!
# Changing readings

What mapping a reading, shifting it and putting a piece in front of it do to what was found.
-/

namespace Lexis.Reading

@[simp] theorem map_found {α β : Type} (f : α → β) (value : α) (n : Nat) :
    (found value n).map f = found (f value) n := rfl

@[simp] theorem shift_found {α : Type} (m : Nat) (value : α) (n : Nat) :
    (found value n).shift m = found value (m + n) := rfl

theorem map_map {α β γ : Type} (f : α → β) (g : β → γ) (reading : Reading α) :
    (reading.map f).map g = reading.map fun value => g (f value) := by
  obtain ⟨result, n⟩ := reading
  cases result <;> rfl

theorem map_congr {α β : Type} {f g : α → β} {reading : Reading α}
    (h : ∀ value, reading.result = .ok value → f value = g value) : reading.map f = reading.map g := by
  obtain ⟨result, n⟩ := reading
  cases result with
  | error fault => rfl
  | ok value =>
    rw [map, map, Except.map, Except.map, h value rfl]

theorem map_shift {α β : Type} (f : α → β) (n : Nat) (reading : Reading α) :
    (reading.shift n).map f = (reading.map f).shift n := rfl

theorem shift_shift {α : Type} (m n : Nat) (reading : Reading α) :
    (reading.shift n).shift m = reading.shift (m + n) := by
  rw [shift, shift, shift, Nat.add_assoc]

@[simp] theorem cons_found (piece : Piece) (text : List Char) (n : Nat) :
    (found text n).cons piece = found (piece.text ++ text) (piece.length + n) := rfl

@[simp] theorem cons_fault (piece : Piece) (f : Fault) (n : Nat) :
    (fault f n).cons piece = fault f (piece.length + n) := rfl

@[simp] theorem isOk_map {α β : Type} (f : α → β) (reading : Reading α) :
    (reading.map f).result.isOk = reading.result.isOk := by
  obtain ⟨result, n⟩ := reading
  cases result <;> rfl

@[simp] theorem isOk_shift {α : Type} (n : Nat) (reading : Reading α) :
    (reading.shift n).result.isOk = reading.result.isOk := rfl

@[simp] theorem isOk_cons (piece : Piece) (reading : Reading (List Char)) :
    (reading.cons piece).result.isOk = reading.result.isOk := by
  rw [cons, isOk_shift, isOk_map]

/-- The empty piece changes nothing. -/
theorem cons_nil (reading : Reading (List Char)) : reading.cons ⟨[], 0⟩ = reading := by
  obtain ⟨result, n⟩ := reading
  cases result with
  | error fault => simp [cons, map, shift, Except.map]
  | ok text => simp [cons, map, shift, Except.map]

/-- Two pieces in a row are one piece. -/
theorem cons_cons (first second : Piece) (reading : Reading (List Char)) :
    (reading.cons second).cons first =
      reading.cons ⟨first.text ++ second.text, first.length + second.length⟩ := by
  obtain ⟨result, n⟩ := reading
  cases result with
  | error fault => simp [cons, map, shift, Except.map, Nat.add_assoc]
  | ok text => simp [cons, map, shift, Except.map, Nat.add_assoc]

theorem result_map {α β : Type} {f : α → β} {reading : Reading α} {value : β}
    (h : (reading.map f).result = .ok value) : ∃ inner, reading.result = .ok inner ∧ f inner = value := by
  obtain ⟨result, n⟩ := reading
  cases result with
  | error fault => simp [map, Except.map] at h
  | ok inner =>
    simp only [map, Except.map, Except.ok.injEq] at h
    exact ⟨inner, rfl, h⟩

theorem result_map_some {α : Type} {reading : Reading α} {value : α}
    (h : (reading.map some).result = .ok (some value)) : reading.result = .ok value := by
  obtain ⟨inner, hinner, heq⟩ := result_map h
  cases heq
  exact hinner

theorem result_cons {piece : Piece} {reading : Reading (List Char)} {text : List Char}
    (h : (reading.cons piece).result = .ok text) :
    ∃ rest, reading.result = .ok rest ∧ text = piece.text ++ rest := by
  obtain ⟨rest, hrest, rfl⟩ := @result_map _ _ (piece.text ++ ·) reading _ h
  exact ⟨rest, hrest, rfl⟩

end Lexis.Reading
