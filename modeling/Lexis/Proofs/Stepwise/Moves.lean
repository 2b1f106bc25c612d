import Mathlib.Logic.Function.Iterate
import Lexis.Proofs.Escape.Decoding

/-!
# Moves of a cursor

A token that is being read is read by moves over one character at a time. Each move carries the row and the column
along and counts the characters of the token. A run of moves over characters of one class is a move over all of them.
Main statement: `Decoding.eatWhile_eq`.
-/

namespace Lexis

namespace Cursor

/-- Moves over one character, unless the text ends here. -/
def advance (tab : Nat) (cursor : Cursor) : Cursor :=
  match cursor.rest with
  | [] => cursor
  | c :: rest => ⟨rest, cursor.place.after tab c⟩

theorem advance_eq_skip (tab : Nat) (cursor : Cursor) : cursor.advance tab = cursor.skip tab 1 := by
  obtain ⟨rest, place⟩ := cursor
  cases rest with
  | nil => rfl
  | cons c rest => rfl

theorem iterate_advance (tab n : Nat) (cursor : Cursor) :
    (advance tab)^[n] cursor = cursor.skip tab n := by
  induction n generalizing cursor with
  | zero => rfl
  | succ n ih => rw [Function.iterate_succ_apply, ih, advance_eq_skip, skip_skip, Nat.add_comm]

end Cursor

namespace Decoding

/-- Moves over one character, unless the text ends here. -/
def advance (tab : Nat) (state : Decoding) : Decoding :=
  match state.cursor.rest with
  | [] => state
  | _ :: _ => { state with cursor := state.cursor.advance tab, length := state.length + 1 }

/-- Moves over `n` characters. -/
def move (tab n : Nat) (state : Decoding) : Decoding :=
  { state with cursor := state.cursor.skip tab n, length := state.length + n }

/-- Adds to the text. -/
def push (state : Decoding) (text : List Char) : Decoding :=
  { state with text := state.text ++ text }

@[simp] theorem push_nil (state : Decoding) : state.push [] = state := by
  rw [push, List.append_nil]

theorem take_nil (tab : Nat) (state : Decoding) : state.take tab ⟨[], 0⟩ = state :=
  state.push_nil

theorem take_take (tab : Nat) (first second : Piece) (state : Decoding) :
    (state.take tab first).take tab second =
      state.take tab ⟨first.text ++ second.text, first.length + second.length⟩ := by
  simp only [take, Cursor.skip_skip, Nat.add_assoc, List.append_assoc]

theorem take_eq (tab : Nat) (piece : Piece) (state : Decoding) :
    state.take tab piece = (state.move tab piece.length).push piece.text := rfl

@[simp] theorem rest_move (tab n : Nat) (state : Decoding) :
    (state.move tab n).cursor.rest = state.cursor.rest.drop n := rfl

theorem move_move (tab m n : Nat) (state : Decoding) :
    (state.move tab m).move tab n = state.move tab (m + n) := by
  simp only [move, Cursor.skip_skip, Nat.add_assoc]

theorem text_push_move (tab n : Nat) {state : Decoding} (h : state.text = []) (text : List Char) :
    ((state.move tab n).push text).text = text := by
  rw [push, move, h, List.nil_append]

theorem advance_of_cons (tab : Nat) {state : Decoding} {c : Char} {rest : List Char}
    (h : state.cursor.rest = c :: rest) : state.advance tab = state.move tab 1 := by
  rw [advance, h]
  simp only [Cursor.advance_eq_skip]
  rfl

/-- What a character stands for is added before the character is moved over. -/
theorem advance_push (tab : Nat) {state : Decoding} {c : Char} {rest : List Char}
    (h : state.cursor.rest = c :: rest) (text : List Char) :
    (state.push text).advance tab = state.take tab ⟨text, 1⟩ :=
  advance_of_cons tab h

theorem rest_move_of_cons (tab : Nat) {state : Decoding} {c : Char} {rest : List Char}
    (h : state.cursor.rest = c :: rest) (n : Nat) : (state.move tab (1 + n)).cursor.rest = rest.drop n := by
  rw [rest_move, h, Nat.add_comm, List.drop_succ_cons]

theorem rest_move_one (tab : Nat) {state : Decoding} {c : Char} {rest : List Char}
    (h : state.cursor.rest = c :: rest) : (state.move tab 1).cursor.rest = rest :=
  rest_move_of_cons tab h 0

/-- The character behind the one at the cursor. -/
theorem peek_of_cons {state : Decoding} {c : Char} {rest : List Char} (h : state.cursor.rest = c :: rest) :
    state.cursor.rest[1]? = rest.head? := by
  rw [h, List.getElem?_cons_succ, List.head?_eq_getElem?]

theorem rest_advance (tab : Nat) {state : Decoding} {c : Char} {rest : List Char}
    (h : state.cursor.rest = c :: rest) : (state.advance tab).cursor.rest = rest := by
  rw [advance_of_cons tab h, rest_move_one tab h]

theorem advance_advance (tab : Nat) {state : Decoding} {c d : Char} {rest : List Char}
    (h : state.cursor.rest = c :: d :: rest) : (state.advance tab).advance tab = state.move tab 2 := by
  rw [advance_of_cons tab (rest_advance tab h), advance_of_cons tab h, move_move]

theorem rest_take_verbatim (tab : Nat) {state : Decoding} {c : Char} {rest : List Char}
    (h : state.cursor.rest = c :: rest) : (state.take tab (.verbatim c)).cursor.rest = rest :=
  rest_move_one tab h

/-- Moves on as long as the character at the cursor is of a class. -/
def eatWhile (tab : Nat) (p : Char → Bool) (state : Decoding) : Decoding :=
  match _h : state.cursor.rest with
  | [] => state
  | c :: _ => if p c then eatWhile tab p (state.advance tab) else state
termination_by state.cursor.rest.length
decreasing_by
  rw [rest_advance tab _h, _h]
  exact Nat.lt_succ_self _

theorem eatWhile_eq (tab : Nat) (p : Char → Bool) (state : Decoding) :
    state.eatWhile tab p = state.move tab (state.cursor.rest.takeWhile p).length := by
  induction hrest : state.cursor.rest generalizing state with
  | nil =>
    rw [eatWhile]
    split
    · rfl
    · rename_i hcons
      rw [hrest] at hcons
      cases hcons
  | cons c rest ih =>
    rw [eatWhile]
    split
    · rename_i hnil
      rw [hrest] at hnil
      cases hnil
    rename_i hcons
    rw [hrest] at hcons
    cases hcons
    cases hc : p c with
    | true =>
      rw [if_pos rfl, ih _ (rest_advance tab hrest), advance_of_cons tab hrest, move_move,
        List.takeWhile_cons_of_pos hc, List.length_cons, Nat.add_comm]
    | false =>
      rw [if_neg Bool.false_ne_true, List.takeWhile_cons_of_neg (by simp [hc])]
      rfl

theorem eatWhile_advance (tab : Nat) (p : Char → Bool) {state : Decoding} {c : Char} {rest : List Char}
    (h : state.cursor.rest = c :: rest) :
    (state.advance tab).eatWhile tab p = state.move tab (1 + (rest.takeWhile p).length) := by
  rw [eatWhile_eq, rest_advance tab h, advance_of_cons tab h, move_move]

end Decoding

end Lexis
