import Mathlib
import Lexis.Proofs.Stepwise.Strings

/-!
# Escapes make progress

An attempt at an escape leaves everything as it is where no backslash stands. Where one stands, it moves the cursor
on by one character at least, however far it has looked ahead, and only adds to the text. So the loops that read a
string or a text block turn by turn come to an end, though a turn that resolves an escape does not move by itself:
they end with what the readers read. Main statement: `Decoding.attempt_progress`.
-/

namespace Lexis

open Text

/-- A unicode escape takes up its backslash and its first mark at least. -/
theorem Escape.two_le_length_read {rest : List Char} (h : rest.head? = some 'u') :
    2 ≤ (Escape.read rest).length := by
  obtain ⟨more, rfl⟩ := List.head?_eq_some_iff.1 h
  cases hread : Escape.unicode? more with
  | none => rw [Escape.read_mark hread]
  | some piece =>
    rw [Escape.read_unicode hread]
    exact Nat.le_add_right 2 _

/-- From a state, a loop ends with a reading after a number of turns. -/
inductive Loop (turn : Decoding → Turn) : Nat → Decoding → Reading (List Char) → Prop
  | finish {state last : Decoding} {fault : Option Fault} :
      turn state = .finish fault last → Loop turn 1 state (.ended fault last.text last.length)
  | again {turns : Nat} {state next : Decoding} {reading : Reading (List Char)} :
      turn state = .again next → Loop turn turns next reading → Loop turn (turns + 1) state reading

/-- A loop whose turns follow a reader ends from every state, with what the reader reads. -/
theorem Loop.of_follows {tab : Nat} {turn : Decoding → Turn} {read : List Char → Reading (List Char)}
    (h : ∀ state, Turn.Follows tab (read ·.cursor.rest) state (turn state)) (state : Decoding) :
    ∃ turns ≤ state.cursor.rest.length + 1, Loop turn turns state (state.resume read) := by
  have hfollows := h state
  cases hturn : turn state with
  | finish fault last =>
    rw [hturn] at hfollows
    cases hfollows with
    | @finish _ text n hread =>
      have hended : state.resume read =
          .ended fault ((state.move tab n).push text).text ((state.move tab n).push text).length := by
        rw [Decoding.resume, hread, Reading.cons_ended]
        rfl
      rw [hended]
      exact ⟨1, Nat.le_add_left 1 _, .finish hturn⟩
  | again next =>
    have hshorter := Turn.shortens_of_follows h state next hturn
    rw [hturn] at hfollows
    cases hfollows with
    | @again piece _ _ hread =>
      have hnext : state.resume read = (state.take tab piece).resume read := by
        rw [Decoding.resume, Decoding.resume, hread, Reading.cons_cons]
        rfl
      obtain ⟨turns, hle, hloop⟩ := Loop.of_follows h (state.take tab piece)
      rw [hnext]
      exact ⟨turns + 1, by omega, .again hturn hloop⟩
termination_by state.cursor.rest.length

namespace Decoding

/-- An attempt at an escape tells that there is none and changes nothing where no backslash stands. Where one stands,
the cursor behind the attempt is reached by single moves from where it was, one at least, and two where the letter
`u` follows; so many characters are taken up, the text is only added to, and the token starts where it did. So the
loop over a string and the loop over a text block end from every state, after no more turns than there are
characters left and one, with what the readers read from there. -/
theorem attempt_progress (tab : Nat) (state : Decoding) :
    (state.cursor.rest.head? ≠ some '\\' → state.attempt tab = (false, state)) ∧
    (∀ rest, state.cursor.rest = '\\' :: rest →
      ∃ next moves, state.attempt tab = (true, next) ∧
        1 ≤ moves ∧ (rest.head? = some 'u' → 2 ≤ moves) ∧
        next.cursor = (Cursor.advance tab)^[moves] state.cursor ∧
        next.cursor.rest.length + moves = state.cursor.rest.length ∧
        next.length = state.length + moves ∧ state.text <+: next.text ∧ next.start = state.start) ∧
    (∀ quote, ∃ turns ≤ state.cursor.rest.length + 1,
      Loop (Quoted.turn tab quote) turns state (state.resume (Quoted.read quote))) ∧
    ∃ turns ≤ state.cursor.rest.length + 1,
      Loop (TextBlock.turn tab) turns state (state.resume TextBlock.read) := by
  refine ⟨attempt_of_ne tab, ?_, ?_, ?_⟩
  · intro rest hrest
    have hle := Escape.length_read_le rest
    refine ⟨_, (Escape.read rest).length, attempt_of_backslash tab hrest, Escape.one_le_length_read rest,
      Escape.two_le_length_read, ?_, ?_, rfl, List.prefix_append _ _, rfl⟩
    · exact (Cursor.iterate_advance tab _ state.cursor).symm
    · rw [take, Cursor.rest_skip, List.length_drop, hrest, List.length_cons]
      omega
  · exact fun quote => Loop.of_follows (Quoted.follows_turn tab quote) state
  · exact Loop.of_follows (TextBlock.follows_turn tab) state

/-- A high surrogate and an escape of no surrogate behind it: the attempt has seen all of both, and leads right
behind the first mark. The second escape is resolved in a later turn. -/
theorem attempt_progress_no_pair :
    let state : Decoding := ⟨⟨1, 1⟩, ⟨"\\uD83D\\u00e9'".toList, ⟨1, 2⟩⟩, 1, []⟩
    let next : Decoding := ⟨⟨1, 1⟩, ⟨"D83D\\u00e9'".toList, ⟨1, 4⟩⟩, 3, ['\\', 'u']⟩
    state.attempt 4 = (true, next) ∧ next.cursor = (Cursor.advance 4)^[2] state.cursor ∧
    ∃ turns ≤ 14, Loop (Quoted.turn 4 '\x27') turns state (.found "\\uD83Dé".toList 14) := by
  intro state next
  have hattempt : state.attempt 4 = (true, next) := by
    rw [attempt_eq]
    rfl
  have hread : state.resume (Quoted.read '\x27') = .found "\\uD83Dé".toList 14 := by cbv
  obtain ⟨-, hprogress, hloop, -⟩ := attempt_progress 4 state
  obtain ⟨_, moves, hsame, -, -, hcursor, hmoves, -⟩ := hprogress _ rfl
  rw [hattempt] at hsame
  obtain ⟨-, rfl⟩ := Prod.mk.inj hsame
  have htwo : moves = 2 := Nat.add_left_cancel hmoves
  rw [htwo] at hcursor
  refine ⟨hattempt, hcursor, ?_⟩
  rw [← hread]
  exact hloop '\x27'

end Decoding

end Lexis
