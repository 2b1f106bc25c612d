import Lexis.Lexer
import Lexis.Proofs.Readings
import Lexis.Proofs.Stepwise.Moves

/-!
# Scanners

A scanner reads a token by moves of the cursor. It answers with a token or an error, whose position it takes from
where the token starts and from the characters it has counted, or it has passed over trivia. A loop of a scanner is
told by what one turn of it leads to. Main statement: a loop whose turns follow a reader ends behind what the reader
reads, with the text or the fault that the reader finds (`Turn.run_eq`).
-/

namespace Lexis

namespace Reading

/-- What a loop has read when it ends: a text, or a fault. -/
def ended (fault : Option Fault) (text : List Char) (length : Nat) : Reading (List Char) :=
  match fault with
  | none => .found text length
  | some fault => .fault fault length

theorem cons_ended (piece : Piece) (fault : Option Fault) (text : List Char) (n : Nat) :
    (ended fault text n).cons piece = ended fault (piece.text ++ text) (piece.length + n) := by
  cases fault with
  | none => rfl
  | some fault => rfl

/-- What is handed out for a reading at a position. Nothing is handed out for trivia. -/
def deliver (reading : Reading (Option Lexeme)) (position : Position) : Option Item :=
  match reading.result with
  | .ok lexeme => lexeme.map fun lexeme => .ok ⟨lexeme, position⟩
  | .error fault => some (.error ⟨fault, position⟩)

end Reading

/-- What a scanner answers: a token or an error, or neither behind trivia, and the state that it leaves. -/
abbrev Scan := Option Item × Decoding

namespace Decoding

/-- A token starts where the cursor stands. -/
def begin (state : Decoding) : Decoding := ⟨state.cursor.place, state.cursor, 0, []⟩

/-- The token that ends at the cursor. -/
def token (state : Decoding) (lexeme : Lexeme) : Item :=
  .ok ⟨lexeme, state.start.position state.length⟩

/-- The error of a token that breaks off at the cursor. -/
def error (state : Decoding) (fault : Fault) : Item :=
  .error ⟨fault, state.start.position state.length⟩

end Decoding

/-- A scanner that starts in a state answers with a reading: what it hands out has the start of the token and all the
characters counted so far, and it leaves the cursor behind the reading. -/
structure Delivers (tab : Nat) (state : Decoding) (reading : Reading (Option Lexeme)) (scan : Scan) :
    Prop where
  item : scan.1 = reading.deliver (state.start.position (state.length + reading.length))
  cursor : scan.2.cursor = state.cursor.skip tab reading.length

namespace Delivers

section

variable (tab n : Nat) (state : Decoding) (text : List Char)

theorem token (lexeme : Lexeme) :
    Delivers tab state (.found (some lexeme) n)
      (some (((state.move tab n).push text).token lexeme), (state.move tab n).push text) :=
  ⟨rfl, rfl⟩

theorem error (fault : Fault) :
    Delivers tab state (.fault fault n)
      (some (((state.move tab n).push text).error fault), (state.move tab n).push text) :=
  ⟨rfl, rfl⟩

theorem trivia : Delivers tab state (.found none n) (none, state.move tab n) := ⟨rfl, rfl⟩

end

/-- The characters that a scanner has moved over before it reads on belong to the token. -/
theorem shift {tab n : Nat} {state : Decoding} {reading : Reading (Option Lexeme)} {scan : Scan}
    (h : Delivers tab (state.move tab n) reading scan) : Delivers tab state (reading.shift n) scan where
  item := by
    rw [h.item, Decoding.move, Nat.add_assoc]
    rfl
  cursor := by
    rw [h.cursor, Decoding.move, Cursor.skip_skip]
    rfl

end Delivers

/-! ### Loops -/

/-- What a turn of a loop leads to: the state where the next turn starts, or the state where the loop ends, and the
fault that ends it if there is one. -/
inductive Turn where
  | again (next : Decoding)
  | finish (fault : Option Fault) (last : Decoding)

namespace Turn

/-- A turn follows a reader: it takes up a piece of at least one character that the reader reads too, or it ends the
loop where the reader ends. -/
inductive Follows (tab : Nat) (read : Decoding → Reading (List Char)) (state : Decoding) : Turn → Prop
  | again {piece : Piece} : 1 ≤ piece.length → piece.length ≤ state.cursor.rest.length →
      read state = (read (state.take tab piece)).cons piece →
      Follows tab read state (.again (state.take tab piece))
  | finish {fault : Option Fault} {text : List Char} {n : Nat} : read state = .ended fault text n →
      Follows tab read state (.finish fault ((state.move tab n).push text))

section

variable (tab : Nat) {read : Decoding → Reading (List Char)} {state : Decoding}

/-- A turn that takes up a character as it is follows every reader that reads this character as it is. -/
theorem follows_push {c : Char} {rest : List Char} (hrest : state.cursor.rest = c :: rest)
    (hread : read state = (read (state.take tab (.verbatim c))).cons (.verbatim c)) :
    Follows tab read state (.again ((state.push [c]).advance tab)) := by
  rw [Decoding.advance_push tab hrest [c]]
  refine .again (Nat.le_refl 1) ?_ hread
  rw [hrest]
  exact Nat.le_add_left 1 _

/-- A turn that passes over a character follows every reader that drops this character. -/
theorem follows_skip {c : Char} {rest : List Char} (hrest : state.cursor.rest = c :: rest)
    (hread : read state = (read (state.advance tab)).cons ⟨[], 1⟩) :
    Follows tab read state (.again (state.advance tab)) := by
  have hskip : state.advance tab = state.take tab ⟨[], 1⟩ := by
    rw [Decoding.advance_of_cons tab hrest, Decoding.take_eq, Decoding.push_nil]
  rw [hskip] at hread ⊢
  refine .again (Nat.le_refl 1) ?_ hread
  rw [hrest]
  exact Nat.le_add_left 1 _

/-- A turn that ends the loop without adding to the text follows every reader that ends there. -/
theorem follows_finish {fault : Option Fault} {n : Nat} (hread : read state = .ended fault [] n) :
    Follows tab read state (.finish fault (state.move tab n)) := by
  have hfinish : Follows tab read state (.finish fault ((state.move tab n).push [])) := .finish hread
  rwa [Decoding.push_nil] at hfinish

theorem follows_stop {fault : Option Fault} (hread : read state = .ended fault [] 0) :
    Follows tab read state (.finish fault state) :=
  follows_finish tab hread

theorem follows_close {fault : Option Fault} {c : Char} {rest : List Char}
    (hrest : state.cursor.rest = c :: rest) (hread : read state = .ended fault [] 1) :
    Follows tab read state (.finish fault (state.advance tab)) := by
  rw [Decoding.advance_of_cons tab hrest]
  exact follows_finish tab hread

end

/-- A turn shortens the text, unless it ends the loop. -/
def Shortens (turn : Decoding → Turn) : Prop :=
  ∀ state next, turn state = .again next → next.cursor.rest.length < state.cursor.rest.length

/-- Runs a loop from a state to its end. -/
def run (turn : Decoding → Turn) (hturn : Shortens turn) (state : Decoding) : Option Fault × Decoding :=
  match h : turn state with
  | .again next =>
    have := hturn state next h
    run turn hturn next
  | .finish fault last => (fault, last)
termination_by state.cursor.rest.length

theorem run_of_again {turn : Decoding → Turn} {hturn : Shortens turn} {state next : Decoding}
    (h : turn state = .again next) : run turn hturn state = run turn hturn next := by
  rw [run]
  split
  · rename_i hagain
    rw [h] at hagain
    cases hagain
    rfl
  · rename_i hfinish
    rw [h] at hfinish
    cases hfinish

theorem run_of_finish {turn : Decoding → Turn} {hturn : Shortens turn} {state last : Decoding}
    {fault : Option Fault} (h : turn state = .finish fault last) :
    run turn hturn state = (fault, last) := by
  rw [run]
  split
  · rename_i hagain
    rw [h] at hagain
    cases hagain
  · rename_i hfinish
    rw [h] at hfinish
    cases hfinish
    rfl

section

variable {tab : Nat} {read : Decoding → Reading (List Char)} {turn : Decoding → Turn}
  (h : ∀ state, Follows tab read state (turn state))

include h

theorem shortens_of_follows : Shortens turn := by
  intro state next hnext
  have hfollows := h state
  rw [hnext] at hfollows
  cases hfollows with
  | again hone hle _ =>
    rw [Decoding.take, Cursor.rest_skip, List.length_drop]
    omega

/-- A loop whose turns follow a reader takes up what the reader reads and ends as it does. -/
theorem run_eq (hturn : Shortens turn) (state : Decoding) :
    ∃ fault text n, run turn hturn state = (fault, (state.move tab n).push text) ∧
      read state = .ended fault text n := by
  have hfollows := h state
  cases hstate : turn state with
  | again next =>
    have hshorter := hturn state next hstate
    obtain ⟨fault, text, n, hrun, hread⟩ := run_eq hturn next
    rw [hstate] at hfollows
    cases hfollows with
    | @again piece _ _ hpiece =>
      refine ⟨fault, piece.text ++ text, piece.length + n, ?_, ?_⟩
      · rw [run_of_again hstate, hrun, ← Decoding.take_eq tab ⟨text, n⟩, Decoding.take_take]
        rfl
      · rw [hpiece, hread, Reading.cons_ended]
  | finish fault last =>
    rw [hstate] at hfollows
    cases hfollows with
    | finish hread => exact ⟨fault, _, _, run_of_finish hstate, hread⟩
termination_by state.cursor.rest.length

end

/-! ### Copies -/

/-- A turn of a loop that copies the characters of a class. -/
def copy (tab : Nat) (p : Char → Bool) (state : Decoding) : Turn :=
  match state.cursor.rest with
  | [] => .finish none state
  | c :: _ => if p c then .again ((state.push [c]).advance tab) else .finish none state

/-- The longest run of a class, as a reading. -/
def readRun (p : Char → Bool) (text : List Char) : Reading (List Char) :=
  .found (text.takeWhile p) (text.takeWhile p).length

theorem follows_copy (tab : Nat) (p : Char → Bool) (state : Decoding) :
    Follows tab (readRun p ·.cursor.rest) state (copy tab p state) := by
  cases hrest : state.cursor.rest with
  | nil =>
    rw [copy, hrest]
    refine follows_stop tab ?_
    rw [hrest]
    rfl
  | cons c rest =>
    simp only [copy, hrest]
    cases hc : p c with
    | true =>
      rw [if_pos rfl]
      refine follows_push tab hrest ?_
      rw [Decoding.rest_take_verbatim tab hrest, hrest, readRun, readRun, List.takeWhile_cons_of_pos hc,
        List.length_cons, Nat.add_comm]
      rfl
    | false =>
      rw [if_neg Bool.false_ne_true]
      refine follows_stop tab ?_
      rw [hrest, readRun, List.takeWhile_cons_of_neg (by simp [hc])]
      rfl

theorem shortens_copy (tab : Nat) (p : Char → Bool) : Shortens (copy tab p) :=
  shortens_of_follows (follows_copy tab p)

end Turn

namespace Scan

/-- Hands out the token that a loop has read, or the error that has ended the loop. -/
def close (lexeme : List Char → Lexeme) : Option Fault × Decoding → Scan
  | (none, last) => (some (last.token (lexeme last.text)), last)
  | (some fault, last) => (some (last.error fault), last)

/-- A loop that starts without a text hands out what the reader finds. -/
theorem delivers_close {tab : Nat} {read : Decoding → Reading (List Char)} {turn : Decoding → Turn}
    (h : ∀ state, Turn.Follows tab read state (turn state)) (hturn : Turn.Shortens turn)
    (lexeme : List Char → Lexeme) (state : Decoding) (htext : state.text = []) :
    Delivers tab state ((read state).map fun text => some (lexeme text))
      (close lexeme (Turn.run turn hturn state)) := by
  obtain ⟨fault, text, n, hrun, hread⟩ := Turn.run_eq h hturn state
  rw [hrun, hread]
  cases fault with
  | none =>
    rw [close, Decoding.text_push_move tab n htext]
    exact .token tab n state text (lexeme text)
  | some fault => exact .error tab n state text fault

/-- A loop that starts behind the character at the cursor hands out what is read behind it. -/
theorem delivers_close_behind {tab : Nat} {read : List Char → Reading (List Char)} {turn : Decoding → Turn}
    (h : ∀ state, Turn.Follows tab (read ·.cursor.rest) state (turn state)) (hturn : Turn.Shortens turn)
    (lexeme : List Char → Lexeme) {state : Decoding} (htext : state.text = []) {c : Char} {rest : List Char}
    (hrest : state.cursor.rest = c :: rest) :
    Delivers tab state (((read rest).map fun text => some (lexeme text)).shift 1)
      (close lexeme (Turn.run turn hturn (state.advance tab))) := by
  have hscan := (delivers_close h hturn lexeme (state.move tab 1) htext).shift
  rw [Decoding.rest_move_one tab hrest] at hscan
  rwa [Decoding.advance_of_cons tab hrest]

/-- Scans the longest run of a class. -/
def copied (tab : Nat) (p : Char → Bool) (lexeme : List Char → Lexeme) (state : Decoding) : Scan :=
  close lexeme (Turn.run (Turn.copy tab p) (Turn.shortens_copy tab p) state)

theorem delivers_copied (tab : Nat) (p : Char → Bool) (lexeme : List Char → Lexeme) (state : Decoding)
    (htext : state.text = []) :
    Delivers tab state
      (.found (some (lexeme (state.cursor.rest.takeWhile p))) (state.cursor.rest.takeWhile p).length)
      (copied tab p lexeme state) :=
  delivers_close (Turn.follows_copy tab p) (Turn.shortens_copy tab p) lexeme state htext

end Scan

end Lexis
