import Lexis.Proofs.Stepwise.Strings
import Lexis.Word

/-!
# Scanners of words

A word is copied character by character, and so is what stands behind a number sign or between backticks. Main
statements: `Word.delivers_scan`, `Word.delivers_scanMarked` and `Word.delivers_scanExtended`.
-/

namespace Lexis.Word

open Text

/-- Scans the keyword or the identifier at the cursor. -/
def scan (tab : Nat) (state : Decoding) : Scan := .copied tab isPart classify state

theorem delivers_scan (tab : Nat) (state : Decoding) (htext : state.text = []) :
    Delivers tab state ((read state.cursor.rest).map some) (scan tab state) :=
  Scan.delivers_copied tab isPart classify state htext

/-- Scans what the number sign at the cursor opens. -/
def scanMarked (tab : Nat) (state : Decoding) : Scan :=
  let state := state.advance tab
  match state.cursor.rest with
  | [] => (some (state.error .invalidAtomStart), state)
  | c :: _ =>
    if Quoted.isQuote c then Quoted.scanRaw tab c state
    else if c.isAlpha then .copied tab isPart (.ofValue .atom) state
    else (some (state.error .invalidAtomStart), state)

theorem delivers_scanMarked (tab : Nat) {mark : Char} {rest : List Char} {state : Decoding}
    (htext : state.text = []) (hrest : state.cursor.rest = mark :: rest) :
    Delivers tab state ((readMarked rest).map some) (scanMarked tab state) := by
  have hnext := Decoding.rest_move_one tab hrest
  have hbroken : Delivers tab state (.fault .invalidAtomStart 1)
      (some ((state.move tab 1).error .invalidAtomStart), state.move tab 1) := by
    have herror := Delivers.error tab 1 state [] .invalidAtomStart
    rwa [Decoding.push_nil] at herror
  rw [scanMarked, Decoding.advance_of_cons tab hrest, hnext]
  cases rest with
  | nil => exact hbroken
  | cons c rest =>
    rw [readMarked]
    by_cases hquote : Quoted.isQuote c = true
    · have hraw := (Quoted.delivers_scanRaw tab (state.move tab 1) htext hnext).shift
      rw [Reading.shift_shift] at hraw
      rw [if_pos hquote, Reading.map_shift, Reading.map_map]
      dsimp only
      rw [if_pos hquote]
      exact hraw
    by_cases hletter : c.isAlpha = true
    · have hword := (Scan.delivers_copied tab isPart (.ofValue .atom) (state.move tab 1) htext).shift
      rw [hnext] at hword
      rw [if_neg hquote, if_pos hletter]
      dsimp only
      rw [if_neg hquote, if_pos hletter]
      exact hword
    · rw [if_neg hquote, if_neg hletter]
      dsimp only
      rw [if_neg hquote, if_neg hletter]
      exact hbroken

/-! ### Backticks -/

/-- Reads on between backticks, up to and with the closing one. -/
def readTicked (text : List Char) : Reading (List Char) :=
  let word := text.takeWhile fun c => c != '\x60' && !isLineEnd c
  match text.drop word.length with
  | [] => .fault (.unterminatedExtendedIdentifier .fileEnd) word.length
  | c :: _ =>
    if c = '\x60' then .found word (word.length + 1)
    else .fault (.unterminatedExtendedIdentifier .lineEnd) word.length

theorem readExtended_eq (text : List Char) :
    readExtended text = ((readTicked text).map (.ofValue .ident)).shift 1 := by
  rw [readExtended, readTicked]
  generalize (text.takeWhile fun c => c != '\x60' && !isLineEnd c) = word
  cases text.drop word.length with
  | nil => rfl
  | cons c behind =>
    by_cases hc : c = '\x60'
    · simp only [if_pos hc]
      rw [Reading.map_found, Reading.shift_found, Nat.add_assoc]
    · simp only [if_neg hc]
      rfl

theorem readTicked_stop {c : Char} (h : c = '\x60' ∨ isLineEnd c = true) (rest : List Char) :
    readTicked (c :: rest) =
      if c = '\x60' then .found [] 1 else .fault (.unterminatedExtendedIdentifier .lineEnd) 0 := by
  have hword : ((c :: rest).takeWhile fun d => d != '\x60' && !isLineEnd d) = [] := by
    refine List.takeWhile_cons_of_neg ?_
    rcases h with rfl | h
    · decide
    · simp [h]
  rw [readTicked, hword]
  rfl

theorem readTicked_verbatim {c : Char} (htick : c ≠ '\x60') (hend : ¬ isLineEnd c = true) (rest : List Char) :
    readTicked (c :: rest) = (readTicked rest).cons (.verbatim c) := by
  have hword : ((c :: rest).takeWhile fun d => d != '\x60' && !isLineEnd d) =
      c :: rest.takeWhile fun d => d != '\x60' && !isLineEnd d :=
    List.takeWhile_cons_of_pos (by simp [htick, hend])
  rw [readTicked, readTicked, hword, List.length_cons, List.drop_succ_cons]
  generalize (rest.takeWhile fun d => d != '\x60' && !isLineEnd d) = word
  cases rest.drop word.length with
  | nil => exact congrArg (Reading.fault _) (Nat.add_comm _ 1)
  | cons d behind =>
    by_cases hd : d = '\x60'
    · simp only [if_pos hd]
      exact congrArg (Reading.found _) (Nat.add_comm _ 1)
    · simp only [if_neg hd]
      exact congrArg (Reading.fault _) (Nat.add_comm _ 1)

/-- A turn of the loop between backticks. -/
def tickedTurn (tab : Nat) (state : Decoding) : Turn :=
  match state.cursor.rest with
  | [] => .finish (some (.unterminatedExtendedIdentifier .fileEnd)) state
  | c :: _ =>
    if c = '\x60' then .finish none (state.advance tab)
    else if isLineEnd c then .finish (some (.unterminatedExtendedIdentifier .lineEnd)) state
    else .again ((state.push [c]).advance tab)

theorem follows_tickedTurn (tab : Nat) (state : Decoding) :
    Turn.Follows tab (readTicked ·.cursor.rest) state (tickedTurn tab state) := by
  cases hrest : state.cursor.rest with
  | nil =>
    simp only [tickedTurn, hrest]
    refine Turn.follows_stop tab ?_
    rw [hrest]
    rfl
  | cons c rest =>
    simp only [tickedTurn, hrest]
    by_cases htick : c = '\x60'
    · rw [if_pos htick]
      refine Turn.follows_close tab hrest ?_
      rw [hrest, readTicked_stop (.inl htick), if_pos htick]
      rfl
    rw [if_neg htick]
    by_cases hend : isLineEnd c = true
    · rw [if_pos hend]
      refine Turn.follows_stop tab ?_
      rw [hrest, readTicked_stop (.inr hend), if_neg htick]
      rfl
    · rw [if_neg hend]
      refine Turn.follows_push tab hrest ?_
      rw [Decoding.rest_take_verbatim tab hrest, hrest, readTicked_verbatim htick hend]

theorem shortens_tickedTurn (tab : Nat) : Turn.Shortens (tickedTurn tab) :=
  Turn.shortens_of_follows (follows_tickedTurn tab)

/-- Scans the identifier that the backtick at the cursor opens. -/
def scanExtended (tab : Nat) (state : Decoding) : Scan :=
  .close (.ofValue .ident) (Turn.run (tickedTurn tab) (shortens_tickedTurn tab) (state.advance tab))

theorem delivers_scanExtended (tab : Nat) {tick : Char} {rest : List Char} {state : Decoding}
    (htext : state.text = []) (hrest : state.cursor.rest = tick :: rest) :
    Delivers tab state ((readExtended rest).map some) (scanExtended tab state) := by
  rw [readExtended_eq, Reading.map_shift, Reading.map_map]
  exact Scan.delivers_close_behind (follows_tickedTurn tab) (shortens_tickedTurn tab) (.ofValue .ident)
    htext hrest

end Lexis.Word
