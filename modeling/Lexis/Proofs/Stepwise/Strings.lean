import Lexis.Proofs.Escape.Stepwise
import Lexis.Proofs.Stepwise.Scans

/-!
# Scanners of strings

A string in quotes, a verbatim string and a text block are read turn by turn: a turn attempts an escape, where there
can be one, and otherwise looks at one character. Main statements: `Quoted.delivers_scan`, `Quoted.delivers_scanRaw`
and `TextBlock.delivers_scan`.
-/

namespace Lexis

open Text

/-- A turn that resolves an escape follows every reader that reads escapes. -/
theorem Turn.follows_escape {read : List Char → Reading (List Char)}
    (hread : ∀ rest, read ('\\' :: rest) =
      (read (rest.drop ((Escape.read rest).length - 1))).cons (Escape.read rest))
    (tab : Nat) {state : Decoding} {rest : List Char} (hrest : state.cursor.rest = '\\' :: rest) :
    Turn.Follows tab (read ·.cursor.rest) state (.again (state.take tab (Escape.read rest))) := by
  refine .again (Escape.one_le_length_read rest) ?_ ?_
  · rw [hrest]
    exact Escape.length_read_le rest
  · rw [Decoding.take, Cursor.rest_skip, hrest, hread, Escape.drop_cons_read]

namespace Quoted

theorem readRaw_nil (quote : Char) : readRaw quote [] = .fault .unterminatedString 0 := rfl

theorem readRaw_close (quote : Char) (rest : List Char) : readRaw quote (quote :: rest) = .found [] 1 := by
  rw [readRaw, List.takeWhile_cons_of_neg (by simp)]
  rfl

theorem readRaw_verbatim {quote c : Char} (h : c ≠ quote) (rest : List Char) :
    readRaw quote (c :: rest) = (readRaw quote rest).cons (.verbatim c) := by
  rw [readRaw, readRaw, List.takeWhile_cons_of_pos (by simpa using h)]
  simp only [List.length_cons, Nat.add_lt_add_iff_right]
  split
  · exact congrArg (Reading.found _) (Nat.add_comm _ 1)
  · exact congrArg (Reading.fault _) (Nat.add_comm _ 1)

/-- A turn of the loop over a verbatim string: it looks at one character. -/
def rawTurn (tab : Nat) (quote : Char) (state : Decoding) : Turn :=
  match state.cursor.rest with
  | [] => .finish (some .unterminatedString) state
  | c :: _ =>
    if c = quote then .finish none (state.advance tab)
    else .again ((state.push [c]).advance tab)

/-- A turn of the loop over a string: it attempts an escape, and where there is none it looks at one character. -/
def turn (tab : Nat) (quote : Char) (state : Decoding) : Turn :=
  match state.attempt tab with
  | (true, next) => .again next
  | (false, state) => rawTurn tab quote state

theorem follows_rawTurn (tab : Nat) (quote : Char) (state : Decoding) :
    Turn.Follows tab (readRaw quote ·.cursor.rest) state (rawTurn tab quote state) := by
  cases hrest : state.cursor.rest with
  | nil =>
    rw [rawTurn, hrest]
    refine Turn.follows_stop tab ?_
    rw [hrest]
    exact readRaw_nil quote
  | cons c rest =>
    simp only [rawTurn, hrest]
    by_cases hclose : c = quote
    · subst hclose
      rw [if_pos rfl]
      refine Turn.follows_close tab hrest ?_
      rw [hrest]
      exact readRaw_close c rest
    · rw [if_neg hclose]
      refine Turn.follows_push tab hrest ?_
      rw [Decoding.rest_take_verbatim tab hrest, hrest, readRaw_verbatim hclose]

theorem follows_turn (tab : Nat) (quote : Char) (state : Decoding) :
    Turn.Follows tab (read quote ·.cursor.rest) state (turn tab quote state) := by
  cases hrest : state.cursor.rest with
  | nil =>
    rw [turn, Decoding.attempt_of_ne tab (by simp [hrest])]
    simp only [rawTurn, hrest]
    refine Turn.follows_stop tab ?_
    rw [hrest, read]
    rfl
  | cons c rest =>
    by_cases hback : c = '\\'
    · subst hback
      rw [turn, Decoding.attempt_of_backslash tab hrest]
      exact Turn.follows_escape (read_escape quote) tab hrest
    · rw [turn, Decoding.attempt_of_ne tab (by simp [hrest, hback])]
      simp only [rawTurn, hrest]
      by_cases hclose : c = quote
      · subst hclose
        rw [if_pos rfl]
        refine Turn.follows_close tab hrest ?_
        rw [hrest]
        exact read_close hback rest
      · rw [if_neg hclose]
        refine Turn.follows_push tab hrest ?_
        rw [Decoding.rest_take_verbatim tab hrest, hrest, read_verbatim hback hclose]

theorem shortens_turn (tab : Nat) (quote : Char) : Turn.Shortens (turn tab quote) :=
  Turn.shortens_of_follows (follows_turn tab quote)

theorem shortens_rawTurn (tab : Nat) (quote : Char) : Turn.Shortens (rawTurn tab quote) :=
  Turn.shortens_of_follows (follows_rawTurn tab quote)

/-- Scans the string that the quote at the cursor opens. -/
def scan (tab : Nat) (quote : Char) (state : Decoding) : Scan :=
  .close (.ofValue .string) (Turn.run (turn tab quote) (shortens_turn tab quote) (state.advance tab))

/-- Scans the verbatim string that the quote at the cursor opens. -/
def scanRaw (tab : Nat) (quote : Char) (state : Decoding) : Scan :=
  .close (.ofValue .string) (Turn.run (rawTurn tab quote) (shortens_rawTurn tab quote) (state.advance tab))

section

variable (tab : Nat) {quote : Char} {rest : List Char} (state : Decoding) (htext : state.text = [])
  (hrest : state.cursor.rest = quote :: rest)

include htext hrest

theorem delivers_scan :
    Delivers tab state (((read quote rest).map fun text => some (.ofValue .string text)).shift 1)
      (scan tab quote state) :=
  Scan.delivers_close_behind (follows_turn tab quote) (shortens_turn tab quote) (.ofValue .string) htext hrest

theorem delivers_scanRaw :
    Delivers tab state (((readRaw quote rest).map fun text => some (.ofValue .string text)).shift 1)
      (scanRaw tab quote state) :=
  Scan.delivers_close_behind (follows_rawTurn tab quote) (shortens_rawTurn tab quote) (.ofValue .string)
    htext hrest

end

end Quoted

namespace TextBlock

/-- A turn at a line break: behind white space and two backslashes the block goes on, and in front of anything else it
ends or breaks off. -/
def lineTurn (tab : Nat) (state : Decoding) : Turn :=
  let line := (state.advance tab).eatWhile tab isBlank
  if line.cursor.rest.head? ≠ some '\\' then .finish none line
  else
    let line := line.advance tab
    if line.cursor.rest.head? ≠ some '\\' then .finish (some .malformedTextBlock) line
    else .again ((line.advance tab).push ['\n'])

/-- A turn of the loop over a text block: it attempts an escape, and where there is none it looks at one character,
which may be a line break. -/
def turn (tab : Nat) (state : Decoding) : Turn :=
  match state.attempt tab with
  | (true, next) => .again next
  | (false, state) =>
    match state.cursor.rest with
    | [] => .finish none state
    | c :: _ =>
      if c = '\n' then lineTurn tab state
      else .again ((state.push [c]).advance tab)

/-- What a line break leads to follows the reader, be it one more line, a fault or the end of the block. -/
theorem follows_line (tab : Nat) {state : Decoding} {rest : List Char}
    (hrest : state.cursor.rest = '\n' :: rest) :
    Turn.Follows tab (read ·.cursor.rest) state (lineTurn tab state) := by
  have hindent : ∀ c ∈ rest.takeWhile isBlank, isBlank c = true := fun c => List.mem_takeWhile_imp
  have hstop := stop_of_takeWhile isBlank rest
  have hsplit := List.take_append_drop (rest.takeWhile isBlank).length rest
  have hline := Decoding.rest_move_of_cons tab hrest (rest.takeWhile isBlank).length
  rw [take_length_takeWhile] at hsplit
  unfold lineTurn
  rw [Decoding.eatWhile_advance tab isBlank hrest]
  dsimp only
  generalize rest.takeWhile isBlank = indent at *
  generalize rest.drop indent.length = line at *
  subst hsplit
  by_cases hfirst : line.head? = some '\\'
  · obtain ⟨behind, rfl⟩ := List.head?_eq_some_iff.1 hfirst
    rw [hline, if_neg (not_not.2 hfirst), Decoding.rest_advance tab hline, Decoding.advance_of_cons tab hline,
      Decoding.move_move]
    by_cases hsecond : behind.head? = some '\\'
    · obtain ⟨more, rfl⟩ := List.head?_eq_some_iff.1 hsecond
      have hnext : (state.move tab (1 + indent.length + 1)).cursor.rest = '\\' :: more := by
        rw [← Decoding.move_move, Decoding.rest_move, hline]
        rfl
      have hbehind : (state.take tab ⟨['\n'], 1 + indent.length + 2⟩).cursor.rest = more := by
        rw [Decoding.take, Cursor.rest_skip, ← List.drop_drop, ← Decoding.rest_move tab, hline]
        rfl
      have hnewline : (state.move tab (1 + indent.length + 1 + 1)).push ['\n'] =
          state.take tab ⟨['\n'], 1 + indent.length + 2⟩ := rfl
      have hlength : state.cursor.rest.length = 1 + indent.length + 2 + more.length := by
        simp only [hrest, List.length_cons, List.length_append]
        omega
      rw [if_neg (not_not.2 hsecond), Decoding.advance_of_cons tab hnext, Decoding.move_move, hnewline]
      refine .again ?_ ?_ ?_
      · exact Nat.le_add_left 1 _
      · rw [hlength]
        exact Nat.le_add_right _ _
      · rw [hbehind, hrest, read_line_more hindent]
    · rw [if_pos hsecond]
      refine Turn.follows_finish tab ?_
      rw [hrest, read_line_fault hindent hsecond]
      rfl
  · rw [hline, if_pos hfirst]
    refine Turn.follows_finish tab ?_
    rw [hrest]
    cases line with
    | nil =>
      rw [List.append_nil, read_line_nil hindent]
      rfl
    | cons c line =>
      have hback : c ≠ '\\' := by
        rintro rfl
        exact hfirst rfl
      rw [read_line_end hindent (hstop c rfl) hback]
      rfl

theorem follows_turn (tab : Nat) (state : Decoding) :
    Turn.Follows tab (read ·.cursor.rest) state (turn tab state) := by
  cases hrest : state.cursor.rest with
  | nil =>
    rw [turn, Decoding.attempt_of_ne tab (by simp [hrest])]
    simp only [hrest]
    refine Turn.follows_stop tab ?_
    rw [hrest, read]
    rfl
  | cons c rest =>
    by_cases hback : c = '\\'
    · subst hback
      rw [turn, Decoding.attempt_of_backslash tab hrest]
      exact Turn.follows_escape read_escape tab hrest
    · rw [turn, Decoding.attempt_of_ne tab (by simp [hrest, hback])]
      simp only [hrest]
      by_cases hline : c = '\n'
      · subst hline
        exact follows_line tab hrest
      · rw [if_neg hline]
        refine Turn.follows_push tab hrest ?_
        rw [Decoding.rest_take_verbatim tab hrest, hrest, read_verbatim hback hline]

theorem shortens_turn (tab : Nat) : Turn.Shortens (turn tab) :=
  Turn.shortens_of_follows (follows_turn tab)

/-- Scans the text block that the two backslashes at the cursor open. -/
def scan (tab : Nat) (state : Decoding) : Scan :=
  .close (.ofValue .string) (Turn.run (turn tab) (shortens_turn tab) ((state.advance tab).advance tab))

theorem delivers_scan (tab : Nat) {c d : Char} {rest : List Char} {state : Decoding} (htext : state.text = [])
    (hrest : state.cursor.rest = c :: d :: rest) :
    Delivers tab state (((read rest).map fun text => some (.ofValue .string text)).shift 2)
      (scan tab state) := by
  have hscan := Scan.delivers_close (follows_turn tab) (shortens_turn tab) (.ofValue .string)
    (state.move tab 2) htext
  rw [Decoding.rest_move_of_cons tab hrest 1] at hscan
  rw [scan, Decoding.advance_advance tab hrest]
  exact hscan.shift

end TextBlock

end Lexis
