import Lexis.Operator.Munch
import Lexis.Proofs.Lookahead.Front
import Lexis.Proofs.Stepwise.Scans

/-!
# Scanners of operators and comments

An operator is grown one character at a time for as long as the grown text is an operator, and it is looked up again
where it cannot grow further. Two slashes, or a slash and a star, open a comment instead. Main statement:
`Operator.delivers_scan`.
-/

namespace Lexis

open Text

namespace Comment

/-- White space that stands in front of a line, and not behind it. -/
def isIndent (c : Char) : Bool := isBlank c && !isLineEnd c

theorem documentationText_indent {c : Char} (h : isIndent c = true) (rest : List Char) :
    lineRest (c :: rest) = c :: lineRest rest ∧
    documentationText (lineRest (c :: rest)) = lineRest rest := by
  obtain ⟨hblank, hend⟩ := Bool.and_eq_true_iff.1 h
  have hline : lineRest (c :: rest) = c :: lineRest rest := List.takeWhile_cons_of_pos hend
  refine ⟨hline, ?_⟩
  rw [hline]
  exact if_pos hblank

theorem documentationText_verbatim {text : List Char} (h : ¬ text.head?.any isIndent = true) :
    documentationText (lineRest text) = lineRest text := by
  cases text with
  | nil => rfl
  | cons c rest =>
    cases hend : isLineEnd c with
    | true =>
      have hline : lineRest (c :: rest) = [] := List.takeWhile_cons_of_neg (by simp [hend])
      rw [hline]
      rfl
    | false =>
      have hline : lineRest (c :: rest) = c :: lineRest rest := List.takeWhile_cons_of_pos (by simp [hend])
      have hblank : isBlank c = false := by simpa [isIndent, hend] using h
      rw [hline, documentationText, hblank]
      rfl

/-- Scans documentation behind its slashes. One character of white space in front is passed over. -/
def scanDocumentation (tab : Nat) (state : Decoding) : Scan :=
  .copied tab (fun c => !isLineEnd c) (.ofValue .documentation)
    (if state.cursor.rest.head?.any isIndent then state.advance tab else state)

/-- Scans the comment that the two slashes at the cursor open. -/
def scanLine (tab : Nat) (state : Decoding) : Scan :=
  let state := (state.advance tab).advance tab
  if state.cursor.rest.head? = some '/' ∧ state.cursor.rest[1]? ≠ some '/' then
    scanDocumentation tab (state.advance tab)
  else (none, state.eatWhile tab fun c => !isLineEnd c)

theorem delivers_scanDocumentation (tab : Nat) (state : Decoding) (htext : state.text = []) :
    Delivers tab state
      (.found (some (.ofValue .documentation (documentationText (lineRest state.cursor.rest))))
        (lineRest state.cursor.rest).length)
      (scanDocumentation tab state) := by
  rw [scanDocumentation]
  by_cases hindent : state.cursor.rest.head?.any isIndent = true
  · obtain ⟨c, hc, hblank⟩ := (Option.any_eq_true _ _).1 hindent
    obtain ⟨rest, hrest⟩ := List.head?_eq_some_iff.1 hc
    obtain ⟨hline, hdocumentation⟩ := documentationText_indent hblank rest
    have hscan := (Scan.delivers_copied tab (fun c => !isLineEnd c) (.ofValue .documentation)
      (state.move tab 1) htext).shift
    rw [Decoding.rest_move_one tab hrest, Reading.shift_found, Nat.add_comm] at hscan
    rw [if_pos hindent, Decoding.advance_of_cons tab hrest, hrest, hdocumentation, hline]
    exact hscan
  · rw [if_neg hindent, documentationText_verbatim hindent]
    exact Scan.delivers_copied tab (fun c => !isLineEnd c) (.ofValue .documentation) state htext

theorem isDocumentation_iff (text : List Char) :
    isDocumentation text = true ↔ text.head? = some '/' ∧ text[1]? ≠ some '/' := by
  cases text with
  | nil => simp [isDocumentation]
  | cons c rest =>
    by_cases hc : c = '/'
    · subst hc
      simp [isDocumentation_slash, List.head?_eq_getElem?]
    · simp [isDocumentation, hc]

theorem delivers_scanLine (tab : Nat) {c d : Char} {rest : List Char} {state : Decoding}
    (htext : state.text = []) (hrest : state.cursor.rest = c :: d :: rest) :
    Delivers tab state (readLine rest) (scanLine tab state) := by
  have hbehind : (state.move tab 2).cursor.rest = rest := Decoding.rest_move_of_cons tab hrest 1
  rw [scanLine, Decoding.advance_advance tab hrest, hbehind]
  cases hdoc : isDocumentation rest with
  | true =>
    have hmarks := (isDocumentation_iff rest).1 hdoc
    obtain ⟨line, rfl⟩ := List.head?_eq_some_iff.1 hmarks.1
    have hscan := (delivers_scanDocumentation tab ((state.move tab 2).move tab 1) htext).shift.shift
    rw [Decoding.rest_move_one tab hbehind, Reading.shift_shift] at hscan
    rw [readLine_of_isDocumentation hdoc, if_pos hmarks, Decoding.advance_of_cons tab hbehind]
    exact hscan
  | false =>
    have hmarks : ¬ (rest.head? = some '/' ∧ rest[1]? ≠ some '/') := by
      rw [← isDocumentation_iff, hdoc]
      exact Bool.false_ne_true
    rw [readLine_of_not_isDocumentation hdoc, if_neg hmarks, Decoding.eatWhile_eq, hbehind, Decoding.move_move]
    exact .trivia tab _ state

/-! ### Block comments -/

/-- Reads on in a block comment, up to and with the closing mark. -/
def readBody (text : List Char) : Reading (List Char) :=
  match closing? text with
  | some n => .found [] n
  | none => .fault .unterminatedComment text.length

theorem readBlock_eq (text : List Char) :
    readBlock text = ((readBody text).map fun _ => none).shift 2 := by
  rw [readBlock, readBody]
  cases closing? text with
  | some n => rfl
  | none => rfl

theorem readBody_closing (rest : List Char) : readBody ('*' :: '/' :: rest) = .found [] 2 := rfl

theorem readBody_other {c : Char} {rest : List Char} (h : ¬ (c = '*' ∧ rest.head? = some '/')) :
    readBody (c :: rest) = (readBody rest).cons ⟨[], 1⟩ := by
  rw [readBody, readBody, closing?, if_neg h]
  cases closing? rest with
  | some n => exact congrArg (Reading.found _) (Nat.add_comm _ 1)
  | none => exact congrArg (Reading.fault _) (Nat.add_comm _ 1)

/-- A turn of the loop over a block comment. -/
def blockTurn (tab : Nat) (state : Decoding) : Turn :=
  match state.cursor.rest with
  | [] => .finish (some .unterminatedComment) state
  | c :: rest =>
    if c = '*' ∧ rest.head? = some '/' then .finish none ((state.advance tab).advance tab)
    else .again (state.advance tab)

theorem follows_blockTurn (tab : Nat) (state : Decoding) :
    Turn.Follows tab (readBody ·.cursor.rest) state (blockTurn tab state) := by
  cases hrest : state.cursor.rest with
  | nil =>
    simp only [blockTurn, hrest]
    refine Turn.follows_stop tab ?_
    rw [hrest]
    rfl
  | cons c rest =>
    simp only [blockTurn, hrest]
    by_cases hclose : c = '*' ∧ rest.head? = some '/'
    · obtain ⟨more, rfl⟩ := List.head?_eq_some_iff.1 hclose.2
      rw [if_pos hclose, Decoding.advance_advance tab hrest]
      refine Turn.follows_finish tab ?_
      rw [hrest, hclose.1]
      exact readBody_closing more
    · rw [if_neg hclose]
      refine Turn.follows_skip tab hrest ?_
      rw [Decoding.rest_advance tab hrest, hrest, readBody_other hclose]

theorem shortens_blockTurn (tab : Nat) : Turn.Shortens (blockTurn tab) :=
  Turn.shortens_of_follows (follows_blockTurn tab)

/-- Scans the comment that the slash and the star at the cursor open. -/
def scanBlock (tab : Nat) (state : Decoding) : Scan :=
  match Turn.run (blockTurn tab) (shortens_blockTurn tab) ((state.advance tab).advance tab) with
  | (none, last) => (none, last)
  | (some fault, last) => (some (last.error fault), last)

theorem delivers_scanBlock (tab : Nat) {c d : Char} {rest : List Char} {state : Decoding}
    (hrest : state.cursor.rest = c :: d :: rest) :
    Delivers tab state (readBlock rest) (scanBlock tab state) := by
  have hbehind : (state.move tab 2).cursor.rest = rest := Decoding.rest_move_of_cons tab hrest 1
  obtain ⟨fault, text, n, hrun, hread⟩ :=
    Turn.run_eq (follows_blockTurn tab) (shortens_blockTurn tab) (state.move tab 2)
  rw [hbehind] at hread
  rw [scanBlock, Decoding.advance_advance tab hrest, hrun, readBlock_eq, hread]
  refine Delivers.shift ?_
  cases fault with
  | none => exact ⟨rfl, rfl⟩
  | some fault => exact .error tab n _ text fault

end Comment

namespace Operator

/-- What a text can be grown by, one character at a time. -/
def growth (text : List Char) : List Char → List Char
  | [] => []
  | c :: rest =>
    if (ofSpelling? (String.ofList (text ++ [c]))).isSome then c :: growth (text ++ [c]) rest else []

/-- A turn of the loop that grows an operator. -/
def turn (tab : Nat) (state : Decoding) : Turn :=
  match state.cursor.rest with
  | [] => .finish none state
  | c :: _ =>
    if (ofSpelling? (String.ofList (state.text ++ [c]))).isSome then .again ((state.push [c]).advance tab)
    else .finish none state

/-- The growth of the text that a state holds already. -/
def readGrowth (state : Decoding) : Reading (List Char) :=
  .found (growth state.text state.cursor.rest) (growth state.text state.cursor.rest).length

theorem follows_turn (tab : Nat) (state : Decoding) :
    Turn.Follows tab readGrowth state (turn tab state) := by
  cases hrest : state.cursor.rest with
  | nil =>
    simp only [turn, hrest]
    refine Turn.follows_stop tab ?_
    rw [readGrowth, hrest]
    rfl
  | cons c rest =>
    simp only [turn, hrest]
    by_cases hlonger : (ofSpelling? (String.ofList (state.text ++ [c]))).isSome = true
    · rw [if_pos hlonger]
      refine Turn.follows_push tab hrest ?_
      rw [readGrowth, readGrowth, Decoding.rest_take_verbatim tab hrest, hrest, growth, if_pos hlonger,
        List.length_cons, Nat.add_comm]
      rfl
    · rw [if_neg hlonger]
      refine Turn.follows_stop tab ?_
      rw [readGrowth, hrest, growth, if_neg hlonger]
      rfl

theorem shortens_turn (tab : Nat) : Turn.Shortens (turn tab) :=
  Turn.shortens_of_follows (follows_turn tab)

theorem spelling_grow_eq (op : Operator) (text : List Char) :
    (op.grow text).spelling.toList = op.spelling.toList ++ growth op.spelling.toList text := by
  induction text generalizing op with
  | nil => simp [grow, growth]
  | cons c rest ih =>
    have hpush : String.ofList (op.spelling.toList ++ [c]) = op.spelling.push c := by
      rw [← String.toList_push, String.ofList_toList]
    rw [growth, hpush]
    cases hlonger : ofSpelling? (op.spelling.push c) with
    | none => simp [grow_cons_of_none hlonger]
    | some longer =>
      have hspelling : longer.spelling.toList = op.spelling.toList ++ [c] := by
        rw [spelling_of_ofSpelling? hlonger, String.toList_push]
      rw [grow_cons_of_some hlonger, ih, hspelling]
      simp

theorem growth_of_munch? {text : List Char} {op : Operator} (h : munch? text = some op) :
    growth [] text = op.spelling.toList := by
  cases text with
  | nil => cases h
  | cons c rest =>
    obtain ⟨first, hfirst, rfl⟩ := Option.map_eq_some_iff.1 h
    have hspelling : first.spelling.toList = [c] := by
      rw [spelling_of_ofSpelling? hfirst, String.toList_singleton]
    have hsome : (ofSpelling? (String.ofList ([] ++ [c]))).isSome = true := Option.isSome_of_eq_some hfirst
    rw [growth, if_pos hsome, spelling_grow_eq, hspelling]
    rfl

theorem growth_of_munch?_eq_none {text : List Char} (h : munch? text = none) : growth [] text = [] := by
  cases text with
  | nil => rfl
  | cons c rest =>
    have hfirst : ofSpelling? (String.ofList ([] ++ [c])) = none := Option.map_eq_none_iff.1 h
    rw [growth, hfirst, if_neg (by simp)]

/-- Scans the operator at the cursor. -/
def scanLongest (tab : Nat) (state : Decoding) : Scan :=
  let last := (Turn.run (turn tab) (shortens_turn tab) state).2
  match ofSpelling? (String.ofList last.text) with
  | some op => (some (last.token (.ofOperator op)), last)
  | none => (some (last.error (.unknownCharacter (last.cursor.rest.head?.getD '\x00'))), last)

theorem delivers_scanLongest (tab : Nat) {c : Char} {rest : List Char} {state : Decoding}
    (htext : state.text = []) (hrest : state.cursor.rest = c :: rest) :
    Delivers tab state ((read c rest).map some) (scanLongest tab state) := by
  obtain ⟨fault, text, n, hrun, hread⟩ := Turn.run_eq (follows_turn tab) (shortens_turn tab) state
  rw [readGrowth, htext, hrest] at hread
  rw [scanLongest, hrun]
  cases fault with
  | some fault => cases hread
  | none =>
    cases hread
    dsimp only
    rw [Decoding.text_push_move tab _ htext]
    cases hop : munch? (c :: rest) with
    | some op =>
      rw [read_of_munch? hop, growth_of_munch? hop, String.ofList_toList, ofSpelling?_spelling, String.length_toList]
      exact .token tab _ state _ (.ofOperator op)
    | none =>
      have hhead : ((state.move tab 0).push []).cursor.rest.head? = some c := by
        rw [Decoding.push_nil, Decoding.rest_move, List.drop_zero, hrest, List.head?_cons]
      rw [read, hop, growth_of_munch?_eq_none hop, List.length_nil, hhead]
      exact .error tab 0 state [] (.unknownCharacter c)

/-- Scans the operator or the comment at the cursor. -/
def scan (tab : Nat) (state : Decoding) : Scan :=
  if state.cursor.rest.head? = some '/' ∧ state.cursor.rest[1]? = some '/' then Comment.scanLine tab state
  else if state.cursor.rest.head? = some '/' ∧ state.cursor.rest[1]? = some '*' then Comment.scanBlock tab state
  else scanLongest tab state

theorem delivers_scan (tab : Nat) {c : Char} {rest : List Char} {state : Decoding}
    (htext : state.text = []) (hrest : state.cursor.rest = c :: rest) :
    Delivers tab state
      (if c = '/' ∧ rest.head? = some '/' then Comment.readLine (rest.drop 1)
      else if c = '/' ∧ rest.head? = some '*' then Comment.readBlock (rest.drop 1)
      else (read c rest).map some)
      (scan tab state) := by
  have hmarks : ∀ d, state.cursor.rest.head? = some '/' ∧ state.cursor.rest[1]? = some d ↔
      c = '/' ∧ rest.head? = some d := by
    intro d
    rw [Decoding.peek_of_cons hrest, hrest, List.head?_cons, Option.some.injEq]
  simp only [scan, hmarks]
  split
  · rename_i hline
    obtain ⟨more, rfl⟩ := List.head?_eq_some_iff.1 hline.2
    exact Comment.delivers_scanLine tab htext hrest
  split
  · rename_i hblock
    obtain ⟨more, rfl⟩ := List.head?_eq_some_iff.1 hblock.2
    exact Comment.delivers_scanBlock tab hrest
  · exact delivers_scanLongest tab htext hrest

end Operator

end Lexis
