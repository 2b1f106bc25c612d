import Lexis.Proofs.Places
import Lexis.Proofs.Stepwise.Numbers
import Lexis.Proofs.Stepwise.Operators
import Lexis.Proofs.Stepwise.Words

/-!
# Pulls

A pull starts a token at the cursor and hands the cursor to the scanner that the next characters name, as often as
this passes over trivia. All that a token or an error tells of its position is what the cursor has counted on the way.
Main statement: a pull hands out what the lexer hands out, whatever the state has been used for before
(`Decoding.pull_eq`).
-/

namespace Lexis

open Text

namespace Front

/-- Scans what the characters at the cursor name; the first of them is given. -/
def scan (tab : Nat) (c : Char) (state : Decoding) : Scan :=
  if c.isDigit then Number.scan tab state
  else if c.isAlpha then Word.scan tab state
  else if c = '#' then Word.scanMarked tab state
  else if c = '\x60' then Word.scanExtended tab state
  else if Quoted.isQuote c then Quoted.scan tab c state
  else if c = '\\' ∧ state.cursor.rest[1]? = some '\\' then TextBlock.scan tab state
  else if Operator.isStarter c then Operator.scan tab state
  else if isBlank c then (none, state.advance tab)
  else (some ((state.advance tab).error (.unknownCharacter c)), state.advance tab)

theorem delivers_scan (tab : Nat) {c : Char} {rest : List Char} (state : Decoding) (htext : state.text = [])
    (hrest : state.cursor.rest = c :: rest) : Delivers tab state (read c rest) (scan tab c state) := by
  rw [read, scan, Decoding.peek_of_cons hrest]
  by_cases hdigit : c.isDigit = true
  · rw [if_pos hdigit, if_pos hdigit, ← hrest]
    exact Number.delivers_scan tab htext
  rw [if_neg hdigit, if_neg hdigit]
  by_cases hletter : c.isAlpha = true
  · rw [if_pos hletter, if_pos hletter, ← hrest]
    exact Word.delivers_scan tab state htext
  rw [if_neg hletter, if_neg hletter]
  by_cases hmark : c = '#'
  · rw [if_pos hmark, if_pos hmark]
    exact Word.delivers_scanMarked tab htext hrest
  rw [if_neg hmark, if_neg hmark]
  by_cases htick : c = '\x60'
  · rw [if_pos htick, if_pos htick]
    exact Word.delivers_scanExtended tab htext hrest
  rw [if_neg htick, if_neg htick]
  by_cases hquote : Quoted.isQuote c = true
  · rw [if_pos hquote, if_pos hquote]
    exact Quoted.delivers_scan tab state htext hrest
  rw [if_neg hquote, if_neg hquote]
  by_cases hblock : c = '\\' ∧ rest.head? = some '\\'
  · obtain ⟨more, rfl⟩ := List.head?_eq_some_iff.1 hblock.2
    rw [if_pos hblock, if_pos hblock]
    exact TextBlock.delivers_scan tab htext hrest
  rw [if_neg hblock, if_neg hblock]
  cases hstarter : Operator.isStarter c with
  | true => exact Operator.delivers_scan tab htext hrest
  | false =>
    have hslash : c ≠ '/' := by
      rintro rfl
      cases hstarter
    rw [if_neg fun h => hslash h.1, if_neg fun h => hslash h.1, if_neg Bool.false_ne_true,
      Decoding.advance_of_cons tab hrest]
    cases hblank : isBlank c with
    | true => exact .trivia tab 1 state
    | false =>
      have herror := Delivers.error tab 1 state [] (.unknownCharacter c)
      rw [Decoding.push_nil] at herror
      exact herror

end Front

namespace Decoding

section

variable {tab : Nat} {c : Char} {rest : List Char} {state next : Decoding} {item : Option Item}
  (hrest : state.cursor.rest = c :: rest) (hscan : Front.scan tab c state.begin = (item, next))

include hrest hscan

/-- A scanner hands out what is read at the cursor, from the place where the cursor stands. -/
theorem item_of_scan :
    item = (Front.read c rest).deliver (state.cursor.place.position (Front.read c rest).length) := by
  have hdelivers := Front.delivers_scan tab state.begin rfl hrest
  rw [hscan] at hdelivers
  have hitem := hdelivers.item
  rwa [begin, Nat.zero_add] at hitem

theorem cursor_of_scan : next.cursor = state.cursor.skip tab (Front.read c rest).length := by
  have hdelivers := Front.delivers_scan tab state.begin rfl hrest
  rw [hscan] at hdelivers
  exact hdelivers.cursor

theorem length_lt_of_scan : next.cursor.rest.length < state.cursor.rest.length := by
  have hone := Front.one_le_length_read c rest
  rw [cursor_of_scan hrest hscan, Cursor.rest_skip, List.length_drop, hrest, List.length_cons]
  omega

end

/-- Pulls the next token or error: a token begins at the cursor, and one more behind trivia. -/
def pull (tab : Nat) (state : Decoding) : Item × Decoding :=
  match hrest : state.cursor.rest with
  | [] => (.ok (.endOfInput state.cursor.place), state.begin)
  | c :: _ =>
    match hscan : Front.scan tab c state.begin with
    | (some item, last) => (item, last)
    | (none, next) =>
      have := length_lt_of_scan hrest hscan
      next.pull tab
termination_by state.cursor.rest.length

theorem pull_of_nil (tab : Nat) {state : Decoding} (h : state.cursor.rest = []) :
    state.pull tab = (.ok (.endOfInput state.cursor.place), state.begin) := by
  rw [pull]
  split
  · rfl
  · rename_i hcons
    rw [h] at hcons
    cases hcons

section

variable {tab : Nat} {c : Char} {rest : List Char} {state next : Decoding}
  (hrest : state.cursor.rest = c :: rest)

include hrest

theorem pull_of_item {item : Item} (hscan : Front.scan tab c state.begin = (some item, next)) :
    state.pull tab = (item, next) := by
  rw [pull]
  split
  · rename_i hnil
    rw [hrest] at hnil
    cases hnil
  · rename_i hcons
    rw [hrest] at hcons
    cases hcons
    split
    · rename_i hitem
      rw [hscan] at hitem
      cases hitem
      rfl
    · rename_i htrivia
      rw [hscan] at htrivia
      cases htrivia

theorem pull_of_trivia (hscan : Front.scan tab c state.begin = (none, next)) :
    state.pull tab = next.pull tab := by
  rw [pull]
  split
  · rename_i hnil
    rw [hrest] at hnil
    cases hnil
  · rename_i hcons
    rw [hrest] at hcons
    cases hcons
    split
    · rename_i hitem
      rw [hscan] at hitem
      cases hitem
    · rename_i htrivia
      rw [hscan] at htrivia
      cases htrivia
      rfl

end

/-- A pull hands out what the lexer hands out and leaves its cursor, whatever has been read before. -/
theorem pull_eq (lexer : Lexer) (state : Decoding) (hcursor : state.cursor = lexer.cursor) :
    (state.pull lexer.config.tabSize).1 = lexer.nextToken.1 ∧
    (state.pull lexer.config.tabSize).2.cursor = lexer.nextToken.2.cursor := by
  cases hrest : state.cursor.rest with
  | nil =>
    rw [pull_of_nil _ hrest, Lexer.nextToken_of_rest_nil (hcursor ▸ hrest), hcursor]
    exact ⟨rfl, hcursor⟩
  | cons c rest =>
    cases hscan : Front.scan lexer.config.tabSize c state.begin with
    | mk item next =>
      have hitem := item_of_scan hrest hscan
      have hnext := cursor_of_scan hrest hscan
      have hshorter := length_lt_of_scan hrest hscan
      have hlexer : lexer.cursor.rest = c :: rest := hcursor ▸ hrest
      have htoken : ∀ reading : Reading Lexeme, Front.read c rest = reading.map some →
          item = some (reading.locate state.cursor.place) →
          (state.pull lexer.config.tabSize).1 = lexer.nextToken.1 ∧
          (state.pull lexer.config.tabSize).2.cursor = lexer.nextToken.2.cursor := by
        rintro reading hread rfl
        rw [hread, Reading.length_map] at hnext
        rw [pull_of_item hrest hscan, Lexer.nextToken_of_front hlexer hread, ← hcursor]
        exact ⟨rfl, hnext⟩
      cases hread : Front.read c rest with
      | mk result n =>
        rw [hread] at hitem hnext
        cases result with
        | error fault => exact htoken (.fault fault n) hread hitem
        | ok lexeme? =>
          cases lexeme? with
          | some lexeme => exact htoken (.found lexeme n) hread hitem
          | none =>
            subst hitem
            have hbehind := pull_eq (lexer.skip n) next (hnext.trans (hcursor ▸ rfl))
            rw [pull_of_trivia hrest hscan, Lexer.nextToken_of_skipped hlexer hread]
            exact hbehind
termination_by state.cursor.rest.length

/-- The state after a number of pulls. What an earlier token has left in it stays. -/
def pulled (tab : Nat) (state : Decoding) : Nat → Decoding
  | 0 => state
  | n + 1 => (state.pull tab).2.pulled tab n

/-- Pulled again and again, past errors too, a state keeps to the lexer that starts where it stands. -/
theorem pulled_eq (lexer : Lexer) (state : Decoding) (hcursor : state.cursor = lexer.cursor) (n : Nat) :
    (state.pulled lexer.config.tabSize n).cursor = (lexer.pulled n).cursor ∧
    ((state.pulled lexer.config.tabSize n).pull lexer.config.tabSize).1 = (lexer.pulled n).nextToken.1 := by
  induction n generalizing lexer state with
  | zero => exact ⟨hcursor, (pull_eq lexer state hcursor).1⟩
  | succ n ih =>
    have hnext := ih lexer.nextToken.2 _ (pull_eq lexer state hcursor).2
    rwa [lexer.covers.config] at hnext

end Decoding

end Lexis
