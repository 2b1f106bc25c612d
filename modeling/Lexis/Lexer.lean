import Lexis.Config
import Lexis.Cursor
import Lexis.LexError
import Lexis.Upcoming

/-!
# The lexer

A lexer hands out the tokens of a text one at a time. It can be pulled past errors and past the end
(`nextToken`), or run as an iterator that ends at the first error or at the end of the input (`next`).
A whole text is read at once by `tokenize`. Main statement: a pull that does not reach the end of the
input shortens the text, so both runs end.
-/

namespace Lexis

/-- What a pull hands out. -/
abbrev Item := Except LexError Token

/-- A reading becomes a token or an error once the place where it starts is known. -/
def Reading.locate (reading : Reading Lexeme) (place : Place) : Item :=
  match reading.result with
  | .ok lexeme => .ok ⟨lexeme, place.position reading.length⟩
  | .error fault => .error ⟨fault, place.position reading.length⟩

/-- A lexer: its settings, what is left of the text, and whether the iterator has ended. -/
structure Lexer where
  config : Config
  cursor : Cursor
  done : Bool

namespace Lexer

/-- A lexer at the start of a text. -/
def ofText (config : Config) (text : List Char) : Lexer :=
  ⟨config, .ofText text, false⟩

/-- A lexer at the start of a source. -/
def ofSource (config : Config) (source : String) : Lexer :=
  ofText config source.toList

/-- Pulls the next token or error, and moves behind it. At the end of the text every pull hands out
the end of the input again. -/
def nextToken (lexer : Lexer) : Item × Lexer :=
  let tab := lexer.config.tabSize
  let upcoming := Upcoming.ofText lexer.cursor.rest
  let front := lexer.cursor.skip tab upcoming.gap
  match upcoming.reading with
  | none => (.ok (.endOfInput front.place), ⟨lexer.config, front, lexer.done⟩)
  | some reading =>
    (reading.locate front.place, ⟨lexer.config, front.skip tab reading.length, lexer.done⟩)

/-- Tells whether a pull reached the end of the input. -/
def isEnd : Item → Bool
  | .ok token => token.isEndOfInput
  | .error _ => false

/-- The next item of the iterator. It ends at the end of the input, which is no item, and after the
first error. -/
def next (lexer : Lexer) : Option Item × Lexer :=
  if lexer.done then (none, lexer)
  else
    match lexer.nextToken with
    | (.error error, after) => (some (.error error), ⟨after.config, after.cursor, true⟩)
    | (.ok token, after) =>
      if token.isEndOfInput then (none, ⟨after.config, after.cursor, true⟩)
      else (some (.ok token), after)

/-- An upper bound on the number of items left, where one is known without reading: none are left
once the iterator has ended or the text is used up. -/
def upperBound? (lexer : Lexer) : Option Nat :=
  if lexer.done || lexer.cursor.rest.isEmpty then some 0 else none

/-- A pull that is not the end of the input shortens the text. -/
theorem length_lt_of_nextToken {lexer after : Lexer} {item : Item}
    (h : lexer.nextToken = (item, after)) (hend : ¬ isEnd item) :
    after.cursor.rest.length < lexer.cursor.rest.length := by
  unfold nextToken at h
  dsimp only at h
  split at h
  · simp only [Prod.mk.injEq] at h
    simp [← h.1, isEnd, Token.isEndOfInput, Token.endOfInput] at hend
  · rename_i reading hreading
    obtain ⟨hgap, hlength⟩ := Upcoming.gap_lt_length hreading
    simp only [Prod.mk.injEq] at h
    simp only [← h.2, Cursor.rest_skip, List.length_drop]
    omega

/-- Every pull from here on, errors included, up to and with the end of the input. -/
def steps (lexer : Lexer) : List Item :=
  match h : lexer.nextToken with
  | (item, after) =>
    if hend : isEnd item then [item]
    else
      have := length_lt_of_nextToken h hend
      item :: after.steps
termination_by lexer.cursor.rest.length

/-- A bound on the items that the iterator can still yield. -/
def budget (lexer : Lexer) : Nat :=
  if lexer.done then 0 else lexer.cursor.rest.length + 1

/-- Each item uses up some of the bound. -/
theorem budget_next_lt {lexer after : Lexer} {item : Item} (h : lexer.next = (some item, after)) :
    after.budget < lexer.budget := by
  unfold next at h
  split at h
  · simp at h
  · rename_i hdone
    split at h
    · simp only [Prod.mk.injEq] at h
      simp [← h.2, budget, hdone]
    · rename_i token middle hpull
      split at h
      · simp at h
      · rename_i hend
        simp only [Prod.mk.injEq] at h
        have hlt := length_lt_of_nextToken hpull (by simpa [isEnd] using hend)
        rw [← h.2]
        simp only [budget, hdone]
        split
        · exact Nat.succ_pos _
        · exact Nat.succ_lt_succ hlt

/-- Every item that the iterator still yields, and the lexer behind them. -/
def drain (lexer : Lexer) : List Item × Lexer :=
  match h : lexer.next with
  | (none, after) => ([], after)
  | (some item, after) =>
    have := budget_next_lt h
    let (items, last) := after.drain
    (item :: items, last)
termination_by lexer.budget

/-- All tokens that are left, or the first error. -/
def tokens (lexer : Lexer) : Except LexError (List Token) :=
  lexer.drain.1.mapM id

end Lexer

/-- Reads a whole source: its tokens without the end of the input, or the first error. -/
def tokenize (config : Config) (source : String) : Except LexError (List Token) :=
  (Lexer.ofSource config source).tokens

end Lexis
