import Lexis.Proofs.Simulation
import Lexis.Proofs.Stepwise.Pulls

/-!
# What is read hangs on the text alone

Lexers with the same text left read the same next, wherever they stand, whatever they have read and however
wide their tabs are; so do the scanners, though all of this goes along in the state that they move on. All that
differs is the places; and where only the tabs differ, the columns. Main statement: `Lexer.read_of_rest`.
-/

namespace Lexis

/-- The same lexeme with the same length, wherever it stands. -/
def Token.SameReading (token other : Token) : Prop :=
  token.toLexeme = other.toLexeme ∧ token.position.len = other.position.len

/-- The same fault with the same length, wherever it stands. -/
def LexError.SameReading (error other : LexError) : Prop :=
  error.fault = other.fault ∧ error.position.len = other.position.len

/-- The same token, up to its column. -/
def Token.SameButCol (token other : Token) : Prop :=
  token.SameReading other ∧ token.position.row = other.position.row

/-- The same error, up to its column. -/
def LexError.SameButCol (error other : LexError) : Prop :=
  error.SameReading other ∧ error.position.row = other.position.row

theorem Place.row_after_congr {p q : Place} (h : p.row = q.row) (tab wide : Nat) (c : Char) :
    (p.after tab c).row = (q.after wide c).row := by
  by_cases hline : c = '\n'
  · subst hline
    simp only [after, if_true, h]
  · rw [after, after, if_neg hline, if_neg hline]
    split <;> exact h

/-- Tabs move no row. -/
theorem Place.row_afterText_congr {p q : Place} (h : p.row = q.row) (tab wide : Nat)
    (text : List Char) : (p.afterText tab text).row = (q.afterText wide text).row := by
  induction text generalizing p q with
  | nil => exact h
  | cons c rest ih => exact ih (row_after_congr h tab wide c)

namespace Reading

theorem sameReading_locate (reading : Reading Lexeme) (place there : Place) :
    Agree Token.SameReading LexError.SameReading (reading.locate place) (reading.locate there) :=
  agree_locate (.refl (fun _ => ⟨rfl, rfl⟩) (fun _ => ⟨rfl, rfl⟩) _)

theorem sameButCol_locate (reading : Reading Lexeme) {place there : Place}
    (h : place.row = there.row) :
    Agree Token.SameButCol LexError.SameButCol (reading.locate place) (reading.locate there) :=
  agree_locate (.refl (fun _ => ⟨⟨rfl, rfl⟩, h⟩) (fun _ => ⟨⟨rfl, rfl⟩, h⟩) _)

end Reading

namespace Lexer

section

variable {first second : Lexer} (h : first.cursor.rest = second.cursor.rest)

include h

theorem sameReading_nextToken :
    Agree Token.SameReading LexError.SameReading first.nextToken.1 second.nextToken.1 := by
  cases hreading : (Upcoming.ofText second.cursor.rest).reading with
  | none =>
    rw [nextToken_of_none hreading, nextToken_of_none (h ▸ hreading)]
    exact .ok ⟨rfl, rfl⟩
  | some reading =>
    rw [nextToken_of_some hreading, nextToken_of_some (h ▸ hreading)]
    exact reading.sameReading_locate _ _

theorem rest_nextToken_congr :
    first.nextToken.2.cursor.rest = second.nextToken.2.cursor.rest := by
  cases hreading : (Upcoming.ofText second.cursor.rest).reading with
  | none =>
    rw [nextToken_of_none hreading, nextToken_of_none (h ▸ hreading), Cursor.rest_skip,
      Cursor.rest_skip, h]
  | some reading =>
    rw [nextToken_of_some hreading, nextToken_of_some (h ▸ hreading), Cursor.rest_skip,
      Cursor.rest_skip, h]

theorem sameButCol_nextToken (hrow : first.cursor.place.row = second.cursor.place.row) :
    Agree Token.SameButCol LexError.SameButCol first.nextToken.1 second.nextToken.1 ∧
    first.nextToken.2.cursor.place.row = second.nextToken.2.cursor.place.row := by
  cases hreading : (Upcoming.ofText second.cursor.rest).reading with
  | none =>
    rw [nextToken_of_none hreading, nextToken_of_none (h ▸ hreading), h]
    refine ⟨.ok ⟨⟨rfl, rfl⟩, ?_⟩, ?_⟩
    · exact Place.row_afterText_congr hrow _ _ _
    · simp only [Cursor.skip, h]
      exact Place.row_afterText_congr hrow _ _ _
  | some reading =>
    rw [nextToken_of_some hreading, nextToken_of_some (h ▸ hreading), h]
    refine ⟨reading.sameButCol_locate (Place.row_afterText_congr hrow _ _ _), ?_⟩
    simp only [Cursor.skip, h]
    exact Place.row_afterText_congr hrow _ _ _

end

/-- Lexers in the same row with the same text left read the same up to columns. -/
theorem tokens_of_rest {first second : Lexer} (hfirst : first.done = false)
    (hsecond : second.done = false) (h : first.cursor.rest = second.cursor.rest)
    (hrow : first.cursor.place.row = second.cursor.place.row) :
    Agree (Tokenwise (fun _ => Token.SameButCol) first.segments) LexError.SameButCol
      first.tokens second.tokens := by
  refine @tokens_agree
    (fun first second => first.cursor.rest = second.cursor.rest ∧
      first.cursor.place.row = second.cursor.place.row)
    (fun _ => Token.SameButCol) LexError.SameButCol ?_ ?_ first second hfirst hsecond ⟨h, hrow⟩
  · intro _ token other hsame
    exact congrArg Lexeme.kind hsame.1.1
  · rintro first second ⟨h, hrow⟩
    obtain ⟨hagree, hrow⟩ := sameButCol_nextToken h hrow
    exact ⟨hagree, rest_nextToken_congr h, hrow⟩

end Lexer

namespace Decoding

section

variable (config other : Config) {state there : Decoding} (h : state.cursor.rest = there.cursor.rest)

include h

/-- A pull asks the state for the text that is left, and for nothing else. -/
theorem sameReading_pull :
    Agree Token.SameReading LexError.SameReading
      (state.pull config.tabSize).1 (there.pull other.tabSize).1 ∧
    (state.pull config.tabSize).2.cursor.rest = (there.pull other.tabSize).2.cursor.rest := by
  obtain ⟨hitem, hcursor⟩ := pull_eq ⟨config, state.cursor, false⟩ state rfl
  obtain ⟨hitem', hcursor'⟩ := pull_eq ⟨other, there.cursor, false⟩ there rfl
  rw [hitem, hitem', hcursor, hcursor']
  exact ⟨Lexer.sameReading_nextToken h, Lexer.rest_nextToken_congr h⟩

theorem rest_pulled_congr (n : Nat) :
    (state.pulled config.tabSize n).cursor.rest = (there.pulled other.tabSize n).cursor.rest := by
  induction n generalizing state there with
  | zero => exact h
  | succ n ih => exact ih (sameReading_pull config other h).2

end

end Decoding

namespace Lexer

/-- Tokens are scanned by a cursor that carries along the row, the column, the tab size, where the token starts, how
many characters it has taken up and what they stand for. From a lexer's cursor, the scanners hand out what the lexer
hands out, pull after pull, whatever the state has kept of earlier tokens. Two states with the same text left hand
out the same lexeme or the same fault, of the same length, pull after pull, wherever they stand, whatever they have
kept and however wide their tabs are, and they leave the same text; so do two lexers. In particular any two tab sizes
read a source into the same tokens, or into the same error, up to columns. -/
theorem read_of_rest :
    (∀ (lexer : Lexer) (state : Decoding) (n : Nat), state.cursor = lexer.cursor →
      let last := state.pulled lexer.config.tabSize n
      last.cursor = (lexer.pulled n).cursor ∧
      (last.pull lexer.config.tabSize).1 = (lexer.pulled n).nextToken.1) ∧
    (∀ (config other : Config) (state there : Decoding) (n : Nat), state.cursor.rest = there.cursor.rest →
      let last := state.pulled config.tabSize n
      let lastThere := there.pulled other.tabSize n
      Agree Token.SameReading LexError.SameReading
        (last.pull config.tabSize).1 (lastThere.pull other.tabSize).1 ∧
      (last.pull config.tabSize).2.cursor.rest = (lastThere.pull other.tabSize).2.cursor.rest) ∧
    (∀ first second : Lexer, first.cursor.rest = second.cursor.rest →
      Agree Token.SameReading LexError.SameReading first.nextToken.1 second.nextToken.1 ∧
      first.nextToken.2.cursor.rest = second.nextToken.2.cursor.rest) ∧
    ∀ (config other : Config) (source : String),
      Agree (List.Forall₂ Token.SameButCol) LexError.SameButCol
        (tokenize config source) (tokenize other source) := by
  refine ⟨?_, ?_, ?_, ?_⟩
  · intro lexer state n hcursor
    exact Decoding.pulled_eq lexer state hcursor n
  · intro config other state there n h
    exact Decoding.sameReading_pull config other (Decoding.rest_pulled_congr config other h n)
  · intro first second h
    exact ⟨sameReading_nextToken h, rest_nextToken_congr h⟩
  · intro config other source
    have hagree := @tokens_of_rest (ofSource config source) (ofSource other source) rfl rfl rfl rfl
    exact hagree.imp (fun _ _ htokens => htokens.forall₂) fun _ _ herror => herror

/-- Behind an error the rest of a source is read from a state that has kept the start, the length and the text of
other tokens as it is read in another row, from a state that has kept nothing, with another tab size. -/
theorem read_of_rest_behind_error :
    let first := (ofSource .standard "\n_ 'a'").pulled 1
    let second := ofSource ⟨8, by decide⟩ " 'a'"
    let used : Decoding := ⟨⟨7, 3⟩, first.cursor, 5, ['x']⟩
    let fresh : Decoding := ⟨.start, second.cursor, 0, []⟩
    first.cursor.rest = second.cursor.rest ∧
    first.nextToken.1 = .ok ⟨⟨.value .string, "a"⟩, ⟨2, 3, 3⟩⟩ ∧
    (used.pull first.config.tabSize).1 = first.nextToken.1 ∧
    Agree Token.SameReading LexError.SameReading
      (used.pull first.config.tabSize).1 (fresh.pull second.config.tabSize).1 ∧
    (used.pull first.config.tabSize).2.cursor.rest = (fresh.pull second.config.tabSize).2.cursor.rest ∧
    Agree Token.SameReading LexError.SameReading first.nextToken.1 second.nextToken.1 ∧
    first.nextToken.2.cursor.rest = second.nextToken.2.cursor.rest := by
  have hrest : ((ofSource .standard "\n_ 'a'").pulled 1).cursor.rest =
      (ofSource ⟨8, by decide⟩ " 'a'").cursor.rest := by cbv
  have hitem : ((ofSource .standard "\n_ 'a'").pulled 1).nextToken.1 =
      .ok ⟨⟨.value .string, "a"⟩, ⟨2, 3, 3⟩⟩ := by cbv
  intro first second used fresh
  obtain ⟨hlexer, hstates, htexts, -⟩ := read_of_rest
  obtain ⟨-, hused⟩ := hlexer first used 0 rfl
  obtain ⟨hagree, hbehind⟩ := hstates first.config second.config used fresh 0 hrest
  exact ⟨hrest, hitem, hused, hagree, hbehind, htexts first second hrest⟩

end Lexer

end Lexis
