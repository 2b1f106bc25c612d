import Lexis.Proofs.Segments

/-!
# Unknown characters

Every character that a token can start with has a reader, and no reader takes a front for an unknown character.
So a character is reported as unknown exactly where it stands behind trivia and neither a token nor trivia starts
with it. The fault of the operator reader, which would take up nothing, is never met, since the characters that
lead to this reader are operators themselves. Main statement: `Lexer.nextToken_unknown`.
-/

namespace Lexis

open Text

/-- The characters that neither a token nor trivia starts with. -/
def IsUnknown (c : Char) : Prop :=
  c.isAlphanum = false ∧ c ∉ ['#', '\x60', '\x22', '\x27'] ∧ c ∉ Operator.starters.toList ∧
    isBlank c = false

/-- A reading that is no fault of an unknown character. -/
def Reading.Known {α : Type} (reading : Reading α) : Prop :=
  ∀ c, reading.result ≠ .error (.unknownCharacter c)

namespace Reading.Known

variable {α β : Type}

theorem found (value : α) (n : Nat) : (Reading.found value n).Known := by
  rintro c ⟨⟩

theorem fault {f : Fault} (h : ∀ c, f ≠ .unknownCharacter c) (n : Nat) :
    (Reading.fault f n : Reading α).Known := by
  rintro c ⟨⟩
  exact h c rfl

theorem map {reading : Reading α} (h : reading.Known) (f : α → β) : (reading.map f).Known := by
  obtain ⟨result, n⟩ := reading
  intro c hc
  cases result with
  | error fault =>
    cases hc
    exact h c rfl
  | ok value => cases hc

theorem shift {reading : Reading α} (h : reading.Known) (n : Nat) : (reading.shift n).Known := h

theorem cons {reading : Reading (List Char)} (h : reading.Known) (piece : Piece) :
    (reading.cons piece).Known := (h.map _).shift _

end Reading.Known

/-! ### The readers -/

theorem Radix.known_read (radix : Radix) (text : List Char) : (radix.read text).Known := by
  unfold read
  dsimp only
  split
  · apply Reading.Known.fault
    cases radix <;> simp [fault]
  · exact .found _ _

namespace Decimal

theorem known_readExponent (text : List Char) : (readExponent text).Known := by
  unfold readExponent
  dsimp only
  split
  · exact .fault (by simp) _
  · exact .found _ _

theorem known_readParts (fraction exponent : Bool) (text : List Char) :
    (readParts fraction exponent text).Known := by
  fun_induction readParts fraction exponent text with
  | case1 => exact .found _ _
  | case2 => exact .found _ _
  | case3 => exact .fault (by simp) _
  | case4 _ _ _ _ _ _ ih => exact ih.cons _
  | case5 => exact .fault (by simp) _
  | case6 _ _ _ rest _ _ _ fault _ hexponent =>
    apply Reading.Known.fault
    rintro c rfl
    exact known_readExponent rest c (by rw [hexponent])
  | case7 _ _ _ _ _ _ _ _ _ _ ih => exact ih.cons _
  | case8 => exact .fault (by simp) _
  | case9 => exact .found _ _

end Decimal

theorem Number.known_read (text : List Char) : (read text).Known := by
  unfold read
  split
  · exact (Radix.known_read _ _).shift 2
  · exact ((Decimal.known_readParts _ _ _).map _).shift _

namespace Quoted

theorem known_read (quote : Char) (text : List Char) : (read quote text).Known := by
  fun_induction read quote text with
  | case1 => exact .fault (by simp) _
  | case2 _ _ ih => exact ih.cons _
  | case3 => exact .found _ _
  | case4 _ _ _ _ ih => exact ih.cons _

theorem known_readRaw (quote : Char) (text : List Char) : (readRaw quote text).Known := by
  unfold readRaw
  dsimp only
  split
  · exact .found _ _
  · exact .fault (by simp) _

end Quoted

theorem TextBlock.known_read (text : List Char) : (read text).Known := by
  fun_induction read text with
  | case1 => exact .found _ _
  | case2 _ _ ih => exact ih.cons _
  | case3 _ _ _ _ _ ih => exact ih.cons _
  | case4 => exact .fault (by simp) _
  | case5 => exact .found _ _
  | case6 _ _ _ _ ih => exact ih.cons _

namespace Word

theorem known_readMarked (text : List Char) : (readMarked text).Known := by
  unfold readMarked
  split
  · exact .fault (by simp) _
  · split
    · exact ((Quoted.known_readRaw _ _).map _).shift 2
    · split
      · exact .found _ _
      · exact .fault (by simp) _

theorem known_readExtended (text : List Char) : (readExtended text).Known := by
  unfold readExtended
  dsimp only
  split
  · exact .fault (by simp) _
  · split
    · exact .found _ _
    · exact .fault (by simp) _

end Word

namespace Comment

theorem known_readLine (text : List Char) : (readLine text).Known := by
  unfold readLine
  split
  · exact .found _ _
  · exact .found _ _

theorem known_readBlock (text : List Char) : (readBlock text).Known := by
  unfold readBlock
  split
  · exact .found _ _
  · exact .fault (by simp) _

end Comment

namespace Operator

/-- The operator reader is only asked where it finds an operator. -/
theorem known_read {c : Char} (h : isStarter c = true) (rest : List Char) : (read c rest).Known := by
  obtain ⟨op, -, hread⟩ := read_of_isStarter h rest
  rw [hread]
  exact .found _ _

/-- The characters that lead to the operator reader are the kinds of operators that are spelled with one
character. -/
theorem isStarter_iff_kind {c : Char} :
    isStarter c = true ↔
      ∃ kind ∈ Kind.all, kind.family = .operator ∧ kind.spelling? = some (String.singleton c) := by
  rw [← isSome_ofSpelling?_singleton, Option.isSome_iff_exists]
  constructor
  · rintro ⟨op, hop⟩
    refine ⟨.operator op, ?_, rfl, congrArg some (spelling_of_ofSpelling? hop)⟩
    simp [Kind.all, mem_all]
  · rintro ⟨kind, -, hfamily, hspelling⟩
    cases kind with
    | operator op => exact ⟨op, Option.some.inj hspelling ▸ ofSpelling?_spelling op⟩
    | value => cases hfamily
    | keyword => cases hfamily
    | endOfInput => cases hfamily

end Operator

/-! ### The front of a text -/

namespace Front

variable {c : Char}

theorem isUnknown_iff :
    IsUnknown c ↔ isOpener c = false ∧ Operator.isStarter c = false ∧ isBlank c = false := by
  have hstarter : c ∉ Operator.starters.toList ↔ Operator.isStarter c = false := by
    rw [Operator.isStarter, ← Bool.not_eq_true, List.contains_iff_mem]
  simp only [IsUnknown, hstarter, isOpener, Quoted.isQuote, Char.isAlphanum, List.mem_cons,
    List.not_mem_nil, or_false, not_or, Bool.or_eq_false_iff, beq_eq_false_iff_ne, ne_eq]
  tauto

theorem read_unknown (h : IsUnknown c) (rest : List Char) :
    read c rest = .fault (.unknownCharacter c) 1 := by
  obtain ⟨hopener, hstarter, hblank⟩ := isUnknown_iff.1 h
  have hback : c ≠ '\\' := (ne_of_class (p := Operator.isStarter) (by decide) hstarter).symm
  have hslash : c ≠ '/' := (ne_of_class (p := Operator.isStarter) (by decide) hstarter).symm
  rw [read_other hopener (by simp [isPairOpener, hback, hslash]), Operator.munch?_eq_none hstarter]
  exact if_neg (by simp [hblank])

/-- Only the first character of a front is ever reported as unknown. -/
theorem isUnknown_of_read {d : Char} {rest : List Char}
    (h : (read c rest).result = .error (.unknownCharacter d)) : d = c ∧ IsUnknown c := by
  revert h
  fun_cases read c rest with
  | case1 => exact fun h => absurd h ((Number.known_read _).map _ d)
  | case2 => exact fun h => absurd h ((Reading.Known.found _ _).map _ d)
  | case3 => exact fun h => absurd h ((Word.known_readMarked _).map _ d)
  | case4 => exact fun h => absurd h ((Word.known_readExtended _).map _ d)
  | case5 => exact fun h => absurd h (((Quoted.known_read _ _).map _).shift _ d)
  | case6 => exact fun h => absurd h (((TextBlock.known_read _).map _).shift _ d)
  | case7 => exact fun h => absurd h (Comment.known_readLine _ d)
  | case8 => exact fun h => absurd h (Comment.known_readBlock _ d)
  | case9 _ _ _ _ _ _ _ _ hstarter =>
    exact fun h => absurd h ((Operator.known_read hstarter rest).map _ d)
  | case10 => exact fun h => absurd h (Reading.Known.found _ _ d)
  | case11 hdigit halpha hmark htick hquote _ _ _ hblank hstarter =>
    rintro ⟨⟩
    refine ⟨rfl, isUnknown_iff.2 ⟨?_, hstarter, hblank⟩⟩
    simp [isOpener, hdigit, halpha, hmark, htick, hquote]

end Front

/-! ### Pulls -/

namespace Lexer

variable {lexer : Lexer}

/-- An error that a pull hands out is the fault that was read. -/
theorem fault_of_nextToken {error : LexError} (h : lexer.nextToken.1 = .error error) :
    ∃ reading, (Upcoming.ofText lexer.cursor.rest).reading = some reading ∧
      reading.result = .error error.fault := by
  obtain ⟨reading, hreading⟩ := @reading_of_not_isEnd lexer (by rw [h]; rfl)
  refine ⟨reading, hreading, ?_⟩
  rw [nextToken_of_some hreading, Reading.locate] at h
  cases hresult : reading.result with
  | error fault =>
    rw [hresult] at h
    cases h
    rfl
  | ok lexeme =>
    rw [hresult] at h
    cases h

/-- An error takes up at least one character. -/
theorem one_le_len_of_error {error : LexError} (h : lexer.nextToken.1 = .error error) :
    1 ≤ error.position.len := by
  have hcovers := lexer.covers
  have hspan : lexer.segment.span ≠ [] := by
    intro hnil
    have hend := hcovers.span.1 hnil
    rw [item_segment, h] at hend
    cases hend
  have hlen := congrArg Position.len hcovers.position
  rw [item_segment, h] at hlen
  have hmin : error.position.len = min ceiling lexer.segment.span.length := hlen
  rw [hmin]
  exact Nat.le_min.2 ⟨by decide, List.length_pos_iff.2 hspan⟩

theorem isUnknown_of_nextToken {c : Char} {position : Position}
    (h : lexer.nextToken.1 = .error ⟨.unknownCharacter c, position⟩) :
    ∃ gap rest, lexer.cursor.rest = gap ++ c :: rest ∧ Trivia gap (c :: rest) ∧ IsUnknown c := by
  obtain ⟨reading, hreading, hresult⟩ := fault_of_nextToken h
  obtain ⟨d, rest, hdrop, hread⟩ := Upcoming.front_of_reading hreading
  have hfault : (Front.read d rest).result = .error (.unknownCharacter c) := by
    rw [hread, Reading.map, hresult]
    rfl
  obtain ⟨rfl, hunknown⟩ := Front.isUnknown_of_read hfault
  have htrivia := Upcoming.trivia_gap lexer.cursor.rest
  rw [hdrop] at htrivia
  refine ⟨_, rest, ?_, htrivia, hunknown⟩
  rw [← hdrop, List.take_append_drop]

theorem nextToken_of_isUnknown {gap rest : List Char} {c : Char}
    (hrest : lexer.cursor.rest = gap ++ c :: rest) (htrivia : Trivia gap (c :: rest))
    (h : IsUnknown c) :
    let place := lexer.cursor.place.afterText lexer.config.tabSize gap
    lexer.nextToken =
      (.error ⟨.unknownCharacter c, ⟨place.row, place.col, 1⟩⟩, lexer.skip (gap.length + 1)) ∧
    (lexer.skip (gap.length + 1)).cursor.rest = rest := by
  intro place
  have hbehind := skip_of_append hrest
  have hfront : (lexer.skip gap.length).cursor.rest = c :: rest := rest_skip_of_append hrest
  have hskip : (lexer.skip gap.length).skip 1 = lexer.skip (gap.length + 1) := by
    simp only [skip, Cursor.skip_skip]
  refine ⟨?_, ?_⟩
  · rw [nextToken_of_trivia hrest htrivia,
      nextToken_of_fault hfront (Front.read_unknown h rest) (by decide), hskip, hbehind]
  · rw [← hskip]
    exact @rest_skip_of_length _ [c] rest 1 hfront rfl

/-- Whatever state a lexer is in, a pull reports a character as unknown exactly if it is the first one behind the
trivia in front of it, and neither a letter, a digit, a number sign, a backtick, a quote, a character that an
operator can start with, nor white space. The error then takes up this one character. The characters that lead to
the operator reader are the operators of one character, so that it always finds an operator there, and no error
takes up nothing: each pull that hands out one shortens the text. -/
theorem nextToken_unknown (lexer : Lexer) :
    (∀ c, (∃ position, lexer.nextToken.1 = .error ⟨.unknownCharacter c, position⟩) ↔
      ∃ gap rest, lexer.cursor.rest = gap ++ c :: rest ∧ Trivia gap (c :: rest) ∧ IsUnknown c) ∧
    (∀ gap c rest, lexer.cursor.rest = gap ++ c :: rest → Trivia gap (c :: rest) → IsUnknown c →
      let place := lexer.cursor.place.afterText lexer.config.tabSize gap
      lexer.nextToken =
        (.error ⟨.unknownCharacter c, ⟨place.row, place.col, 1⟩⟩, lexer.skip (gap.length + 1)) ∧
      (lexer.skip (gap.length + 1)).cursor.rest = rest) ∧
    (∀ c, Operator.isStarter c = true ↔
      ∃ kind ∈ Kind.all, kind.family = .operator ∧ kind.spelling? = some (String.singleton c)) ∧
    (∀ c rest, Operator.isStarter c = true →
      ∃ op, Operator.read c rest = .found (.ofOperator op) op.spelling.length) ∧
    (∀ error, lexer.nextToken.1 = .error error →
      1 ≤ error.position.len ∧
      lexer.nextToken.2.cursor.rest.length < lexer.cursor.rest.length) := by
  refine ⟨?_, ?_, fun _ => Operator.isStarter_iff_kind, ?_, ?_⟩
  · intro c
    constructor
    · rintro ⟨position, h⟩
      exact isUnknown_of_nextToken h
    · rintro ⟨gap, rest, hrest, htrivia, hunknown⟩
      obtain ⟨hnext, -⟩ := nextToken_of_isUnknown hrest htrivia hunknown
      exact ⟨_, congrArg Prod.fst hnext⟩
  · intro gap c rest
    exact nextToken_of_isUnknown
  · intro c rest hstarter
    obtain ⟨op, -, hread⟩ := Operator.read_of_isStarter hstarter rest
    exact ⟨op, hread⟩
  · intro error h
    have hend : ¬ isEnd lexer.nextToken.1 = true := by
      rw [h]
      exact Bool.false_ne_true
    exact ⟨one_le_len_of_error h, length_lt_of_nextToken rfl hend⟩

/-- A letter of another script is unknown behind a comment that does not nest. -/
theorem nextToken_unknown_letter :
    let lexer := ofSource .standard "/*/**/é*/"
    Trivia "/*/**/".toList ('é' :: "*/".toList) ∧ IsUnknown 'é' ∧
    lexer.nextToken =
      (.error ⟨.unknownCharacter 'é', ⟨1, 7, 1⟩⟩, ⟨.standard, ⟨['*', '/'], ⟨1, 8⟩⟩, false⟩) := by
  intro lexer
  have hclosed : Comment.IsClosed "/**/".toList := ⟨by decide, by decide⟩
  have htrivia : Trivia "/*/**/".toList ('é' :: "*/".toList) := .block hclosed .nil
  have hunknown : IsUnknown 'é' := ⟨by decide, by decide, by decide, by decide⟩
  obtain ⟨-, hall, -⟩ := nextToken_unknown lexer
  obtain ⟨hnext, -⟩ := hall _ 'é' _ rfl htrivia hunknown
  refine ⟨htrivia, hunknown, ?_⟩
  rw [hnext]
  rfl

end Lexer

end Lexis
