import Lexis.Proofs.Floats

/-!
# What can be relied on in a token

Whoever takes the tokens of a run, also of one with errors, can rely on the form of their texts: numbers hold
digits of their radix without separators, names the characters of their class, keywords and operators their
spelling. A word ends where no further character of a word follows, and it is an identifier only where it is
not reserved. Main statement: `Lexer.reliable_of_segments`.
-/

namespace Lexis

open Text

namespace Word

/-- A word: a letter, and letters, digits and underscores behind it. -/
def IsWord (text : List Char) : Prop :=
  ∃ c rest, text = c :: rest ∧ c.isAlpha = true ∧ ∀ d ∈ rest, isPart d = true

/-- A text that is empty or starts with a character that no word goes on with. -/
def Stops (text : List Char) : Prop := ∀ c ∈ text.head?, isPart c = false

/-- A word by itself: it is its span, it is not reserved, and it ends where no word goes on. -/
structure Unquoted (text : String) (span after : List Char) : Prop where
  isWord : IsWord text.toList
  eq_span : text.toList = span
  not_reserved : ∀ word : Keyword, word.spelling ≠ text
  stops : Stops after

/-- Only the spelling of a keyword is found among the keywords. -/
theorem spelling_ne_of_ofSpelling? {text : String} (h : Keyword.ofSpelling? text = none) (word : Keyword) :
    word.spelling ≠ text := by
  rintro rfl
  rw [Keyword.ofSpelling?_spelling] at h
  cases h

theorem isWord_run {c : Char} (hc : c.isAlpha = true) (rest : List Char) : IsWord (run (c :: rest)) :=
  ⟨c, run rest, run_cons hc rest, hc, fun _ hd => isPart_of_mem_run hd⟩

theorem stops_run (text : List Char) : Stops (text.drop (run text).length) :=
  stop_of_takeWhile isPart text

end Word

/-- How a lexeme that is read from `span` is told from what follows: a word ends where no word goes on, and an
identifier without backticks is a word by itself. -/
def Lexeme.Delimited (lexeme : Lexeme) (span after : List Char) : Prop :=
  match lexeme.kind with
  | .keyword _ | .value .atom => Word.Stops after
  | .value .ident => span.head? ≠ some '\x60' → Word.Unquoted lexeme.text span after
  | _ => True

/-- What can be relied on in a token that is read from `span`, with `after` behind it. -/
def Token.Reliable (token : Token) (span after : List Char) : Prop :=
  match token.kind with
  | .keyword word => token.text = word.spelling ∧ Word.Stops after
  | .operator op => token.text = op.spelling ∧ Operator.isReachable op.spelling = true
  | .value .intDec => IsRun Char.isDigit token.text.toList
  | .value .intHex => IsRun Radix.hex.isDigit token.text.toList
  | .value .intOct => IsRun Radix.oct.isDigit token.text.toList
  | .value .intBin => IsRun Radix.bin.isDigit token.text.toList
  | .value .float => Decimal.IsPlain token.text.toList
  | .value .atom => Word.IsWord token.text.toList ∧ Word.Stops after
  | .value .ident => (∀ c ∈ token.text.toList, c ≠ '\x60' ∧ isLineEnd c = false) ∧
      (span.head? ≠ some '\x60' → Word.Unquoted token.text span after)
  | .value .string => True
  | .value .documentation => ∀ c ∈ token.text.toList, isLineEnd c = false
  | .endOfInput => False

/-- The form of the text and the end of the span make a token reliable. -/
theorem Token.Reliable.of_wellFormed {token : Token} {span after : List Char}
    (hwell : token.toLexeme.WellFormed) (hdelimited : token.toLexeme.Delimited span after) :
    token.Reliable span after := by
  unfold Lexeme.WellFormed at hwell
  unfold Lexeme.Delimited at hdelimited
  unfold Reliable
  cases hkind : token.kind with
  | keyword word =>
    rw [hkind] at hwell hdelimited
    exact ⟨hwell, hdelimited⟩
  | operator op =>
    rw [hkind] at hwell
    exact hwell
  | endOfInput =>
    rw [hkind] at hwell
    exact hwell
  | value kind =>
    rw [hkind] at hwell hdelimited
    cases kind with
    | intDec => exact hwell
    | intHex => exact hwell
    | intOct => exact hwell
    | intBin => exact hwell
    | float => exact Decimal.isPlain_of_admits hwell
    | ident => exact ⟨hwell, hdelimited⟩
    | atom => exact ⟨hwell, hdelimited⟩
    | string => trivial
    | documentation => exact hwell

namespace Lexeme

/-- Only words have to end where no word goes on. -/
theorem delimited_ofValue {kind : ValueKind} (hident : kind ≠ .ident) (hatom : kind ≠ .atom)
    (text span after : List Char) : (ofValue kind text).Delimited span after := by
  cases kind with
  | ident => exact absurd rfl hident
  | atom => exact absurd rfl hatom
  | _ => trivial

end Lexeme

theorem Number.delimited_read {text : List Char} {lexeme : Lexeme}
    (h : (read text).result = .ok lexeme) (span after : List Char) : lexeme.Delimited span after := by
  unfold read at h
  split at h
  · rename_i radix _
    unfold Radix.read at h
    dsimp only at h
    split at h
    · cases h
    · cases h
      exact Lexeme.delimited_ofValue (by cases radix <;> decide) (by cases radix <;> decide) _ _ _
  · obtain ⟨part, -, rfl⟩ := Reading.result_map h
    split
    · exact Lexeme.delimited_ofValue (by decide) (by decide) _ _ _
    · exact Lexeme.delimited_ofValue (by decide) (by decide) _ _ _

namespace Word

theorem delimited_classify {c : Char} (hc : c.isAlpha = true) (rest : List Char) :
    (classify (run (c :: rest))).Delimited ((c :: rest).take (run (c :: rest)).length)
      ((c :: rest).drop (run (c :: rest)).length) := by
  have hspan : (c :: rest).take (run (c :: rest)).length = run (c :: rest) :=
    take_length_takeWhile isPart (c :: rest)
  rw [hspan]
  unfold classify
  cases hword : Keyword.ofSpelling? (String.ofList (run (c :: rest))) with
  | some keyword => exact stops_run (c :: rest)
  | none =>
    intro _
    have htext : (String.ofList (run (c :: rest))).toList = run (c :: rest) := String.toList_ofList
    exact {
      isWord := htext.symm ▸ isWord_run hc rest
      eq_span := htext
      not_reserved := spelling_ne_of_ofSpelling? hword
      stops := stops_run (c :: rest) }

theorem delimited_readMarked {text : List Char} {lexeme : Lexeme}
    (h : (readMarked text).result = .ok lexeme) :
    lexeme.Delimited (('#' :: text).take (readMarked text).length)
      (('#' :: text).drop (readMarked text).length) := by
  unfold readMarked at h ⊢
  split at h
  · cases h
  · rename_i c rest
    split at h
    · obtain ⟨content, -, rfl⟩ := Reading.result_map h
      exact Lexeme.delimited_ofValue (by decide) (by decide) _ _ _
    · rename_i hquote
      split at h
      · rename_i halpha
        cases h
        rw [if_neg hquote, if_pos halpha, Reading.length_found, Nat.add_comm]
        exact stops_run (c :: rest)
      · cases h

/-- An identifier between backticks may be any word, and anything may follow it. -/
theorem delimited_readExtended {text : List Char} {lexeme : Lexeme}
    (h : (readExtended text).result = .ok lexeme) (span after : List Char) :
    lexeme.Delimited ('\x60' :: span) after := by
  unfold readExtended at h
  dsimp only at h
  split at h
  · cases h
  · split at h
    · cases h
      exact fun hne => absurd rfl hne
    · cases h

end Word

theorem Comment.delimited_readLine {text : List Char} {lexeme : Lexeme}
    (h : (readLine text).result = .ok (some lexeme)) (span after : List Char) :
    lexeme.Delimited span after := by
  unfold readLine at h
  split at h
  · cases h
    exact Lexeme.delimited_ofValue (by decide) (by decide) _ _ _
  · cases h

/-- A lexeme at the front of a text is told from what follows it. -/
theorem Front.delimited_read {c : Char} {rest : List Char} {lexeme : Lexeme}
    (h : (read c rest).result = .ok (some lexeme)) :
    lexeme.Delimited ((c :: rest).take (read c rest).length)
      ((c :: rest).drop (read c rest).length) := by
  revert h
  fun_cases read c rest with
  | case1 =>
    intro h
    exact Number.delimited_read (Reading.result_map_some h) _ _
  | case2 _ halpha =>
    intro h
    cases h
    exact Word.delimited_classify halpha rest
  | case3 _ _ hmark =>
    subst hmark
    intro h
    exact Word.delimited_readMarked (Reading.result_map_some h)
  | case4 _ _ _ htick =>
    subst htick
    intro h
    -- The span of a name between backticks starts with the first of them, whatever its length.
    obtain ⟨n, hn⟩ := Nat.exists_eq_add_of_le' (Word.one_le_length_readExtended rest)
    rw [Reading.length_map, hn, List.take_succ_cons]
    exact Word.delimited_readExtended (Reading.result_map_some h) _ _
  | case5 =>
    intro h
    obtain ⟨inner, -, heq⟩ := Reading.result_map h
    cases heq
    exact Lexeme.delimited_ofValue (by decide) (by decide) _ _ _
  | case6 =>
    intro h
    obtain ⟨inner, -, heq⟩ := Reading.result_map h
    cases heq
    exact Lexeme.delimited_ofValue (by decide) (by decide) _ _ _
  | case7 => exact fun h => Comment.delimited_readLine h _ _
  | case8 =>
    unfold Comment.readBlock
    split <;> intro h <;> cases h
  | case9 _ _ _ _ _ _ _ _ hstarter =>
    intro h
    obtain ⟨op, -, hread⟩ := Operator.read_of_isStarter hstarter rest
    rw [hread] at h
    cases h
    trivial
  | case10 => intro h; cases h
  | case11 => intro h; cases h

namespace Lexer

/-- A token that a pull hands out can be relied on. -/
theorem reliable_nextToken {lexer : Lexer} {token : Token} (hitem : lexer.nextToken.1 = .ok token)
    (hend : token.isEndOfInput = false) :
    token.Reliable lexer.segment.span lexer.nextToken.2.cursor.rest := by
  obtain ⟨reading, hreading⟩ := @reading_of_not_isEnd lexer (by rw [hitem]; exact hend)
  obtain ⟨c, rest, hdrop, hread⟩ := Upcoming.front_of_reading hreading
  have hresult : (Front.read c rest).result = .ok (some token.toLexeme) := by
    rw [hread, Reading.map, result_of_nextToken hreading hitem]
    rfl
  have hdelimited := Front.delimited_read hresult
  rw [hread, Reading.length_map, ← hdrop] at hdelimited
  have hrest : lexer.nextToken.2.cursor.rest =
      (lexer.cursor.rest.drop (Upcoming.ofText lexer.cursor.rest).gap).drop reading.length := by
    rw [nextToken_of_some hreading, Cursor.rest_skip, List.drop_drop]
  rw [segment_of_some hreading, hrest]
  exact .of_wellFormed (wellFormed_nextToken hitem hend) hdelimited

/-- Every token of a run but the end of the input, also behind errors, can be relied on, given the characters
of the source that its position names and those behind them. -/
theorem reliable_of_segments (config : Config) (source : String) {earlier later : List Segment}
    {segment : Segment} {token : Token}
    (h : (ofSource config source).segments = earlier ++ segment :: later)
    (hitem : segment.item = .ok token) (hend : token.isEndOfInput = false) :
    let front := earlier.flatMap Segment.text ++ segment.gap
    let after := later.flatMap Segment.text
    (ofSource config source).segments.map Segment.item = (ofSource config source).steps ∧
    source.toList = front ++ (segment.span ++ after) ∧
    token.position = (Place.start.afterText config.tabSize front).position segment.span.length ∧
    token.Reliable segment.span after := by
  obtain ⟨hsource, hposition⟩ := source_of_segments h
  obtain ⟨hcovers, -, -, hafter, -⟩ := covers_of_segments h
  rw [hitem] at hposition
  refine ⟨map_item_segments _, hsource, hposition, ?_⟩
  have hsegment := eq_segment_pulled h
  have hpull : ((ofSource config source).pulled earlier.length).nextToken.1 = .ok token := by
    rw [hcovers.pull, hitem]
  have hreliable := reliable_nextToken hpull hend
  rw [← hsegment, hcovers.pull, hafter] at hreliable
  exact hreliable

/-- Behind an error, a reserved word with a letter behind it is an identifier, and ends at a backtick. -/
theorem reliable_of_segments_word :
    let token : Token := ⟨⟨.value .ident, "ifs"⟩, ⟨1, 3, 3⟩⟩
    let error : Segment := ⟨[], ['_'], .error ⟨.unknownCharacter '_', ⟨1, 1, 1⟩⟩⟩
    let word : Segment := ⟨[' '], ['i', 'f', 's'], .ok token⟩
    let name : Segment := ⟨[], ['\x60', 'i', 'f', '\x60'], .ok ⟨⟨.value .ident, "if"⟩, ⟨1, 6, 4⟩⟩⟩
    let last : Segment := ⟨[], [], .ok (.endOfInput ⟨1, 10⟩)⟩
    (ofSource .standard "_ ifs\x60if\x60").segments = [error] ++ word :: [name, last] ∧
    token.isEndOfInput = false ∧
    Word.Unquoted "ifs" ['i', 'f', 's'] ['\x60', 'i', 'f', '\x60'] := by
  intro token error word name last
  have hsegments : (ofSource .standard "_ ifs\x60if\x60").segments =
      [error] ++ word :: [name, last] := by cbv
  obtain ⟨-, -, -, -, hword⟩ := reliable_of_segments .standard _ hsegments rfl (by decide)
  exact ⟨hsegments, by decide, hword (by decide)⟩

end Lexer

end Lexis
