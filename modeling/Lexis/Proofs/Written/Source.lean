import Lexis.Proofs.Tokens
import Lexis.Proofs.Written.Number
import Lexis.Proofs.Written.Quoted
import Lexis.Proofs.Written.Word

/-!
# Written sources

The tokens of a source can be written out again, each in one form for its kind and with white space
behind it. What is written is read back as the same tokens. Main statement:
`Lexer.tokenize_written`.
-/

namespace Lexis

open Text

/-- A value of a kind as it is written. -/
def ValueKind.written (text : List Char) : ValueKind → List Char
  | intDec | float => text
  | intHex => '0' :: Radix.hex.mark :: text
  | intOct => '0' :: Radix.oct.mark :: text
  | intBin => '0' :: Radix.bin.mark :: text
  | ident => '\x60' :: (text ++ ['\x60'])
  | atom => '#' :: text
  | string => '\x22' :: (Quoted.written text ++ ['\x22'])
  | documentation => '/' :: '/' :: '/' :: ' ' :: text

/-- A lexeme as it is written. -/
def Lexeme.written (lexeme : Lexeme) : List Char :=
  match lexeme.kind with
  | .value kind => kind.written lexeme.text.toList
  | .keyword word => word.spelling.toList
  | .operator op => op.spelling.toList
  | .endOfInput => []

/-- `Written tokens text` tells that the text is the tokens as they are written, each with white space
behind it, which starts with a line break behind documentation. -/
inductive Written : List Token → List Char → Prop
  | nil : Written [] []
  | cons {token : Token} {tokens : List Token} {blanks text : List Char} :
      blanks ≠ [] → (∀ c ∈ blanks, isBlank c = true) →
      (token.kind = .value .documentation → LineEndHead blanks) → Written tokens text →
      Written (token :: tokens) (token.toLexeme.written ++ (blanks ++ text))

namespace Front

theorem read_radix {radix : Radix} {digits after : List Char} (h : IsRun radix.isDigit digits)
    (hafter : BlankHead after) :
    read '0' (radix.mark :: digits ++ after) =
      .found (some (.ofValue radix.kind digits)) ('0' :: radix.mark :: digits).length := by
  rw [read_digit (by decide), List.cons_append, Number.read_radix h hafter, Reading.map_found,
    Nat.add_comm]
  rfl

theorem read_decimal {whole parts after : List Char} (hwhole : IsRun Char.isDigit whole)
    (h : Decimal.Parts false false parts) (hafter : BlankHead after) :
    ∃ c rest, whole ++ parts = c :: rest ∧
      read c (rest ++ after) = .found
        (some (if parts.isEmpty then .ofValue .intDec whole else .ofValue .float (whole ++ parts)))
        (whole ++ parts).length := by
  obtain ⟨c, digits, rfl⟩ := List.exists_cons_of_ne_nil hwhole.1
  have hread := Number.read_decimal hwhole h hafter
  refine ⟨c, digits ++ parts, rfl, ?_⟩
  rw [List.cons_append] at hread
  rw [read_digit (hwhole.2 c List.mem_cons_self), List.append_assoc, hread, Reading.map_found,
    List.length_append]

/-- A value that is written is the front that is read. -/
theorem read_written_value {kind : ValueKind} {text : List Char} (h : kind.Admits text)
    {after : List Char} (hafter : BlankHead after)
    (hline : kind = .documentation → LineEndHead after) :
    ∃ c rest, kind.written text = c :: rest ∧
      read c (rest ++ after) = .found (some (.ofValue kind text)) (kind.written text).length := by
  cases kind with
  | intDec =>
    have hread := read_decimal h .nil hafter
    rwa [List.append_nil] at hread
  | intHex => exact ⟨_, _, rfl, @read_radix .hex text after h hafter⟩
  | intOct => exact ⟨_, _, rfl, @read_radix .oct text after h hafter⟩
  | intBin => exact ⟨_, _, rfl, @read_radix .bin text after h hafter⟩
  | float =>
    obtain ⟨whole, parts, rfl, hwhole, hne, hparts⟩ := h
    have hread := read_decimal hwhole hparts hafter
    rwa [if_neg (by simpa using hne)] at hread
  | ident =>
    refine ⟨'\x60', text ++ ['\x60'], rfl, ?_⟩
    rw [read_backtick, List.append_assoc, List.singleton_append, Word.readExtended_ident h,
      Reading.map_found]
    congr 1
    simp [ValueKind.written, Nat.add_comm]
  | atom =>
    obtain ⟨c, rest, rfl, hc, hrest⟩ := h
    refine ⟨'#', c :: rest, rfl, ?_⟩
    rw [read_number_sign, List.cons_append, Word.readMarked_atom hc hrest hafter, Reading.map_found,
      Nat.add_comm]
    rfl
  | string =>
    refine ⟨'\x22', Quoted.written text ++ ['\x22'], rfl, ?_⟩
    rw [read_quote rfl, List.append_assoc, List.singleton_append, Quoted.read_written,
      Reading.map_found, Reading.shift_found]
    congr 1
    simp [ValueKind.written, Nat.add_comm]
  | documentation =>
    refine ⟨'/', '/' :: '/' :: ' ' :: text, rfl, ?_⟩
    rw [List.cons_append, List.cons_append, List.cons_append, read_slash_slash,
      Comment.readLine_documentation h (hline rfl), Nat.add_comm]
    rfl

/-- No operator starts like something else. -/
theorem read_operator {op : Operator} (h : Operator.isReachable op.spelling = true)
    {after : List Char} (hafter : BlankHead after) :
    ∃ c rest, op.spelling.toList = c :: rest ∧
      read c (rest ++ after) = .found (some (.ofOperator op)) op.spelling.toList.length := by
  have hall : (Operator.all.all fun op => op.spelling.toList.head?.all fun c =>
      !isOpener c && !isPairOpener c op.spelling.toList.tail) = true := by
    decide +kernel
  have hop := List.all_eq_true.1 hall op (Operator.mem_all op)
  have hmunch := Operator.munch?_spelling h hafter
  have hone := Operator.one_le_length_spelling op
  rw [← String.length_toList] at hone
  cases hspelling : op.spelling.toList with
  | nil =>
    rw [hspelling] at hone
    cases hone
  | cons c rest =>
    simp only [hspelling, List.head?_cons, Option.all_some, List.tail_cons, Bool.and_eq_true,
      Bool.not_eq_true'] at hop
    obtain ⟨hopener, hpair⟩ := hop
    have hpairAfter : isPairOpener c (rest ++ after) = false := by
      cases rest with
      | nil => exact isPairOpener_of_blankHead c hafter
      | cons d rest => exact hpair
    refine ⟨c, rest, rfl, ?_⟩
    rw [hspelling, List.cons_append] at hmunch
    rw [read_other hopener hpairAfter, hmunch]
    dsimp only
    rw [← hspelling, String.length_toList]

/-- A well-formed lexeme that is written is the front that is read. -/
theorem read_written {lexeme : Lexeme} (h : lexeme.WellFormed) {after : List Char}
    (hafter : BlankHead after) (hline : lexeme.kind = .value .documentation → LineEndHead after) :
    ∃ c rest, lexeme.written = c :: rest ∧
      read c (rest ++ after) = .found (some lexeme) lexeme.written.length := by
  obtain ⟨kind, text⟩ := lexeme
  cases kind with
  | value kind =>
    have hread := read_written_value h hafter fun hkind => hline (by rw [hkind])
    rwa [Lexeme.ofValue, String.ofList_toList] at hread
  | keyword word =>
    have htext : text = word.spelling := h
    subst htext
    obtain ⟨c, rest, hspelling, hc, -⟩ := Word.isWord_spelling word
    refine ⟨c, rest, hspelling, ?_⟩
    have hread := Word.read_keyword word hafter
    rw [hspelling, List.cons_append] at hread
    rw [read_alpha hc, hread, Reading.map_found]
    show _ = Reading.found (some (Lexeme.ofKeyword word)) word.spelling.toList.length
    rw [hspelling]
  | operator op =>
    obtain ⟨htext, hreachable⟩ := h
    dsimp only at htext
    subst htext
    exact read_operator hreachable hafter
  | endOfInput => exact h.elim

end Front

theorem Trivia.of_blanks {blanks : List Char} (h : ∀ c ∈ blanks, isBlank c = true)
    (text : List Char) : Trivia blanks text := by
  induction blanks with
  | nil => exact .nil
  | cons c blanks ih =>
    exact .blank (h c List.mem_cons_self) (ih fun d hd => h d (List.mem_cons_of_mem c hd))

theorem Token.beq_of_toLexeme {tokens others : List Token}
    (h : tokens.map Token.toLexeme = others.map Token.toLexeme) : (tokens == others) = true := by
  induction tokens generalizing others with
  | nil =>
    cases others with
    | nil => rfl
    | cons other others => cases h
  | cons token tokens ih =>
    cases others with
    | nil => cases h
    | cons other others =>
      obtain ⟨hfirst, hrest⟩ := List.cons.inj h
      rw [List.cons_beq_cons, (Token.beq_iff token other).2 hfirst, ih hrest]
      rfl

namespace Lexer

/-- A lexeme that is written at the front of a text is what the next pull reads. -/
theorem nextToken_written {lexer : Lexer} {lexeme : Lexeme} {after : List Char}
    (hrest : lexer.cursor.rest = lexeme.written ++ after) (h : lexeme.WellFormed)
    (hafter : BlankHead after) (hline : lexeme.kind = .value .documentation → LineEndHead after) :
    lexer.nextToken =
      (.ok ⟨lexeme, lexer.cursor.place.position lexeme.written.length⟩,
        lexer.skip lexeme.written.length) := by
  obtain ⟨c, rest, hwritten, hread⟩ := Front.read_written h hafter hline
  have hfront : lexer.cursor.rest = c :: (rest ++ after) := by
    rw [hrest, hwritten, List.cons_append]
  exact @nextToken_of_front _ _ _ (.found lexeme lexeme.written.length) hfront hread

/-- Written tokens are read back by any lexer in front of them. -/
theorem tokens_written {tokens : List Token} {text : List Char} (h : Written tokens text)
    (hwell : ∀ token ∈ tokens, token.toLexeme.WellFormed) {lexer : Lexer}
    (hdone : lexer.done = false) (hrest : lexer.cursor.rest = text) :
    ∃ again, lexer.tokens = .ok again ∧
      again.map Token.toLexeme = tokens.map Token.toLexeme := by
  induction h generalizing lexer with
  | nil =>
    have hend : isEnd lexer.nextToken.1 = true := by
      have hnone : (Upcoming.ofText lexer.cursor.rest).reading = none := by
        rw [hrest, Upcoming.ofText]
      rw [nextToken_of_none hnone]
      rfl
    exact ⟨[], tokens_of_isEnd hdone hend, rfl⟩
  | @cons token tokens blanks text hne hblanks hline _ ih =>
    obtain ⟨c, blanks, rfl⟩ := List.exists_cons_of_ne_nil hne
    have hafter : BlankHead (c :: blanks ++ text) := by
      rintro _ ⟨⟩
      exact hblanks c List.mem_cons_self
    have hlineAfter : token.kind = .value .documentation → LineEndHead (c :: blanks ++ text) := by
      rintro hkind _ ⟨⟩
      exact hline hkind c rfl
    have htoken : token.toLexeme.WellFormed := hwell token List.mem_cons_self
    have hnext := nextToken_written hrest htoken hafter hlineAfter
    have hend : token.isEndOfInput = false := by simp [Token.isEndOfInput, htoken.kind_ne]
    have hbehind := rest_skip_of_append hrest
    -- The white space behind a token is trivia in front of the next one.
    have hblank : (lexer.skip token.written.length).tokens =
        ((lexer.skip token.written.length).skip (c :: blanks).length).tokens :=
      tokens_congr hdone hdone (nextToken_of_trivia hbehind (Trivia.of_blanks hblanks text))
    obtain ⟨again, hagain, hsame⟩ :=
      @ih (fun other hother => hwell other (List.mem_cons_of_mem token hother))
        ((lexer.skip token.written.length).skip (c :: blanks).length) hdone
        (rest_skip_of_append hbehind)
    refine ⟨⟨token.toLexeme, lexer.cursor.place.position token.written.length⟩ :: again, ?_, ?_⟩
    · rw [tokens_of_token hdone (congrArg Prod.fst hnext) hend, hnext,
        hblank, hagain]
      rfl
    · rw [List.map_cons, List.map_cons, hsame]

/-- Every source that is read without an error can be written out again from its tokens: each token in
the one form for its kind, with white space behind it. What is written is read back as the same tokens,
whatever the tab size. -/
theorem tokenize_written (config other : Config) {source written : String} {tokens : List Token}
    (h : tokenize config source = .ok tokens) (hwritten : Written tokens written.toList) :
    ∃ again, tokenize other written = .ok again ∧ (again == tokens) = true := by
  have hwell := wellFormed_tokens rfl h
  obtain ⟨again, hagain, hsame⟩ :=
    @tokens_written tokens _ hwritten hwell (ofSource other written) rfl rfl
  exact ⟨again, hagain, Token.beq_of_toLexeme hsame⟩

/-- A verbatim backslash and a hexadecimal literal change their form, not their text. -/
theorem tokenize_written_backslash :
    let tokens : List Token :=
      [⟨⟨.value .string, "\\"⟩, ⟨1, 1, 4⟩⟩, ⟨⟨.value .intHex, "1f"⟩, ⟨1, 6, 4⟩⟩]
    tokenize .standard "#\"\\\" 0X1f" = .ok tokens ∧
    Written tokens "\"\\u005C\"\n0x1f ".toList ∧
    ∃ again, tokenize .standard "\"\\u005C\"\n0x1f " = .ok again ∧ (again == tokens) = true := by
  intro tokens
  have hsource : tokenize .standard "#\"\\\" 0X1f" = .ok tokens := by
    rw [tokenize, tokens_eq_mapM_steps rfl]
    cbv
  have hline : ∀ c ∈ ['\n'], isBlank c = true := List.all_eq_true.1 (by decide)
  have hspace : ∀ c ∈ [' '], isBlank c = true := List.all_eq_true.1 (by decide)
  have hwritten : Written tokens "\"\\u005C\"\n0x1f ".toList := by
    refine @Written.cons _ _ ['\n'] _ (by simp) hline ?_
      (@Written.cons _ _ [' '] _ (by simp) hspace ?_ .nil)
    · intro hkind
      cases hkind
    · intro hkind
      cases hkind
  exact ⟨hsource, hwritten, tokenize_written .standard .standard hsource hwritten⟩

end Lexer

end Lexis
