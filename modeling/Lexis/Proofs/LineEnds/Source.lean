import Lexis.Proofs.LineEnds.Strings
import Lexis.Proofs.LineEnds.Words
import Lexis.Proofs.Simulation

/-!
# Sources with carriage returns

A source whose lines end with a carriage return and a line feed reads into the tokens that it reads into
with line feeds alone, at the same rows and columns, or fails with the same fault there. Only strings with
line feeds in them tell the two apart. Main statement: `Lexer.tokenize_crlf`.
-/

namespace Lexis

open Text

/-! ### Fronts -/

namespace Front

/-- The front of a text is read alike with carriage returns: the same trivia, the same lexeme up to the
text of a string that holds line feeds, or the same fault. -/
def ReadAlike (c : Char) (rest : List Char) : Prop :=
  (read c rest).Carried (Option.Rel (Lexeme.Kept ((c :: rest).take (read c rest).length))) (c :: rest)
    (read c (crlf rest))

theorem kept_of_eq {span : List Char} {lexeme other : Option Lexeme} (h : lexeme = other) :
    Option.Rel (Lexeme.Kept span) lexeme other := by
  subst h
  cases lexeme with
  | none => exact .none
  | some lexeme => exact .some (.of_eq rfl)

theorem isPairOpener_crlf (c : Char) (rest : List Char) :
    isPairOpener c (crlf rest) = isPairOpener c rest := by
  have hhead : ∀ d, d ≠ '\n' → d ≠ '\r' →
      ((crlf rest).head? == some d) = (rest.head? == some d) := by
    intro d hline hreturn
    rw [Bool.eq_iff_iff, beq_iff_eq, beq_iff_eq, head?_crlf hline hreturn]
  rw [isPairOpener, isPairOpener, hhead '\\' (by decide) (by decide),
    hhead '/' (by decide) (by decide), hhead '*' (by decide) (by decide)]

section

variable {c : Char} {rest : List Char}

theorem readAlike_of_eq {reading other : Reading Lexeme} (hread : read c rest = reading.map some)
    (hother : read c (crlf rest) = other.map some) (h : reading.Carried Eq (c :: rest) other) :
    ReadAlike c rest := by
  rw [ReadAlike, hread, hother]
  refine h.map ?_
  rintro lexeme _ rfl
  exact .some (.of_eq rfl)

theorem readAlike_quote (hquote : Quoted.isQuote c = true) (hreturn : '\r' ∉ rest) :
    ReadAlike c rest := by
  have hline : c ≠ '\n' := ne_of_class hquote rfl
  rw [ReadAlike, read_quote hquote, read_quote hquote]
  refine .shift ((Quoted.carried_read hquote hreturn).map ?_) ?_
  · intro s t htext
    refine .some ⟨rfl, ?_⟩
    rw [Reading.length_shift, Reading.length_map, Nat.add_comm, List.take_succ_cons]
    rintro (hfree | hescaped)
    · rw [htext (Quoted.isChain_of_not_mem hfree)]
    · rw [htext hescaped.2]
  · rw [crlf_take_one hline]
    rfl

theorem readAlike_text_block (hreturn : '\r' ∉ rest) : ReadAlike '\\' ('\\' :: rest) := by
  rw [ReadAlike, crlf_cons (by decide), read_backslash_backslash, read_backslash_backslash]
  refine .shift ((TextBlock.carried_read hreturn).map ?_) rfl
  intro s t htext
  refine .some ⟨rfl, ?_⟩
  rw [Reading.length_shift, Reading.length_map, Nat.add_comm, List.take_succ_cons,
    List.take_succ_cons]
  rintro (hfree | ⟨⟨quote, hhead, hquote⟩, -⟩)
  · rw [List.mem_cons, List.mem_cons, not_or, not_or] at hfree
    rw [htext hfree.2.2]
  · cases hhead
    cases hquote

theorem readAlike_comment (h : rest.head? = some '/' ∨ rest.head? = some '*') :
    ReadAlike '/' rest := by
  rcases h with h | h
  · obtain ⟨text, rfl⟩ := List.head?_eq_some_iff.1 h
    rw [ReadAlike, crlf_cons (by decide), read_slash_slash, read_slash_slash]
    exact (Comment.carried_readLine text).imp fun _ _ => kept_of_eq
  · obtain ⟨text, rfl⟩ := List.head?_eq_some_iff.1 h
    rw [ReadAlike, crlf_cons (by decide), read_slash_star, read_slash_star]
    exact (Comment.carried_readBlock text).imp fun _ _ => kept_of_eq

theorem readAlike_other (hline : c ≠ '\n') (hopener : isOpener c = false)
    (hpair : isPairOpener c rest = false) : ReadAlike c rest := by
  have hone : 1 = (crlf ((c :: rest).take 1)).length := by
    rw [crlf_take_one hline]
    rfl
  rw [ReadAlike, read_other hopener hpair,
    read_other hopener ((isPairOpener_crlf c rest).trans hpair), Operator.munch?_crlf]
  cases hmunch : Operator.munch? (c :: rest) with
  | some op =>
    refine .found (.some (.of_eq rfl)) ?_
    rw [Operator.crlf_take_munch? hmunch, String.length_toList]
  | none =>
    dsimp only
    split
    · exact .found .none hone
    · exact .fault hone

/-- Every front but a line feed is read alike. -/
theorem readAlike (hline : c ≠ '\n') (hreturn : '\r' ∉ rest) : ReadAlike c rest := by
  have hcons := crlf_cons hline rest
  cases opening c rest with
  | digit hdigit =>
    refine readAlike_of_eq (read_digit hdigit _) (read_digit hdigit _) ?_
    rw [← hcons]
    exact Number.carried_read (c :: rest)
  | alpha halpha =>
    refine readAlike_of_eq (read_alpha halpha _) (read_alpha halpha _) ?_
    rw [← hcons]
    exact Word.carried_read (c :: rest)
  | mark hmark =>
    subst hmark
    rw [ReadAlike, read_number_sign, read_number_sign]
    exact (Word.carried_readMarked rest).map fun _ _ hkept => .some hkept
  | backtick htick =>
    subst htick
    exact readAlike_of_eq (read_backtick _) (read_backtick _) (Word.carried_readExtended rest)
  | quote hquote => exact readAlike_quote hquote hreturn
  | block hback hnext =>
    subst hback
    obtain ⟨text, rfl⟩ := List.head?_eq_some_iff.1 hnext
    exact readAlike_text_block (List.not_mem_of_not_mem_cons hreturn)
  | comment hslash hnext =>
    subst hslash
    exact readAlike_comment hnext
  | other hopener hpair => exact readAlike_other hline hopener hpair

end

end Front

/-- A reading that finds something carries over to one that finds something. -/
theorem Reading.Carried.of_map_some {α : Type} {R : α → α → Prop} {text : List Char}
    {reading : Reading α} {other : Reading (Option α)}
    (h : (reading.map some).Carried (Option.Rel R) text other) :
    ∃ partner, other = partner.map some ∧ reading.Carried R text partner := by
  obtain ⟨hlength, hresult⟩ := h
  obtain ⟨result, n⟩ := reading
  obtain ⟨otherResult, m⟩ := other
  cases result with
  | error fault =>
    obtain ⟨_, hother, rfl⟩ := hresult.of_error
    change otherResult = _ at hother
    subst hother
    exact ⟨.fault fault m, rfl, hlength, .error rfl⟩
  | ok value =>
    obtain ⟨_, hother, hrel⟩ := hresult.of_ok
    change otherResult = _ at hother
    subst hother
    cases hrel with
    | some hR => exact ⟨.found _ m, rfl, hlength, .ok hR⟩

/-! ### What comes next -/

namespace Upcoming

/-- What comes next is the same with carriage returns: trivia takes up what its characters become, and
the token or the fault behind it is read alike. -/
structure Alike (text : List Char) : Prop where
  gap : (ofText (crlf text)).gap = (crlf (text.take (ofText text).gap)).length
  reading : Option.Rel
    (fun reading other => reading.Carried
      (Lexeme.Kept ((text.drop (ofText text).gap).take reading.length))
      (text.drop (ofText text).gap) other)
    (ofText text).reading (ofText (crlf text)).reading

theorem alike_of_front {c : Char} {rest : List Char} (hreturn : '\r' ∉ rest)
    {reading : Reading Lexeme} (hread : Front.read c rest = reading.map some) : Alike (c :: rest) := by
  have hline : c ≠ '\n' := by
    rintro rfl
    rw [Front.read_blank (by decide)] at hread
    obtain ⟨result, n⟩ := reading
    cases result <;> cases hread
  have h := Front.readAlike hline hreturn
  rw [Front.ReadAlike, hread] at h
  obtain ⟨other, hother, hcarried⟩ := h.of_map_some
  refine ⟨?_, ?_⟩
  · rw [crlf_cons hline, ofText_of_front hread, ofText_of_front hother]
    rfl
  · rw [crlf_cons hline, ofText_of_front hread, ofText_of_front hother]
    exact .some hcarried

theorem alike_of_trivia {text : List Char} {m n : Nat} (h : Alike (text.drop m))
    (hn : n = (crlf (text.take m)).length)
    (hread : ofText text = ⟨m + (ofText (text.drop m)).gap, (ofText (text.drop m)).reading⟩)
    (hother : ofText (crlf text) =
      ⟨n + (ofText (crlf (text.drop m))).gap, (ofText (crlf (text.drop m))).reading⟩) :
    Alike text := by
  refine ⟨?_, ?_⟩
  · rw [hread, hother]
    dsimp only
    rw [h.gap, hn, crlf_take_add, List.length_append]
  · rw [hread, hother]
    dsimp only
    rw [← List.drop_drop]
    exact h.reading

/-- A line feed is one more character of white space behind a carriage return. -/
theorem alike_of_line {rest : List Char} (h : Alike rest) : Alike ('\n' :: rest) := by
  have hblank : ∀ {c : Char}, isBlank c = true → ∀ rest : List Char,
      ofText (c :: rest) = ⟨1 + (ofText rest).gap, (ofText rest).reading⟩ :=
    fun hc rest => ofText_of_none (Front.read_blank hc rest)
  refine @alike_of_trivia ('\n' :: rest) 1 2 h rfl (hblank (by decide) rest) ?_
  rw [crlf_line, hblank (by decide), hblank (by decide)]
  dsimp only
  rw [← Nat.add_assoc]
  rfl

theorem alike_of_none {c : Char} {rest : List Char} {n : Nat} (hline : c ≠ '\n')
    (hreturn : '\r' ∉ rest) (hfront : Front.read c rest = .found none (n + 1))
    (h : Alike (rest.drop n)) : Alike (c :: rest) := by
  have hsame := Front.readAlike hline hreturn
  rw [Front.ReadAlike, hfront] at hsame
  have hlength := hsame.length
  obtain ⟨lexeme, hresult, hrel⟩ := hsame.result.of_ok
  cases hrel
  rw [Reading.length_found, List.take_succ_cons, crlf_cons hline, List.length_cons] at hlength
  have hother : Front.read c (crlf rest) = .found none ((crlf (rest.take n)).length + 1) := by
    rw [← hlength, Reading.found, ← hresult]
  refine @alike_of_trivia (c :: rest) (n + 1) _ h rfl (ofText_of_none hfront) ?_
  rw [List.drop_succ_cons, List.take_succ_cons, crlf_cons hline, crlf_cons hline,
    ofText_of_none hother, drop_crlf]
  rfl

/-- The induction is on the pieces of trivia in front of the token. -/
theorem alike {text : List Char} (hreturn : '\r' ∉ text) : Alike text := by
  fun_induction ofText text with
  | case1 =>
    refine ⟨?_, ?_⟩
    · rw [crlf_nil, ofText]
      rfl
    · rw [crlf_nil, ofText]
      exact .none
  | case2 c rest fault n hfront =>
    have hrest : '\r' ∉ rest := List.not_mem_of_not_mem_cons hreturn
    exact @alike_of_front c rest hrest (.fault fault n) hfront
  | case3 c rest lexeme n hfront =>
    have hrest : '\r' ∉ rest := List.not_mem_of_not_mem_cons hreturn
    exact @alike_of_front c rest hrest (.found lexeme n) hfront
  | case4 c rest n hfront next ih =>
    have hrest : '\r' ∉ rest := List.not_mem_of_not_mem_cons hreturn
    have htail := ih fun hmem => hrest (List.mem_of_mem_drop hmem)
    have hone := Front.one_le_length_read c rest
    rw [hfront] at hone
    obtain ⟨m, rfl⟩ := Nat.exists_eq_add_of_le' hone
    rw [Nat.add_sub_cancel] at htail
    by_cases hline : c = '\n'
    · subst hline
      rw [Front.read_blank (by decide)] at hfront
      cases hfront
      exact alike_of_line htail
    · exact alike_of_none hline hrest hfront htail

end Upcoming

/-! ### Places -/

/-- A carriage return moves to the next column, and the line feed behind it to the next row all the same. -/
theorem Place.afterText_crlf (tab : Nat) (p : Place) (text : List Char) :
    p.afterText tab (crlf text) = p.afterText tab text := by
  induction text generalizing p with
  | nil => rfl
  | cons c rest ih =>
    by_cases hline : c = '\n'
    · subst hline
      exact ih _
    · rw [crlf_cons hline]
      exact ih _

/-- The cursor at the same place of the text with carriage returns. -/
def Cursor.crlf (cursor : Cursor) : Cursor := ⟨Text.crlf cursor.rest, cursor.place⟩

theorem Cursor.skip_crlf (tab n : Nat) (cursor : Cursor) :
    cursor.crlf.skip tab (Text.crlf (cursor.rest.take n)).length = (cursor.skip tab n).crlf := by
  rw [skip, crlf, drop_crlf, take_crlf, Place.afterText_crlf]
  rfl

/-! ### Lexers -/

/-- What a token that was read from `span` keeps: its kind and where it starts, its length unless there are
line feeds in it, and its text unless they became part of the text. -/
structure Token.Kept (span : List Char) (token other : Token) : Prop where
  lexeme : Lexeme.Kept span token.toLexeme other.toLexeme
  row : other.position.row = token.position.row
  col : other.position.col = token.position.col
  len : '\n' ∉ span → other.position.len = token.position.len

/-- The same fault at the same row and column. -/
structure LexError.SameStart (error other : LexError) : Prop where
  fault : other.fault = error.fault
  row : other.position.row = error.position.row
  col : other.position.col = error.position.col

namespace Lexer

/-- The lexer in the same state over the text with carriage returns. -/
def crlf (lexer : Lexer) : Lexer := ⟨lexer.config, lexer.cursor.crlf, lexer.done⟩

/-- Each pull leads to the same place, and hands out the same token or the same fault. -/
theorem nextToken_crlf {lexer : Lexer} (hreturn : '\r' ∉ lexer.cursor.rest) :
    Agree (Token.Kept lexer.segment.span) LexError.SameStart lexer.nextToken.1
      lexer.crlf.nextToken.1 ∧
    lexer.crlf.nextToken.2 = lexer.nextToken.2.crlf := by
  obtain ⟨hgap, hreading⟩ := Upcoming.alike hreturn
  generalize hpartner : (Upcoming.ofText (Text.crlf lexer.cursor.rest)).reading = partner at hreading
  cases hnext : (Upcoming.ofText lexer.cursor.rest).reading with
  | none =>
    rw [hnext] at hreading
    cases hreading
    have hafter := lexer.cursor.skip_crlf lexer.config.tabSize lexer.cursor.rest.length
    rw [List.take_length] at hafter
    rw [nextToken_of_none hnext, @nextToken_of_none lexer.crlf hpartner]
    refine ⟨?_, congrArg (Lexer.mk lexer.config · lexer.done) hafter⟩
    dsimp only [crlf, Cursor.crlf]
    rw [Place.afterText_crlf]
    exact .ok ⟨.of_eq rfl, rfl, rfl, fun _ => rfl⟩
  | some reading =>
    rw [hnext] at hreading
    cases hreading with
    | @some _ other hcarried =>
      have hafter := lexer.cursor.skip_crlf lexer.config.tabSize
        ((Upcoming.ofText lexer.cursor.rest).gap + reading.length)
      rw [crlf_take_add, List.length_append, ← hgap, ← hcarried.length] at hafter
      rw [segment_of_some hnext, nextToken_of_some hnext, @nextToken_of_some lexer.crlf _ hpartner]
      refine ⟨?_, congrArg (Lexer.mk lexer.config · lexer.done) hafter⟩
      dsimp only [crlf, Cursor.crlf]
      rw [hgap, take_crlf, Place.afterText_crlf]
      apply Reading.agree_locate
      refine hcarried.result.imp ?_ ?_
      · intro lexeme partner hkept
        refine ⟨hkept, rfl, rfl, ?_⟩
        intro hfree
        have hlength := hcarried.length
        rw [crlf_of_not_mem hfree, List.length_take, List.length_drop, Nat.min_eq_left] at hlength
        · dsimp only
          rw [hlength]
        · have hle := Upcoming.gap_add_length_le hnext
          omega
      · rintro fault _ rfl
        exact ⟨rfl, rfl, rfl⟩

/-- A source with carriage returns in front of its line feeds is read into the same number of tokens, each
of the kind and at the row and column of its partner, or fails with the same fault there. A token keeps its
length and its text if no line feed stands in it, and a string between quotes its text too if each line
feed in it directly follows a backslash. -/
theorem tokenize_crlf (config : Config) (source : String) (hreturn : '\r' ∉ source.toList) :
    Agree (Tokenwise (fun segment => Token.Kept segment.span) (ofSource config source).segments)
      LexError.SameStart (tokenize config source)
      (tokenize config (String.ofList (Text.crlf source.toList))) := by
  have hother : ofSource config (String.ofList (Text.crlf source.toList)) =
      (ofSource config source).crlf := by
    rw [ofSource, String.toList_ofList]
    rfl
  rw [tokenize, tokenize, hother]
  refine @tokens_agree
    (fun lexer other => '\r' ∉ lexer.cursor.rest ∧ other = lexer.crlf)
    (fun segment => Token.Kept segment.span) LexError.SameStart ?_ ?_ _ _ rfl rfl ⟨hreturn, rfl⟩
  · intro segment token other hkept
    exact hkept.lexeme.kind.symm
  · rintro lexer _ ⟨hreturn, rfl⟩
    obtain ⟨hagree, hafter⟩ := nextToken_crlf hreturn
    refine ⟨hagree, ?_, hafter⟩
    rw [lexer.covers.rest, List.mem_append, not_or] at hreturn
    exact hreturn.2

/-- A line break behind a backslash leaves nothing in a string, with a carriage return or without one. -/
theorem tokenize_crlf_continuation :
    '\r' ∉ "'a\\\n b'\nx".toList ∧
    tokenize .standard "'a\\\n b'\nx" =
      .ok [⟨⟨.value .string, "ab"⟩, ⟨1, 1, 7⟩⟩, ⟨⟨.value .ident, "x"⟩, ⟨3, 1, 1⟩⟩] ∧
    tokenize .standard "'a\\\r\n b'\r\nx" =
      .ok [⟨⟨.value .string, "ab"⟩, ⟨1, 1, 8⟩⟩, ⟨⟨.value .ident, "x"⟩, ⟨3, 1, 1⟩⟩] ∧
    Agree
      (Tokenwise (fun segment => Token.Kept segment.span)
        (ofSource .standard "'a\\\n b'\nx").segments)
      LexError.SameStart (tokenize .standard "'a\\\n b'\nx")
      (tokenize .standard (String.ofList (Text.crlf "'a\\\n b'\nx".toList))) := by
  have hreturn : '\r' ∉ "'a\\\n b'\nx".toList := by decide
  refine ⟨hreturn, ?_, ?_, tokenize_crlf .standard _ hreturn⟩
  · rw [tokenize, tokens_eq_mapM_steps rfl]
    cbv
  · rw [tokenize, tokens_eq_mapM_steps rfl]
    cbv

end Lexer

end Lexis
