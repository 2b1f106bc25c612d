import Lexis.Proofs.Lookahead.Front
import Lexis.Proofs.Segments

/-!
# The extent of a comment

A block comment goes as far as the first closing mark behind its opening mark, and is a fault where there is
none. A line comment goes up to the end of its line. Three slashes make it documentation, which is a token; any
other number of slashes makes it trivia. Main statement: `Lexer.nextToken_comment`.
-/

namespace Lexis

open Text

namespace Comment

/-! ### Block comments -/

theorem prefix_cons_iff {c : Char} {rest : List Char} :
    ['*', '/'] <+: c :: rest ↔ c = '*' ∧ rest.head? = some '/' := by
  constructor
  · intro h
    obtain ⟨rfl, more, rfl⟩ := List.cons_prefix_cons.1 h
    exact ⟨rfl, rfl⟩
  · rintro ⟨rfl, hslash⟩
    obtain ⟨more, rfl⟩ := List.head?_eq_some_iff.1 hslash
    exact ⟨more, rfl⟩

/-- The search for a closing mark fails only where none stands in the text. -/
theorem closing?_eq_none_iff {text : List Char} :
    closing? text = none ↔ ¬ ['*', '/'] <:+: text := by
  induction text with
  | nil => simp [closing?]
  | cons c rest ih =>
    rw [List.infix_cons_iff, prefix_cons_iff, closing?]
    by_cases hmark : c = '*' ∧ rest.head? = some '/'
    · simp [hmark]
    · rw [if_neg hmark, Option.map_eq_none_iff, ih, or_iff_right hmark]

/-- A text in which a closing mark stands is split behind the first one. -/
theorem exists_isClosed_iff {text : List Char} :
    (∃ body after, text = body ++ after ∧ IsClosed body) ↔ ['*', '/'] <:+: text := by
  constructor
  · rintro ⟨body, after, rfl, hsuffix, -⟩
    exact hsuffix.isInfix.trans (List.prefix_append body after).isInfix
  · intro hinfix
    cases hclose : closing? text with
    | none => exact absurd hinfix (closing?_eq_none_iff.1 hclose)
    | some n =>
      exact ⟨text.take n, text.drop n, (List.take_append_drop n text).symm, isClosed_of_closing? hclose⟩

/-! ### Line comments -/

/-- Exactly one more slash makes two slashes open documentation. -/
theorem isDocumentation_slashes {text : List Char} (h : text.head? ≠ some '/') (n : Nat) :
    isDocumentation (List.replicate n '/' ++ text) = (n == 1) := by
  match n with
  | 0 =>
    show isDocumentation text = false
    cases text with
    | nil => rfl
    | cons c rest =>
      unfold isDocumentation
      split
      · rename_i heq
        cases heq
        exact absurd rfl h
      · rfl
  | 1 => exact bne_iff_ne.2 h
  | n + 2 => rfl

/-- The slashes of a comment are part of its line. -/
theorem lineRest_slashes (n : Nat) (text : List Char) :
    lineRest (List.replicate n '/' ++ text) = List.replicate n '/' ++ lineRest text := by
  apply List.takeWhile_append_of_pos
  intro c hc
  obtain rfl := List.eq_of_mem_replicate hc
  rfl

theorem documentationText_eq (line : List Char) :
    documentationText line = if line.head?.any isBlank then line.drop 1 else line := by
  cases line with
  | nil => rfl
  | cons c rest => rfl

end Comment

namespace Front

theorem read_slashes_documentation {text : List Char} (h : text.head? ≠ some '/') :
    read '/' ('/' :: '/' :: text) =
      .found (some (.ofValue .documentation (Comment.documentationText (Comment.lineRest text))))
        (3 + (Comment.lineRest text).length) := by
  have hdoc := Comment.isDocumentation_slashes h 1
  rw [read_slash_slash]
  exact Comment.readLine_of_isDocumentation hdoc

theorem read_slashes_remark {text : List Char} (h : text.head? ≠ some '/') {n : Nat} (hn : n ≠ 1) :
    read '/' ('/' :: (List.replicate n '/' ++ text)) =
      .found none (n + 2 + (Comment.lineRest text).length) := by
  have hdoc := Comment.isDocumentation_slashes h n
  rw [beq_eq_false_iff_ne.2 hn] at hdoc
  rw [read_slash_slash, Comment.readLine_of_not_isDocumentation hdoc, Comment.lineRest_slashes,
    List.length_append, List.length_replicate, Nat.add_comm n 2, Nat.add_assoc]

end Front

namespace Lexer

variable {lexer : Lexer}

theorem nextToken_closed {body after : List Char}
    (hrest : lexer.cursor.rest = '/' :: '*' :: (body ++ after)) (h : Comment.IsClosed body) :
    let n := 2 + body.length
    Front.read '/' ('*' :: (body ++ after)) = .found none n ∧
    lexer.nextToken = (lexer.skip n).nextToken ∧
    (lexer.skip n).cursor.rest = after := by
  intro n
  have hread : Front.read '/' ('*' :: (body ++ after)) = .found none n := by
    rw [Front.read_slash_star, Comment.readBlock, Comment.closing?_append h]
  have hsplit : lexer.cursor.rest = ('/' :: '*' :: body) ++ after := hrest
  have hn : ('/' :: '*' :: body).length = n := Nat.add_comm body.length 2
  exact ⟨hread, nextToken_of_skipped hrest hread, rest_skip_of_length hsplit hn⟩

theorem nextToken_unclosed (hlength : lexer.cursor.rest.length ≤ ceiling) {text : List Char}
    (hrest : lexer.cursor.rest = '/' :: '*' :: text) (h : ¬ ['*', '/'] <:+: text) :
    let n := lexer.cursor.rest.length
    lexer.nextToken =
      (.error ⟨.unterminatedComment, ⟨lexer.cursor.place.row, lexer.cursor.place.col, n⟩⟩,
        lexer.skip n) ∧
    (lexer.skip n).cursor.rest = [] := by
  intro n
  have hn : 2 + text.length = n := by
    rw [Nat.add_comm]
    exact (congrArg List.length hrest).symm
  have hread : Front.read '/' ('*' :: text) = .fault .unterminatedComment n := by
    rw [Front.read_slash_star, Comment.readBlock, Comment.closing?_eq_none_iff.2 h, ← hn]
  refine ⟨nextToken_of_fault hrest hread hlength, ?_⟩
  rw [skip, Cursor.rest_skip, List.drop_length]

section

variable {slashes : Nat} {text : List Char}
  (hrest : lexer.cursor.rest = List.replicate slashes '/' ++ text)

include hrest

/-- Behind the slashes and the rest of their line the text goes on with a line break, if it goes on. -/
theorem rest_skip_slashes :
    let after := text.drop (Comment.lineRest text).length
    (lexer.skip (slashes + (Comment.lineRest text).length)).cursor.rest = after ∧
    LineEndHead after := by
  intro after
  refine ⟨?_, ?_⟩
  · rw [skip, Cursor.rest_skip, hrest, ← List.drop_drop]
    have hslashes := @List.drop_left _ (List.replicate slashes '/') text
    rw [List.length_replicate] at hslashes
    rw [hslashes]
  · intro c hc
    simpa using stop_of_takeWhile (fun c => !isLineEnd c) text c hc

variable (hhead : text.head? ≠ some '/')

include hhead

theorem nextToken_slashes_documentation (hlength : lexer.cursor.rest.length ≤ ceiling)
    (hthree : slashes = 3) :
    let n := slashes + (Comment.lineRest text).length
    lexer.nextToken =
      (.ok ⟨.ofValue .documentation (Comment.documentationText (Comment.lineRest text)),
          ⟨lexer.cursor.place.row, lexer.cursor.place.col, n⟩⟩, lexer.skip n) := by
  subst hthree
  intro n
  have hn : n ≤ ceiling := by
    have hle := Comment.length_lineRest_le text
    rw [hrest, List.length_append, List.length_replicate] at hlength
    omega
  exact nextToken_of_found hrest (Front.read_slashes_documentation hhead) hn

theorem nextToken_slashes_remark (htwo : 2 ≤ slashes) (hthree : slashes ≠ 3) :
    let n := slashes + (Comment.lineRest text).length
    Front.read '/' lexer.cursor.rest.tail = .found none n ∧
    lexer.nextToken = (lexer.skip n).nextToken := by
  obtain ⟨m, rfl⟩ := Nat.exists_eq_add_of_le' htwo
  intro n
  have hread := Front.read_slashes_remark hhead (show m ≠ 1 by omega)
  refine ⟨?_, nextToken_of_skipped hrest hread⟩
  rw [hrest]
  exact hread

end

/-- A block comment is passed over up to and with the first closing mark behind its opening mark; without one it
is a fault of all the text that is left. A comment of two slashes or more goes up to the end of its line: three
make it documentation, whose text is the line without a white-space character at its front, and with any other
number it is passed over. -/
theorem nextToken_comment (hlength : lexer.cursor.rest.length ≤ ceiling) :
    let place := lexer.cursor.place
    (∀ text, lexer.cursor.rest = '/' :: '*' :: text →
      (['*', '/'] <:+: text ↔ ∃ body after, text = body ++ after ∧ Comment.IsClosed body) ∧
      (∀ body after, text = body ++ after → Comment.IsClosed body →
        let n := 2 + body.length
        Front.read '/' ('*' :: text) = .found none n ∧
        lexer.nextToken = (lexer.skip n).nextToken ∧
        (lexer.skip n).cursor.rest = after) ∧
      (¬ ['*', '/'] <:+: text →
        let n := lexer.cursor.rest.length
        lexer.nextToken =
          (.error ⟨.unterminatedComment, ⟨place.row, place.col, n⟩⟩, lexer.skip n) ∧
        (lexer.skip n).cursor.rest = [])) ∧
    ∀ slashes text, 2 ≤ slashes → lexer.cursor.rest = List.replicate slashes '/' ++ text →
      text.head? ≠ some '/' →
      let line := text.takeWhile fun c => !isLineEnd c
      let after := text.drop line.length
      let n := slashes + line.length
      (slashes = 3 →
        let content := if line.head?.any isBlank then line.drop 1 else line
        lexer.nextToken =
          (.ok ⟨.ofValue .documentation content, ⟨place.row, place.col, n⟩⟩, lexer.skip n)) ∧
      (slashes ≠ 3 →
        Front.read '/' lexer.cursor.rest.tail = .found none n ∧
        lexer.nextToken = (lexer.skip n).nextToken) ∧
      (lexer.skip n).cursor.rest = after ∧ LineEndHead after := by
  intro place
  refine ⟨?_, ?_⟩
  · intro text hrest
    refine ⟨Comment.exists_isClosed_iff.symm, ?_, nextToken_unclosed hlength hrest⟩
    rintro body after rfl hclosed
    exact nextToken_closed hrest hclosed
  · intro slashes text htwo hrest hhead line after n
    refine ⟨?_, nextToken_slashes_remark hrest hhead htwo, rest_skip_slashes hrest⟩
    intro hthree content
    have hcontent : Comment.documentationText line = content := Comment.documentationText_eq line
    rw [← hcontent]
    exact nextToken_slashes_documentation hrest hhead hlength hthree

/-- A closing mark shares no star with the opening mark, and only one character of white space is taken off
documentation. -/
theorem nextToken_comment_shared_star :
    let block := ofSource .standard "/*/**/x"
    let line := ofSource .standard "///\t a\rb"
    block.nextToken = (block.skip 6).nextToken ∧ (block.skip 6).cursor.rest = ['x'] ∧
    line.nextToken =
      (.ok ⟨⟨.value .documentation, " a"⟩, ⟨1, 1, 6⟩⟩, line.skip 6) ∧
    (line.skip 6).cursor.rest = "\rb".toList := by
  intro block line
  have hclosed : Comment.IsClosed "/**/".toList := ⟨by decide, by decide⟩
  obtain ⟨hblock, -⟩ := @nextToken_comment block (by decide)
  obtain ⟨-, hpassed, -⟩ := hblock "/**/x".toList rfl
  obtain ⟨-, hnext, hrest⟩ := hpassed "/**/".toList ['x'] rfl hclosed
  obtain ⟨-, hline⟩ := @nextToken_comment line (by decide)
  obtain ⟨hdocumentation, -, hafter, -⟩ :=
    hline 3 "\t a\rb".toList (by decide) rfl (by decide)
  exact ⟨hnext, hrest, hdocumentation rfl, hafter⟩

end Lexer

end Lexis
