import Lexis.Proofs.Extension
import Lexis.Proofs.Rows

/-!
# Texts joined at a line break

A line break behind a text that is read without an error keeps its tokens and starts the rest afresh.
Only a text block takes up the line break and may go on behind it. Main statement:
`Lexer.tokenize_append_line`.
-/

namespace Lexis

open Text

/-- Tells whether a pull read a text block: a string that a backslash opens. -/
def Segment.IsTextBlock (segment : Segment) : Prop :=
  segment.span.head? = some '\\' ∧ ∃ token, segment.item = .ok token ∧ token.kind = .value .string

namespace Lexer

/-- Tells whether the last token is a text block that reaches the end of the text. -/
def EndsInTextBlock (lexer : Lexer) : Prop :=
  ∃ earlier block last, lexer.segments = earlier ++ [block, last] ∧ block.IsTextBlock ∧ last.gap = []

theorem EndsInTextBlock.of_nextToken {lexer : Lexer} (hend : isEnd lexer.nextToken.1 = false)
    (h : lexer.nextToken.2.EndsInTextBlock) : lexer.EndsInTextBlock := by
  obtain ⟨earlier, block, last, hsegments, hblock, hgap⟩ := h
  refine ⟨lexer.segment :: earlier, block, last, ?_, hblock, hgap⟩
  rw [segments_of_not_isEnd hend, hsegments]
  rfl

/-- A pull that reads a text block and leaves nothing ends the text in it. -/
theorem endsInTextBlock_of_rest {lexer : Lexer} (hend : isEnd lexer.nextToken.1 = false)
    (hblock : lexer.segment.IsTextBlock) (hrest : lexer.nextToken.2.cursor.rest = []) :
    lexer.EndsInTextBlock := by
  have hnone : (Upcoming.ofText lexer.nextToken.2.cursor.rest).reading = none := by
    rw [hrest, Upcoming.ofText]
  have hlast : isEnd lexer.nextToken.2.nextToken.1 = true := by
    rw [nextToken_of_none hnone]
    rfl
  refine ⟨[], lexer.segment, lexer.nextToken.2.segment, ?_, hblock, ?_⟩
  · rw [segments_of_not_isEnd hend, segments_of_isEnd hlast]
    rfl
  · rw [segment_of_none hnone, hrest]

/-- Two backslashes in front of a token that is read make it a text block. -/
theorem isTextBlock_segment {lexer : Lexer} {reading : Reading Lexeme} {token : Token}
    {more : List Char} (hreading : (Upcoming.ofText lexer.cursor.rest).reading = some reading)
    (hitem : lexer.nextToken.1 = .ok token)
    (hdrop : lexer.cursor.rest.drop (Upcoming.ofText lexer.cursor.rest).gap = '\\' :: '\\' :: more) :
    lexer.segment.IsTextBlock := by
  obtain ⟨c, rest, hfront, hread⟩ := Upcoming.front_of_reading hreading
  rw [hdrop] at hfront
  cases hfront
  have hone := (Upcoming.gap_lt_length hreading).2
  obtain ⟨n, hn⟩ := Nat.exists_eq_add_of_le' hone
  rw [segment_of_some hreading, hdrop, hn]
  refine ⟨rfl, token, hitem, ?_⟩
  have hfound : (reading.map some).result = .ok (some token.toLexeme) := by
    rw [Reading.map, result_of_nextToken hreading hitem]
    rfl
  rw [← hread, Front.read_backslash_backslash] at hfound
  obtain ⟨text, -, heq⟩ := Reading.result_map hfound
  rw [← Option.some.inj heq]
  rfl

/-- The lexer of another text on the line behind the text of a lexer. -/
def onNextLine (text : List Char) (lexer : Lexer) : Lexer :=
  ⟨lexer.config,
    ⟨text, lexer.cursor.place.afterText lexer.config.tabSize (lexer.cursor.rest ++ ['\n'])⟩, false⟩

theorem onNextLine_nextToken (text : List Char) (lexer : Lexer) :
    lexer.nextToken.2.onNextLine text = lexer.onNextLine text := by
  have hcovers := lexer.covers
  simp only [onNextLine, hcovers.config, hcovers.place, ← Place.afterText_append,
    ← List.append_assoc]
  rw [← hcovers.rest]

/-- Behind the last token, all that stands in front of the next line is trivia. -/
theorem nextToken_extend_line {lexer : Lexer} (hdone : lexer.done = false)
    (h : (Upcoming.ofText lexer.cursor.rest).reading = none) (text : List Char) :
    (lexer.extend ('\n' :: text)).nextToken = (lexer.onNextLine text).nextToken := by
  have htrivia := Upcoming.trivia_gap lexer.cursor.rest
  rw [Upcoming.gap_of_reading_eq_none h, List.take_length, List.drop_length] at htrivia
  have hbreak : Trivia ['\n'] text := .blank (by decide) .nil
  have hline : Trivia lexer.cursor.rest (['\n'] ++ text) :=
    htrivia.append_right (Or.inr (lineEndHead_line text))
  have hgap : Trivia (lexer.cursor.rest ++ ['\n']) text := hline.append hbreak
  have hrest : (lexer.extend ('\n' :: text)).cursor.rest = lexer.cursor.rest ++ ['\n'] ++ text := by
    rw [List.append_assoc]
    rfl
  have hskip : (lexer.extend ('\n' :: text)).skip (lexer.cursor.rest ++ ['\n']).length =
      lexer.onNextLine text := by
    simp only [skip, Cursor.skip, hrest, List.drop_left, List.take_left, onNextLine]
    rw [← hdone]
    rfl
  rw [nextToken_of_trivia hrest hgap, hskip]

/-- A token that does not end the text in a text block is read alike in front of a line break. -/
theorem nextToken_extend_token {lexer : Lexer} {token : Token}
    (hitem : lexer.nextToken.1 = .ok token) (hend : isEnd lexer.nextToken.1 = false)
    (hblock : ¬ lexer.EndsInTextBlock) (text : List Char) :
    (lexer.extend ('\n' :: text)).nextToken =
      (.ok token, lexer.nextToken.2.extend ('\n' :: text)) := by
  obtain ⟨reading, hreading⟩ := reading_of_not_isEnd hend
  have hok : reading.result.isOk = true := by
    rw [result_of_nextToken hreading hitem]
    rfl
  rw [← hitem]
  apply nextToken_extend hreading
  apply Upcoming.ofText_append_of_room hreading
  · exact Or.inr ⟨hok, lineEndHead_line text⟩
  · intro more hdrop
    have hle := Upcoming.gap_add_length_le hreading
    by_contra hlt
    apply hblock
    apply endsInTextBlock_of_rest hend (isTextBlock_segment hreading hitem hdrop)
    rw [nextToken_of_some hreading, Cursor.rest_skip]
    exact List.drop_of_length_le (by omega)

theorem tokens_extend_line {lexer : Lexer} (hdone : lexer.done = false) {tokens : List Token}
    (h : lexer.tokens = .ok tokens) (hblock : ¬ lexer.EndsInTextBlock) (text : List Char) :
    (lexer.extend ('\n' :: text)).tokens = (lexer.onNextLine text).tokens.map (tokens ++ ·) := by
  -- A pull leads from one lexer to the next with one token fewer and the same next line.
  induction tokens generalizing lexer with
  | nil =>
    rcases token_of_tokens hdone h with ⟨hend, -⟩ | ⟨_, _, -, -, -, heq⟩
    · have hnext := nextToken_extend_line hdone (reading_of_isEnd hend) text
      rw [@tokens_congr (lexer.extend _) _ hdone rfl hnext]
      cases (lexer.onNextLine text).tokens <;> rfl
    · cases heq
  | cons token later ih =>
    rcases token_of_tokens hdone h with ⟨-, hnil⟩ | ⟨_, _, hitem, hend, hlater, heq⟩
    · cases hnil
    · obtain ⟨rfl, rfl⟩ := List.cons.inj heq
      have hpull : isEnd lexer.nextToken.1 = false := by rw [hitem]; exact hend
      have hnext := nextToken_extend_token hitem hpull hblock text
      have hrest := ih ((done_nextToken lexer).trans hdone) hlater
        fun hafter => hblock (.of_nextToken hpull hafter)
      rw [@tokens_of_token (lexer.extend _) token hdone (congrArg Prod.fst hnext) hend, hnext,
        hrest, onNextLine_nextToken]
      cases (lexer.onNextLine text).tokens <;> rfl

/-- A source behind a line break is read as it is by itself, so many rows further down, and the tokens in
front of the line break stay as they are, unless a text block takes it up. -/
theorem tokenize_append_line (config : Config) (first second : String) {tokens : List Token}
    (hfirst : tokenize config first = .ok tokens)
    (hblock : ¬ (ofSource config first).EndsInTextBlock)
    (hrows : first.toList.count '\n' + second.toList.count '\n' + 2 ≤ ceiling) :
    tokenize config (first ++ "\n" ++ second) =
      match tokenize config second with
      | .ok later => .ok (tokens ++ later.map (Token.down (1 + first.toList.count '\n')))
      | .error error => .error (error.down (1 + first.toList.count '\n')) := by
  have hplace : Place.start.afterText config.tabSize (first.toList ++ ['\n']) =
      Place.start.down (1 + first.toList.count '\n') := by
    have hstart : Place.start.row = 1 := rfl
    have hrow : (Place.start.afterText config.tabSize first.toList).row =
        Place.start.row + first.toList.count '\n' := Place.row_afterText (by omega)
    rw [Place.afterText_append]
    show Place.after config.tabSize (Place.start.afterText config.tabSize first.toList) '\n' = _
    rw [Place.after, if_pos rfl, hrow, Nat.min_eq_right (by omega), Place.down, Nat.add_assoc,
      Nat.add_comm _ 1]
    rfl
  have hlexer : (ofSource config first).onNextLine second.toList =
      (ofSource config second).down (1 + first.toList.count '\n') :=
    congrArg (fun place => (⟨config, ⟨second.toList, place⟩, false⟩ : Lexer)) hplace
  have hlast : (ofSource config second).lastRow + (1 + first.toList.count '\n') ≤ ceiling := by
    show 1 + second.toList.count '\n' + (1 + first.toList.count '\n') ≤ ceiling
    omega
  have hextend := tokens_extend_line rfl hfirst hblock second.toList
  rw [hlexer, tokens_down rfl hlast] at hextend
  have hsource : ofSource config (first ++ "\n" ++ second) =
      (ofSource config first).extend ('\n' :: second.toList) := by
    rw [String.append_assoc, ofSource_append, String.toList_append]
    rfl
  rw [tokenize, tokenize, hsource, hextend]
  cases (ofSource config second).tokens <;> rfl

/-- A documentation line ends at the line break. -/
theorem tokenize_append_line_documentation :
    let line : Token := ⟨⟨.value .documentation, "d"⟩, ⟨1, 1, 5⟩⟩
    tokenize .standard "/// d" = .ok [line] ∧
    ¬ (ofSource .standard "/// d").EndsInTextBlock ∧
    "/// d".toList.count '\n' + "y".toList.count '\n' + 2 ≤ ceiling ∧
    tokenize .standard ("/// d" ++ "\n" ++ "y") =
      .ok [line, ⟨⟨.value .ident, "y"⟩, ⟨2, 1, 1⟩⟩] := by
  intro line
  have hfirst : tokenize .standard "/// d" = .ok [line] := by
    rw [tokenize, tokens_eq_mapM_steps rfl]
    cbv
  have hsecond : tokenize .standard "y" = .ok [⟨⟨.value .ident, "y"⟩, ⟨1, 1, 1⟩⟩] := by
    rw [tokenize, tokens_eq_mapM_steps rfl]
    cbv
  have hsegments : (ofSource .standard "/// d").segments =
      [⟨[], "/// d".toList, .ok line⟩, ⟨[], [], .ok (.endOfInput ⟨1, 6⟩)⟩] := by cbv
  have hblock : ¬ (ofSource .standard "/// d").EndsInTextBlock := by
    rintro ⟨earlier, block, last, hlast, hblock, -⟩
    rw [hsegments] at hlast
    have hnil : earlier = [] := by
      have hlength := congrArg List.length hlast
      simpa using hlength
    subst hnil
    obtain ⟨rfl, -⟩ := List.cons.inj hlast
    exact absurd hblock.1 (by decide)
  have hrows : "/// d".toList.count '\n' + "y".toList.count '\n' + 2 ≤ ceiling := by decide
  refine ⟨hfirst, hblock, hrows, ?_⟩
  rw [tokenize_append_line .standard "/// d" "y" hfirst hblock hrows, hsecond]
  rfl

end Lexer

end Lexis
