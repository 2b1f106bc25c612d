import Lexis.Proofs.Lookahead.Front
import Lexis.Proofs.Tokens

/-!
# Tokens by themselves

What ends a token behind its last character, be it a character of another class, a second one behind it or
the next line of a text block, ends it as the end of the text does. So the characters that a token was read
from are read as this token when nothing else is there. Main statement: `Lexer.tokenize_span`.
-/

namespace Lexis

open Text

namespace TextBlock

theorem eq_nil_of_length_read {text : List Char} (h : (read text).length = 0) : text = [] := by
  cases text with
  | nil => rfl
  | cons c rest =>
    exfalso
    by_cases hback : c = '\\'
    · subst hback
      have hone := Escape.one_le_length_read rest
      rw [read_escape, Reading.length_cons] at h
      omega
    · by_cases hline : c = '\n'
      · subst hline
        have hone := indent_lt_length_read rest
        omega
      · rw [read_verbatim hback hline, Reading.length_cons] at h
        simp only [Piece.verbatim] at h
        omega

section

variable {front rest : List Char}
  (ih : ∀ tail : List Char, tail.length ≤ front.length →
    (read (tail ++ rest)).result.isOk = true → (read (tail ++ rest)).length = tail.length →
    read tail = read (tail ++ rest))

include ih

theorem read_front_escape (hrest : rest ≠ [])
    (hok : (read ('\\' :: (front ++ rest))).result.isOk = true)
    (h : (read ('\\' :: (front ++ rest))).length = front.length + 1) :
    read ('\\' :: front) = read ('\\' :: (front ++ rest)) := by
  rw [read_escape, Reading.isOk_cons] at hok
  rw [read_escape, Reading.length_cons] at h
  have hone := Escape.one_le_length_read (front ++ rest)
  have hle : (Escape.read (front ++ rest)).length - 1 ≤ front.length := by omega
  rw [List.drop_append_of_le_length hle] at hok h
  have htail := List.length_drop (i := (Escape.read (front ++ rest)).length - 1) (l := front)
  have hinner : (read (front.drop ((Escape.read (front ++ rest)).length - 1) ++ rest)).length =
      (front.drop ((Escape.read (front ++ rest)).length - 1)).length := by
    omega
  -- The text block ends in front of `rest`, so a line break stands behind the escape.
  have hstops : Escape.Stops (front.drop ((Escape.read (front ++ rest)).length - 1)) := by
    have hpos := List.length_pos_iff.2 hrest
    have hlt : (read (front.drop ((Escape.read (front ++ rest)).length - 1) ++ rest)).length <
        (front.drop ((Escape.read (front ++ rest)).length - 1) ++ rest).length := by
      rw [hinner, List.length_append]
      omega
    have hmem := mem_take_of_lt hlt
    rw [hinner, List.take_left] at hmem
    exact ⟨'\n', hmem, by decide⟩
  have hescape : Escape.read front = Escape.read (front ++ rest) := by
    rw [← @Escape.read_congr front rest [] hstops, List.append_nil]
  rw [read_escape, read_escape, hescape, List.drop_append_of_le_length hle,
    ih _ (by omega) hok hinner]

theorem read_front_line (hok : (read ('\n' :: (front ++ rest))).result.isOk = true)
    (h : (read ('\n' :: (front ++ rest))).length = front.length + 1) :
    read ('\n' :: front) = read ('\n' :: (front ++ rest)) := by
  have hlength := indent_lt_length_read (front ++ rest)
  rcases Nat.lt_or_ge ((front ++ rest).takeWhile isBlank).length front.length with hlt | hge
  · -- The indentation ends in front of a character that belongs to the text block.
    obtain ⟨indent, d, tail, rfl, hindent, hblank⟩ :=
      @exists_split_of_takeWhile isBlank front rest hlt
    rw [List.append_assoc, List.cons_append] at hok h
    rw [List.append_assoc, List.cons_append]
    by_cases hback : d = '\\'
    · subst hback
      by_cases hsecond : (tail ++ rest).head? = some '\\'
      · cases tail with
        | nil =>
          obtain ⟨more, rfl⟩ := List.head?_eq_some_iff.1 hsecond
          rw [List.nil_append, read_line_more hindent, Reading.length_cons, List.length_append,
            List.length_singleton] at h
          dsimp only at h
          omega
        | cons e tail =>
          cases hsecond
          rw [List.cons_append, read_line_more hindent] at hok h
          rw [Reading.isOk_cons] at hok
          rw [Reading.length_cons] at h
          simp only [List.length_append, List.length_cons] at h ih
          rw [List.cons_append, read_line_more hindent, read_line_more hindent,
            ih tail (by omega) hok (by omega)]
      · rw [read_line_fault hindent hsecond] at hok
        cases hok
    · rw [read_line_end hindent hblank hback, Reading.length_found, List.length_append,
        List.length_cons] at h
      omega
  · -- The indentation is what the text block ends with.
    have hrun : (front ++ rest).takeWhile isBlank = front := by
      have htake := take_length_takeWhile isBlank (front ++ rest)
      rw [show ((front ++ rest).takeWhile isBlank).length = front.length by omega,
        List.take_left] at htake
      exact htake.symm
    have hindent : ∀ c ∈ front, isBlank c = true := by
      intro c hc
      rw [← hrun] at hc
      exact List.mem_takeWhile_imp hc
    have hstop := stop_of_takeWhile isBlank (front ++ rest)
    rw [hrun, List.drop_left] at hstop
    cases rest with
    | nil => rw [List.append_nil]
    | cons d more =>
      by_cases hback : d = '\\'
      · subst hback
        have hlast := length_read_line_backslash hindent more
        omega
      · rw [read_line_nil hindent, read_line_end hindent (hstop d rfl) hback]

end

/-- A text block that is read up to the end of `front` is read alike where the text ends there. -/
theorem read_front (front rest : List Char) (hok : (read (front ++ rest)).result.isOk = true)
    (h : (read (front ++ rest)).length = front.length) : read front = read (front ++ rest) := by
  by_cases hrest : rest = []
  · rw [hrest, List.append_nil]
  induction hn : front.length using Nat.strong_induction_on generalizing front with
  | _ n ih =>
    subst hn
    cases front with
    | nil => exact absurd (eq_nil_of_length_read h) hrest
    | cons c front =>
      have hshorter : ∀ tail : List Char, tail.length ≤ front.length →
          (read (tail ++ rest)).result.isOk = true → (read (tail ++ rest)).length = tail.length →
          read tail = read (tail ++ rest) :=
        fun tail hlength hok htail => ih _ (Nat.lt_succ_of_le hlength) tail hok htail rfl
      rw [List.cons_append] at hok h
      rw [List.cons_append]
      by_cases hback : c = '\\'
      · subst hback
        exact read_front_escape hshorter hrest hok h
      · by_cases hline : c = '\n'
        · subst hline
          exact read_front_line hshorter hok h
        · rw [read_verbatim hback hline, Reading.isOk_cons] at hok
          rw [read_verbatim hback hline, Reading.length_cons, List.length_cons] at h
          simp only [Piece.verbatim] at h
          rw [read_verbatim hback hline, read_verbatim hback hline,
            hshorter front (Nat.le_refl _) hok (by omega)]

end TextBlock

namespace Front

/-- A well-formed front is read alike where the text ends with it. -/
theorem read_front {c : Char} {front rest : List Char}
    (hok : (read c (front ++ rest)).result.isOk = true)
    (h : (read c (front ++ rest)).length = (c :: front).length) :
    read c front = read c (front ++ rest) := by
  by_cases hblock : c = '\\' ∧ (front ++ rest).head? = some '\\'
  · obtain ⟨rfl, hnext⟩ := hblock
    cases front with
    | nil =>
      have htwo := two_le_length_read_backslash hnext
      rw [h, List.length_singleton] at htwo
      omega
    | cons d front =>
      cases hnext
      rw [List.cons_append, read_backslash_backslash] at hok h
      rw [Reading.isOk_shift, Reading.isOk_map] at hok
      rw [Reading.length_shift, Reading.length_map, List.length_cons, List.length_cons] at h
      rw [List.cons_append, read_backslash_backslash, read_backslash_backslash,
        TextBlock.read_front front rest hok (by omega)]
  · -- Nothing follows, and nothing is what any other front may be followed by.
    have hsettled : Settled c front rest [] := {
      reading := Or.inr ⟨hok, Nat.le_of_eq h, by rintro _ ⟨⟩⟩
      line := fun _ _ => Or.inr (by rintro _ ⟨⟩)
      block := fun hc hnext => absurd ⟨hc, hnext⟩ hblock }
    rw [← read_congr hsettled, List.append_nil]

end Front

namespace Upcoming

/-- The characters of a token that comes next hold this token and nothing else. -/
theorem ofText_span {text : List Char} {reading : Reading Lexeme}
    (h : (ofText text).reading = some reading) (hok : reading.result.isOk = true) :
    ofText ((text.drop (ofText text).gap).take reading.length) = ⟨0, some reading⟩ := by
  obtain ⟨c, rest, hdrop, hread⟩ := front_of_reading h
  have hone := (gap_lt_length h).2
  have hlength := Front.length_read_le c rest
  obtain ⟨n, hn⟩ := Nat.exists_eq_add_of_le' hone
  rw [hread, Reading.length_map, hn] at hlength
  rw [hdrop, hn, List.take_succ_cons]
  apply ofText_of_front
  have hwhole : rest.take n ++ rest.drop n = rest := List.take_append_drop n rest
  have hfront := @Front.read_front c (rest.take n) (rest.drop n)
  rw [hwhole, hread, Reading.isOk_map, Reading.length_map, hn, List.length_cons, List.length_take,
    Nat.min_eq_left (by omega)] at hfront
  exact hfront hok rfl

end Upcoming

namespace Lexer

theorem tokens_of_single {lexer : Lexer} {reading : Reading Lexeme} {token : Token}
    (hdone : lexer.done = false) (h : Upcoming.ofText lexer.cursor.rest = ⟨0, some reading⟩)
    (hlength : reading.length = lexer.cursor.rest.length)
    (hitem : reading.locate lexer.cursor.place = .ok token) : lexer.tokens = .ok [token] := by
  have hreading : (Upcoming.ofText lexer.cursor.rest).reading = some reading := by rw [h]
  have hnext := nextToken_of_some hreading
  rw [h] at hnext
  have hend : token.isEndOfInput = false := by
    have hlocate := isEnd_locate lexer.cursor.place hreading
    rw [hitem] at hlocate
    exact hlocate
  have hpull : lexer.nextToken.1 = .ok token := by
    rw [hnext]
    exact hitem
  have hrest : lexer.nextToken.2.cursor.rest = [] := by
    rw [hnext]
    dsimp only
    rw [Cursor.rest_skip, Nat.zero_add, hlength, List.drop_length]
  have hlast : isEnd lexer.nextToken.2.nextToken.1 = true := by
    have hnone : (Upcoming.ofText lexer.nextToken.2.cursor.rest).reading = none := by
      rw [hrest, Upcoming.ofText]
    rw [nextToken_of_none hnone]
    rfl
  rw [tokens_of_token hdone hpull hend, tokens_of_isEnd ((done_nextToken lexer).trans hdone) hlast]
  rfl

/-- A token of a run, also of one with errors, was read from characters that stand at its position, as many
as its length tells. Read by themselves, with whatever tab size, they are this token again and nothing
else. -/
theorem tokenize_span (config other : Config) (source : String) {segment : Segment} {token : Token}
    (h : segment ∈ (ofSource config source).segments) (hitem : segment.item = .ok token)
    (hend : token.isEndOfInput = false) :
    (ofSource config source).segments.map Segment.item = (ofSource config source).steps ∧
    (∃ front after, source.toList = front ++ (segment.span ++ after) ∧
      token.position =
        (Place.start.afterText config.tabSize front).position segment.span.length) ∧
    tokenize other (String.ofList segment.span) =
      .ok [⟨token.toLexeme, ⟨1, 1, token.position.len⟩⟩] := by
  obtain ⟨earlier, later, hsplit⟩ := List.append_of_mem h
  obtain ⟨hcovers, hconfig, hplace, hlater, -⟩ := covers_of_segments hsplit
  have hposition : token.position =
      (Place.start.afterText config.tabSize
        (earlier.flatMap Segment.text ++ segment.gap)).position segment.span.length := by
    have hposition := hcovers.position
    rw [hitem, hplace, hconfig, ← Place.afterText_append] at hposition
    exact hposition
  refine ⟨map_item_segments _,
    ⟨earlier.flatMap Segment.text ++ segment.gap, later.flatMap Segment.text, ?_, hposition⟩, ?_⟩
  · have htext : (ofSource config source).segments.flatMap Segment.text = source.toList :=
      flatMap_text_segments _
    rw [← htext, hsplit, List.flatMap_append, List.flatMap_cons, Segment.text, List.append_assoc,
      List.append_assoc]
  · have hsegment := eq_segment_pulled hsplit
    generalize (ofSource config source).pulled earlier.length = before at hsegment
    subst hsegment
    have hpull : isEnd before.nextToken.1 = false := by
      rw [← item_segment, hitem]
      exact hend
    obtain ⟨reading, hreading⟩ := reading_of_not_isEnd hpull
    have hresult : reading.result = .ok token.toLexeme := result_of_nextToken hreading hitem
    have hlength : before.segment.span.length = reading.length := by
      have hle := Upcoming.gap_add_length_le hreading
      rw [segment_of_some hreading, List.length_take, List.length_drop]
      omega
    have hspan : Upcoming.ofText before.segment.span = ⟨0, some reading⟩ := by
      rw [segment_of_some hreading]
      exact Upcoming.ofText_span hreading (by rw [hresult]; rfl)
    rw [hlength] at hposition
    refine @tokens_of_single (ofSource other (String.ofList before.segment.span)) reading _ rfl ?_ ?_ ?_
    · simpa [ofSource, ofText, Cursor.ofText] using hspan
    · simpa [ofSource, ofText, Cursor.ofText] using hlength.symm
    · rw [Reading.locate, hresult, hposition]
      rfl

/-- A text block that the next line ends, behind an error. -/
theorem tokenize_span_text_block :
    let token : Token := ⟨⟨.value .string, "a"⟩, ⟨1, 3, 6⟩⟩
    let block : Segment := ⟨[' '], "\\\\a\n  ".toList, .ok token⟩
    block ∈ (ofSource .standard "_ \\\\a\n  b").segments ∧ token.isEndOfInput = false ∧
    tokenize ⟨8, by decide⟩ (String.ofList block.span) =
      .ok [⟨⟨.value .string, "a"⟩, ⟨1, 1, 6⟩⟩] := by
  intro token block
  have hsegments : (ofSource .standard "_ \\\\a\n  b").segments =
      [⟨[], ['_'], .error ⟨.unknownCharacter '_', ⟨1, 1, 1⟩⟩⟩,
        ⟨[' '], "\\\\a\n  ".toList, .ok ⟨⟨.value .string, "a"⟩, ⟨1, 3, 6⟩⟩⟩,
        ⟨[], ['b'], .ok ⟨⟨.value .ident, "b"⟩, ⟨2, 3, 1⟩⟩⟩,
        ⟨[], [], .ok (.endOfInput ⟨2, 4⟩)⟩] := by cbv
  have hmem : block ∈ (ofSource .standard "_ \\\\a\n  b").segments := by
    rw [hsegments]
    exact List.mem_cons_of_mem _ List.mem_cons_self
  obtain ⟨-, -, halone⟩ :=
    tokenize_span .standard ⟨8, by decide⟩ "_ \\\\a\n  b" hmem rfl (by decide)
  exact ⟨hmem, by decide, halone⟩

end Lexer

end Lexis
