import Lexis.Proofs.Places
import Lexis.Proofs.Tokens
import Lexis.Proofs.Unknown

/-!
# Rendered errors

The rows that a lexer counts on the way are the lines that a report splits the source into, so the report of an
error shows the line that its token starts on, with the carets under the token. No message of a source spans two
lines, since the one character that a message names is no white space. Main statement: `LexError.splitOn_render`.
-/

namespace Lexis

open Text

/-! ### The lines of a text -/

/-- The line that the place between two texts stands on. -/
def lineAround (front more : List Char) : List Char :=
  lastLine front ++ more.takeWhile (· != '\n')

theorem line_not_mem_lineAround (front more : List Char) : '\n' ∉ lineAround front more := by
  simp only [lineAround, lastLine, List.mem_append, not_or]
  exact ⟨fun h => by simpa using List.mem_rtakeWhile_imp h, fun h => by simpa using List.mem_takeWhile_imp h⟩

theorem length_splitOn_line (text : List Char) :
    (text.splitOn '\n').length = text.count '\n' + 1 := by
  induction text with
  | nil => rfl
  | cons c rest ih =>
    rw [List.splitOn_cons_eq_if_modifyHead]
    by_cases hc : c = '\n'
    · subst hc
      rw [if_pos (beq_self_eq_true _), List.length_cons, ih, List.count_cons_self]
    · rw [if_neg (by simpa using hc), List.length_modifyHead, ih, List.count_cons_of_ne hc]

theorem head?_splitOn_line (text : List Char) :
    (text.splitOn '\n').head? = some (text.takeWhile (· != '\n')) := by
  induction text with
  | nil => rfl
  | cons c rest ih =>
    rw [List.splitOn_cons_eq_if_modifyHead]
    by_cases hc : c = '\n'
    · subst hc
      rfl
    · rw [if_neg (by simpa using hc), List.head?_modifyHead, ih,
        List.takeWhile_cons_of_pos (by simpa using hc)]
      rfl

/-- The line feeds in front of a character tell the number of the line that it stands on. -/
theorem getElem?_splitOn_line (front more : List Char) :
    ((front ++ more).splitOn '\n')[front.count '\n']? = some (lineAround front more) := by
  unfold lineAround
  induction front using List.reverseRecOn generalizing more with
  | nil =>
    rw [List.nil_append, List.count_nil, ← List.head?_eq_getElem?, head?_splitOn_line]
    rfl
  | append_singleton front c ih =>
    rw [List.append_assoc, List.singleton_append, List.count_append]
    by_cases hc : c = '\n'
    · subst hc
      rw [List.count_singleton_self, List.splitOn_append_cons_self, ← length_splitOn_line,
        List.getElem?_append_right (Nat.le_refl _), Nat.sub_self, ← List.head?_eq_getElem?,
        head?_splitOn_line, lastLine_concat_line]
      rfl
    · rw [List.count_singleton, if_neg (by simpa using hc), Nat.add_zero, ih, lastLine_concat hc,
        List.takeWhile_cons_of_pos (by simpa using hc), List.append_assoc]
      rfl

/-! ### Reports -/

namespace LexError

/-- The first line of a report. -/
def header (error : LexError) : List Char :=
  s!"at line [{error.position.row},{error.position.col}]:".toList

/-- The last line of a report. -/
def footer (error : LexError) : List Char := "    ".toList ++ error.toString.toList

/-- The lines of a report that shows a line of the source. -/
def report (error : LexError) (line : List Char) : List (List Char) :=
  [error.header, line.map fun c => if c = '\t' then ' ' else c,
    List.replicate (error.position.col - 1) ' ' ++ List.replicate (max error.position.len 1) '^',
    error.footer]

/-- The lines of a report that shows none. -/
def brief (error : LexError) : List (List Char) := [error.header, error.footer]

variable {error : LexError} {source : String}

theorem sourceLine?_eq_some_iff {row : Nat} {line : List Char} :
    sourceLine? source row = some line ↔
      1 ≤ row ∧ (source.toList.splitOn '\n')[row - 1]? = some line := by
  unfold sourceLine?
  split
  · rename_i hrow
    simp [hrow]
  · rename_i hrow
    simp [Nat.one_le_iff_ne_zero, hrow]

theorem isSome_sourceLine?_iff {row : Nat} :
    (sourceLine? source row).isSome = true ↔ 1 ≤ row ∧ row ≤ 1 + source.toList.count '\n' := by
  rw [Option.isSome_iff_exists]
  simp only [sourceLine?_eq_some_iff, exists_and_left]
  refine and_congr_right fun hrow => ?_
  rw [← Option.isSome_iff_exists, isSome_getElem?, length_splitOn_line]
  omega

theorem toList_header_append (error : LexError) :
    s!"at line [{error.position.row},{error.position.col}]:\n".toList = error.header ++ ['\n'] := by
  simp only [header, String.toList_append, List.append_assoc]
  rfl

theorem toList_render_of_some {line : List Char} (h : sourceLine? source error.position.row = some line) :
    (error.render source).toList = ['\n'].intercalate (error.report line) := by
  unfold render
  rw [h, String.toList_append, String.toList_append, String.toList_append, toList_header_append]
  simp [report, footer, shownLine, carets, List.intercalate]

theorem toList_render_of_none (h : sourceLine? source error.position.row = none) :
    (error.render source).toList = ['\n'].intercalate error.brief := by
  unfold render
  rw [h, String.toList_append, String.toList_append, String.toList_append, toList_header_append]
  simp [brief, footer, List.intercalate]

/-- A report that shows a line is longer than one that shows none. -/
theorem intercalate_report_ne (line : List Char) :
    ['\n'].intercalate (error.report line) ≠ ['\n'].intercalate error.brief := by
  have hlt : (['\n'].intercalate error.brief).length < (['\n'].intercalate (error.report line)).length := by
    simp only [report, brief, List.intercalate, List.intersperse_cons_cons, List.intersperse_singleton,
      List.flatten_cons, List.flatten_nil, List.append_nil, List.length_append, List.length_singleton]
    omega
  intro h
  rw [h] at hlt
  exact Nat.lt_irrefl _ hlt

/-! ### Lines of reports -/

theorem line_not_mem_header (error : LexError) : '\n' ∉ error.header := by
  have hdigits := @not_mem_toString '\n' rfl
  simp only [header, String.toList_append, List.mem_append, not_or]
  exact ⟨⟨⟨⟨by decide, hdigits _⟩, by decide⟩, hdigits _⟩, by decide⟩

/-- A message names at most one character, and it is one line where this is no line feed. -/
theorem line_not_mem_message {fault : Fault} (h : ∀ c, fault = .unknownCharacter c → c ≠ '\n') :
    '\n' ∉ fault.message.toList := by
  cases fault with
  | unknownCharacter c =>
    have hmessage : (Fault.unknownCharacter c).message =
        "Unknown character '" ++ String.singleton c ++ "'" := rfl
    rw [hmessage, String.toList_append, String.toList_append, String.toList_singleton]
    simp only [List.mem_append, List.mem_singleton, not_or]
    exact ⟨⟨by decide, (h c rfl).symm⟩, by decide⟩
  | unterminatedExtendedIdentifier boundary => cases boundary <;> decide +kernel
  | _ => decide +kernel

theorem line_not_mem_footer (h : ∀ c, error.fault = .unknownCharacter c → c ≠ '\n') :
    '\n' ∉ error.footer := by
  simp only [footer, LexError.toString, String.toList_append, List.mem_append, not_or]
  exact ⟨by decide, by decide, line_not_mem_message h⟩

theorem line_not_mem_report (h : ∀ c, error.fault = .unknownCharacter c → c ≠ '\n') {line : List Char}
    (hline : '\n' ∉ line) : ∀ shown ∈ error.report line, '\n' ∉ shown := by
  have htabs : '\n' ∉ line.map fun c => if c = '\t' then ' ' else c := by
    rw [List.mem_map]
    rintro ⟨c, hc, hshown⟩
    split at hshown
    · cases hshown
    · exact hline (hshown ▸ hc)
  have hcarets : '\n' ∉ List.replicate (error.position.col - 1) ' ' ++
      List.replicate (max error.position.len 1) '^' := by
    simp
  simp only [report, List.forall_mem_cons, List.not_mem_nil, false_imp_iff, implies_true, and_true]
  exact ⟨error.line_not_mem_header, htabs, hcarets, line_not_mem_footer h⟩

end LexError

namespace Lexer

variable {lexer : Lexer}

/-- What a pull reads starts with a character that is no white space. -/
theorem exists_span (hend : isEnd lexer.nextToken.1 = false) :
    ∃ c after, lexer.segment.span = c :: after ∧ isBlank c = false := by
  obtain ⟨reading, hreading⟩ := reading_of_not_isEnd hend
  obtain ⟨c, rest, hdrop, hread⟩ := Upcoming.front_of_reading hreading
  obtain ⟨n, hn⟩ := Nat.exists_eq_add_of_le' (Upcoming.gap_lt_length hreading).2
  refine ⟨c, rest.take n, ?_, ?_⟩
  · rw [segment_of_some hreading, hdrop, hn, List.take_succ_cons]
  · by_contra hblank
    rw [Front.read_blank (by simpa using hblank)] at hread
    have hresult := congrArg Reading.result hread
    obtain ⟨result, length⟩ := reading
    cases result <;> cases hresult

/-- The first error of a text is the item of a segment behind tokens alone. -/
theorem segment_of_tokens {error : LexError} (hdone : lexer.done = false)
    (h : lexer.tokens = .error error) :
    ∃ earlier segment later, lexer.segments = earlier ++ segment :: later ∧
      segment.item = .error error ∧ ∀ other ∈ earlier, other.item.isOk = true := by
  induction lexer using pull_induction with
  | stop lexer hend =>
    rw [tokens_of_isEnd hdone hend] at h
    cases h
  | error lexer other hitem _ =>
    rw [tokens_of_error hdone hitem] at h
    cases h
    refine ⟨[], lexer.segment, lexer.nextToken.2.segments, ?_, hitem, by simp⟩
    exact segments_of_not_isEnd (by rw [hitem]; rfl)
  | token lexer token hitem hend ih =>
    have hpull : isEnd lexer.nextToken.1 = false := by
      rw [hitem]
      exact hend
    rw [tokens_of_token hdone hitem hend] at h
    cases hlater : lexer.nextToken.2.tokens with
    | ok tokens =>
      rw [hlater] at h
      cases h
    | error other =>
      rw [hlater] at h
      cases h
      obtain ⟨earlier, segment, later, hsegments, herror, hearlier⟩ :=
        ih ((done_nextToken lexer).trans hdone) hlater
      refine ⟨lexer.segment :: earlier, segment, later, ?_, herror, ?_⟩
      · rw [segments_of_not_isEnd hpull, hsegments]
        rfl
      · intro other hother
        rcases List.mem_cons.1 hother with rfl | hother
        · rw [item_segment, hitem]
          rfl
        · exact hearlier other hother

/-- No character that a pull reports as unknown is a line feed. -/
theorem ne_line_of_unknown {error : LexError} (h : lexer.nextToken.1 = .error error) :
    ∀ c, error.fault = .unknownCharacter c → c ≠ '\n' := by
  obtain ⟨fault, position⟩ := error
  rintro c rfl
  obtain ⟨-, -, -, -, -, -, -, hblank⟩ := isUnknown_of_nextToken h
  rintro rfl
  cases hblank

end Lexer

namespace Place

/-- Where no counter reaches the ceiling, the row of a place is the number of its line. -/
theorem row_behind {tab : Nat} {front : List Char} (h : front.length < ceiling) :
    (behind tab front).row = 1 + front.count '\n' := by
  have hcount : front.count '\n' ≤ front.length := List.count_le_length
  exact Nat.min_eq_right (by omega)

/-- Where no tab stands in front of it, the column of a place is told by the characters in front of it. -/
theorem col_behind {tab : Nat} {front : List Char} (h : front.length < ceiling)
    (htab : '\t' ∉ lastLine front) : (behind tab front).col = 1 + (lastLine front).length := by
  have hwidth : width tab (lastLine front) = (lastLine front).length := by
    have hone : (lastLine front).map (fun c => if c = '\t' then tab else 1) =
        (lastLine front).map fun _ => 1 := by
      apply List.map_congr_left
      intro c hc
      have hne : c ≠ '\t' := by
        rintro rfl
        exact htab hc
      exact if_neg hne
    rw [width, hone]
    simp
  have hle : (lastLine front).length ≤ front.length :=
    (List.rtakeWhile_suffix (· != '\n') front).length_le
  rw [behind, hwidth]
  exact Nat.min_eq_right (by omega)

end Place

namespace LexError

section Failing

variable {config : Config} {source : String} {earlier later : List Segment} {segment : Segment}
  {error : LexError} (hlength : source.length < ceiling)
  (hsegments : (Lexer.ofSource config source).segments = earlier ++ segment :: later)
  (hitem : segment.item = .error error)

include hlength hsegments in
theorem length_front_lt : (earlier.flatMap Segment.text ++ segment.gap).length < ceiling := by
  obtain ⟨htext, -⟩ := Lexer.source_of_segments hsegments
  have hle := congrArg List.length htext
  rw [List.length_append, String.length_toList] at hle
  omega

include hsegments hitem in
theorem position_of_segments_error : error.position =
    (Place.behind config.tabSize (earlier.flatMap Segment.text ++ segment.gap)).position
      segment.span.length := by
  obtain ⟨-, hposition⟩ := Lexer.source_of_segments hsegments
  rw [hitem, Place.afterText_start] at hposition
  exact hposition

include hlength hsegments hitem

/-- The line that an error of a run names is the one that its token starts on. -/
theorem sourceLine?_of_segments : sourceLine? source error.position.row =
    some (lineAround (earlier.flatMap Segment.text ++ segment.gap)
      (segment.span ++ later.flatMap Segment.text)) := by
  obtain ⟨htext, -⟩ := Lexer.source_of_segments hsegments
  have hrow : error.position.row =
      1 + (earlier.flatMap Segment.text ++ segment.gap).count '\n' := by
    have hrow := @Place.row_behind config.tabSize _ (length_front_lt hlength hsegments)
    rw [position_of_segments_error hsegments hitem, ← hrow]
    rfl
  rw [sourceLine?_eq_some_iff, hrow, htext, Nat.add_sub_cancel_left]
  exact ⟨Nat.le_add_right 1 _, getElem?_splitOn_line _ _⟩

/-- Behind a front without tabs, the first caret stands under the first character of the token. -/
theorem getElem?_shown_of_segments {c : Char} {after : List Char} (hspan : segment.span = c :: after)
    (hblank : isBlank c = false) (htab : '\t' ∉ lastLine (earlier.flatMap Segment.text ++ segment.gap)) :
    ((lineAround (earlier.flatMap Segment.text ++ segment.gap)
      (segment.span ++ later.flatMap Segment.text)).map
        fun c => if c = '\t' then ' ' else c)[error.position.col - 1]? = some c := by
  have hcol : error.position.col - 1 =
      (lastLine (earlier.flatMap Segment.text ++ segment.gap)).length := by
    rw [position_of_segments_error hsegments hitem, Place.position,
      Place.col_behind (length_front_lt hlength hsegments) htab, Nat.add_sub_cancel_left]
  have hline : c ≠ '\n' := by
    rintro rfl
    cases hblank
  have hctab : c ≠ '\t' := by
    rintro rfl
    cases hblank
  rw [lineAround, List.getElem?_map, hcol, List.getElem?_append_right (Nat.le_refl _), Nat.sub_self,
    hspan, List.cons_append, List.takeWhile_cons_of_pos (by simpa using hline), List.getElem?_cons_zero,
    Option.map_some, if_neg hctab]

end Failing

/-- A report shows a line of the source exactly if the source has a line of that row. -/
theorem toList_render_iff (error : LexError) (source : String) :
    let shown := 1 ≤ error.position.row ∧ error.position.row ≤ 1 + source.toList.count '\n'
    ((∃ line, (source.toList.splitOn '\n')[error.position.row - 1]? = some line ∧
      (error.render source).toList = ['\n'].intercalate (error.report line)) ↔ shown) ∧
    ((error.render source).toList = ['\n'].intercalate error.brief ↔ ¬ shown) := by
  intro shown
  have hiff : (sourceLine? source error.position.row).isSome = true ↔ shown := isSome_sourceLine?_iff
  cases hsource : sourceLine? source error.position.row with
  | none =>
    rw [hsource] at hiff
    have hshown : ¬ shown := fun h => absurd (hiff.2 h) Bool.false_ne_true
    have hrender := toList_render_of_none hsource
    refine ⟨⟨?_, fun h => absurd h hshown⟩, ⟨fun _ => hshown, fun _ => hrender⟩⟩
    rintro ⟨line, -, hreport⟩
    exact absurd (hreport.symm.trans hrender) (intercalate_report_ne line)
  | some line =>
    have hshown : shown := hiff.1 (by rw [hsource]; rfl)
    have hrender := toList_render_of_some hsource
    refine ⟨⟨fun _ => hshown, fun _ => ⟨line, (sourceLine?_eq_some_iff.1 hsource).2, hrender⟩⟩,
      ⟨fun hbrief => ?_, fun h => absurd hshown h⟩⟩
    exact absurd (hrender.symm.trans hbrief) (intercalate_report_ne line)

/-- The report of the error that a source is refused with has four lines: the row and the column of the error,
the line of the source that the row names, with a space for each tab, as many carets as the error takes up
characters, from its column on, and the message. The error is that of the first token that is malformed, and where
no tab stands in front of this token on its line, the first caret is under its first character. Whatever error is
rendered against whatever source, a line of the source is shown exactly if the source has a line of that row. -/
theorem splitOn_render :
    (∀ (config : Config) (source : String) (error : LexError), source.length < ceiling →
      tokenize config source = .error error →
      let position := error.position
      ∃ line, 1 ≤ position.row ∧ (source.toList.splitOn '\n')[position.row - 1]? = some line ∧
        1 ≤ position.len ∧
        (error.render source).toList.splitOn '\n' =
          [s!"at line [{position.row},{position.col}]:".toList,
            line.map fun c => if c = '\t' then ' ' else c,
            List.replicate (position.col - 1) ' ' ++ List.replicate position.len '^',
            "    ".toList ++ error.toString.toList] ∧
        ∃ earlier segment later,
          let front := earlier.flatMap Segment.text ++ segment.gap
          (Lexer.ofSource config source).segments = earlier ++ segment :: later ∧
          source.toList = front ++ (segment.span ++ later.flatMap Segment.text) ∧
          segment.item = .error error ∧ (∀ other ∈ earlier, other.item.isOk = true) ∧
          ('\t' ∉ lastLine front →
            ∃ c after, segment.span = c :: after ∧
              (line.map fun c => if c = '\t' then ' ' else c)[position.col - 1]? = some c)) ∧
    (∀ (error : LexError) (source : String),
      let shown := 1 ≤ error.position.row ∧ error.position.row ≤ 1 + source.toList.count '\n'
      ((∃ line, (source.toList.splitOn '\n')[error.position.row - 1]? = some line ∧
        (error.render source).toList = ['\n'].intercalate (error.report line)) ↔ shown) ∧
      ((error.render source).toList = ['\n'].intercalate error.brief ↔ ¬ shown)) := by
  refine ⟨?_, toList_render_iff⟩
  intro config source error hlength h position
  obtain ⟨earlier, segment, later, hsegments, hitem, hearlier⟩ := Lexer.segment_of_tokens rfl h
  have hpull : ((Lexer.ofSource config source).pulled earlier.length).nextToken.1 = .error error := by
    rw [(Lexer.covers_of_segments hsegments).1.pull, hitem]
  obtain ⟨c, after, hspan, hblank⟩ :=
    @Lexer.exists_span ((Lexer.ofSource config source).pulled earlier.length) (by rw [hpull]; rfl)
  rw [← Lexer.eq_segment_pulled hsegments] at hspan
  have hlen := Lexer.one_le_len_of_error hpull
  have hsource := sourceLine?_of_segments hlength hsegments hitem
  obtain ⟨hrow, hline⟩ := sourceLine?_eq_some_iff.1 hsource
  obtain ⟨htext, -⟩ := Lexer.source_of_segments hsegments
  refine ⟨_, hrow, hline, hlen, ?_, earlier, segment, later, hsegments, htext, hitem, hearlier, ?_⟩
  · have hunknown := Lexer.ne_line_of_unknown hpull
    rw [toList_render_of_some hsource, List.splitOn_intercalate _
      (line_not_mem_report hunknown (line_not_mem_lineAround _ _)) (by simp [report]), report,
      Nat.max_eq_left hlen]
    rfl
  · intro htab
    exact ⟨c, after, hspan, getElem?_shown_of_segments hlength hsegments hitem hspan hblank htab⟩

/-- A number without digits in the second line, behind a line with a tab and in front of a tab. -/
theorem splitOn_render_second_line :
    let source := "\t\n 0x\tz"
    let error : LexError := ⟨.invalidHexNumber, ⟨2, 2, 2⟩⟩
    source.length < ceiling ∧ tokenize .standard source = .error error ∧
    (error.render source).toList.splitOn '\n' =
      ["at line [2,2]:".toList, " 0x z".toList, " ^^".toList,
        "    LexerError: Invalid hex number".toList] ∧
    '\t' ∉ lastLine "\t\n ".toList ∧ " 0x z".toList[1]? = some '0' := by
  intro source error
  have hlength : source.length < ceiling := by decide
  have htokenize : tokenize .standard source = .error error := by
    rw [tokenize, Lexer.tokens_eq_mapM_steps rfl]
    cbv
  obtain ⟨line, -, hline, -, hrender, earlier, segment, later, hsegments, -, -, hearlier, hcaret⟩ :=
    splitOn_render.1 .standard source error hlength htokenize
  have hsecond : (source.toList.splitOn '\n')[error.position.row - 1]? = some " 0x\tz".toList := by
    decide
  obtain rfl : " 0x\tz".toList = line := Option.some.inj (hsecond.symm.trans hline)
  have hfirst : (Lexer.ofSource .standard source).segment =
      ⟨"\t\n ".toList, "0x".toList, .error error⟩ := by
    cbv
  have hend : Lexer.isEnd (Lexer.ofSource .standard source).nextToken.1 = false := by
    rw [← Lexer.item_segment, hfirst]
    rfl
  rw [Lexer.segments_of_not_isEnd hend, hfirst] at hsegments
  have htab : '\t' ∉ lastLine "\t\n ".toList := by decide
  refine ⟨hlength, htokenize, ?_, htab, ?_⟩
  · rw [hrender]
    decide
  · cases earlier with
    | nil =>
      obtain ⟨rfl, -⟩ := List.cons.inj hsegments
      obtain ⟨c, after, hspan, hc⟩ := hcaret htab
      obtain ⟨rfl, -⟩ := List.cons.inj hspan
      exact hc
    | cons other earlier =>
      obtain ⟨rfl, -⟩ := List.cons.inj hsegments
      cases hearlier _ List.mem_cons_self

end LexError

end Lexis
