import Lexis.Proofs.Segments

/-!
# Places in closed form

A cursor keeps its row and its column up to date character by character, and both stop at the ceiling on
the way. They come out as if they were counted at the end: the line feeds in front of a character, and the
columns that the characters behind the last of these line feeds take up. Main statement:
`Lexer.position_of_segments`.
-/

namespace Lexis

/-- The characters of a text behind its last line feed. -/
def lastLine (text : List Char) : List Char := text.rtakeWhile (· != '\n')

/-- The columns that the characters of a line take up. -/
def width (tab : Nat) (line : List Char) : Nat :=
  (line.map fun c => if c = '\t' then tab else 1).sum

@[simp] theorem lastLine_concat_line (text : List Char) : lastLine (text ++ ['\n']) = [] :=
  List.rtakeWhile_concat_neg _ _ _ (by simp)

theorem lastLine_concat {c : Char} (h : c ≠ '\n') (text : List Char) :
    lastLine (text ++ [c]) = lastLine text ++ [c] :=
  List.rtakeWhile_concat_pos _ _ _ (by simpa using h)

@[simp] theorem width_nil (tab : Nat) : width tab [] = 0 := rfl

theorem width_concat (tab : Nat) (line : List Char) (c : Char) :
    width tab (line ++ [c]) = width tab line + if c = '\t' then tab else 1 := by
  simp [width]

theorem min_ceiling_add (m n : Nat) :
    min ceiling (min ceiling m + n) = min ceiling (m + n) := by
  omega

namespace Place

/-- The place behind a text that starts in the first row and the first column. -/
def behind (tab : Nat) (text : List Char) : Place :=
  ⟨min ceiling (1 + text.count '\n'), min ceiling (1 + width tab (lastLine text))⟩

theorem after_behind (tab : Nat) (text : List Char) (c : Char) :
    (behind tab text).after tab c = behind tab (text ++ [c]) := by
  by_cases hline : c = '\n'
  · subst hline
    simp only [after, behind, if_true, List.count_append, List.count_singleton_self,
      lastLine_concat_line, width_nil, min_ceiling_add, mk.injEq, Nat.add_assoc, true_and]
    decide
  · have hcount : (text ++ [c]).count '\n' = text.count '\n' := by
      rw [List.count_append, List.count_singleton, if_neg (by simpa using hline), Nat.add_zero]
    rw [behind, behind, hcount, lastLine_concat hline, width_concat, after, if_neg hline]
    -- A tab and any other character only differ in the columns that they add.
    split <;> simp only [min_ceiling_add, Nat.add_assoc]

/-- Counters that stop at the ceiling on the way come out as if they were cut off at the end. -/
theorem afterText_start (tab : Nat) (text : List Char) :
    start.afterText tab text = behind tab text := by
  induction text using List.reverseRecOn with
  | nil => rfl
  | append_singleton text c ih =>
    rw [afterText_append, ih]
    exact after_behind tab text c

end Place

namespace Lexer

theorem pulled_add (lexer : Lexer) (m n : Nat) :
    lexer.pulled (m + n) = (lexer.pulled m).pulled n := by
  induction m generalizing lexer with
  | zero => rw [Nat.zero_add]; rfl
  | succ m ih =>
    rw [Nat.add_right_comm]
    exact ih lexer.nextToken.2

/-- Where the text is used up, a pull hands out the end of the input and changes nothing. -/
theorem nextToken_of_rest_nil {lexer : Lexer} (h : lexer.cursor.rest = []) :
    lexer.nextToken = (.ok (.endOfInput lexer.cursor.place), lexer) := by
  have hnone : (Upcoming.ofText lexer.cursor.rest).reading = none := by
    rw [h, Upcoming.ofText]
  rw [nextToken_of_none hnone, h]
  rfl

theorem pulled_of_rest_nil {lexer : Lexer} (h : lexer.cursor.rest = []) (n : Nat) :
    lexer.pulled n = lexer := by
  induction n with
  | zero => rfl
  | succ n ih =>
    show lexer.nextToken.2.pulled n = lexer
    rw [nextToken_of_rest_nil h, ih]

/-- The end of the input is handed out again and again, at one position. -/
theorem nextToken_pulled_of_isEnd {lexer : Lexer} (h : isEnd lexer.nextToken.1 = true) (n : Nat) :
    (lexer.pulled n).nextToken = lexer.nextToken := by
  have hrest : lexer.nextToken.2.cursor.rest = [] := lexer.covers.stop h
  have hagain : lexer.nextToken.2.nextToken = lexer.nextToken := by
    rw [nextToken_of_rest_nil hrest, nextToken_of_none (reading_of_isEnd h)]
    simp only [Cursor.skip, List.take_length]
  cases n with
  | zero => rfl
  | succ n =>
    show (lexer.nextToken.2.pulled n).nextToken = lexer.nextToken
    rw [pulled_of_rest_nil hrest, hagain]

/-- The position of each item of a run, of a token, an error or the end of the input, is told by the
source in front of its first character alone, whatever was read there: the row by the line feeds, the
column by the characters behind the last line feed. The end of the input stands behind the whole source,
takes up nothing, and is handed out at this position for ever. -/
theorem position_of_segments (config : Config) (source : String) :
    let lexer := ofSource config source
    lexer.segments.map Segment.item = lexer.steps ∧
    ∀ earlier segment later, lexer.segments = earlier ++ segment :: later →
      let front := earlier.flatMap Segment.text ++ segment.gap
      source.toList = front ++ (segment.span ++ later.flatMap Segment.text) ∧
      segment.item.position.row = min ceiling (1 + front.count '\n') ∧
      segment.item.position.col = min ceiling (1 + width config.tabSize (lastLine front)) ∧
      (isEnd segment.item = true ↔ later = []) ∧
      (isEnd segment.item = true →
        front = source.toList ∧ segment.item.position.len = 0 ∧
        ∀ n, (lexer.pulled (earlier.length + n)).nextToken.1 = segment.item) := by
  intro lexer
  refine ⟨map_item_segments lexer, ?_⟩
  intro earlier segment later h front
  obtain ⟨hcovers, hconfig, hplace, hlater, hlast⟩ := covers_of_segments h
  have htext : source.toList = front ++ (segment.span ++ later.flatMap Segment.text) := by
    have htext : lexer.segments.flatMap Segment.text = source.toList := flatMap_text_segments lexer
    rw [← htext, h, List.flatMap_append, List.flatMap_cons, Segment.text, List.append_assoc,
      List.append_assoc]
  have hposition : segment.item.position =
      (Place.behind config.tabSize front).position segment.span.length := by
    rw [hcovers.position, hplace, hconfig, ← Place.afterText_append, ← Place.afterText_start]
    rfl
  refine ⟨htext, ?_, ?_, hlast, ?_⟩
  · rw [hposition]
    rfl
  · rw [hposition]
    rfl
  · intro hend
    have hspan : segment.span = [] := hcovers.span.2 hend
    have hpull : (lexer.pulled earlier.length).nextToken.1 = segment.item := by
      rw [hcovers.pull]
    refine ⟨?_, ?_, ?_⟩
    · rw [htext, hspan, hlast.1 hend]
      simp
    · rw [hposition, hspan]
      rfl
    · intro n
      rw [pulled_add, nextToken_pulled_of_isEnd (by rw [hpull, hend]), hpull]

/-- An unknown character behind a string that spans two rows stands behind the tab on the second one. -/
theorem position_of_segments_tab :
    let lexer := ofSource .standard "'\n\t' _"
    let string : Segment := ⟨[], "'\n\t'".toList, .ok ⟨⟨.value .string, "\n\t"⟩, ⟨1, 1, 4⟩⟩⟩
    let unknown : Segment := ⟨[' '], ['_'], .error ⟨.unknownCharacter '_', ⟨2, 7, 1⟩⟩⟩
    let last : Segment := ⟨[], [], .ok (.endOfInput ⟨2, 8⟩)⟩
    lexer.segments = [string] ++ unknown :: [last] ∧
    lexer.segments = [string, unknown] ++ last :: [] ∧
    unknown.item.position.row = min ceiling (1 + "'\n\t' ".toList.count '\n') ∧
    unknown.item.position.col = min ceiling (1 + width 4 (lastLine "'\n\t' ".toList)) ∧
    (lexer.pulled 9).nextToken.1 = last.item := by
  intro lexer string unknown last
  have hsegments : lexer.segments = [string] ++ unknown :: [last] := by cbv
  obtain ⟨-, hall⟩ := position_of_segments .standard "'\n\t' _"
  obtain ⟨-, hrow, hcol, -⟩ := hall _ _ _ hsegments
  obtain ⟨-, -, -, -, hend⟩ := hall [string, unknown] last [] hsegments
  exact ⟨hsegments, hsegments, hrow, hcol, (hend rfl).2.2 7⟩

end Lexer

end Lexis
