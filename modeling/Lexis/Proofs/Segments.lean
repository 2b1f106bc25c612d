import Mathlib
import Lexis.Lexer
import Lexis.Proofs.Trivia
import Lexis.Proofs.WellFormed

/-!
# The segments of a run

Each pull covers a segment of the text: the trivia that it passes over and the span of characters that
it reads. A lexer that is pulled again and again, past errors too, cuts the text into such segments.
Main statement: the segments partition the text exactly (`Lexer.segments_partition`).
-/

namespace Lexis

/-- What a pull covers, and what it hands out. -/
structure Segment where
  gap : List Char
  span : List Char
  item : Item

namespace Segment

/-- All characters that a pull covers. -/
def text (segment : Segment) : List Char := segment.gap ++ segment.span

end Segment

/-- The position of a token or an error. -/
def Item.position : Item → Position
  | .ok token => token.position
  | .error error => error.position

theorem Reading.position_locate (reading : Reading Lexeme) (place : Place) :
    Item.position (reading.locate place) = place.position reading.length := by
  unfold locate
  split <;> rfl

namespace Lexer

/-- The segment that the next pull covers. -/
def segment (lexer : Lexer) : Segment :=
  let upcoming := Upcoming.ofText lexer.cursor.rest
  let length := (upcoming.reading.map Reading.length).getD 0
  ⟨lexer.cursor.rest.take upcoming.gap, (lexer.cursor.rest.drop upcoming.gap).take length,
    lexer.nextToken.1⟩

@[simp] theorem item_segment (lexer : Lexer) : lexer.segment.item = lexer.nextToken.1 := rfl

/-- The segments of all pulls from here on, up to and with the end of the input. -/
def segments (lexer : Lexer) : List Segment :=
  if hend : isEnd lexer.nextToken.1 then [lexer.segment]
  else
    have : lexer.nextToken.2.cursor.rest.length < lexer.cursor.rest.length :=
      length_lt_of_nextToken rfl hend
    lexer.segment :: lexer.nextToken.2.segments
termination_by lexer.cursor.rest.length

/-- The lexer after a number of pulls. -/
def pulled (lexer : Lexer) : Nat → Lexer
  | 0 => lexer
  | n + 1 => lexer.nextToken.2.pulled n

/-- `lexer.Covers segment after` tells that the next pull covers the segment and leads to `after`: the
segment is cut off the front of the text, its gap is trivia, its position is the place and the length of
its span, and only the end of the input has an empty span. -/
structure Covers (lexer : Lexer) (segment : Segment) (after : Lexer) : Prop where
  pull : lexer.nextToken = (segment.item, after)
  config : after.config = lexer.config
  rest : lexer.cursor.rest = segment.text ++ after.cursor.rest
  place : after.cursor.place = lexer.cursor.place.afterText lexer.config.tabSize segment.text
  trivia : Trivia segment.gap (segment.span ++ after.cursor.rest)
  position : segment.item.position =
    (lexer.cursor.place.afterText lexer.config.tabSize segment.gap).position segment.span.length
  span : segment.span = [] ↔ isEnd segment.item = true
  stop : isEnd segment.item = true → after.cursor.rest = []

theorem isEnd_locate {reading : Reading Lexeme} {text : List Char} (place : Place)
    (h : (Upcoming.ofText text).reading = some reading) : isEnd (reading.locate place) = false := by
  unfold Reading.locate
  split
  · rename_i lexeme hlexeme
    have hwell := Upcoming.wellFormed h hlexeme
    simp [isEnd, Token.isEndOfInput, hwell.kind_ne]
  · rfl

/-- A pull at the end of the input passes over the trivia that is left. -/
theorem nextToken_of_none {lexer : Lexer}
    (h : (Upcoming.ofText lexer.cursor.rest).reading = none) :
    lexer.nextToken =
      (.ok (.endOfInput (lexer.cursor.place.afterText lexer.config.tabSize lexer.cursor.rest)),
        ⟨lexer.config, lexer.cursor.skip lexer.config.tabSize lexer.cursor.rest.length,
          lexer.done⟩) := by
  simp only [nextToken, h, Upcoming.gap_of_reading_eq_none h, Cursor.skip, List.take_length]

/-- Any other pull passes over the trivia in front of a token or a fault and reads it. -/
theorem nextToken_of_some {lexer : Lexer} {reading : Reading Lexeme}
    (h : (Upcoming.ofText lexer.cursor.rest).reading = some reading) :
    lexer.nextToken =
      (reading.locate (lexer.cursor.place.afterText lexer.config.tabSize
          (lexer.cursor.rest.take (Upcoming.ofText lexer.cursor.rest).gap)),
        ⟨lexer.config, lexer.cursor.skip lexer.config.tabSize
          ((Upcoming.ofText lexer.cursor.rest).gap + reading.length), lexer.done⟩) := by
  simp only [nextToken, h, Cursor.skip_skip]
  rfl

/-- A token or a fault at the very front of the text is what the next pull reads. -/
theorem nextToken_of_front {lexer : Lexer} {c : Char} {rest : List Char} {reading : Reading Lexeme}
    (hrest : lexer.cursor.rest = c :: rest) (h : Front.read c rest = reading.map some) :
    lexer.nextToken = (reading.locate lexer.cursor.place,
      ⟨lexer.config, lexer.cursor.skip lexer.config.tabSize reading.length, lexer.done⟩) := by
  have hupcoming := Upcoming.ofText_of_front h
  simp only [nextToken, hrest, hupcoming, Cursor.skip_zero]

/-- Only where no token is left does a pull hand out the end of the input. -/
theorem reading_of_isEnd {lexer : Lexer} (h : isEnd lexer.nextToken.1 = true) :
    (Upcoming.ofText lexer.cursor.rest).reading = none := by
  cases hreading : (Upcoming.ofText lexer.cursor.rest).reading with
  | none => rfl
  | some reading =>
    rw [nextToken_of_some hreading, isEnd_locate _ hreading] at h
    cases h

theorem reading_of_not_isEnd {lexer : Lexer} (h : isEnd lexer.nextToken.1 = false) :
    ∃ reading, (Upcoming.ofText lexer.cursor.rest).reading = some reading := by
  cases hreading : (Upcoming.ofText lexer.cursor.rest).reading with
  | none =>
    rw [nextToken_of_none hreading] at h
    cases h
  | some reading => exact ⟨reading, rfl⟩

/-- A token that a pull hands out is the lexeme that was read. -/
theorem result_of_nextToken {lexer : Lexer} {reading : Reading Lexeme} {token : Token}
    (hreading : (Upcoming.ofText lexer.cursor.rest).reading = some reading)
    (h : lexer.nextToken.1 = .ok token) : reading.result = .ok token.toLexeme := by
  rw [nextToken_of_some hreading, Reading.locate] at h
  cases hresult : reading.result with
  | error fault =>
    rw [hresult] at h
    cases h
  | ok lexeme =>
    rw [hresult] at h
    cases h
    rfl

/-- The lexer moved over some characters. -/
def skip (n : Nat) (lexer : Lexer) : Lexer :=
  ⟨lexer.config, lexer.cursor.skip lexer.config.tabSize n, lexer.done⟩

theorem rest_skip_of_append {lexer : Lexer} {front text : List Char}
    (h : lexer.cursor.rest = front ++ text) : (lexer.skip front.length).cursor.rest = text := by
  rw [skip, Cursor.rest_skip, h, List.drop_left]

theorem rest_skip_of_length {lexer : Lexer} {front text : List Char} {n : Nat}
    (h : lexer.cursor.rest = front ++ text) (hn : front.length = n) :
    (lexer.skip n).cursor.rest = text := by
  subst hn
  exact rest_skip_of_append h

theorem skip_of_append {lexer : Lexer} {front text : List Char}
    (h : lexer.cursor.rest = front ++ text) :
    lexer.skip front.length =
      ⟨lexer.config, ⟨text, lexer.cursor.place.afterText lexer.config.tabSize front⟩,
        lexer.done⟩ := by
  rw [skip, Cursor.skip, h, List.drop_left, List.take_left]

/-- A token at the very front of the text is handed out with the number of its characters. -/
theorem nextToken_of_found {lexer : Lexer} {c : Char} {rest : List Char} {lexeme : Lexeme} {n : Nat}
    (hrest : lexer.cursor.rest = c :: rest) (h : Front.read c rest = .found (some lexeme) n)
    (hn : n ≤ ceiling) :
    lexer.nextToken =
      (.ok ⟨lexeme, ⟨lexer.cursor.place.row, lexer.cursor.place.col, n⟩⟩, lexer.skip n) := by
  rw [← Place.position_of_le hn]
  exact @nextToken_of_front _ _ _ (.found lexeme n) hrest h

/-- A fault at the very front of the text is handed out with the number of characters it was read for. -/
theorem nextToken_of_fault {lexer : Lexer} {c : Char} {rest : List Char} {fault : Fault} {n : Nat}
    (hrest : lexer.cursor.rest = c :: rest) (h : Front.read c rest = .fault fault n)
    (hn : n ≤ ceiling) :
    lexer.nextToken =
      (.error ⟨fault, ⟨lexer.cursor.place.row, lexer.cursor.place.col, n⟩⟩, lexer.skip n) := by
  rw [← Place.position_of_le hn]
  exact @nextToken_of_front _ _ _ (.fault fault n) hrest h

/-- A pull from in front of trivia is a pull from behind it. -/
theorem nextToken_of_trivia {lexer : Lexer} {gap text : List Char}
    (hrest : lexer.cursor.rest = gap ++ text) (h : Trivia gap text) :
    lexer.nextToken = (lexer.skip gap.length).nextToken := by
  have hbehind := rest_skip_of_append hrest
  simp only [nextToken, hbehind]
  rw [hrest, Upcoming.ofText_append h]
  simp only [skip, Cursor.skip_skip]

/-- What is found at the front of the text and is no token is passed over. -/
theorem nextToken_of_skipped {lexer : Lexer} {c : Char} {rest : List Char} {n : Nat}
    (hrest : lexer.cursor.rest = c :: rest) (h : Front.read c rest = .found none n) :
    lexer.nextToken = (lexer.skip n).nextToken := by
  have hle := Front.length_read_le c rest
  rw [h, Reading.length_found] at hle
  have htrivia : Trivia ((c :: rest).take n ++ []) ((c :: rest).drop n) :=
    Front.trivia_take h rfl .nil
  rw [List.append_nil] at htrivia
  have hsplit : lexer.cursor.rest = (c :: rest).take n ++ (c :: rest).drop n := by
    rw [hrest, List.take_append_drop]
  have hnext := nextToken_of_trivia hsplit htrivia
  rwa [List.length_take, List.length_cons, Nat.min_eq_left hle] at hnext

theorem segment_of_none {lexer : Lexer} (h : (Upcoming.ofText lexer.cursor.rest).reading = none) :
    lexer.segment = ⟨lexer.cursor.rest, [], lexer.nextToken.1⟩ := by
  simp [segment, h, Upcoming.gap_of_reading_eq_none h]

theorem segment_of_some {lexer : Lexer} {reading : Reading Lexeme}
    (h : (Upcoming.ofText lexer.cursor.rest).reading = some reading) :
    lexer.segment =
      ⟨lexer.cursor.rest.take (Upcoming.ofText lexer.cursor.rest).gap,
        (lexer.cursor.rest.drop (Upcoming.ofText lexer.cursor.rest).gap).take reading.length,
        lexer.nextToken.1⟩ := by
  simp [segment, h]

/-- The next pull covers its segment. -/
theorem covers (lexer : Lexer) : lexer.Covers lexer.segment lexer.nextToken.2 := by
  have htrivia := Upcoming.trivia_gap lexer.cursor.rest
  cases hreading : (Upcoming.ofText lexer.cursor.rest).reading with
  | none =>
    rw [Upcoming.gap_of_reading_eq_none hreading, List.take_length, List.drop_length] at htrivia
    rw [segment_of_none hreading, nextToken_of_none hreading]
    exact {
      pull := nextToken_of_none hreading
      config := rfl
      rest := by simp [Segment.text]
      place := by simp [Segment.text, Cursor.skip]
      trivia := by simpa using htrivia
      position := rfl
      span := by simp [isEnd, Token.isEndOfInput, Token.endOfInput]
      stop := by simp }
  | some reading =>
    have hle := Upcoming.gap_add_length_le hreading
    have hone := (Upcoming.gap_lt_length hreading).2
    rw [segment_of_some hreading, nextToken_of_some hreading]
    generalize hgap : (Upcoming.ofText lexer.cursor.rest).gap = gap at htrivia hle ⊢
    have hend := isEnd_locate
      (lexer.cursor.place.afterText lexer.config.tabSize (lexer.cursor.rest.take gap)) hreading
    have htext : lexer.cursor.rest.take gap ++ (lexer.cursor.rest.drop gap).take reading.length =
        lexer.cursor.rest.take (gap + reading.length) := List.take_add.symm
    have hlength : ((lexer.cursor.rest.drop gap).take reading.length).length = reading.length := by
      rw [List.length_take, List.length_drop]
      omega
    exact {
      pull := by rw [nextToken_of_some hreading, hgap]
      config := rfl
      rest := by
        simp only [Segment.text, htext]
        exact (List.take_append_drop _ _).symm
      place := by
        simp only [Segment.text, htext]
        rfl
      trivia := by
        simp only [Cursor.rest_skip]
        rwa [← List.drop_drop, List.take_append_drop]
      position := by rw [Reading.position_locate, hlength]
      span := by
        rw [hend, ← List.length_eq_zero_iff, hlength]
        constructor
        · intro hzero
          omega
        · intro hfalse
          cases hfalse
      stop := by simp [hend] }

theorem segments_of_isEnd {lexer : Lexer} (h : isEnd lexer.nextToken.1 = true) :
    lexer.segments = [lexer.segment] := by
  rw [segments, dif_pos h]

theorem segments_of_not_isEnd {lexer : Lexer} (h : isEnd lexer.nextToken.1 = false) :
    lexer.segments = lexer.segment :: lexer.nextToken.2.segments := by
  rw [segments, dif_neg (by simp [h])]

theorem segments_ne_nil (lexer : Lexer) : lexer.segments ≠ [] := by
  unfold segments
  split <;> simp

theorem steps_of_isEnd {lexer : Lexer} (h : isEnd lexer.nextToken.1 = true) :
    lexer.steps = [lexer.nextToken.1] := by
  rw [steps]
  simp [h]

theorem steps_of_not_isEnd {lexer : Lexer} (h : isEnd lexer.nextToken.1 = false) :
    lexer.steps = lexer.nextToken.1 :: lexer.nextToken.2.steps := by
  rw [steps]
  simp [h]

/-- The pulls of a lexer hang on the next one alone. -/
theorem steps_congr {lexer other : Lexer} (h : lexer.nextToken = other.nextToken) :
    lexer.steps = other.steps := by
  cases hend : isEnd other.nextToken.1 with
  | true => rw [steps_of_isEnd hend, steps_of_isEnd (by rw [h, hend]), h]
  | false => rw [steps_of_not_isEnd hend, steps_of_not_isEnd (by rw [h, hend]), h]

theorem map_item_segments (lexer : Lexer) : lexer.segments.map Segment.item = lexer.steps := by
  fun_induction segments lexer with
  | case1 lexer hend => rw [steps_of_isEnd hend]; rfl
  | case2 lexer hend hlt ih =>
    rw [steps_of_not_isEnd (by simpa using hend), List.map_cons, ih]
    rfl

theorem flatMap_text_segments (lexer : Lexer) :
    lexer.segments.flatMap Segment.text = lexer.cursor.rest := by
  fun_induction segments lexer with
  | case1 lexer hend =>
    have hrest := lexer.covers.rest
    rw [lexer.covers.stop hend, List.append_nil] at hrest
    simp [hrest]
  | case2 lexer hend hlt ih => rw [List.flatMap_cons, ih, lexer.covers.rest]

theorem length_segments_le (lexer : Lexer) :
    lexer.segments.length ≤ lexer.cursor.rest.length + 1 := by
  fun_induction segments lexer with
  | case1 => simp
  | case2 lexer hend hlt ih =>
    rw [List.length_cons]
    omega

/-- Each segment of a run is covered by one pull, which starts behind the segments before it and leaves
the segments behind it; the last one is the end of the input. -/
theorem covers_of_segments {lexer : Lexer} {earlier later : List Segment} {segment : Segment}
    (h : lexer.segments = earlier ++ segment :: later) :
    (lexer.pulled earlier.length).Covers segment (lexer.pulled (earlier.length + 1)) ∧
    (lexer.pulled earlier.length).config = lexer.config ∧
    (lexer.pulled earlier.length).cursor.place =
      lexer.cursor.place.afterText lexer.config.tabSize (earlier.flatMap Segment.text) ∧
    (lexer.pulled (earlier.length + 1)).cursor.rest = later.flatMap Segment.text ∧
    (isEnd segment.item = true ↔ later = []) := by
  induction earlier generalizing lexer with
  | nil =>
    cases hend : isEnd lexer.nextToken.1 with
    | true =>
      rw [segments_of_isEnd hend] at h
      obtain ⟨rfl, rfl⟩ := List.cons.inj h
      exact ⟨lexer.covers, rfl, rfl, lexer.covers.stop hend, by simpa using hend⟩
    | false =>
      rw [segments_of_not_isEnd hend] at h
      obtain ⟨rfl, rfl⟩ := List.cons.inj h
      refine ⟨lexer.covers, rfl, rfl, (flatMap_text_segments _).symm, ?_⟩
      simp [hend, segments_ne_nil]
  | cons first earlier ih =>
    cases hend : isEnd lexer.nextToken.1 with
    | true =>
      rw [segments_of_isEnd hend] at h
      exact absurd (List.cons.inj h).2.symm (by simp)
    | false =>
      rw [segments_of_not_isEnd hend] at h
      obtain ⟨rfl, htail⟩ := List.cons.inj h
      obtain ⟨hcovers, hconfig, hplace, hlater, hlast⟩ := ih htail
      refine ⟨hcovers, hconfig.trans lexer.covers.config, ?_, hlater, hlast⟩
      rw [List.flatMap_cons, Place.afterText_append, ← lexer.covers.place, ← lexer.covers.config]
      exact hplace

/-- The span of a segment is the part of the source that the position of its item names. -/
theorem source_of_segments {config : Config} {source : String} {earlier later : List Segment}
    {segment : Segment} (h : (ofSource config source).segments = earlier ++ segment :: later) :
    source.toList =
        earlier.flatMap Segment.text ++ segment.gap ++ (segment.span ++ later.flatMap Segment.text) ∧
      segment.item.position =
        (Place.start.afterText config.tabSize
          (earlier.flatMap Segment.text ++ segment.gap)).position segment.span.length := by
  obtain ⟨hcovers, hconfig, hplace, -⟩ := covers_of_segments h
  constructor
  · have htext : (ofSource config source).segments.flatMap Segment.text = source.toList :=
      flatMap_text_segments _
    rw [← htext, h, List.flatMap_append, List.flatMap_cons, Segment.text, List.append_assoc,
      List.append_assoc]
  · rw [hcovers.position, hplace, hconfig, ← Place.afterText_append]
    rfl

theorem eq_segment_pulled {lexer : Lexer} {earlier later : List Segment} {segment : Segment}
    (h : lexer.segments = earlier ++ segment :: later) :
    segment = (lexer.pulled earlier.length).segment := by
  induction earlier generalizing lexer with
  | nil =>
    rw [segments] at h
    split at h <;> exact (List.cons.inj h).1.symm
  | cons first earlier ih =>
    cases hend : isEnd lexer.nextToken.1 with
    | true =>
      rw [segments_of_isEnd hend] at h
      exact absurd (List.cons.inj h).2.symm (by simp)
    | false =>
      rw [segments_of_not_isEnd hend] at h
      exact ih (List.cons.inj h).2

theorem length_span_le {lexer : Lexer} {segment : Segment} (h : segment ∈ lexer.segments) :
    segment.span.length ≤ lexer.cursor.rest.length := by
  obtain ⟨earlier, later, hsplit⟩ := List.append_of_mem h
  have htext := flatMap_text_segments lexer
  rw [hsplit, List.flatMap_append, List.flatMap_cons] at htext
  rw [← htext]
  simp only [Segment.text, List.length_append]
  omega

/-- The pulls of a lexer partition the source exactly, past errors too. Each pull but the last hands out
a token or an error of at least one character, whose position is the place of its first character and
the number of characters from there to where the pull leaves the cursor; in front of it stands trivia.
The last pull hands out the end of the input, with the whole source used up. -/
theorem segments_partition (config : Config) (source : String) (hlength : source.length ≤ ceiling) :
    let lexer := ofSource config source
    lexer.segments.map Segment.item = lexer.steps ∧
    lexer.segments.flatMap Segment.text = source.toList ∧
    lexer.segments.length ≤ source.length + 1 ∧
    ∀ earlier segment later, lexer.segments = earlier ++ segment :: later →
      let before := lexer.pulled earlier.length
      let after := lexer.pulled (earlier.length + 1)
      let place :=
        Place.start.afterText config.tabSize (earlier.flatMap Segment.text ++ segment.gap)
      before.nextToken = (segment.item, after) ∧
      before.cursor.rest = segment.gap ++ segment.span ++ after.cursor.rest ∧
      after.cursor.rest = later.flatMap Segment.text ∧
      Trivia segment.gap (segment.span ++ after.cursor.rest) ∧
      segment.item.position = ⟨place.row, place.col, segment.span.length⟩ ∧
      (isEnd segment.item = true ↔ later = []) ∧
      (later = [] → segment.span = []) ∧ (later ≠ [] → 1 ≤ segment.item.position.len) := by
  intro lexer
  refine ⟨map_item_segments lexer, flatMap_text_segments lexer, length_segments_le lexer, ?_⟩
  intro earlier segment later h before after place
  obtain ⟨hcovers, hconfig, hplace, hlater, hlast⟩ := covers_of_segments h
  have hspan : segment.span.length ≤ ceiling := by
    have hle : segment.span.length ≤ source.length :=
      length_span_le (h ▸ List.mem_append_right _ List.mem_cons_self)
    exact Nat.le_trans hle hlength
  have hposition : segment.item.position = ⟨place.row, place.col, segment.span.length⟩ := by
    rw [hcovers.position, hplace, hconfig, ← Place.afterText_append, Place.position,
      Nat.min_eq_right hspan]
    rfl
  refine ⟨hcovers.pull, hcovers.rest, hlater, hcovers.trivia, hposition, hlast, ?_, ?_⟩
  · intro hnil
    exact hcovers.span.2 (hlast.2 hnil)
  · intro hne
    rw [hposition]
    apply List.length_pos_iff.2
    intro hempty
    exact hne (hlast.1 (hcovers.span.1 hempty))

/-- A string that is never closed is an error that uses up the source. -/
theorem segments_partition_unclosed :
    "x 'y".length ≤ ceiling ∧
    let lexer := ofSource .standard "x 'y"
    let error : Item := .error ⟨.unterminatedString, ⟨1, 3, 2⟩⟩
    lexer.segments =
      [⟨[], ['x'], .ok ⟨⟨.value .ident, "x"⟩, ⟨1, 1, 1⟩⟩⟩] ++
        ⟨[' '], ['\'', 'y'], error⟩ :: [⟨[], [], .ok (.endOfInput ⟨1, 5⟩)⟩] ∧
    (lexer.pulled 1).nextToken = (error, lexer.pulled 2) ∧
    (lexer.pulled 2).cursor.rest = [] := by
  have hlength : "x 'y".length ≤ ceiling := by decide
  refine ⟨hlength, ?_⟩
  intro lexer error
  have hsegments : lexer.segments =
      [⟨[], ['x'], .ok ⟨⟨.value .ident, "x"⟩, ⟨1, 1, 1⟩⟩⟩] ++
        ⟨[' '], ['\'', 'y'], error⟩ :: [⟨[], [], .ok (.endOfInput ⟨1, 5⟩)⟩] := by
    cbv
  obtain ⟨-, -, -, hall⟩ := segments_partition .standard "x 'y" hlength
  obtain ⟨hpull, -, hrest, -⟩ := hall _ _ _ hsegments
  exact ⟨hsegments, hpull, hrest⟩

end Lexer

end Lexis
