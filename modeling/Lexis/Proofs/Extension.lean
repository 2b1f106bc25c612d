import Lexis.Proofs.Lookahead.Front
import Lexis.Proofs.Segments

/-!
# Extending a text

A lexer of a text and a lexer of a longer text that starts with it run side by side for as long as each
pull ends at least two characters before the shorter text does. Main statement:
`Lexer.steps_append_of_room`.
-/

namespace Lexis

/-- The cursor with more text behind its own. -/
def Cursor.extend (more : List Char) (cursor : Cursor) : Cursor := ⟨cursor.rest ++ more, cursor.place⟩

theorem Cursor.skip_extend (tab : Nat) (more : List Char) {n : Nat} {cursor : Cursor}
    (h : n ≤ cursor.rest.length) :
    (cursor.extend more).skip tab n = (cursor.skip tab n).extend more := by
  simp only [skip, extend, List.drop_append_of_le_length h, List.take_append_of_le_length h]

namespace Lexer

/-- The lexer with more text behind its own. -/
def extend (more : List Char) (lexer : Lexer) : Lexer :=
  ⟨lexer.config, lexer.cursor.extend more, lexer.done⟩

theorem ofSource_append (config : Config) (source more : String) :
    ofSource config (source ++ more) = (ofSource config source).extend more.toList := by
  simp only [ofSource, ofText, extend, Cursor.ofText, Cursor.extend, String.toList_append]

/-- A pull reads the same with more text behind, where it comes upon the same. -/
theorem nextToken_extend {lexer : Lexer} {more : List Char} {reading : Reading Lexeme}
    (hreading : (Upcoming.ofText lexer.cursor.rest).reading = some reading)
    (hsame : Upcoming.ofText (lexer.cursor.rest ++ more) = Upcoming.ofText lexer.cursor.rest) :
    (lexer.extend more).nextToken = (lexer.nextToken.1, lexer.nextToken.2.extend more) := by
  have hle := Upcoming.gap_add_length_le hreading
  have hextended : (Upcoming.ofText (lexer.extend more).cursor.rest).reading = some reading := by
    show (Upcoming.ofText (lexer.cursor.rest ++ more)).reading = some reading
    rw [hsame, hreading]
  have hgap : (Upcoming.ofText (lexer.extend more).cursor.rest).gap =
      (Upcoming.ofText lexer.cursor.rest).gap := congrArg Upcoming.gap hsame
  have htake : (lexer.cursor.rest ++ more).take (Upcoming.ofText lexer.cursor.rest).gap =
      lexer.cursor.rest.take (Upcoming.ofText lexer.cursor.rest).gap :=
    List.take_append_of_le_length (Nat.le_of_add_right_le hle)
  rw [nextToken_of_some hextended, nextToken_of_some hreading, hgap]
  simp only [extend, Cursor.skip_extend _ more hle]
  simp only [Cursor.extend, htake]

theorem length_nextToken_le (lexer : Lexer) :
    lexer.nextToken.2.cursor.rest.length ≤ lexer.cursor.rest.length := by
  rw [lexer.covers.rest, List.length_append]
  exact Nat.le_add_left _ _

theorem length_pulled_le (lexer : Lexer) (n : Nat) :
    (lexer.pulled n).cursor.rest.length ≤ lexer.cursor.rest.length := by
  induction n generalizing lexer with
  | zero => exact Nat.le_refl _
  | succ n ih => exact Nat.le_trans (ih lexer.nextToken.2) (length_nextToken_le lexer)

/-- A pull that leaves two characters is no end of the input, and does the same with more text. -/
theorem nextToken_extend_of_room {lexer : Lexer}
    (h : 2 ≤ lexer.nextToken.2.cursor.rest.length) (more : List Char) :
    isEnd lexer.nextToken.1 = false ∧
    (lexer.extend more).nextToken = (lexer.nextToken.1, lexer.nextToken.2.extend more) := by
  have hend : isEnd lexer.nextToken.1 = false := by
    cases hend : isEnd lexer.nextToken.1 with
    | false => rfl
    | true =>
      rw [lexer.covers.stop hend, List.length_nil] at h
      omega
  refine ⟨hend, ?_⟩
  cases hreading : (Upcoming.ofText lexer.cursor.rest).reading with
  | none =>
    rw [nextToken_of_none hreading] at hend
    cases hend
  | some reading =>
    rw [nextToken_of_some hreading, Cursor.rest_skip, List.length_drop] at h
    apply nextToken_extend hreading
    apply Upcoming.ofText_append_of_room hreading
    · exact Or.inl (by omega)
    · intro _ _
      omega

/-- The runs agree up to a pull that leaves two characters. -/
theorem run_extend {lexer : Lexer} {i : Nat}
    (h : 2 ≤ (lexer.pulled (i + 1)).cursor.rest.length) (more : List Char) :
    (lexer.extend more).steps[i]? = lexer.steps[i]? ∧
    (lexer.extend more).pulled (i + 1) = (lexer.pulled (i + 1)).extend more := by
  induction i generalizing lexer with
  | zero =>
    obtain ⟨hend, hstep⟩ := nextToken_extend_of_room h more
    have hstart : isEnd (lexer.extend more).nextToken.1 = false := by rw [hstep, hend]
    rw [steps_of_not_isEnd hstart, steps_of_not_isEnd hend, hstep]
    exact ⟨rfl, congrArg Prod.snd hstep⟩
  | succ i ih =>
    -- The first pull leaves at least what the last one leaves.
    have hfirst : 2 ≤ lexer.nextToken.2.cursor.rest.length :=
      Nat.le_trans h (length_pulled_le lexer.nextToken.2 (i + 1))
    obtain ⟨hend, hstep⟩ := nextToken_extend_of_room hfirst more
    obtain ⟨hsteps, hpulled⟩ := @ih lexer.nextToken.2 h
    have hstart : isEnd (lexer.extend more).nextToken.1 = false := by rw [hstep, hend]
    rw [steps_of_not_isEnd hstart, steps_of_not_isEnd hend, hstep]
    refine ⟨hsteps, ?_⟩
    show (lexer.extend more).nextToken.2.pulled (i + 1) = _
    rw [hstep]
    exact hpulled

/-- Each item of a run whose span ends at least two characters before the end of the source stands at
the same place of the run of any longer source, with its position: nothing that the lexer decides hangs
on more than the two characters behind a span. -/
theorem steps_append_of_room (config : Config) (source more : String) {i : Nat} {item : Item}
    (hitem : (ofSource config source).steps[i]? = some item)
    (hroom : 2 ≤ ((ofSource config source).pulled (i + 1)).cursor.rest.length) :
    (ofSource config (source ++ more)).steps[i]? = some item := by
  obtain ⟨hsteps, -⟩ := run_extend hroom more.toList
  rw [ofSource_append, hsteps, hitem]

/-- An integer before a range stays an integer: two characters tell that it has no fraction. -/
theorem steps_append_of_room_range :
    let item : Item := .ok ⟨⟨.value .intDec, "1"⟩, ⟨1, 1, 1⟩⟩
    (ofSource .standard "1..").steps[0]? = some item ∧
    2 ≤ ((ofSource .standard "1..").pulled (0 + 1)).cursor.rest.length ∧
    (ofSource .standard ("1.." ++ "2")).steps[0]? = some item := by
  intro item
  have hitem : (ofSource .standard "1..").steps[0]? = some item := by cbv
  have hroom : 2 ≤ ((ofSource .standard "1..").pulled (0 + 1)).cursor.rest.length := by cbv
  exact ⟨hitem, hroom, steps_append_of_room .standard "1.." "2" hitem hroom⟩

end Lexer

end Lexis
