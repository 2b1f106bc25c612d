import Lexis.Front

/-!
# What comes next

Between tokens stands trivia, which is passed over. What comes next in a text is the trivia at its
front and the token or the fault behind it. The answer again hangs on the text alone. Main
statements: trivia and token lie within the text, and without a token the text is trivia to its end.
-/

namespace Lexis

/-- What comes next in a text: the number of characters of trivia to pass over, and the reading of the
token behind them, unless the text ends there. -/
structure Upcoming where
  gap : Nat
  reading : Option (Reading Lexeme)

namespace Upcoming

/-- Passes over the trivia in front of a text and reads the token behind it. -/
def ofText : List Char → Upcoming
  | [] => ⟨0, none⟩
  | c :: rest =>
    match Front.read c rest with
    | ⟨.error fault, n⟩ => ⟨0, some (.fault fault n)⟩
    | ⟨.ok (some lexeme), n⟩ => ⟨0, some (.found lexeme n)⟩
    | ⟨.ok none, n⟩ =>
      let next := ofText (rest.drop (n - 1))
      ⟨n + next.gap, next.reading⟩
termination_by text => text.length

/-- A token takes up at least one character, and it starts inside the text. -/
theorem gap_lt_length {text : List Char} {reading : Reading Lexeme}
    (h : (ofText text).reading = some reading) :
    (ofText text).gap < text.length ∧ 1 ≤ reading.length := by
  fun_induction ofText text with
  | case1 => simp at h
  | case2 c rest fault n hfront =>
    have hn := Front.one_le_length_read c rest
    rw [hfront] at hn
    simp only [Option.some.injEq] at h
    subst h
    exact ⟨Nat.succ_pos _, hn⟩
  | case3 c rest lexeme n hfront =>
    have hn := Front.one_le_length_read c rest
    rw [hfront] at hn
    simp only [Option.some.injEq] at h
    subst h
    exact ⟨Nat.succ_pos _, hn⟩
  | case4 c rest n hfront next ih =>
    have hn := Front.one_le_length_read c rest
    rw [hfront] at hn
    obtain ⟨hgap, hlen⟩ := ih h
    rw [List.length_drop] at hgap
    refine ⟨?_, hlen⟩
    change n + (ofText (rest.drop (n - 1))).gap < rest.length + 1
    change 1 ≤ n at hn
    omega

/-- A token lies within the text. -/
theorem gap_add_length_le {text : List Char} {reading : Reading Lexeme}
    (h : (ofText text).reading = some reading) :
    (ofText text).gap + reading.length ≤ text.length := by
  fun_induction ofText text with
  | case1 => simp at h
  | case2 c rest fault n hfront =>
    have hn := Front.length_read_le c rest
    rw [hfront] at hn
    simp only [Option.some.injEq] at h
    subst h
    simpa using hn
  | case3 c rest lexeme n hfront =>
    have hn := Front.length_read_le c rest
    rw [hfront] at hn
    simp only [Option.some.injEq] at h
    subst h
    simpa using hn
  | case4 c rest n hfront next ih =>
    have hone := Front.one_le_length_read c rest
    have hn := Front.length_read_le c rest
    rw [hfront] at hone hn
    have hlen := ih h
    rw [List.length_drop] at hlen
    change n + (ofText (rest.drop (n - 1))).gap + reading.length ≤ rest.length + 1
    change 1 ≤ n at hone
    change n ≤ rest.length + 1 at hn
    omega

/-- Where no token is left, all that is left is trivia. -/
theorem gap_of_reading_eq_none {text : List Char} (h : (ofText text).reading = none) :
    (ofText text).gap = text.length := by
  fun_induction ofText text with
  | case1 => rfl
  | case2 => simp at h
  | case3 => simp at h
  | case4 c rest n hfront next ih =>
    have hone := Front.one_le_length_read c rest
    have hn := Front.length_read_le c rest
    rw [hfront] at hone hn
    have hgap := ih h
    rw [List.length_drop] at hgap
    change n + (ofText (rest.drop (n - 1))).gap = rest.length + 1
    change 1 ≤ n at hone
    change n ≤ rest.length + 1 at hn
    omega

end Upcoming

end Lexis
