import Mathlib.Data.List.TakeWhile
import Lexis.Text.Blank

/-!
# Runs of characters

Words, digits and lines are read as the longest run of characters of one class at the front of a text.
A run is found again whatever follows it, as long as no further character of the class follows.
-/

namespace Lexis

open Text

/-- A text that is empty or starts with white space. -/
def BlankHead (text : List Char) : Prop := ∀ c ∈ text.head?, isBlank c = true

/-- A text that is empty or starts with a line break. -/
def LineEndHead (text : List Char) : Prop := ∀ c ∈ text.head?, isLineEnd c = true

/-- What holds of each kind of white space holds of every white-space character. -/
theorem of_isBlank {p : Char → Bool} (hall : blanks.all p = true) {c : Char}
    (h : isBlank c = true) : p c = true :=
  List.all_eq_true.1 hall c (List.contains_iff_mem.1 h)

/-- A character of a class is none of the characters outside it. -/
theorem ne_of_class {p : Char → Bool} {c d : Char} (h : p c = true) (hd : p d = false) : c ≠ d := by
  rintro rfl
  rw [h] at hd
  cases hd

theorem isBlank_of_isLineEnd {c : Char} (h : isLineEnd c = true) : isBlank c = true := by
  simp only [isLineEnd, Bool.or_eq_true, beq_iff_eq] at h
  rcases h with rfl | rfl <;> decide

theorem LineEndHead.blankHead {text : List Char} (h : LineEndHead text) : BlankHead text :=
  fun c hc => isBlank_of_isLineEnd (h c hc)

theorem lineEndHead_line (text : List Char) : LineEndHead ('\n' :: text) := by
  rintro _ ⟨⟩
  decide

/-- A run ends where the text ends or a character of another class follows. -/
theorem takeWhile_append_stop {p : Char → Bool} {run text : List Char} (hrun : ∀ c ∈ run, p c = true)
    (hstop : ∀ c ∈ text.head?, p c = false) : (run ++ text).takeWhile p = run := by
  rw [List.takeWhile_append_of_pos hrun]
  cases text with
  | nil => simp
  | cons c rest =>
    have hc := hstop c (by simp)
    simp [hc]

/-- The character behind a run is of another class. -/
theorem stop_of_takeWhile (p : Char → Bool) (text : List Char) :
    ∀ c ∈ (text.drop (text.takeWhile p).length).head?, p c = false := by
  induction text with
  | nil => simp
  | cons c rest ih =>
    cases hc : p c with
    | true => simpa [hc] using ih
    | false => simp [hc]

/-- The run at the front of a text is the front of the text. -/
theorem take_length_takeWhile (p : Char → Bool) (text : List Char) :
    text.take (text.takeWhile p).length = text.takeWhile p :=
  (List.prefix_iff_eq_take.1 (List.takeWhile_prefix p)).symm

end Lexis
