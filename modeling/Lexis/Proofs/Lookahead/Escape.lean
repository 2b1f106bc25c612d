import Lexis.Literal.Escape
import Lexis.Proofs.Lookahead.Room

/-!
# How far escapes look ahead

A unicode escape may look at any number of characters before it turns out to be malformed, but only at
such as an escape can hold. Any other character, a closing quote or a line feed above all, stops it.
-/

namespace Lexis

open Text

namespace Text.CodeUnit

theorem read?_eq_none {text : List Char} {c : Char} (hc : c ∈ text.take 4)
    (h : hexDigit? c = none) : read? text = none := by
  unfold read?
  split
  · rename_i d e f g rest
    simp only [List.take_succ_cons, List.take_zero, List.mem_cons, List.not_mem_nil, or_false] at hc
    rcases hc with rfl | rfl | rfl | rfl
    all_goals simp [h]
  · rfl

theorem hexDigit?_of_read? {text : List Char} {unit : Nat} (h : read? text = some unit) :
    ∀ c ∈ text.take 4, hexDigit? c ≠ none := by
  intro c hc hnone
  rw [read?_eq_none hc hnone] at h
  cases h

/-- A character that is no digit stops the reading of a code unit. -/
theorem read?_congr {front : List Char} {c : Char} (hc : c ∈ front) (h : hexDigit? c = none)
    (rest after : List Char) : read? (front ++ after) = read? (front ++ rest) := by
  by_cases hlength : 4 ≤ front.length
  · match front, hlength with
    | d :: e :: f :: g :: tail, _ => rfl
  · have hmem : ∀ text : List Char, c ∈ (front ++ text).take 4 := by
      intro text
      rw [List.take_append, List.take_of_length_le (by omega)]
      exact List.mem_append_left _ hc
    rw [read?_eq_none (hmem after) h, read?_eq_none (hmem rest) h]

end Text.CodeUnit

namespace Escape

/-- The characters that the reader of an escape looks past. -/
def isInner (c : Char) : Bool := c == 'u' || c == '\\' || c == '\r' || (hexDigit? c).isSome

/-- A text that holds a character which stops every escape. -/
def Stops (text : List Char) : Prop := ∃ c ∈ text, isInner c = false

theorem takeWhile_lt_of_mem {p : Char → Bool} {front : List Char} {c : Char} (hc : c ∈ front)
    (h : p c = false) (rest : List Char) :
    ((front ++ rest).takeWhile p).length + 1 ≤ front.length := by
  induction front with
  | nil => cases hc
  | cons d front ih =>
    rw [List.cons_append, List.takeWhile_cons]
    cases hd : p d with
    | false => simp
    | true =>
      have htail : c ∈ front := by
        rcases List.mem_cons.1 hc with rfl | htail
        · rw [h] at hd
          cases hd
        · exact htail
      have hle := ih htail
      simp only [if_true, List.length_cons]
      omega

/-- The characters that are taken off the front are all of the class, so one that is not is left. -/
theorem mem_drop_of_take {p : Char → Bool} {front rest : List Char} {c : Char} {n : Nat}
    (hc : c ∈ front) (h : p c = false) (htake : ∀ d ∈ (front ++ rest).take n, p d = true) :
    c ∈ front.drop n := by
  rw [← List.take_append_drop n front, List.mem_append] at hc
  rcases hc with hc | hc
  · have hmem : c ∈ (front ++ rest).take n := by
      rw [List.take_append]
      exact List.mem_append_left _ hc
    rw [htake c hmem] at h
    cases h
  · exact hc

theorem isInner_of_unit? {text : List Char} {unit n : Nat} (h : unit? text = some (unit, n)) :
    ∀ c ∈ text.take n, isInner c = true := by
  unfold unit? at h
  simp only [Option.map_eq_some_iff, Prod.mk.injEq] at h
  obtain ⟨_, hread, -, rfl⟩ := h
  intro c hc
  rw [List.take_add, List.mem_append] at hc
  rcases hc with hc | hc
  · rw [take_length_takeWhile] at hc
    have hmark := List.mem_takeWhile_imp hc
    simp only [isInner, hmark, Bool.true_or]
  · have hdigit := CodeUnit.hexDigit?_of_read? hread c hc
    rw [Option.ne_none_iff_isSome] at hdigit
    simp only [isInner, hdigit, Bool.or_true]

theorem unit?_congr {front : List Char} (h : Stops front) (rest after : List Char) :
    unit? (front ++ after) = unit? (front ++ rest) := by
  obtain ⟨c, hc, hinner⟩ := h
  simp only [isInner, Bool.or_eq_false_iff] at hinner
  obtain ⟨⟨⟨hmark, -⟩, -⟩, hdigit⟩ := hinner
  have hlt := @takeWhile_lt_of_mem (· == 'u') front c hc hmark rest
  have hmarks : (front ++ after).takeWhile (· == 'u') = (front ++ rest).takeWhile (· == 'u') :=
    takeWhile_congr (Or.inl hlt)
  have hmem : c ∈ front.drop ((front ++ rest).takeWhile (· == 'u')).length := by
    apply @mem_drop_of_take (· == 'u') front rest c _ hc hmark
    intro d hd
    rw [take_length_takeWhile] at hd
    exact @List.mem_takeWhile_imp _ (· == 'u') _ d hd
  unfold unit?
  dsimp only
  rw [hmarks, List.drop_append_of_le_length (by omega), List.drop_append_of_le_length (by omega),
    CodeUnit.read?_congr hmem (by simpa using hdigit) rest after]

theorem Stops.of_drop {front : List Char} {n : Nat} (h : Stops (front.drop n)) : Stops front := by
  obtain ⟨c, hc, hinner⟩ := h
  exact ⟨c, List.mem_of_mem_drop hc, hinner⟩

theorem Stops.of_cons {d : Char} {front : List Char} (h : Stops (d :: front))
    (hd : isInner d = true) : Stops front := by
  obtain ⟨c, hc, hinner⟩ := h
  rcases List.mem_cons.1 hc with rfl | hc
  · rw [hd] at hinner
    cases hinner
  · exact ⟨c, hc, hinner⟩

theorem Stops.lt_length {front : List Char} {n : Nat} (h : Stops (front.drop n)) :
    n < front.length := by
  obtain ⟨c, hc, -⟩ := h
  have hpos := List.length_pos_of_mem hc
  rw [List.length_drop] at hpos
  omega

/-- The second half of a surrogate pair is looked for behind the first one, still in front of the
character that stops the escape. -/
theorem unicode?_congr {front : List Char} (h : Stops front) (rest after : List Char) :
    unicode? (front ++ after) = unicode? (front ++ rest) := by
  have hunit := unit?_congr h rest after
  cases hfirst : unit? (front ++ rest) with
  | none =>
    rw [hfirst] at hunit
    rw [unicode?, unicode?, hunit, hfirst]
    rfl
  | some found =>
    obtain ⟨unit, n⟩ := found
    simp only [unicode?, hunit, hfirst, Option.bind_eq_bind, Option.bind_some]
    cases CodeUnit.char? unit with
    | some c => rfl
    | none =>
      have hstops : Stops (front.drop n) := by
        obtain ⟨c, hc, hinner⟩ := h
        exact ⟨c, mem_drop_of_take hc hinner (isInner_of_unit? hfirst), hinner⟩
      have hle : n ≤ front.length := Nat.le_of_lt hstops.lt_length
      rw [List.drop_append_of_le_length hle, List.drop_append_of_le_length hle]
      generalize front.drop n = tail at hstops
      match tail with
      | [] =>
        obtain ⟨c, hc, -⟩ := hstops
        cases hc
      | [d] =>
        have hback : d ≠ '\\' := by
          rintro rfl
          obtain ⟨c, hc, -⟩ := hstops.of_cons (by decide)
          cases hc
        simp [hback]
      | d :: e :: more =>
        by_cases hback : d = '\\'
        · subst hback
          by_cases hmark : e = 'u'
          · subst hmark
            have hmore : Stops more := (hstops.of_cons (by decide)).of_cons (by decide)
            simp only [List.cons_append, unit?_congr hmore rest after]
          · simp [hmark]
        · simp [hback]

/-- An escape is read alike as long as a character behind it stops it. -/
theorem read_congr {front rest after : List Char}
    (h : Stops (front.drop ((read (front ++ rest)).length - 1))) :
    read (front ++ after) = read (front ++ rest) := by
  cases front with
  | nil =>
    obtain ⟨c, hc, -⟩ := h
    simp at hc
  | cons c front =>
    rw [List.cons_append] at h
    rw [List.cons_append, List.cons_append]
    cases hletter : letter? c with
    | some decoded => simp only [read, hletter]
    | none =>
      have hhead : c = '\r' → (front ++ after).head? = (front ++ rest).head? := by
        rintro rfl
        cases front with
        | nil =>
          obtain ⟨c, hc, -⟩ := h.of_drop.of_cons (by decide)
          cases hc
        | cons d front => rfl
      have hbreak : (c = '\n' ∨ (c = '\r' ∧ (front ++ after).head? = some '\n')) ↔
          (c = '\n' ∨ (c = '\r' ∧ (front ++ rest).head? = some '\n')) := by
        by_cases hreturn : c = '\r'
        · rw [hhead hreturn]
        · simp [hreturn]
      simp only [read, hletter] at h ⊢
      by_cases hline : c = '\n' ∨ (c = '\r' ∧ (front ++ rest).head? = some '\n')
      · rw [if_pos hline] at h
        rw [if_pos hline, if_pos (hbreak.2 hline)]
        have hlt := h.lt_length
        simp only [List.length_cons] at hlt
        have hrun : (front ++ after).takeWhile isBlank = (front ++ rest).takeWhile isBlank :=
          takeWhile_congr (Or.inl (by omega))
        rw [hrun]
      · rw [if_neg hline, if_neg fun hafter => hline (hbreak.1 hafter)]
        by_cases hmark : c = 'u'
        · subst hmark
          rw [if_pos rfl, if_pos rfl, unicode?_congr (h.of_drop.of_cons (by decide)) rest after]
        · rw [if_neg hmark, if_neg hmark]

end Escape

end Lexis
