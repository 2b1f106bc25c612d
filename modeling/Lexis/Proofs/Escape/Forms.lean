import Lexis.Proofs.Lookahead.Escape

/-!
# The forms of an escape

What an escape stands for is told by the character behind its backslash. A unicode escape takes up one code
unit or two, and no other characters than such as an escape can hold.
-/

namespace Lexis.Escape

open Text

/-! What an escape is, by the character behind the backslash. -/

theorem read_letter {c decoded : Char} (h : letter? c = some decoded) (rest : List Char) :
    read (c :: rest) = ⟨[decoded], 2⟩ := by
  simp only [read, h]

/-- A line break behind the backslash, with a carriage return or without one, and the white space behind it. -/
theorem read_break {c : Char} {rest : List Char}
    (h : c = '\n' ∨ (c = '\r' ∧ rest.head? = some '\n')) :
    read (c :: rest) = ⟨[], 2 + (rest.takeWhile isBlank).length⟩ := by
  have hletter : letter? c = none := by
    rcases h with rfl | ⟨rfl, -⟩
    · rfl
    · rfl
  simp [read, hletter, h]

theorem read_line (rest : List Char) :
    read ('\n' :: rest) = ⟨[], 2 + (rest.takeWhile isBlank).length⟩ :=
  read_break (Or.inl rfl)

theorem read_return_line (rest : List Char) :
    read ('\r' :: '\n' :: rest) = ⟨[], 2 + (('\n' :: rest).takeWhile isBlank).length⟩ :=
  read_break (Or.inr ⟨rfl, rfl⟩)

theorem read_unicode {rest : List Char} {piece : Piece} (h : unicode? rest = some piece) :
    read ('u' :: rest) = ⟨piece.text, 2 + piece.length⟩ := by
  simp [read, letter?, h]

theorem read_mark {rest : List Char} (h : unicode? rest = none) :
    read ('u' :: rest) = ⟨['\\', 'u'], 2⟩ := by
  simp [read, letter?, h]

theorem read_other {c : Char} {rest : List Char} (hletter : letter? c = none)
    (hbreak : ¬ (c = '\n' ∨ (c = '\r' ∧ rest.head? = some '\n'))) (hmark : c ≠ 'u') :
    read (c :: rest) = ⟨['\\'], 1⟩ := by
  simp [read, hletter, hbreak, hmark]

theorem drop_cons_read (c : Char) (text : List Char) :
    (c :: text).drop (read text).length = text.drop ((read text).length - 1) := by
  obtain ⟨k, hk⟩ := Nat.exists_eq_add_of_le' (one_le_length_read text)
  rw [hk, List.drop_succ_cons, Nat.add_sub_cancel]

theorem take_cons_read (c : Char) (text : List Char) (n : Nat) :
    (c :: text).take ((read text).length + n) = c :: text.take ((read text).length - 1 + n) := by
  obtain ⟨k, hk⟩ := Nat.exists_eq_add_of_le' (one_le_length_read text)
  rw [hk, Nat.add_sub_cancel, Nat.add_right_comm, List.take_succ_cons]

/-! ### The characters of a unicode escape -/

/-- The code units of a unicode escape: one, or two in two adjacent escapes. -/
theorem units_of_unicode? {text : List Char} {piece : Piece} (h : unicode? text = some piece) :
    (∃ unit, unit? text = some (unit, piece.length)) ∨
      ∃ unit n low m more, unit? text = some (unit, n) ∧ text.drop n = '\\' :: 'u' :: more ∧
        unit? more = some (low, m) ∧ piece.length = n + 2 + m := by
  unfold unicode? at h
  simp only [Option.bind_eq_bind, Option.bind_eq_some_iff] at h
  obtain ⟨⟨unit, n⟩, hunit, h⟩ := h
  dsimp only at h
  split at h
  · cases h
    exact Or.inl ⟨unit, hunit⟩
  · split at h
    · rename_i more hmore
      simp only [Option.bind_eq_some_iff, Option.some.injEq] at h
      obtain ⟨⟨low, m⟩, hlow, _, _, rfl⟩ := h
      exact Or.inr ⟨unit, n, low, m, more, hunit, hmore, hlow, rfl⟩
    · cases h

theorem take_of_pair {text more : List Char} {n : Nat} (h : text.drop n = '\\' :: 'u' :: more)
    (m : Nat) : text.take (n + 2 + m) = text.take n ++ '\\' :: 'u' :: more.take m := by
  rw [Nat.add_assoc, List.take_add, h, Nat.add_comm, List.take_succ_cons, List.take_succ_cons]

theorem isInner_of_unicode? {text : List Char} {piece : Piece} (h : unicode? text = some piece) :
    ∀ c ∈ text.take piece.length, isInner c = true := by
  rcases units_of_unicode? h with ⟨unit, hunit⟩ | ⟨unit, n, low, m, more, hunit, hmore, hlow, hlength⟩
  · exact isInner_of_unit? hunit
  · rw [hlength, take_of_pair hmore]
    intro c hc
    rcases List.mem_append.1 hc with hc | hc
    · exact isInner_of_unit? hunit c hc
    · rcases List.mem_cons.1 hc with rfl | hc
      · decide
      rcases List.mem_cons.1 hc with rfl | hc
      · decide
      · exact isInner_of_unit? hlow c hc

theorem last_of_unit? {text : List Char} {unit n : Nat} (h : unit? text = some (unit, n)) :
    ∃ c ∈ (text.take n).getLast?, c ≠ '\\' := by
  unfold unit? at h
  simp only [Option.map_eq_some_iff, Prod.mk.injEq] at h
  obtain ⟨_, hread, -, rfl⟩ := h
  have hdigits := CodeUnit.hexDigit?_of_read? hread
  rw [List.take_add]
  unfold CodeUnit.read? at hread
  split at hread
  · rename_i a b c d rest hrest
    rw [hrest] at hdigits ⊢
    refine ⟨d, by simp, ?_⟩
    rintro rfl
    exact hdigits '\\' (by simp) (by decide)
  · cases hread

theorem last_of_unicode? {text : List Char} {piece : Piece} (h : unicode? text = some piece) :
    ∃ c ∈ (text.take piece.length).getLast?, c ≠ '\\' := by
  rcases units_of_unicode? h with ⟨unit, hunit⟩ | ⟨unit, n, low, m, more, hunit, hmore, hlow, hlength⟩
  · exact last_of_unit? hunit
  · obtain ⟨c, hc, hne⟩ := last_of_unit? hlow
    refine ⟨c, ?_, hne⟩
    rw [Option.mem_def] at hc
    rw [hlength, take_of_pair hmore, List.getLast?_append, List.getLast?_cons, List.getLast?_cons, hc]
    rfl

end Lexis.Escape
