import Lexis.Proofs.Escape.CodeUnits
import Lexis.Proofs.Escape.Decoding

/-!
# Unicode escapes

Behind `\u` and any number of further marks, four digits spell a character, or two adjacent escapes spell a
surrogate pair. Anything else leaves `\u` in the text, and what follows it is read again. Main statement:
`Decoding.resolve_unicode`.
-/

namespace Lexis

open Text

namespace Escape

/-- The text starts with four digits that spell a code unit, which is no surrogate. -/
def SpellsUnit (text : List Char) (unit : Nat) : Prop :=
  CodeUnit.Spells unit (text.take 4) ∧ (unit < 0xD800 ∨ 0xDFFF < unit)

/-- The text starts with four digits that spell a high surrogate, and right behind them stands an escape of
one mark or more with four digits that spell a low one. -/
structure SpellsPair (text : List Char) (high low marks : Nat) : Prop where
  high_spelled : CodeUnit.Spells high (text.take 4)
  high_bounds : 0xD800 ≤ high ∧ high ≤ 0xDBFF
  marks_pos : 1 ≤ marks
  low_spelled : ∃ more, text.drop 4 = '\\' :: (List.replicate marks 'u' ++ more) ∧
    CodeUnit.Spells low (more.take 4)
  low_bounds : 0xDC00 ≤ low ∧ low ≤ 0xDFFF

/-- The marks in front of the digits are passed over, however many they are. -/
theorem unit?_marks {rest : List Char} (h : rest.head? ≠ some 'u') (marks : Nat) :
    unit? (List.replicate marks 'u' ++ rest) =
      (CodeUnit.read? rest).map fun unit => (unit, marks + 4) := by
  have hmarks : (List.replicate marks 'u' ++ rest).takeWhile (· == 'u') =
      List.replicate marks 'u' := by
    apply takeWhile_append_stop
    · intro c hc
      simp [List.eq_of_mem_replicate hc]
    · intro c hc
      rw [beq_eq_false_iff_ne]
      rintro rfl
      exact h hc
  rw [unit?, hmarks, List.length_replicate, List.drop_left' List.length_replicate]

theorem unicode?_marks {rest : List Char} (h : rest.head? ≠ some 'u') (marks : Nat) :
    unicode? (List.replicate marks 'u' ++ rest) =
      (unicode? rest).map fun piece => ⟨piece.text, marks + piece.length⟩ := by
  have hnone := unit?_marks h 0
  rw [List.replicate_zero, List.nil_append] at hnone
  simp only [unicode?, unit?_marks h marks, hnone, Option.bind_eq_bind]
  cases CodeUnit.read? rest with
  | none => rfl
  | some unit =>
    simp only [Option.map_some, Option.bind_some]
    cases CodeUnit.char? unit with
    | some c => rfl
    | none =>
      have hdrop : (List.replicate marks 'u' ++ rest).drop (marks + 4) = rest.drop 4 := by
        rw [← List.drop_drop, List.drop_left' List.length_replicate]
      dsimp only
      rw [hdrop, Nat.zero_add]
      split
      · rename_i more hmore
        cases unit? more with
        | none => rfl
        | some found =>
          dsimp only [Option.bind_some]
          cases CodeUnit.pair? unit found.1 with
          | none => rfl
          | some c =>
            simp only [Option.bind_some, Option.map_some]
            congr 2
            omega
      · rfl

theorem head?_ne_of_spells {text : List Char} {unit : Nat} (h : CodeUnit.Spells unit (text.take 4)) :
    text.head? ≠ some 'u' := by
  intro hhead
  obtain ⟨rest, rfl⟩ := List.head?_eq_some_iff.1 hhead
  exact CodeUnit.hexDigit?_of_read? (CodeUnit.read?_eq_some_iff.2 h) 'u' (by simp) (by decide)

theorem unit?_of_spells {text : List Char} {unit : Nat} (h : CodeUnit.Spells unit (text.take 4))
    (marks : Nat) : unit? (List.replicate marks 'u' ++ text) = some (unit, marks + 4) := by
  rw [unit?_marks (head?_ne_of_spells h), CodeUnit.read?_eq_some_iff.2 h]
  rfl

/-- A code unit that is read is spelled behind the marks. -/
theorem spells_of_unit? {text : List Char} {unit n : Nat} (h : unit? text = some (unit, n)) :
    ∃ marks more, text = List.replicate marks 'u' ++ more ∧ CodeUnit.Spells unit (more.take 4) ∧
      n = marks + 4 := by
  unfold unit? at h
  simp only [Option.map_eq_some_iff, Prod.mk.injEq] at h
  obtain ⟨_, hread, rfl, rfl⟩ := h
  refine ⟨_, _, ?_, CodeUnit.read?_eq_some_iff.1 hread, rfl⟩
  have hmarks : text.takeWhile (· == 'u') =
      List.replicate (text.takeWhile (· == 'u')).length 'u' := by
    apply List.eq_replicate_of_mem
    intro c hc
    simpa using List.mem_takeWhile_imp hc
  rw [← hmarks]
  conv_lhs => rw [← List.take_append_drop (text.takeWhile (· == 'u')).length text]
  rw [take_length_takeWhile]

theorem unicode?_of_unit {text : List Char} {unit : Nat} (h : SpellsUnit text unit) :
    unicode? text = some ⟨[Char.ofNat unit], 4⟩ := by
  have hunit := unit?_of_spells h.1 0
  rw [List.replicate_zero, List.nil_append] at hunit
  simp [unicode?, hunit, CodeUnit.char?_of_not_surrogate h.2]

theorem unicode?_of_pair {text : List Char} {high low marks : Nat}
    (h : SpellsPair text high low marks) :
    unicode? text =
      some ⟨[Char.ofNat (0x10000 + (high - 0xD800) * 0x400 + (low - 0xDC00))],
        4 + (1 + marks + 4)⟩ := by
  obtain ⟨more, hmore, hlow⟩ := h.low_spelled
  obtain ⟨k, rfl⟩ := Nat.exists_eq_add_of_le' h.marks_pos
  have hfirst := unit?_of_spells h.high_spelled 0
  have hsecond := unit?_of_spells hlow k
  have hsurrogate : CodeUnit.char? high = none :=
    CodeUnit.char?_of_surrogate ⟨h.high_bounds.1, Nat.le_trans h.high_bounds.2 (by decide)⟩
  have hpair := CodeUnit.pair?_of_surrogates h.high_bounds h.low_bounds
  rw [List.replicate_zero, List.nil_append] at hfirst
  rw [List.replicate_succ, List.cons_append] at hmore
  simp only [unicode?, hfirst, hsurrogate, hmore, hsecond, hpair, Option.bind_eq_bind,
    Option.bind_some, Nat.zero_add]
  congr 2
  omega

/-- Nothing else is a unicode escape. -/
theorem spells_of_unicode? {text : List Char} {piece : Piece} (hmark : text.head? ≠ some 'u')
    (h : unicode? text = some piece) :
    (∃ unit, SpellsUnit text unit) ∨ ∃ high low marks, SpellsPair text high low marks := by
  have hunit := unit?_marks hmark 0
  rw [List.replicate_zero, List.nil_append] at hunit
  unfold unicode? at h
  simp only [hunit, Option.bind_eq_bind, Option.bind_eq_some_iff, Option.map_eq_some_iff] at h
  obtain ⟨_, ⟨unit, hread, rfl⟩, h⟩ := h
  have hspelled := CodeUnit.read?_eq_some_iff.1 hread
  dsimp only at h
  split at h
  · rename_i c hchar
    refine Or.inl ⟨unit, hspelled, ?_⟩
    by_contra hsurrogate
    rw [CodeUnit.char?_of_surrogate (by omega)] at hchar
    cases hchar
  · split at h
    · rename_i more hmore
      simp only [Option.bind_eq_some_iff] at h
      obtain ⟨⟨low, m⟩, hlow, c, hpair, -⟩ := h
      obtain ⟨marks, digits, rfl, hdigits, -⟩ := spells_of_unit? hlow
      obtain ⟨hhigh, hbounds⟩ := CodeUnit.surrogates_of_pair? hpair
      exact Or.inr ⟨unit, low, marks + 1, hspelled, hhigh, by omega, ⟨digits, hmore, hdigits⟩, hbounds⟩
    · cases h

end Escape

namespace Decoding

open Escape

/-- Behind a backslash and one mark or more, the escape at the cursor is resolved to the one character that is
spelled there, and exactly its characters are passed over. Where none is spelled, the backslash and the first
mark stay in the text, and the cursor moves over these two alone. Either way both readers go on from there as
if they had read this part themselves. -/
theorem resolve_unicode (tab : Nat) {state : Decoding} {marks : Nat} {rest : List Char}
    (hrest : state.cursor.rest = '\\' :: 'u' :: (List.replicate marks 'u' ++ rest))
    (hmark : rest.head? ≠ some 'u') :
    ∃ next, state.resolve tab = some next ∧
      (∀ quote, state.resume (Quoted.read quote) = next.resume (Quoted.read quote)) ∧
      state.resume TextBlock.read = next.resume TextBlock.read ∧
      (∀ unit, SpellsUnit rest unit →
        next = state.take tab ⟨[Char.ofNat unit], 2 + marks + 4⟩) ∧
      (∀ high low more, SpellsPair rest high low more →
        next = state.take tab
          ⟨[Char.ofNat (0x10000 + (high - 0xD800) * 0x400 + (low - 0xDC00))],
            2 + marks + 4 + 1 + more + 4⟩) ∧
      ((∀ unit, ¬ SpellsUnit rest unit) → (∀ high low more, ¬ SpellsPair rest high low more) →
        next = state.take tab ⟨['\\', 'u'], 2⟩) := by
  have hresolve := resolve_of_backslash tab hrest
  have hunicode := unicode?_marks hmark marks
  refine ⟨_, hresolve, resume_quoted hresolve, resume_textBlock hresolve, ?_, ?_, ?_⟩
  · intro unit hunit
    rw [unicode?_of_unit hunit] at hunicode
    rw [read_unicode hunicode, ← Nat.add_assoc]
  · intro high low more hpair
    rw [unicode?_of_pair hpair] at hunicode
    rw [read_unicode hunicode]
    simp only [Nat.add_assoc]
  · intro hunit hpair
    have hnone : unicode? rest = none := by
      cases hread : unicode? rest with
      | none => rfl
      | some piece =>
        rcases spells_of_unicode? hmark hread with ⟨unit, h⟩ | ⟨high, low, more, h⟩
        · exact absurd h (hunit unit)
        · exact absurd h (hpair high low more)
    rw [hnone] at hunicode
    rw [read_mark hunicode]

/-- A surrogate pair with an extra mark in its first escape, behind a text that is kept. -/
theorem resolve_unicode_pair :
    let state : Decoding := ⟨⟨3, 4⟩, ⟨"\\uuD83D\\ude00b".toList, ⟨3, 6⟩⟩, 2, ['a']⟩
    let rest := "D83D\\ude00b".toList
    state.cursor.rest = '\\' :: 'u' :: (List.replicate 1 'u' ++ rest) ∧
    rest.head? ≠ some 'u' ∧ Escape.SpellsPair rest 0xD83D 0xDE00 1 ∧
    state.resolve 4 = some ⟨⟨3, 4⟩, ⟨['b'], ⟨3, 19⟩⟩, 15, ['a', '😀']⟩ := by
  intro state rest
  have hrest : state.cursor.rest = '\\' :: 'u' :: (List.replicate 1 'u' ++ rest) := by decide
  have hmark : rest.head? ≠ some 'u' := by decide
  have hspelled : Escape.SpellsPair rest 0xD83D 0xDE00 1 := {
    high_spelled := by decide
    high_bounds := by decide
    marks_pos := by decide
    low_spelled := ⟨"de00b".toList, by decide, by decide⟩
    low_bounds := by decide }
  obtain ⟨next, hresolve, -, -, -, hpair, -⟩ := @resolve_unicode 4 state 1 rest hrest hmark
  refine ⟨hrest, hmark, hspelled, ?_⟩
  rw [hresolve, hpair _ _ _ hspelled]
  decide

end Decoding

end Lexis
