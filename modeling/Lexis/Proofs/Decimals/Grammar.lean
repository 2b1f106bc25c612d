import Lexis.Proofs.Floats

/-!
# Decimal literals as they are written

Behind the whole part of a decimal literal stands nothing, a fraction, an exponent, or one of each in either
order. A literal grows by one part at a time (`Shape.Step`), and the parts it has decide what can still follow.
The longest literal at the front of a text is one that cannot grow on (`IsFront.exists_stuck`).
-/

namespace Lexis.Decimal

/-- A whole part as it is written: a digit, then digits and separators. -/
def IsWhole : List Char → Prop
  | [] => False
  | c :: rest => c.isDigit = true ∧ ∀ d ∈ rest, d.isDigit = true ∨ d = '_'

-- The characters of the text are tried; the default instance would try all there are.
instance : DecidablePred IsWhole
  | [] => inferInstanceAs (Decidable False)
  | _ :: rest => @instDecidableAnd _ _ _ (List.decidableBAll _ rest)

/-- An exponent as it is written: a mark of either case, at most one sign, and digits. -/
def IsWrittenExponent (text : List Char) : Prop :=
  ∃ mark sign digits, text = mark :: (sign ++ digits) ∧ (mark = 'e' ∨ mark = 'E') ∧ IsSign sign ∧
    IsRun Char.isDigit digits

/-- A decimal literal as it is written: a whole part, and behind it a fraction, an exponent, both in either
order, or neither. -/
def IsLiteral (text : List Char) : Prop :=
  ∃ whole fraction exponent,
    (text = whole ++ (fraction ++ exponent) ∨ text = whole ++ (exponent ++ fraction)) ∧
    IsWhole whole ∧ (fraction = [] ∨ IsFraction fraction) ∧
    (exponent = [] ∨ IsWrittenExponent exponent)

/-- The longest literal at the front of a text, and what follows it. -/
structure IsFront (text literal after : List Char) : Prop where
  append_eq : literal ++ after = text
  isLiteral : IsLiteral literal
  longest : ∀ front, front <+: text → IsLiteral front → front.length ≤ literal.length

/-- Which parts a literal has behind its whole part. -/
structure Shape where
  fraction : Bool
  exponent : Bool

namespace Shape

/-- A literal gains a part that it does not have yet. -/
inductive Step : Shape → List Char → Shape → Prop
  | fraction {exponent : Bool} {part : List Char} :
      IsFraction part → Step ⟨false, exponent⟩ part ⟨true, exponent⟩
  | exponent {fraction : Bool} {part : List Char} :
      IsWrittenExponent part → Step ⟨fraction, false⟩ part ⟨fraction, true⟩

/-- A literal of this shape cannot grow on: no digit follows it, no separator that could belong to its whole
part, and no further part. -/
structure Stuck (shape : Shape) (after : List Char) : Prop where
  digit : ∀ c ∈ after.head?, c.isDigit = false
  separator : shape = ⟨false, false⟩ → after.head? ≠ some '_'
  part : ∀ part next, part <+: after → ¬ Step shape part next

end Shape

/-- The parts behind the whole part, and which of them there are. -/
inductive HasShape : List Char → Shape → Prop
  | nil : HasShape [] ⟨false, false⟩
  | snoc {parts part : List Char} {shape next : Shape} :
      HasShape parts shape → shape.Step part next → HasShape (parts ++ part) next

/-! ### Growing -/

theorem IsWhole.snoc {whole : List Char} (h : IsWhole whole) {c : Char}
    (hc : c.isDigit = true ∨ c = '_') : IsWhole (whole ++ [c]) := by
  cases whole with
  | nil => exact h.elim
  | cons d rest =>
    refine ⟨h.1, ?_⟩
    intro e he
    rcases List.mem_append.1 he with he | he
    · exact h.2 e he
    · rwa [List.mem_singleton.1 he]

theorem isRun_snoc {digits : List Char} (h : IsRun Char.isDigit digits) {c : Char}
    (hc : c.isDigit = true) : IsRun Char.isDigit (digits ++ [c]) := by
  refine ⟨by simp, ?_⟩
  intro d hd
  rcases List.mem_append.1 hd with hd | hd
  · exact h.2 d hd
  · rwa [List.mem_singleton.1 hd]

/-- A part ends with digits, so one more digit belongs to it. -/
theorem Shape.Step.digit {shape next : Shape} {part : List Char} (h : shape.Step part next) {c : Char}
    (hc : c.isDigit = true) : shape.Step (part ++ [c]) next := by
  cases h with
  | fraction h =>
    obtain ⟨digits, rfl, hdigits⟩ := h
    exact .fraction ⟨digits ++ [c], rfl, isRun_snoc hdigits hc⟩
  | exponent h =>
    obtain ⟨mark, sign, digits, rfl, hmark, hsign, hdigits⟩ := h
    exact .exponent ⟨mark, sign, digits ++ [c], by simp, hmark, hsign, isRun_snoc hdigits hc⟩

namespace HasShape

theorem eq_nil {parts : List Char} (h : HasShape parts ⟨false, false⟩) : parts = [] := by
  cases h with
  | nil => rfl
  | snoc _ hstep => cases hstep

theorem digit {parts : List Char} {shape : Shape} (h : HasShape parts shape) (hne : parts ≠ []) {c : Char}
    (hc : c.isDigit = true) : HasShape (parts ++ [c]) shape := by
  cases h with
  | nil => exact absurd rfl hne
  | snoc hparts hstep =>
    rw [List.append_assoc]
    exact hparts.snoc (hstep.digit hc)

/-- The parts that a literal has, by its shape. -/
theorem split {parts : List Char} {shape : Shape} (h : HasShape parts shape) :
    ∃ fraction exponent, (parts = fraction ++ exponent ∨ parts = exponent ++ fraction) ∧
      (fraction = [] ∨ IsFraction fraction) ∧ (exponent = [] ∨ IsWrittenExponent exponent) ∧
      (shape.fraction = false → fraction = []) ∧ (shape.exponent = false → exponent = []) := by
  induction h with
  | nil => exact ⟨[], [], Or.inl rfl, Or.inl rfl, Or.inl rfl, fun _ => rfl, fun _ => rfl⟩
  | @snoc _ part _ _ _ hstep ih =>
    obtain ⟨fraction, exponent, hparts, hfraction, hexponent, hnoFraction, hnoExponent⟩ := ih
    cases hstep with
    | fraction hpart =>
      obtain rfl := hnoFraction rfl
      refine ⟨part, exponent, Or.inr ?_, Or.inr hpart, hexponent, nofun, hnoExponent⟩
      rcases hparts with rfl | rfl <;> simp
    | exponent hpart =>
      obtain rfl := hnoExponent rfl
      refine ⟨fraction, part, Or.inl ?_, hfraction, Or.inr hpart, hnoFraction, nofun⟩
      rcases hparts with rfl | rfl <;> simp

theorem append_fraction {parts fraction : List Char} {exponent : Bool}
    (h : HasShape parts ⟨false, exponent⟩) (hfraction : fraction = [] ∨ IsFraction fraction) :
    ∃ b, HasShape (parts ++ fraction) ⟨b, exponent⟩ := by
  rcases hfraction with rfl | hfraction
  · exact ⟨false, by rwa [List.append_nil]⟩
  · exact ⟨true, h.snoc (.fraction hfraction)⟩

theorem append_exponent {parts exponent : List Char} {fraction : Bool}
    (h : HasShape parts ⟨fraction, false⟩) (hexponent : exponent = [] ∨ IsWrittenExponent exponent) :
    ∃ b, HasShape (parts ++ exponent) ⟨fraction, b⟩ := by
  rcases hexponent with rfl | hexponent
  · exact ⟨false, by rwa [List.append_nil]⟩
  · exact ⟨true, h.snoc (.exponent hexponent)⟩

end HasShape

/-- A literal is a whole part that has grown by parts. -/
theorem isLiteral_iff {text : List Char} :
    IsLiteral text ↔
      ∃ whole parts shape, text = whole ++ parts ∧ IsWhole whole ∧ HasShape parts shape := by
  constructor
  · rintro ⟨whole, fraction, exponent, rfl | rfl, hwhole, hfraction, hexponent⟩
    · obtain ⟨_, hfirst⟩ := HasShape.nil.append_fraction hfraction
      obtain ⟨_, hparts⟩ := hfirst.append_exponent hexponent
      exact ⟨whole, _, _, rfl, hwhole, hparts⟩
    · obtain ⟨_, hfirst⟩ := HasShape.nil.append_exponent hexponent
      obtain ⟨_, hparts⟩ := hfirst.append_fraction hfraction
      exact ⟨whole, _, _, rfl, hwhole, hparts⟩
  · rintro ⟨whole, parts, shape, rfl, hwhole, hparts⟩
    obtain ⟨fraction, exponent, horder, hfraction, hexponent, -, -⟩ := hparts.split
    refine ⟨whole, fraction, exponent, ?_, hwhole, hfraction, hexponent⟩
    exact horder.imp (congrArg (whole ++ ·)) (congrArg (whole ++ ·))

/-! ### The longest literal -/

/-- A text that starts with a digit has a longest literal at its front. -/
theorem exists_isFront {c : Char} (hc : c.isDigit = true) (rest : List Char) :
    ∃ literal after, IsFront (c :: rest) literal after := by
  classical
  let text := c :: rest
  let isLiteralTake n := IsLiteral (text.take n)
  have hone : isLiteralTake 1 :=
    isLiteral_iff.2 ⟨[c], [], _, rfl, ⟨hc, by simp⟩, .nil⟩
  have hbound : 1 ≤ text.length := Nat.succ_le_succ (Nat.zero_le _)
  let n := Nat.findGreatest isLiteralTake text.length
  have hn : n ≤ text.length := Nat.findGreatest_le text.length
  refine ⟨text.take n, text.drop n, ?_, ?_, ?_⟩
  · exact List.take_append_drop n text
  · exact Nat.findGreatest_spec hbound hone
  · intro front hfront hliteral
    rw [List.length_take_of_le hn]
    apply Nat.le_findGreatest hfront.length_le
    rwa [List.prefix_iff_eq_take.1 hfront] at hliteral

/-- The longest literal does not grow by what follows it. -/
theorem IsFront.not_isLiteral_append {text literal after : List Char} (h : IsFront text literal after)
    {more : List Char} (hmore : more <+: after) (hne : more ≠ []) : ¬ IsLiteral (literal ++ more) := by
  intro hliteral
  have hfront : literal ++ more <+: text := by
    rw [← h.append_eq]
    exact (List.prefix_append_right_inj literal).2 hmore
  have hle := h.longest _ hfront hliteral
  rw [List.length_append] at hle
  have hpos := List.length_pos_iff.2 hne
  omega

theorem IsFront.exists_stuck {text literal after : List Char} (h : IsFront text literal after) :
    ∃ whole parts shape, literal = whole ++ parts ∧ IsWhole whole ∧ HasShape parts shape ∧
      shape.Stuck after := by
  obtain ⟨whole, parts, shape, rfl, hwhole, hparts⟩ := isLiteral_iff.1 h.isLiteral
  have hhead : ∀ c ∈ after.head?, [c] <+: after := by
    intro c hc
    cases after with
    | nil => cases hc
    | cons d rest =>
      cases hc
      exact List.prefix_append [c] rest
  refine ⟨whole, parts, shape, rfl, hwhole, hparts, ?_, ?_, ?_⟩
  · intro c hc
    by_contra hdigit
    rw [Bool.not_eq_false] at hdigit
    apply h.not_isLiteral_append (hhead c hc) (by simp)
    rw [List.append_assoc]
    by_cases hnil : parts = []
    · subst hnil
      exact isLiteral_iff.2 ⟨whole ++ [c], [], _, by simp, hwhole.snoc (Or.inl hdigit), .nil⟩
    · exact isLiteral_iff.2 ⟨whole, _, _, rfl, hwhole, hparts.digit hnil hdigit⟩
  · rintro rfl hc
    obtain rfl := hparts.eq_nil
    apply h.not_isLiteral_append (hhead '_' hc) (by simp)
    exact isLiteral_iff.2 ⟨whole ++ ['_'], [], _, by simp, hwhole.snoc (Or.inr rfl), .nil⟩
  · intro part next hpart hstep
    apply h.not_isLiteral_append hpart
    · cases hstep with
      | fraction hfraction =>
        obtain ⟨_, rfl, -⟩ := hfraction
        simp
      | exponent hexponent =>
        obtain ⟨_, _, _, rfl, -⟩ := hexponent
        simp
    · rw [List.append_assoc]
      exact isLiteral_iff.2 ⟨whole, _, _, rfl, hwhole, hparts.snoc hstep⟩

end Lexis.Decimal
