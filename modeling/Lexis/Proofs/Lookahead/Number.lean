import Lexis.Literal.Number
import Lexis.Proofs.Lookahead.Room

/-!
# How far numbers look ahead

A radix literal looks at the one character behind it, a decimal literal at two: a dot belongs to it only
where a digit follows.
-/

namespace Lexis

open Text

theorem isDigit_of_isBlank {c : Char} (h : isBlank c = true) : c.isDigit = false := by
  have hall : (blanks.all fun d => !d.isDigit) = true := by decide
  simpa using of_isBlank hall h

namespace Radix

theorem isDigit_of_blank (radix : Radix) {c : Char} (h : isBlank c = true) :
    radix.isDigit c = false := by
  have hall : (blanks.all fun d => !hex.isDigit d && !oct.isDigit d && !bin.isDigit d) = true := by
    decide
  have hc := of_isBlank hall h
  simp only [Bool.and_eq_true, Bool.not_eq_true'] at hc
  cases radix with
  | hex => exact hc.1.1
  | oct => exact hc.1.2
  | bin => exact hc.2

theorem ofMark?_of_blank {c : Char} (h : isBlank c = true) : ofMark? c = none := by
  have hall : (blanks.all fun d => (ofMark? d).isNone) = true := by decide
  simpa using of_isBlank hall h

end Radix

theorem Digits.run_congr {isDigit : Char → Bool} {front rest after : List Char}
    (hdigit : ∀ c, isBlank c = true → isDigit c = false)
    (h : Room 1 (run isDigit (front ++ rest)).length front after) :
    run isDigit (front ++ after) = run isDigit (front ++ rest) := by
  apply takeWhile_of_room _ h
  intro c hc
  have hmark : c ≠ '_' := ne_of_class hc (by decide)
  simp [hdigit c hc, hmark]

theorem Radix.read_congr {radix : Radix} {front rest after : List Char}
    (h : (radix.read (front ++ rest)).Settled 1 front after) :
    radix.read (front ++ after) = radix.read (front ++ rest) := by
  have hroom : Room 1 (Digits.run radix.isDigit (front ++ rest)).length front after := by
    have hlength : (radix.read (front ++ rest)).length =
        (Digits.run radix.isDigit (front ++ rest)).length := by
      unfold read
      dsimp only
      split <;> rfl
    rw [← hlength]
    exact h.room_front (Nat.le_refl 1) (Nat.le_refl _)
  unfold read
  rw [Digits.run_congr (fun c hc => radix.isDigit_of_blank hc) hroom]

namespace Decimal

theorem sign_congr {front rest after : List Char}
    (h : Room 1 (sign (front ++ rest)).length front after) :
    sign (front ++ after) = sign (front ++ rest) := by
  cases front with
  | nil =>
    rcases h with h | ⟨h, hafter⟩
    · simp at h
    · have hrest : sign rest = [] := List.eq_nil_of_length_eq_zero (Nat.le_zero.1 h)
      rw [List.nil_append, List.nil_append, hrest]
      unfold sign
      split
      · exact absurd (hafter '+' rfl) (by decide)
      · exact absurd (hafter '-' rfl) (by decide)
      · rfl
  | cons c front =>
    unfold sign
    by_cases hplus : c = '+'
    · subst hplus; rfl
    · by_cases hminus : c = '-'
      · subst hminus; rfl
      · simp [hplus, hminus]

theorem digits_congr {front rest after : List Char}
    (h : Room 1 ((front ++ rest).takeWhile Char.isDigit).length front after) :
    (front ++ after).takeWhile Char.isDigit = (front ++ rest).takeWhile Char.isDigit :=
  takeWhile_of_room (fun _ hc => isDigit_of_isBlank hc) h

theorem readExponent_congr {front rest after : List Char}
    (h : (readExponent (front ++ rest)).Settled 1 front after) :
    readExponent (front ++ after) = readExponent (front ++ rest) := by
  have hlength : (readExponent (front ++ rest)).length = (sign (front ++ rest)).length +
      (((front ++ rest).drop (sign (front ++ rest)).length).takeWhile Char.isDigit).length := by
    unfold readExponent
    dsimp only
    split
    · rename_i hdigits
      rw [List.isEmpty_iff.1 hdigits]
      rfl
    · rfl
  have hsign : sign (front ++ after) = sign (front ++ rest) :=
    sign_congr (h.room_front (Nat.le_refl 1) (by omega))
  have hdigits := h.room (Nat.le_refl 1) (Nat.le_of_eq hlength.symm)
  have hle : (sign (front ++ rest)).length ≤ front.length := by
    have hle := h.length_le
    omega
  have hdrop : ∀ text, (front ++ text).drop (sign (front ++ rest)).length =
      front.drop (sign (front ++ rest)).length ++ text :=
    fun text => List.drop_append_of_le_length hle
  rw [hdrop] at hdigits
  unfold readExponent
  dsimp only
  rw [hsign, hdrop, hdrop, digits_congr hdigits]

/-! What is read behind the whole part, by its first character. -/

theorem readParts_dot {digits rest : List Char} (h : rest.takeWhile Char.isDigit = digits)
    (fraction exponent : Bool) :
    readParts fraction exponent ('.' :: rest) =
      if digits.isEmpty then .found [] 0
      else if fraction then .fault .invalidFloatNumber 0
      else
        (readParts true exponent (rest.drop digits.length)).cons
          ⟨'.' :: digits, 1 + digits.length⟩ := by
  subst h
  rw [readParts, if_pos rfl]

theorem readParts_mark {c : Char} (hc : c = 'e' ∨ c = 'E') (fraction exponent : Bool)
    (rest : List Char) :
    readParts fraction exponent (c :: rest) =
      if exponent then .fault .invalidFloatNumber 0
      else
        match readExponent rest with
        | ⟨.error fault, n⟩ => .fault fault (1 + n)
        | ⟨.ok power, n⟩ =>
          (readParts fraction true (rest.drop n)).cons ⟨'e' :: power, 1 + n⟩ := by
  have hdot : c ≠ '.' := by rcases hc with rfl | rfl <;> decide
  rw [readParts, if_neg hdot]
  exact if_pos hc

theorem readParts_other {c : Char} (hdot : c ≠ '.') (hmark : ¬ (c = 'e' ∨ c = 'E'))
    (fraction exponent : Bool) (rest : List Char) :
    readParts fraction exponent (c :: rest) =
      if c = '_' ∧ (fraction ∨ exponent) then .fault .underscoreInFloat 0 else .found [] 0 := by
  rw [readParts, if_neg hdot, if_neg hmark]

theorem readParts_of_blankHead (fraction exponent : Bool) {text : List Char} (h : BlankHead text) :
    readParts fraction exponent text = .found [] 0 := by
  cases text with
  | nil => rw [readParts]
  | cons c rest =>
    have hc := h c rfl
    have hdot : c ≠ '.' := ne_of_class hc (by decide)
    have hlower : c ≠ 'e' := ne_of_class hc (by decide)
    have hupper : c ≠ 'E' := ne_of_class hc (by decide)
    have hmark : c ≠ '_' := ne_of_class hc (by decide)
    rw [readParts_other hdot (by simp [hlower, hupper]), if_neg (by simp [hmark])]

theorem readParts_of_length_zero {fraction exponent : Bool} {text : List Char}
    (hok : (readParts fraction exponent text).result.isOk = true)
    (hlength : (readParts fraction exponent text).length ≤ 0) :
    readParts fraction exponent text = .found [] 0 := by
  revert hok hlength
  fun_cases readParts fraction exponent text with
  | case1 => intro _ _; rfl
  | case2 => intro _ _; rfl
  | case3 => intro hok _; cases hok
  | case4 => intro _ hlength; rw [Reading.length_cons] at hlength; dsimp only at hlength; omega
  | case5 => intro hok _; cases hok
  | case6 => intro hok _; cases hok
  | case7 => intro _ hlength; rw [Reading.length_cons] at hlength; dsimp only at hlength; omega
  | case8 => intro hok _; cases hok
  | case9 => intro _ _; rfl

theorem takeWhile_isDigit_of_blankHead {text : List Char} (h : BlankHead text) :
    text.takeWhile Char.isDigit = [] :=
  @takeWhile_append_stop Char.isDigit [] text (by simp) fun c hc => isDigit_of_isBlank (h c hc)

/-- Whether a dot starts a fraction is settled by the one character behind it. -/
theorem isEmpty_digits_congr {fraction exponent : Bool} {front rest after : List Char}
    (h : (readParts fraction exponent ('.' :: (front ++ rest))).Settled 2 ('.' :: front) after) :
    ((front ++ after).takeWhile Char.isDigit).isEmpty =
      ((front ++ rest).takeWhile Char.isDigit).isEmpty := by
  cases front with
  | cons c front => cases hc : c.isDigit <;> simp [hc]
  | nil =>
    rcases h with h | ⟨hok, hlength, hafter⟩
    · simp at h
    · rw [List.nil_append, List.nil_append, takeWhile_isDigit_of_blankHead hafter]
      rw [List.nil_append, readParts_dot rfl] at hok hlength
      split at hok
      · rename_i hdigits
        rw [hdigits]
        rfl
      · rename_i hdigits
        rw [if_neg hdigits] at hlength
        split at hok
        · cases hok
        · rename_i hfraction
          rw [if_neg hfraction, Reading.length_cons] at hlength
          have hne : rest.takeWhile Char.isDigit ≠ [] := by simpa using hdigits
          have hpos := List.length_pos_iff.2 hne
          simp only [List.length_cons, List.length_nil] at hlength
          omega

/-- An exponent is settled where all that is read from its mark on is. -/
theorem settled_readExponent {c : Char} (hc : c = 'e' ∨ c = 'E') {fraction : Bool}
    {text front after : List Char}
    (h : (readParts fraction false (c :: text)).Settled 2 (c :: front) after) :
    (readExponent text).Settled 1 front after := by
  rw [readParts_mark hc, if_neg (by simp)] at h
  rcases hread : readExponent text with ⟨fault | power, n⟩
  · rw [hread] at h
    rcases h with h | ⟨hok, -⟩
    · refine Or.inl ?_
      simp only [Reading.length_fault, List.length_cons] at h
      dsimp only
      omega
    · cases hok
  · rw [hread] at h
    rcases h with h | ⟨-, h, hafter⟩
    · refine Or.inl ?_
      simp only [Reading.length_cons, List.length_cons] at h
      dsimp only
      omega
    · refine Or.inr ⟨rfl, ?_, hafter⟩
      simp only [Reading.length_cons, List.length_cons] at h
      dsimp only
      omega

section

variable {front rest after : List Char}
  (ih : ∀ (fraction exponent : Bool) (tail : List Char), tail.length ≤ front.length →
    (readParts fraction exponent (tail ++ rest)).Settled 2 tail after →
    readParts fraction exponent (tail ++ after) = readParts fraction exponent (tail ++ rest))

include ih

theorem readParts_congr_dot {fraction exponent : Bool}
    (h : (readParts fraction exponent ('.' :: (front ++ rest))).Settled 2 ('.' :: front) after) :
    readParts fraction exponent ('.' :: (front ++ after)) =
      readParts fraction exponent ('.' :: (front ++ rest)) := by
  have hempty := isEmpty_digits_congr h
  rw [readParts_dot rfl] at h
  rw [readParts_dot rfl, readParts_dot rfl, hempty]
  by_cases hdigits : ((front ++ rest).takeWhile Char.isDigit).isEmpty = true
  · rw [if_pos hdigits, if_pos hdigits]
  · rw [if_neg hdigits] at h
    rw [if_neg hdigits, if_neg hdigits]
    cases fraction with
    | true => rfl
    | false =>
      rw [if_neg (by simp)] at h
      have hroom : Room 1 ((front ++ rest).takeWhile Char.isDigit).length front after :=
        h.room (by decide) (Nat.le_add_right _ _)
      have hle := hroom.le
      have hinner := h.of_cons
      rw [Nat.add_comm, List.drop_succ_cons, List.drop_append_of_le_length hle] at hinner
      rw [if_neg (by simp), if_neg (by simp), digits_congr hroom,
        List.drop_append_of_le_length hle, List.drop_append_of_le_length hle,
        ih true exponent _ (by simp) hinner]

theorem readParts_congr_mark {c : Char} (hmark : c = 'e' ∨ c = 'E') {fraction exponent : Bool}
    (h : (readParts fraction exponent (c :: (front ++ rest))).Settled 2 (c :: front) after) :
    readParts fraction exponent (c :: (front ++ after)) =
      readParts fraction exponent (c :: (front ++ rest)) := by
  rw [readParts_mark hmark, readParts_mark hmark]
  cases exponent with
  | true => rfl
  | false =>
    have hexponent := settled_readExponent hmark h
    rw [if_neg (by simp), if_neg (by simp), readExponent_congr hexponent]
    rw [readParts_mark hmark, if_neg (by simp)] at h
    rcases hread : readExponent (front ++ rest) with ⟨fault | power, n⟩
    · rfl
    · rw [hread] at h hexponent
      have hle : n ≤ front.length := hexponent.length_le
      have hinner := h.of_cons
      rw [Nat.add_comm, List.drop_succ_cons, List.drop_append_of_le_length hle] at hinner
      dsimp only
      rw [List.drop_append_of_le_length hle, List.drop_append_of_le_length hle,
        ih fraction true _ (by simp) hinner]

end

/-- Behind a fraction and an exponent, two characters tell that the literal ends. -/
theorem readParts_congr (fraction exponent : Bool) (front rest after : List Char)
    (h : (readParts fraction exponent (front ++ rest)).Settled 2 front after) :
    readParts fraction exponent (front ++ after) = readParts fraction exponent (front ++ rest) := by
  induction hn : front.length using Nat.strong_induction_on generalizing front fraction exponent with
  | _ n ih =>
    subst hn
    cases front with
    | nil =>
      rcases h with h | ⟨hok, hlength, hafter⟩
      · simp at h
      · rw [readParts_of_length_zero hok hlength]
        exact readParts_of_blankHead _ _ hafter
    | cons c front =>
      have hshorter : ∀ (fraction exponent : Bool) (tail : List Char), tail.length ≤ front.length →
          (readParts fraction exponent (tail ++ rest)).Settled 2 tail after →
          readParts fraction exponent (tail ++ after) =
            readParts fraction exponent (tail ++ rest) :=
        fun fraction exponent tail hlength htail =>
          ih _ (Nat.lt_succ_of_le hlength) fraction exponent tail htail rfl
      rw [List.cons_append] at h
      rw [List.cons_append, List.cons_append]
      by_cases hdot : c = '.'
      · subst hdot
        exact readParts_congr_dot hshorter h
      · by_cases hmark : c = 'e' ∨ c = 'E'
        · exact readParts_congr_mark hshorter hmark h
        · rw [readParts_other hdot hmark, readParts_other hdot hmark]

theorem read_congr {front rest after : List Char} (h : (read (front ++ rest)).Settled 2 front after) :
    read (front ++ after) = read (front ++ rest) := by
  have hroom : Room 1 (Digits.run Char.isDigit (front ++ rest)).length front after :=
    h.room_front (by decide) (Nat.le_add_right _ _)
  have hle := hroom.le
  have hparts := h.of_shift.of_map
  rw [List.drop_append_of_le_length hle] at hparts
  unfold read
  dsimp only
  rw [Digits.run_congr (fun _ hc => isDigit_of_isBlank hc) hroom, List.drop_append_of_le_length hle,
    List.drop_append_of_le_length hle, readParts_congr false false _ rest after hparts]

end Decimal

namespace Number

theorem radix?_congr {c : Char} {front rest after : List Char}
    (h : (read (c :: (front ++ rest))).Settled 2 (c :: front) after) :
    radix? (c :: (front ++ after)) = radix? (c :: (front ++ rest)) := by
  cases front with
  | cons d front =>
    unfold radix?
    by_cases hzero : c = '0'
    · subst hzero; rfl
    · simp [hzero]
  | nil =>
    rcases h with h | ⟨-, hlength, hafter⟩
    · simp at h
    · have hrest : radix? (c :: rest) = none := by
        cases hradix : radix? (c :: rest) with
        | none => rfl
        | some radix =>
          rw [List.nil_append, read, hradix] at hlength
          simp only [Reading.length_shift, List.length_cons, List.length_nil] at hlength
          omega
      rw [List.nil_append, List.nil_append, hrest]
      unfold radix?
      split
      · rename_i mark tail heq
        obtain ⟨-, rfl⟩ := List.cons.inj heq
        exact Radix.ofMark?_of_blank (hafter mark rfl)
      · rfl

theorem read_congr {c : Char} {front rest after : List Char}
    (h : (read (c :: (front ++ rest))).Settled 2 (c :: front) after) :
    read (c :: (front ++ after)) = read (c :: (front ++ rest)) := by
  have hradix := radix?_congr h
  unfold read at h ⊢
  rw [hradix]
  cases hsome : radix? (c :: (front ++ rest)) with
  | none =>
    rw [hsome] at h
    exact @Decimal.read_congr (c :: front) rest after h
  | some radix =>
    rw [hsome] at h
    have hinner := h.of_shift
    have hle := h.length_le
    cases front with
    | nil =>
      simp only [Reading.length_shift, List.length_cons, List.length_nil] at hle
      omega
    | cons d front =>
      have hsettled : (radix.read (front ++ rest)).Settled 1 front after := hinner.mono (by decide)
      exact congrArg (Reading.shift 2) (Radix.read_congr hsettled)

end Number

end Lexis
