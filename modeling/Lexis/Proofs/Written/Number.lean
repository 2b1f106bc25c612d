import Lexis.Proofs.Lookahead.Number
import Lexis.Proofs.WellFormed

/-!
# Written numbers

The text of a number is read back as the same number, with the mark of its radix in front and white space
behind.
-/

namespace Lexis

open Text

theorem Digits.run_append {isDigit : Char → Bool} {digits after : List Char}
    (hdigits : ∀ c ∈ digits, isDigit c = true)
    (hafter : ∀ c ∈ after.head?, isDigit c = false ∧ c ≠ '_') :
    run isDigit (digits ++ after) = digits := by
  apply takeWhile_append_stop
  · intro c hc
    simp [hdigits c hc]
  · intro c hc
    obtain ⟨hdigit, hmark⟩ := hafter c hc
    simp [hdigit, hmark]

theorem Digits.ofRun_of_digits {isDigit : Char → Bool} (hmark : isDigit '_' = false)
    {digits : List Char} (hdigits : ∀ c ∈ digits, isDigit c = true) : ofRun digits = digits := by
  apply List.filter_eq_self.2
  intro c hc
  rw [bne_iff_ne]
  exact ne_of_class (hdigits c hc) hmark

namespace Radix

/-- The mark that a radix is written with. -/
def mark : Radix → Char
  | hex => 'x'
  | oct => 'o'
  | bin => 'b'

theorem ofMark?_mark (radix : Radix) : ofMark? radix.mark = some radix := by
  cases radix <;> rfl

theorem isDigit_underscore (radix : Radix) : radix.isDigit '_' = false := by
  cases radix <;> decide

theorem read_written {radix : Radix} {digits after : List Char} (h : IsRun radix.isDigit digits)
    (hafter : BlankHead after) :
    radix.read (digits ++ after) = .found (.ofValue radix.kind digits) digits.length := by
  have hrun : Digits.run radix.isDigit (digits ++ after) = digits :=
    Digits.run_append h.2 fun c hc =>
      ⟨radix.isDigit_of_blank (hafter c hc), ne_of_class (hafter c hc) (by decide)⟩
  have hdigits : Digits.ofRun digits = digits :=
    Digits.ofRun_of_digits radix.isDigit_underscore h.2
  unfold read
  dsimp only
  rw [hrun, hdigits, if_neg (by simpa using h.1)]

end Radix

/-- The digits of a radix behind a zero and the mark of the radix. -/
theorem Number.read_radix {radix : Radix} {digits after : List Char}
    (h : IsRun radix.isDigit digits) (hafter : BlankHead after) :
    read ('0' :: radix.mark :: (digits ++ after)) =
      .found (.ofValue radix.kind digits) (2 + digits.length) := by
  have hradix : radix? ('0' :: radix.mark :: (digits ++ after)) = some radix := radix.ofMark?_mark
  rw [read, hradix]
  dsimp only
  rw [List.drop_succ_cons, List.drop_succ_cons, List.drop_zero, Radix.read_written h hafter]
  rfl

namespace Decimal

/-- What can follow the digits of a part: white space, or the next part. -/
theorem Parts.head_append {fraction exponent : Bool} {parts after : List Char}
    (h : Parts fraction exponent parts) (hafter : BlankHead after) :
    ∀ c ∈ (parts ++ after).head?, c = '.' ∨ c = 'e' ∨ isBlank c = true := by
  cases h with
  | nil => exact fun c hc => Or.inr (Or.inr (hafter c hc))
  | fraction _ _ =>
    rintro _ ⟨⟩
    exact Or.inl rfl
  | exponent _ _ _ =>
    rintro _ ⟨⟩
    exact Or.inr (Or.inl rfl)

theorem isDigit_of_head {c : Char} (h : c = '.' ∨ c = 'e' ∨ isBlank c = true) :
    c.isDigit = false := by
  rcases h with rfl | rfl | h
  · decide
  · decide
  · exact isDigit_of_isBlank h

theorem Parts.stop_append {fraction exponent : Bool} {parts after : List Char}
    (h : Parts fraction exponent parts) (hafter : BlankHead after) :
    ∀ c ∈ (parts ++ after).head?, c.isDigit = false :=
  fun c hc => isDigit_of_head (h.head_append hafter c hc)

theorem sign_append {text digits rest : List Char} (h : IsSign text)
    (hdigits : IsRun Char.isDigit digits) : sign (text ++ (digits ++ rest)) = text := by
  rcases h with rfl | rfl | rfl
  · obtain ⟨c, digits, rfl⟩ := List.exists_cons_of_ne_nil hdigits.1
    have hc : c.isDigit = true := hdigits.2 c List.mem_cons_self
    have hplus : c ≠ '+' := by
      rintro rfl
      exact absurd hc (by decide)
    have hminus : c ≠ '-' := by
      rintro rfl
      exact absurd hc (by decide)
    simp [sign, hplus, hminus]
  · rfl
  · rfl

/-! A part is read up to a character that is no digit. -/

section

variable {digits after : List Char} (hdigits : IsRun Char.isDigit digits)
  (hafter : ∀ c ∈ after.head?, c.isDigit = false)

include hdigits hafter

theorem readExponent_append {text : List Char} (hsign : IsSign text) :
    readExponent (text ++ (digits ++ after)) =
      .found (text ++ digits) (text.length + digits.length) := by
  unfold readExponent
  dsimp only
  rw [sign_append hsign hdigits, List.drop_left, takeWhile_append_stop hdigits.2 hafter,
    if_neg (by simpa using hdigits.1)]

theorem readParts_fraction (exponent : Bool) :
    readParts false exponent ('.' :: (digits ++ after)) =
      (readParts true exponent after).cons ⟨'.' :: digits, 1 + digits.length⟩ := by
  rw [readParts_dot (takeWhile_append_stop hdigits.2 hafter), if_neg (by simpa using hdigits.1),
    if_neg (by simp), List.drop_left]

theorem readParts_exponent {mark : Char} (hmark : mark = 'e' ∨ mark = 'E') {text : List Char}
    (hsign : IsSign text) (fraction : Bool) :
    readParts fraction false (mark :: (text ++ (digits ++ after))) =
      (readParts fraction true after).cons
        ⟨'e' :: (text ++ digits), 1 + (text.length + digits.length)⟩ := by
  rw [readParts_mark hmark, if_neg (by simp), readExponent_append hdigits hafter hsign]
  simp only [Reading.found]
  rw [← List.append_assoc, ← List.length_append, List.drop_left]

end

/-- A fraction and an exponent are read back as they are written. -/
theorem readParts_append {fraction exponent : Bool} {parts after : List Char}
    (h : Parts fraction exponent parts) (hafter : BlankHead after) :
    readParts fraction exponent (parts ++ after) = .found parts parts.length := by
  induction h with
  | nil => exact readParts_of_blankHead _ _ hafter
  | fraction hdigits hparts ih =>
    rw [List.cons_append, List.append_assoc, readParts_fraction hdigits (hparts.stop_append hafter), ih,
      Reading.cons_found, List.length_cons, List.length_append, List.cons_append]
    congr 1
    dsimp only
    omega
  | exponent hsign hdigits hparts ih =>
    rw [List.cons_append, List.append_assoc, List.append_assoc,
      readParts_exponent hdigits (hparts.stop_append hafter) (Or.inl rfl) hsign, ih,
      Reading.cons_found, List.cons_append, List.length_cons]
    congr 1
    simp only [List.length_append]
    omega

theorem ofMark?_of_head {c : Char} (h : c.isDigit = true ∨ c = '.' ∨ c = 'e' ∨ isBlank c = true) :
    Radix.ofMark? c = none := by
  rcases h with h | rfl | rfl | h
  · unfold Radix.ofMark?
    split <;> first | rfl | exact absurd h (by decide)
  · rfl
  · rfl
  · exact Radix.ofMark?_of_blank h

/-- A whole part, and the fraction and the exponent behind it, are read back. -/
theorem read_append {whole parts after : List Char} (hwhole : IsRun Char.isDigit whole)
    (h : Parts false false parts) (hafter : BlankHead after) :
    read (whole ++ (parts ++ after)) =
      .found (if parts.isEmpty then .ofValue .intDec whole else .ofValue .float (whole ++ parts))
        (whole.length + parts.length) := by
  have hrun : Digits.run Char.isDigit (whole ++ (parts ++ after)) = whole := by
    apply Digits.run_append hwhole.2
    intro c hc
    have hhead := h.head_append hafter c hc
    refine ⟨isDigit_of_head hhead, ?_⟩
    rintro rfl
    exact absurd hhead (by decide)
  have hdigits : Digits.ofRun whole = whole := Digits.ofRun_of_digits (by decide) hwhole.2
  unfold read
  dsimp only
  rw [hrun, hdigits, List.drop_left, readParts_append h hafter, Reading.map_found,
    Reading.shift_found]

end Decimal

/-- No radix mark follows the leading digit of a decimal literal that is written. -/
theorem Number.read_decimal {whole parts after : List Char} (hwhole : IsRun Char.isDigit whole)
    (h : Decimal.Parts false false parts) (hafter : BlankHead after) :
    read (whole ++ (parts ++ after)) =
      .found (if parts.isEmpty then .ofValue .intDec whole else .ofValue .float (whole ++ parts))
        (whole.length + parts.length) := by
  have hradix : radix? (whole ++ (parts ++ after)) = none := by
    obtain ⟨c, digits, rfl⟩ := List.exists_cons_of_ne_nil hwhole.1
    unfold radix?
    split
    · rename_i d rest heq
      obtain ⟨-, heq⟩ := List.cons.inj heq
      apply Decimal.ofMark?_of_head
      cases digits with
      | nil =>
        right
        apply h.head_append hafter
        have hhead : parts ++ after = d :: rest := heq
        rw [hhead]
        rfl
      | cons e digits =>
        obtain ⟨rfl, -⟩ := List.cons.inj heq
        exact Or.inl (hwhole.2 e (by simp))
    · rfl
  rw [read, hradix]
  exact Decimal.read_append hwhole h hafter

end Lexis
