import Mathlib.Data.List.Forall2
import Lexis.Text.CodeUnit

/-!
# Code units as they are spelled

Four hexadecimal digits, each of either case, spell a code unit. A character below 65536 is one unit, any
other character a high and a low surrogate. Main statements: exactly the spelled units are read
(`CodeUnit.read?_eq_some_iff`), and the units of a character give it back (`CodeUnit.not_surrogate`,
`CodeUnit.ofChar_surrogates`).
-/

namespace Lexis.Text

/-- A hexadecimal digit of either case with a given value. -/
def IsHexDigit (value : Nat) (c : Char) : Prop :=
  value < 16 ∧ (c = value.digitChar ∨ c = value.digitChar.toUpper)

instance (value : Nat) (c : Char) : Decidable (IsHexDigit value c) :=
  inferInstanceAs (Decidable (_ ∧ _))

theorem toNat_lt_of_hexDigit? {c : Char} {value : Nat} (h : hexDigit? c = some value) :
    c.toNat < 128 := by
  have hle : c ≤ 'f' := by
    unfold hexDigit? at h
    split at h
    · rename_i hc
      exact Char.le_trans hc.2 (by decide)
    split at h
    · rename_i hc
      exact hc.2
    split at h
    · rename_i hc
      exact Char.le_trans hc.2 (by decide)
    · cases h
  rw [Char.le_def, UInt32.le_iff_toNat_le] at hle
  exact Nat.lt_of_le_of_lt hle (by decide)

theorem hexDigit?_eq_some_iff {c : Char} {value : Nat} :
    hexDigit? c = some value ↔ IsHexDigit value c := by
  constructor
  · intro h
    have hall : ∀ n < 128, ∀ v ∈ hexDigit? (Char.ofNat n), IsHexDigit v (Char.ofNat n) := by decide
    have hc := hall c.toNat (toNat_lt_of_hexDigit? h)
    rw [Char.ofNat_toNat] at hc
    exact hc value h
  · rintro ⟨hlt, h⟩
    have hall : ∀ n < 16,
        hexDigit? n.digitChar = some n ∧ hexDigit? n.digitChar.toUpper = some n := by
      decide
    rcases h with rfl | rfl
    · exact (hall value hlt).1
    · exact (hall value hlt).2

namespace CodeUnit

/-- The values of the four digits of a code unit, the highest first. -/
def nibbles (unit : Nat) : List Nat :=
  [unit / 0x1000, unit / 0x100 % 16, unit / 0x10 % 16, unit % 16]

/-- Four digits, each of either case, spell a code unit. -/
def Spells (unit : Nat) (text : List Char) : Prop := List.Forall₂ IsHexDigit (nibbles unit) text

instance (unit : Nat) (text : List Char) : Decidable (Spells unit text) :=
  inferInstanceAs (Decidable (List.Forall₂ IsHexDigit _ _))

/-- The code units that a character is made of. -/
def ofChar (c : Char) : List Nat :=
  if c.toNat < 0x10000 then [c.toNat]
  else [0xD800 + (c.toNat - 0x10000) / 0x400, 0xDC00 + (c.toNat - 0x10000) % 0x400]

theorem spells_iff {unit : Nat} {a b c d : Char} :
    Spells unit [a, b, c, d] ↔ IsHexDigit (unit / 0x1000) a ∧ IsHexDigit (unit / 0x100 % 16) b ∧
      IsHexDigit (unit / 0x10 % 16) c ∧ IsHexDigit (unit % 16) d := by
  simp [Spells, nibbles]

theorem Spells.length_eq {unit : Nat} {text : List Char} (h : Spells unit text) : text.length = 4 :=
  (List.Forall₂.length_eq h).symm

/-- The first four characters of a text are read as the code unit that they spell. -/
theorem read?_eq_some_iff {text : List Char} {unit : Nat} :
    read? text = some unit ↔ Spells unit (text.take 4) := by
  match text with
  | a :: b :: c :: d :: rest =>
    show _ ↔ Spells unit [a, b, c, d]
    simp only [read?, Option.bind_eq_bind, Option.bind_eq_some_iff, Option.some.injEq,
      hexDigit?_eq_some_iff, spells_iff]
    constructor
    · rintro ⟨v, ha, w, hb, x, hc, y, hd, rfl⟩
      have hv := ha.1
      have hw := hb.1
      have hx := hc.1
      have hy := hd.1
      rw [show (((v * 16 + w) * 16 + x) * 16 + y) / 0x1000 = v by omega,
        show (((v * 16 + w) * 16 + x) * 16 + y) / 0x100 % 16 = w by omega,
        show (((v * 16 + w) * 16 + x) * 16 + y) / 0x10 % 16 = x by omega,
        show (((v * 16 + w) * 16 + x) * 16 + y) % 16 = y by omega]
      exact ⟨ha, hb, hc, hd⟩
    · rintro ⟨ha, hb, hc, hd⟩
      exact ⟨_, ha, _, hb, _, hc, _, hd, by omega⟩
  | [] | [_] | [_, _] | [_, _, _] =>
    constructor
    · intro h
      cases h
    · intro h
      cases h.length_eq

theorem Spells.take_append {unit : Nat} {digits : List Char} (h : Spells unit digits)
    (rest : List Char) : Spells unit ((digits ++ rest).take 4) := by
  rwa [List.take_left' h.length_eq]

/-! ### The units of a character -/

theorem char?_of_surrogate {unit : Nat} (h : 0xD800 ≤ unit ∧ unit ≤ 0xDFFF) : char? unit = none := by
  have hsurrogate : (isHigh unit || isLow unit) = true := by
    simp only [isHigh, isLow, Bool.or_eq_true, Bool.and_eq_true, decide_eq_true_eq]
    omega
  rw [char?, if_pos hsurrogate]

theorem char?_of_not_surrogate {unit : Nat} (h : unit < 0xD800 ∨ 0xDFFF < unit) :
    char? unit = some (Char.ofNat unit) := by
  have hsurrogate : ¬ (isHigh unit || isLow unit) = true := by
    simp only [isHigh, isLow, Bool.or_eq_true, Bool.and_eq_true, decide_eq_true_eq]
    omega
  rw [char?, if_neg hsurrogate]

theorem pair?_of_surrogates {high low : Nat} (hhigh : 0xD800 ≤ high ∧ high ≤ 0xDBFF)
    (hlow : 0xDC00 ≤ low ∧ low ≤ 0xDFFF) :
    pair? high low =
      some (Char.ofNat (0x10000 + (high - 0xD800) * 0x400 + (low - 0xDC00))) := by
  have hboth : (isHigh high && isLow low) = true := by
    simp only [isHigh, isLow, Bool.and_eq_true, decide_eq_true_eq]
    exact ⟨hhigh, hlow⟩
  rw [pair?, if_pos hboth]

/-- Only a high and a low surrogate make a pair. -/
theorem surrogates_of_pair? {high low : Nat} {c : Char} (h : pair? high low = some c) :
    (0xD800 ≤ high ∧ high ≤ 0xDBFF) ∧ 0xDC00 ≤ low ∧ low ≤ 0xDFFF := by
  unfold pair? at h
  split at h
  · rename_i hboth
    simpa only [isHigh, isLow, Bool.and_eq_true, decide_eq_true_eq] using hboth
  · cases h

/-- No character is a surrogate. -/
theorem not_surrogate (c : Char) : c.toNat < 0xD800 ∨ 0xDFFF < c.toNat := by
  rcases c.valid with h | h
  · exact Or.inl h
  · exact Or.inr h.1

/-- A character beyond the first 65536 is made of a high and a low surrogate. -/
theorem ofChar_surrogates {c : Char} (h : ¬ c.toNat < 0x10000) :
    ∃ high low, ofChar c = [high, low] ∧ (0xD800 ≤ high ∧ high ≤ 0xDBFF) ∧
      (0xDC00 ≤ low ∧ low ≤ 0xDFFF) ∧
      Char.ofNat (0x10000 + (high - 0xD800) * 0x400 + (low - 0xDC00)) = c := by
  have hle : c.toNat < 0x110000 := by
    rcases c.valid with hlow | hhigh
    · exact Nat.lt_trans hlow (by decide)
    · exact hhigh.2
  refine ⟨_, _, by rw [ofChar, if_neg h], by omega, by omega, ?_⟩
  rw [show 0x10000 + (0xD800 + (c.toNat - 0x10000) / 0x400 - 0xD800) * 0x400 +
    (0xDC00 + (c.toNat - 0x10000) % 0x400 - 0xDC00) = c.toNat by omega, Char.ofNat_toNat]

end CodeUnit

end Lexis.Text
