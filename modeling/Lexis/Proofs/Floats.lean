import Lexis.Proofs.Alone
import Lexis.Proofs.Written.Source

/-!
# Floats

A decimal float has digits, then a fraction, an exponent, or both, the fraction first. The text of a float
token has a fraction, an exponent, or both, but in either order. So it is a decimal float exactly when no dot
stands behind its exponent mark. Main statements: `Lexer.exists_float_iff` tells which texts float tokens
carry, and `Lexer.isFloat_iff_of_tokenize` which of them are decimal floats.
-/

namespace Lexis

namespace Decimal

/-- A fraction: a dot and digits. -/
def IsFraction (text : List Char) : Prop := ∃ digits, text = '.' :: digits ∧ IsRun Char.isDigit digits

/-- An exponent: the mark, at most one sign, and digits. -/
def IsExponent (text : List Char) : Prop :=
  ∃ sign digits, text = 'e' :: (sign ++ digits) ∧ IsSign sign ∧ IsRun Char.isDigit digits

/-- A decimal float: digits, and behind them a fraction, an exponent, or a fraction and an exponent. -/
def IsFloat (text : List Char) : Prop :=
  ∃ whole fraction exponent, text = whole ++ (fraction ++ exponent) ∧ IsRun Char.isDigit whole ∧
    (fraction = [] ∨ IsFraction fraction) ∧ (exponent = [] ∨ IsExponent exponent) ∧
    (fraction ≠ [] ∨ exponent ≠ [])

/-- The parts of a decimal float with the exponent in front of the fraction. -/
def IsSwapped (text : List Char) : Prop :=
  ∃ whole exponent fraction, text = whole ++ (exponent ++ fraction) ∧ IsRun Char.isDigit whole ∧
    IsExponent exponent ∧ IsFraction fraction

/-- No dot stands behind an exponent mark. -/
def InOrder (text : List Char) : Prop := text.Pairwise fun c d => c = 'e' → d ≠ '.'

instance (text : List Char) : Decidable (InOrder text) :=
  inferInstanceAs (Decidable (text.Pairwise fun c d => c = 'e' → d ≠ '.'))

theorem parts_nil {parts : List Char} (h : Parts true true parts) : parts = [] := by
  cases h
  rfl

/-- Behind an exponent there is nothing or a fraction. -/
theorem parts_fraction {parts : List Char} (h : Parts false true parts) :
    parts = [] ∨ IsFraction parts := by
  cases h with
  | nil => exact Or.inl rfl
  | fraction hdigits hrest =>
    cases parts_nil hrest
    exact Or.inr ⟨_, by rw [List.append_nil], hdigits⟩

/-- Behind a fraction there is nothing or an exponent. -/
theorem parts_exponent {parts : List Char} (h : Parts true false parts) :
    parts = [] ∨ IsExponent parts := by
  cases h with
  | nil => exact Or.inl rfl
  | exponent hsign hdigits hrest =>
    cases parts_nil hrest
    exact Or.inr ⟨_, _, by rw [List.append_nil], hsign, hdigits⟩

theorem IsFraction.parts_append {fraction rest : List Char} {exponent : Bool} (h : IsFraction fraction)
    (hrest : Parts true exponent rest) : Parts false exponent (fraction ++ rest) := by
  obtain ⟨digits, rfl, hdigits⟩ := h
  exact .fraction hdigits hrest

theorem IsExponent.parts_append {exponent rest : List Char} {fraction : Bool} (h : IsExponent exponent)
    (hrest : Parts fraction true rest) : Parts fraction false (exponent ++ rest) := by
  obtain ⟨sign, digits, rfl, hsign, hdigits⟩ := h
  exact .exponent hsign hdigits hrest

/-- A float token carries a decimal float or the parts of one in the other order. -/
theorem admits_float_iff {text : List Char} :
    ValueKind.float.Admits text ↔ IsFloat text ∨ IsSwapped text := by
  constructor
  · rintro ⟨whole, parts, rfl, hwhole, hne, hparts⟩
    cases hparts with
    | nil => exact absurd rfl hne
    | @fraction _ digits rest hdigits hrest =>
      refine Or.inl ⟨whole, '.' :: digits, rest, rfl, hwhole, Or.inr ⟨digits, rfl, hdigits⟩,
        parts_exponent hrest, Or.inl (by simp)⟩
    | @exponent _ sign digits rest hsign hdigits hrest =>
      have hexponent : IsExponent ('e' :: (sign ++ digits)) := ⟨sign, digits, rfl, hsign, hdigits⟩
      rcases parts_fraction hrest with rfl | hfraction
      · exact Or.inl ⟨whole, [], 'e' :: (sign ++ digits), by simp, hwhole, Or.inl rfl,
          Or.inr hexponent, Or.inr (by simp)⟩
      · exact Or.inr ⟨whole, 'e' :: (sign ++ digits), rest, rfl, hwhole, hexponent, hfraction⟩
  · rintro (⟨whole, fraction, exponent, rfl, hwhole, hfraction, hexponent, hne⟩ |
      ⟨whole, exponent, fraction, rfl, hwhole, hexponent, hfraction⟩)
    · -- The exponent may stand behind a fraction or in place of one.
      have hlast : ∀ b, Parts b false exponent := by
        intro b
        rcases hexponent with rfl | hexponent
        · exact .nil
        · have hparts := hexponent.parts_append (@Parts.nil b true)
          rwa [List.append_nil] at hparts
      refine ⟨whole, _, rfl, hwhole, by simpa [or_iff_not_imp_left] using hne, ?_⟩
      rcases hfraction with rfl | hfraction
      · exact hlast false
      · exact hfraction.parts_append (hlast true)
    · have hlast := hfraction.parts_append (@Parts.nil true true)
      rw [List.append_nil] at hlast
      refine ⟨whole, _, rfl, hwhole, ?_, hexponent.parts_append hlast⟩
      obtain ⟨_, _, rfl, -⟩ := hexponent
      simp

/-! ### The order of the parts -/

theorem IsSign.cases_mem {text : List Char} (h : IsSign text) {c : Char} (hc : c ∈ text) :
    c = '+' ∨ c = '-' := by
  rcases h with rfl | rfl | rfl <;> simp at hc <;> simp [hc]

theorem IsFraction.cases_mem {text : List Char} (h : IsFraction text) {c : Char} (hc : c ∈ text) :
    c = '.' ∨ c.isDigit = true := by
  obtain ⟨digits, rfl, hdigits⟩ := h
  exact (List.mem_cons.1 hc).imp_right (hdigits.2 c)

theorem IsExponent.cases_mem {text : List Char} (h : IsExponent text) {c : Char} (hc : c ∈ text) :
    c = 'e' ∨ c = '+' ∨ c = '-' ∨ c.isDigit = true := by
  obtain ⟨sign, digits, rfl, hsign, hdigits⟩ := h
  rcases List.mem_cons.1 hc with rfl | hc
  · exact Or.inl rfl
  · rcases List.mem_append.1 hc with hc | hc
    · exact Or.inr ((hsign.cases_mem hc).imp_right Or.inl)
    · exact Or.inr (Or.inr (Or.inr (hdigits.2 c hc)))

theorem ne_mark_of_mem_fraction {text : List Char} (h : text = [] ∨ IsFraction text) {c : Char}
    (hc : c ∈ text) : c ≠ 'e' := by
  rcases h with rfl | h
  · cases hc
  · rcases h.cases_mem hc with rfl | hdigit
    · decide
    · exact ne_of_class hdigit (by decide)

theorem ne_dot_of_mem_exponent {text : List Char} (h : text = [] ∨ IsExponent text) {c : Char}
    (hc : c ∈ text) : c ≠ '.' := by
  rcases h with rfl | h
  · cases hc
  · rcases h.cases_mem hc with rfl | rfl | rfl | hdigit
    · decide
    · decide
    · decide
    · exact ne_of_class hdigit (by decide)

theorem inOrder_append {front behind : List Char} (hfront : ∀ c ∈ front, c ≠ 'e')
    (hbehind : ∀ c ∈ behind, c ≠ '.') : InOrder (front ++ behind) := by
  apply List.pairwise_append.2
  refine ⟨?_, ?_, ?_⟩
  · exact List.pairwise_of_forall_mem_list fun c hc _ _ hmark => absurd hmark (hfront c hc)
  · exact List.pairwise_of_forall_mem_list fun _ _ d hd _ => hbehind d hd
  · intro c hc _ _ hmark
    exact absurd hmark (hfront c hc)

theorem IsFloat.inOrder {text : List Char} (h : IsFloat text) : InOrder text := by
  obtain ⟨whole, fraction, exponent, rfl, hwhole, hfraction, hexponent, -⟩ := h
  -- A mark stands in the exponent alone, and the exponent has no dot in it.
  rw [← List.append_assoc]
  apply inOrder_append
  · intro c hc
    rcases List.mem_append.1 hc with hc | hc
    · exact ne_of_class (hwhole.2 c hc) (by decide)
    · exact ne_mark_of_mem_fraction hfraction hc
  · exact fun c => ne_dot_of_mem_exponent hexponent

theorem IsSwapped.not_inOrder {text : List Char} (h : IsSwapped text) : ¬ InOrder text := by
  obtain ⟨whole, _, _, rfl, -, ⟨sign, power, rfl, -⟩, digits, rfl, -⟩ := h
  intro horder
  -- The mark at the head of the exponent stands in front of the dot at the head of the fraction.
  have hbehind := (List.pairwise_append.1 (List.pairwise_append.1 horder).2.1).2.2
  exact hbehind 'e' List.mem_cons_self '.' List.mem_cons_self rfl rfl

/-- The order of the parts tells a decimal float from the texts of the other float tokens. -/
theorem isFloat_iff_inOrder {text : List Char} (h : ValueKind.float.Admits text) :
    IsFloat text ↔ InOrder text := by
  constructor
  · exact IsFloat.inOrder
  · intro horder
    rcases admits_float_iff.1 h with hfloat | hswapped
    · exact hfloat
    · exact absurd horder hswapped.not_inOrder

/-! ### The characters of a float -/

theorem count_eq_zero_of_digits {digits : List Char} (h : ∀ c ∈ digits, c.isDigit = true) {d : Char}
    (hd : d.isDigit = false) : digits.count d = 0 :=
  List.count_eq_zero_of_not_mem fun hmem => ne_of_class (h d hmem) hd rfl

theorem count_eq_zero_of_sign {text : List Char} (h : IsSign text) {d : Char}
    (hplus : d ≠ '+') (hminus : d ≠ '-') : text.count d = 0 := by
  apply List.count_eq_zero_of_not_mem
  intro hmem
  rcases h.cases_mem hmem with rfl | rfl
  · exact hplus rfl
  · exact hminus rfl

theorem last_of_isRun {digits : List Char} (h : IsRun Char.isDigit digits) :
    ∃ front c, digits = front ++ [c] ∧ c.isDigit = true :=
  ⟨digits.dropLast, digits.getLast h.1, (List.dropLast_append_getLast h.1).symm,
    h.2 _ (List.getLast_mem h.1)⟩

namespace Parts

variable {fraction exponent : Bool} {parts : List Char}

theorem cases_mem (h : Parts fraction exponent parts) {c : Char} (hc : c ∈ parts) :
    c.isDigit = true ∨ c = '.' ∨ c = 'e' ∨ c = '+' ∨ c = '-' := by
  induction h with
  | nil => cases hc
  | fraction hdigits _ ih =>
    rcases List.mem_cons.1 hc with rfl | hc
    · exact Or.inr (Or.inl rfl)
    · rcases List.mem_append.1 hc with hc | hc
      · exact Or.inl (hdigits.2 c hc)
      · exact ih hc
  | exponent hsign hdigits _ ih =>
    rcases List.mem_cons.1 hc with rfl | hc
    · exact Or.inr (Or.inr (Or.inl rfl))
    · rcases List.mem_append.1 hc with hc | hc
      · rcases List.mem_append.1 hc with hc | hc
        · exact Or.inr (Or.inr (Or.inr (hsign.cases_mem hc)))
        · exact Or.inl (hdigits.2 c hc)
      · exact ih hc

theorem count_dot_le (h : Parts fraction exponent parts) : parts.count '.' ≤ (!fraction).toNat := by
  induction h with
  | nil => exact Nat.zero_le _
  | fraction hdigits _ ih =>
    rw [List.count_cons_self, List.count_append, count_eq_zero_of_digits hdigits.2 (by decide)]
    exact Nat.succ_le_succ (Nat.le_trans (Nat.le_of_eq (Nat.zero_add _)) ih)
  | exponent hsign hdigits _ ih =>
    rw [List.count_cons_of_ne (by decide), List.count_append, List.count_append,
      count_eq_zero_of_sign hsign (by decide) (by decide),
      count_eq_zero_of_digits hdigits.2 (by decide), Nat.zero_add]
    exact ih

theorem count_mark_le (h : Parts fraction exponent parts) :
    parts.count 'e' ≤ (!exponent).toNat := by
  induction h with
  | nil => exact Nat.zero_le _
  | fraction hdigits _ ih =>
    rw [List.count_cons_of_ne (by decide), List.count_append,
      count_eq_zero_of_digits hdigits.2 (by decide), Nat.zero_add]
    exact ih
  | exponent hsign hdigits _ ih =>
    rw [List.count_cons_self, List.count_append, List.count_append,
      count_eq_zero_of_sign hsign (by decide) (by decide),
      count_eq_zero_of_digits hdigits.2 (by decide), Nat.zero_add]
    exact Nat.succ_le_succ ih

/-- Each part ends with digits. -/
theorem last (h : Parts fraction exponent parts) (hne : parts ≠ []) :
    ∃ front c, parts = front ++ [c] ∧ c.isDigit = true := by
  induction h with
  | nil => exact absurd rfl hne
  | @fraction _ digits rest hdigits _ ih =>
    by_cases hrest : rest = []
    · subst hrest
      obtain ⟨front, c, rfl, hc⟩ := last_of_isRun hdigits
      exact ⟨'.' :: front, c, by simp, hc⟩
    · obtain ⟨front, c, rfl, hc⟩ := ih hrest
      exact ⟨'.' :: (digits ++ front), c, by simp, hc⟩
  | @exponent _ sign digits rest _ hdigits _ ih =>
    by_cases hrest : rest = []
    · subst hrest
      obtain ⟨front, c, rfl, hc⟩ := last_of_isRun hdigits
      exact ⟨'e' :: (sign ++ front), c, by simp, hc⟩
    · obtain ⟨front, c, rfl, hc⟩ := ih hrest
      exact ⟨'e' :: (sign ++ digits ++ front), c, by simp, hc⟩

end Parts

/-- What the text of a float token can be relied on to be, whatever the order of its parts: it starts and
ends with digits, and has no more than one dot and one mark in it. -/
structure IsPlain (text : List Char) : Prop where
  first : ∃ c rest, text = c :: rest ∧ c.isDigit = true
  last : ∃ front c, text = front ++ [c] ∧ c.isDigit = true
  chars : ∀ c ∈ text, c.isDigit = true ∨ c = '.' ∨ c = 'e' ∨ c = '+' ∨ c = '-'
  dots : text.count '.' ≤ 1
  marks : text.count 'e' ≤ 1

theorem isPlain_of_admits {text : List Char} (h : ValueKind.float.Admits text) : IsPlain text := by
  obtain ⟨whole, parts, rfl, hwhole, hne, hparts⟩ := h
  obtain ⟨c, digits, rfl⟩ := List.exists_cons_of_ne_nil hwhole.1
  obtain ⟨front, d, hlast, hd⟩ := hparts.last hne
  exact {
    first := ⟨c, digits ++ parts, rfl, hwhole.2 c List.mem_cons_self⟩
    last := ⟨c :: digits ++ front, d, by rw [hlast, List.append_assoc], hd⟩
    chars := by
      intro e he
      rcases List.mem_append.1 he with he | he
      · exact Or.inl (hwhole.2 e he)
      · exact hparts.cases_mem he
    dots := by
      rw [List.count_append, count_eq_zero_of_digits hwhole.2 (by decide), Nat.zero_add]
      exact hparts.count_dot_le
    marks := by
      rw [List.count_append, count_eq_zero_of_digits hwhole.2 (by decide), Nat.zero_add]
      exact hparts.count_mark_le }

end Decimal

namespace Lexer

open Decimal

theorem admits_of_float {lexer : Lexer} (hdone : lexer.done = false) {tokens : List Token}
    (h : lexer.tokens = .ok tokens) {token : Token} (hmem : token ∈ tokens)
    (hkind : token.kind = .value .float) : ValueKind.float.Admits token.text.toList := by
  have hwell := wellFormed_tokens hdone h token hmem
  unfold Lexeme.WellFormed at hwell
  rw [hkind] at hwell
  exact hwell

/-- A text that a float token can carry is a source of this token alone. -/
theorem tokenize_float (config : Config) {text : String} (h : ValueKind.float.Admits text.toList) :
    tokenize config text = .ok [⟨⟨.value .float, text⟩, ⟨1, 1, min ceiling text.length⟩⟩] := by
  obtain ⟨c, rest, htext, hread⟩ :=
    @Front.read_written_value .float text.toList h [] (by rintro _ ⟨⟩) (by rintro ⟨⟩)
  have hwritten : ValueKind.float.written text.toList = text.toList := rfl
  rw [hwritten] at htext hread
  have hupcoming : Upcoming.ofText text.toList =
      ⟨0, some (.found (.ofValue .float text.toList) text.toList.length)⟩ := by
    rw [List.append_nil] at hread
    rw [htext] at hread ⊢
    exact Upcoming.ofText_of_front hread
  have hlexeme : Lexeme.ofValue .float text.toList = ⟨.value .float, text⟩ := by
    rw [Lexeme.ofValue, String.ofList_toList]
  refine @tokens_of_single (ofSource config text) _ _ rfl hupcoming rfl ?_
  rw [hlexeme]
  rfl

/-- The texts of float tokens, of any source that is read without an error, are the decimal floats and the
texts with the exponent in front of the fraction. -/
theorem exists_float_iff (config : Config) (text : String) :
    (∃ source tokens token, tokenize config source = .ok tokens ∧ token ∈ tokens ∧
      token.kind = .value .float ∧ token.text = text) ↔
    IsFloat text.toList ∨ IsSwapped text.toList := by
  rw [← admits_float_iff]
  constructor
  · rintro ⟨source, tokens, token, htokens, hmem, hkind, rfl⟩
    exact admits_of_float rfl htokens hmem hkind
  · intro h
    exact ⟨text, _, _, tokenize_float config h, List.mem_singleton_self _, rfl, rfl⟩

/-- A float token of a source that is read without an error carries a decimal float exactly when no dot
stands behind its exponent mark. Otherwise it has the exponent in front of the fraction. -/
theorem isFloat_iff_of_tokenize (config : Config) (source : String) {tokens : List Token}
    (h : tokenize config source = .ok tokens) {token : Token} (hmem : token ∈ tokens)
    (hkind : token.kind = .value .float) :
    (IsFloat token.text.toList ↔ InOrder token.text.toList) ∧
    (IsFloat token.text.toList ∨ IsSwapped token.text.toList) := by
  have hadmits : ValueKind.float.Admits token.text.toList := admits_of_float rfl h hmem hkind
  exact ⟨isFloat_iff_inOrder hadmits, admits_float_iff.1 hadmits⟩

/-- Separators are gone from the whole part, and both parts are there. -/
theorem isFloat_iff_of_tokenize_separated :
    let float : Token := ⟨⟨.value .float, "10.5e-2"⟩, ⟨1, 2, 8⟩⟩
    tokenize .standard "-1_0.5E-2" =
      .ok [⟨⟨.operator .minus, "-"⟩, ⟨1, 1, 1⟩⟩, float] ∧
    float.kind = .value .float ∧ IsFloat float.text.toList := by
  intro float
  have htokens : tokenize .standard "-1_0.5E-2" =
      .ok [⟨⟨.operator .minus, "-"⟩, ⟨1, 1, 1⟩⟩, float] := by
    rw [tokenize, tokens_eq_mapM_steps rfl]
    cbv
  have hfloat := isFloat_iff_of_tokenize .standard "-1_0.5E-2" htokens
    (List.mem_cons_of_mem _ List.mem_cons_self) rfl
  exact ⟨htokens, rfl, hfloat.1.2 (by decide)⟩

/-- A fraction behind an exponent is read without an error, and the token carries no decimal float. -/
theorem tokenize_swapped :
    let float : Token := ⟨⟨.value .float, "1e5.5"⟩, ⟨1, 1, 5⟩⟩
    tokenize .standard "1e5.5" = .ok [float] ∧ ¬ IsFloat float.text.toList := by
  intro float
  have htokens : tokenize .standard "1e5.5" = .ok [float] := by
    rw [tokenize, tokens_eq_mapM_steps rfl]
    cbv
  have horder : ¬ InOrder float.text.toList := by decide
  exact ⟨htokens, fun hfloat => horder hfloat.inOrder⟩

end Lexer

end Lexis
