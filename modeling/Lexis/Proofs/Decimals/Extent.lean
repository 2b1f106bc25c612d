import Lexis.Proofs.Decimals.Grammar

/-!
# The extent of a decimal literal

A number that no radix mark opens is read up to the end of the longest decimal literal at the front of the
text. What follows the literal decides whether it stands: a separator, an exponent mark, and a dot with a digit
behind it are faults. Main statement: `Lexer.nextToken_decimal`.
-/

namespace Lexis

namespace Decimal

/-- The text that a literal stands for: without separators, and with the small exponent mark. -/
def decode (literal : List Char) : List Char :=
  (Digits.ofRun literal).map fun c => if c = 'E' then 'e' else c

/-- The fault of a literal that ends in front of such a text. -/
def faultBehind? : List Char → Option Fault
  | '_' :: _ => some .underscoreInFloat
  | 'e' :: _ => some .invalidFloatNumber
  | 'E' :: _ => some .invalidFloatNumber
  | '.' :: c :: _ => if c.isDigit then some .invalidFloatNumber else none
  | _ => none

/-! ### Decoding -/

theorem decode_append (first second : List Char) :
    decode (first ++ second) = decode first ++ decode second := by
  simp [decode, Digits.ofRun]

/-- Where there is no large exponent mark, only the separators go. -/
theorem decode_of_no_mark {text : List Char} (h : ∀ c ∈ text, c ≠ 'E') :
    decode text = Digits.ofRun text := by
  have hmap : ∀ c ∈ Digits.ofRun text, (if c = 'E' then 'e' else c) = c :=
    fun c hc => if_neg (h c (List.mem_filter.1 hc).1)
  rw [decode, List.map_congr_left hmap, List.map_id']

theorem decode_eq_self {text : List Char} (h : ∀ c ∈ text, c ≠ '_' ∧ c ≠ 'E') :
    decode text = text := by
  rw [decode_of_no_mark fun c hc => (h c hc).2]
  apply List.filter_eq_self.2
  intro c hc
  simpa using (h c hc).1

theorem IsWhole.cases_mem {whole : List Char} (h : IsWhole whole) {c : Char} (hc : c ∈ whole) :
    c.isDigit = true ∨ c = '_' := by
  cases whole with
  | nil => exact h.elim
  | cons d rest =>
    rcases List.mem_cons.1 hc with rfl | hc
    · exact Or.inl h.1
    · exact h.2 c hc

theorem decode_whole {whole : List Char} (h : IsWhole whole) :
    decode whole = Digits.ofRun whole := by
  apply decode_of_no_mark
  intro c hc
  rcases h.cases_mem hc with hdigit | rfl
  · exact ne_of_class hdigit (by decide)
  · decide

theorem decode_digits {digits : List Char} (h : IsRun Char.isDigit digits) :
    decode digits = digits :=
  decode_eq_self fun c hc =>
    ⟨ne_of_class (h.2 c hc) (by decide), ne_of_class (h.2 c hc) (by decide)⟩

theorem decode_sign {text : List Char} (h : IsSign text) : decode text = text := by
  rcases h with rfl | rfl | rfl <;> rfl

theorem decode_dot (digits : List Char) : decode ('.' :: digits) = '.' :: decode digits := rfl

theorem decode_mark {mark : Char} (h : mark = 'e' ∨ mark = 'E') (text : List Char) :
    decode (mark :: text) = 'e' :: decode text := by
  rcases h with rfl | rfl <;> rfl

/-! ### Reading part by part -/

/-- A part is read as it is decoded, and the rest is read with it in mind. -/
theorem readParts_step {shape next : Shape} {part after : List Char} (h : shape.Step part next)
    (hafter : ∀ c ∈ after.head?, c.isDigit = false) :
    readParts shape.fraction shape.exponent (part ++ after) =
      (readParts next.fraction next.exponent after).cons ⟨decode part, part.length⟩ := by
  cases h with
  | fraction h =>
    obtain ⟨digits, rfl, hdigits⟩ := h
    rw [List.cons_append, readParts_fraction hdigits hafter, decode_dot, decode_digits hdigits,
      List.length_cons, Nat.add_comm]
  | exponent h =>
    obtain ⟨mark, sign, digits, rfl, hmark, hsign, hdigits⟩ := h
    rw [List.cons_append, List.append_assoc, readParts_exponent hdigits hafter hmark hsign,
      decode_mark hmark, decode_append, decode_sign hsign, decode_digits hdigits, List.length_cons,
      List.length_append, Nat.add_comm]

theorem head_of_step {shape next : Shape} {part : List Char} (h : shape.Step part next) :
    ∃ c rest, part = c :: rest ∧ (c = '.' ∨ c = 'e' ∨ c = 'E') := by
  cases h with
  | fraction h =>
    obtain ⟨digits, rfl, -⟩ := h
    exact ⟨_, _, rfl, Or.inl rfl⟩
  | exponent h =>
    obtain ⟨mark, sign, digits, rfl, hmark, -⟩ := h
    exact ⟨_, _, rfl, Or.inr hmark⟩

theorem not_whole_of_head {c : Char} (h : c = '.' ∨ c = 'e' ∨ c = 'E') :
    c.isDigit = false ∧ c ≠ '_' := by
  rcases h with rfl | rfl | rfl <;> decide

/-- All parts of a literal are read, one behind the other. -/
theorem readParts_hasShape {parts : List Char} {shape : Shape} (h : HasShape parts shape)
    {after : List Char} (hafter : ∀ c ∈ after.head?, c.isDigit = false) :
    readParts false false (parts ++ after) =
      (readParts shape.fraction shape.exponent after).cons ⟨decode parts, parts.length⟩ := by
  induction h generalizing after with
  | nil => exact (Reading.cons_nil _).symm
  | @snoc parts part _ _ _ hstep ih =>
    have hpart : ∀ c ∈ (part ++ after).head?, c.isDigit = false := by
      obtain ⟨c, rest, rfl, hc⟩ := head_of_step hstep
      rintro _ ⟨⟩
      exact (not_whole_of_head hc).1
    rw [List.append_assoc, ih hpart, readParts_step hstep hafter, Reading.cons_cons, decode_append,
      List.length_append]

/-! ### What follows the literal -/

theorem sign_append_drop (text : List Char) : sign text ++ text.drop (sign text).length = text := by
  unfold sign
  split <;> rfl

theorem faultBehind?_dot (rest : List Char) :
    faultBehind? ('.' :: rest) =
      if (rest.takeWhile Char.isDigit).isEmpty then none else some .invalidFloatNumber := by
  cases rest with
  | nil => rfl
  | cons c rest =>
    cases hc : c.isDigit with
    | true => simp [faultBehind?, hc]
    | false => simp [faultBehind?, hc]

theorem faultBehind?_mark {mark : Char} (h : mark = 'e' ∨ mark = 'E') (rest : List Char) :
    faultBehind? (mark :: rest) = some .invalidFloatNumber := by
  rcases h with rfl | rfl <;> rfl

theorem faultBehind?_other {c : Char} (hdot : c ≠ '.') (hmark : ¬ (c = 'e' ∨ c = 'E'))
    (hseparator : c ≠ '_') (rest : List Char) : faultBehind? (c :: rest) = none := by
  rw [not_or] at hmark
  unfold faultBehind?
  split <;> simp_all

section

variable {shape : Shape} {rest : List Char}

/-- A dot that digits follow is the second one. -/
theorem readParts_stuck_dot (h : shape.Stuck ('.' :: rest)) :
    readParts shape.fraction shape.exponent ('.' :: rest) =
      (faultBehind? ('.' :: rest)).elim (.found [] 0) fun fault => .fault fault 0 := by
  rw [readParts_dot rfl, faultBehind?_dot]
  split
  · rfl
  · rename_i hdigits
    obtain ⟨fraction, exponent⟩ := shape
    cases fraction with
    | true => rfl
    | false =>
      have hpart : '.' :: rest.takeWhile Char.isDigit <+: '.' :: rest :=
        (List.prefix_cons_inj '.').2 (List.takeWhile_prefix _)
      exact absurd (.fraction ⟨_, rfl, isRun_takeWhile hdigits⟩) (h.part _ _ hpart)

/-- An exponent mark is the second one, or has no digits. -/
theorem readParts_stuck_mark {mark : Char} (hmark : mark = 'e' ∨ mark = 'E')
    (h : shape.Stuck (mark :: rest)) :
    ∃ n, n ≤ 2 ∧
      readParts shape.fraction shape.exponent (mark :: rest) = .fault .invalidFloatNumber n := by
  rw [readParts_mark hmark]
  obtain ⟨fraction, exponent⟩ := shape
  cases exponent with
  | true => exact ⟨0, Nat.zero_le 2, rfl⟩
  | false =>
    by_cases hdigits : ((rest.drop (sign rest).length).takeWhile Char.isDigit).isEmpty = true
    · have hsign : (sign rest).length ≤ 1 := by
        rcases isSign_sign rest with hsign | hsign | hsign <;> simp [hsign]
      refine ⟨1 + (sign rest).length, by omega, ?_⟩
      simp [readExponent, hdigits, Reading.fault]
    · have hpart : mark :: (sign rest ++ (rest.drop (sign rest).length).takeWhile Char.isDigit) <+:
          mark :: rest := by
        have hrest := (List.prefix_append_right_inj (sign rest)).2
          (List.takeWhile_prefix Char.isDigit (l := rest.drop (sign rest).length))
        rw [sign_append_drop] at hrest
        exact (List.prefix_cons_inj mark).2 hrest
      exact absurd (.exponent ⟨_, _, _, rfl, hmark, isSign_sign rest, isRun_takeWhile hdigits⟩)
        (h.part _ _ hpart)

/-- A separator follows a literal that has a fraction or an exponent. -/
theorem readParts_stuck_separator (h : shape.Stuck ('_' :: rest)) :
    readParts shape.fraction shape.exponent ('_' :: rest) = .fault .underscoreInFloat 0 := by
  have hparts : shape.fraction = true ∨ shape.exponent = true := by
    obtain ⟨fraction, exponent⟩ := shape
    by_contra hnone
    rw [not_or, Bool.not_eq_true, Bool.not_eq_true] at hnone
    obtain ⟨rfl, rfl⟩ := hnone
    exact h.separator rfl rfl
  rw [readParts_other (by decide) (by decide), if_pos ⟨rfl, hparts⟩]

end

/-- A literal that cannot grow on is at its end, or what follows it is a fault. -/
theorem readParts_stuck {shape : Shape} {after : List Char} (h : shape.Stuck after) :
    ∃ n, n ≤ 2 ∧ readParts shape.fraction shape.exponent after =
      (faultBehind? after).elim (.found [] 0) fun fault => .fault fault n := by
  cases after with
  | nil => exact ⟨0, Nat.zero_le 2, by rw [readParts]; rfl⟩
  | cons c rest =>
    by_cases hdot : c = '.'
    · subst hdot
      exact ⟨0, Nat.zero_le 2, readParts_stuck_dot h⟩
    by_cases hmark : c = 'e' ∨ c = 'E'
    · rw [faultBehind?_mark hmark]
      exact readParts_stuck_mark hmark h
    by_cases hseparator : c = '_'
    · subst hseparator
      exact ⟨0, Nat.zero_le 2, readParts_stuck_separator h⟩
    · refine ⟨0, Nat.zero_le 2, ?_⟩
      rw [readParts_other hdot hmark, if_neg (by simp [hseparator]),
        faultBehind?_other hdot hmark hseparator]
      rfl

/-! ### The longest literal is read -/

theorem head_of_hasShape {parts : List Char} {shape : Shape} (h : HasShape parts shape) :
    (parts = [] ∧ shape = ⟨false, false⟩) ∨
      ∃ c rest, parts = c :: rest ∧ (c = '.' ∨ c = 'e' ∨ c = 'E') := by
  induction h with
  | nil => exact Or.inl ⟨rfl, rfl⟩
  | snoc _ hstep ih =>
    right
    rcases ih with ⟨rfl, -⟩ | ⟨c, rest, rfl, hc⟩
    · exact head_of_step hstep
    · exact ⟨c, _, rfl, hc⟩

variable {whole parts after : List Char} {shape : Shape}

theorem isWhole_append_iff (hwhole : IsWhole whole) (h : HasShape parts shape) :
    IsWhole (whole ++ parts) ↔ parts = [] := by
  rcases head_of_hasShape h with ⟨rfl, -⟩ | ⟨c, rest, rfl, hc⟩
  · simpa using hwhole
  · obtain ⟨hdigit, hseparator⟩ := not_whole_of_head hc
    constructor
    · intro hall
      rcases hall.cases_mem (List.mem_append_right whole List.mem_cons_self) with hc | hc
      · rw [hdigit] at hc
        cases hc
      · exact absurd hc hseparator
    · nofun

/-- The whole part ends where a part follows it, or where the literal ends. -/
theorem run_whole (hwhole : IsWhole whole) (h : HasShape parts shape) (hstuck : shape.Stuck after) :
    Digits.run Char.isDigit (whole ++ (parts ++ after)) = whole := by
  apply takeWhile_append_stop
  · intro c hc
    simpa using hwhole.cases_mem hc
  · have hstop : ∀ c ∈ (parts ++ after).head?, c.isDigit = false ∧ c ≠ '_' := by
      rcases head_of_hasShape h with ⟨rfl, rfl⟩ | ⟨c, rest, rfl, hc⟩
      · intro c hc
        refine ⟨hstuck.digit c hc, ?_⟩
        rintro rfl
        exact hstuck.separator rfl hc
      · rintro _ ⟨⟩
        exact not_whole_of_head hc
    intro c hc
    simpa using hstop c hc

/-- The parts behind the whole part make a float of the literal. -/
theorem lexeme_of_parts (hwhole : IsWhole whole) (h : HasShape parts shape) :
    (if (decode parts).isEmpty then Lexeme.ofValue .intDec (Digits.ofRun whole)
      else .ofValue .float (Digits.ofRun whole ++ decode parts)) =
    .ofValue (if IsWhole (whole ++ parts) then .intDec else .float) (decode (whole ++ parts)) := by
  have hiff := isWhole_append_iff hwhole h
  rw [decode_append, decode_whole hwhole]
  rcases head_of_hasShape h with ⟨rfl, -⟩ | ⟨c, rest, rfl, hc⟩
  · have hempty : (decode []).isEmpty = true := rfl
    rw [if_pos hempty, if_pos (hiff.2 rfl)]
    exact congrArg _ (List.append_nil _).symm
  · have hne : (decode (c :: rest)).isEmpty = false := by
      simp [decode, Digits.ofRun, (not_whole_of_head hc).2]
    have hfloat : ¬ IsWhole (whole ++ c :: rest) := fun hall => List.cons_ne_nil _ _ (hiff.1 hall)
    rw [hne, if_neg hfloat]
    rfl

/-- The reader takes the longest literal at the front of a text, and what follows tells whether it stands. -/
theorem read_of_isFront {text literal : List Char} (h : IsFront text literal after) :
    ∃ n, n ≤ 2 ∧ read text =
      (faultBehind? after).elim
        (.found (.ofValue (if IsWhole literal then .intDec else .float) (decode literal))
          literal.length)
        fun fault => .fault fault (literal.length + n) := by
  obtain ⟨whole, parts, shape, rfl, hwhole, hparts, hstuck⟩ := h.exists_stuck
  obtain ⟨n, hn, hbehind⟩ := readParts_stuck hstuck
  have hread := readParts_hasShape hparts hstuck.digit
  refine ⟨n, hn, ?_⟩
  rw [← h.append_eq, List.append_assoc, ← lexeme_of_parts hwhole hparts]
  unfold read
  dsimp only
  rw [run_whole hwhole hparts hstuck, List.drop_left, hread, hbehind, List.length_append]
  cases faultBehind? after with
  | some fault =>
    simp only [Option.elim_some, Reading.cons_fault, Nat.add_assoc]
    rfl
  | none =>
    simp only [Option.elim_none, Reading.cons_found, List.append_nil, Nat.add_zero]
    rfl

/-- A text is a decimal literal exactly when the reader takes the whole of it. -/
theorem isLiteral_iff_read {text : List Char} :
    IsLiteral text ↔ text.head?.any Char.isDigit = true ∧ (read text).result.isOk = true ∧
      (read text).length = text.length := by
  constructor
  · intro h
    have hfront : IsFront text text [] := {
      append_eq := List.append_nil text
      isLiteral := h
      longest := fun _ hfront _ => hfront.length_le }
    obtain ⟨n, -, hread⟩ := read_of_isFront hfront
    obtain ⟨whole, parts, _, rfl, hwhole, -⟩ := isLiteral_iff.1 h
    refine ⟨?_, ?_, ?_⟩
    · cases whole with
      | nil => exact hwhole.elim
      | cons c rest => exact hwhole.1
    · rw [hread]
      rfl
    · rw [hread]
      rfl
  · rintro ⟨hhead, hok, hlength⟩
    cases text with
    | nil => cases hhead
    | cons c rest =>
      obtain ⟨literal, after, hfront⟩ := exists_isFront hhead rest
      obtain ⟨n, -, hread⟩ := read_of_isFront hfront
      rw [hread] at hok hlength
      cases hbehind : faultBehind? after with
      | some fault =>
        rw [hbehind] at hok
        cases hok
      | none =>
        rw [hbehind] at hlength
        have heq := hfront.append_eq
        have hafter : after = [] := by
          apply List.eq_nil_of_length_eq_zero
          have hsum := congrArg List.length heq
          rw [List.length_append, ← hlength] at hsum
          exact Nat.add_left_cancel hsum
        rw [hafter, List.append_nil] at heq
        exact heq ▸ hfront.isLiteral

instance : DecidablePred IsLiteral := fun _ => decidable_of_iff _ isLiteral_iff_read.symm

end Decimal

/-- Only a leading zero can have a radix mark behind it. -/
theorem Number.radix?_eq_none {c : Char} {rest : List Char}
    (h : c = '0' → ∀ mark ∈ rest.head?, mark ∉ ['x', 'X', 'o', 'b', 'B']) :
    radix? (c :: rest) = none := by
  unfold radix?
  split
  · rename_i mark tail heq
    obtain ⟨rfl, rfl⟩ := List.cons.inj heq
    have hmark := h rfl mark rfl
    unfold Radix.ofMark?
    split <;> simp_all
  · rfl

namespace Lexer

open Decimal

/-- A digit that no radix mark follows opens a decimal literal, and the next token is the longest one at the
front of the text. Its text is what the literal stands for, and it is an integer where it has the whole part
alone. Only what follows the literal can make a fault of it. -/
theorem nextToken_decimal {lexer : Lexer} {c : Char} (hc : c.isDigit = true) {rest : List Char}
    (hrest : lexer.cursor.rest = c :: rest)
    (hradix : c = '0' → ∀ mark ∈ rest.head?, mark ∉ ['x', 'X', 'o', 'b', 'B'])
    (hlength : rest.length + 1 ≤ ceiling) :
    let place := lexer.cursor.place
    (∃ literal after, IsFront (c :: rest) literal after) ∧
    ∀ literal after, IsFront (c :: rest) literal after →
      (∀ fault, faultBehind? after = some fault →
        ∃ n, literal.length ≤ n ∧ n ≤ literal.length + 2 ∧
          lexer.nextToken = (.error ⟨fault, ⟨place.row, place.col, n⟩⟩, lexer.skip n)) ∧
      (faultBehind? after = none →
        lexer.nextToken =
          (.ok ⟨.ofValue (if IsWhole literal then .intDec else .float) (decode literal),
              ⟨place.row, place.col, literal.length⟩⟩,
            lexer.skip literal.length) ∧
          (lexer.skip literal.length).cursor.rest = after) := by
  intro place
  refine ⟨exists_isFront hc rest, ?_⟩
  intro literal after h
  obtain ⟨n, hn, hread⟩ := read_of_isFront h
  have hfront : Front.read c rest = (Decimal.read (c :: rest)).map some := by
    rw [Front.read_digit hc, Number.read, Number.radix?_eq_none hradix]
  rw [hread] at hfront
  have hbound := Decimal.length_read_le (c :: rest)
  rw [hread] at hbound
  have htext : lexer.cursor.rest = literal ++ after := hrest.trans h.append_eq.symm
  constructor
  · intro fault hfault
    rw [hfault] at hfront hbound
    exact ⟨literal.length + n, Nat.le_add_right _ _, Nat.add_le_add_left hn _,
      nextToken_of_fault hrest hfront (Nat.le_trans hbound hlength)⟩
  · intro hnone
    rw [hnone] at hfront hbound
    exact ⟨nextToken_of_found hrest hfront (Nat.le_trans hbound hlength), rest_skip_of_append htext⟩

/-- The separator and the case of the mark go, the fraction stands behind the exponent, and the dots of a range
are no part of the literal. -/
theorem nextToken_decimal_range :
    let lexer := ofSource .standard "0_1E+3.5..9"
    let rest := "_1E+3.5..9".toList
    ('0').isDigit = true ∧ lexer.cursor.rest = '0' :: rest ∧
    ('0' = '0' → ∀ mark ∈ rest.head?, mark ∉ ['x', 'X', 'o', 'b', 'B']) ∧
    rest.length + 1 ≤ ceiling ∧ IsFront ('0' :: rest) "0_1E+3.5".toList "..9".toList ∧
    lexer.nextToken = (.ok ⟨⟨.value .float, "01e+3.5"⟩, ⟨1, 1, 8⟩⟩, lexer.skip 8) := by
  intro lexer rest
  have hdigit : ('0').isDigit = true := by decide
  have hrest : lexer.cursor.rest = '0' :: rest := by decide
  have hradix : '0' = '0' → ∀ mark ∈ rest.head?, mark ∉ ['x', 'X', 'o', 'b', 'B'] := by
    rintro - _ ⟨⟩
    decide
  have hlength : rest.length + 1 ≤ ceiling := by decide
  have hfront : IsFront ('0' :: rest) "0_1E+3.5".toList "..9".toList := {
    append_eq := by decide
    isLiteral := by decide +kernel
    longest := by
      have hall : ∀ front ∈ ('0' :: rest).inits, IsLiteral front → front.length ≤ 8 := by
        decide +kernel
      exact fun front hprefix => hall front (List.mem_inits front _ |>.2 hprefix) }
  obtain ⟨-, hall⟩ := nextToken_decimal hdigit hrest hradix hlength
  obtain ⟨hnext, -⟩ := (hall _ _ hfront).2 (by decide)
  refine ⟨hdigit, hrest, hradix, hlength, hfront, ?_⟩
  rw [hnext]
  rfl

end Lexer

end Lexis
