import Mathlib.Data.List.DropRight
import Mathlib.Data.Nat.Digits.Defs
import Lexis.Proofs.Arguments

/-!
# Tab sizes as texts

A tab size is read from a text that is, without the white space at both ends, one plus sign or none and one decimal
digit or more. What counts is the number that these digits stand for, however many of them are leading zeros: zero is
an error of its own, and a number beyond the ceiling is as invalid as a text that is no number. Main statement:
`Config.parse_numeral`.
-/

namespace Lexis

namespace Text

/-- The text is the core with white space on both sides, and the core has none at its ends. -/
structure IsCore (text core : List Char) : Prop where
  split : ∃ front back, text = front ++ core ++ back ∧ (∀ c ∈ front, isBlank c = true) ∧
    ∀ c ∈ back, isBlank c = true
  head : ∀ c ∈ core.head?, isBlank c = false
  last : ∀ c ∈ core.getLast?, isBlank c = false

/-- A run of characters of one class is dropped up to a character of another class. -/
theorem dropWhile_append_stop {p : Char → Bool} {run text : List Char} (hrun : ∀ c ∈ run, p c = true)
    (hstop : ∀ c ∈ text.head?, p c = false) : (run ++ text).dropWhile p = text := by
  rw [List.dropWhile_append_of_pos hrun]
  cases text with
  | nil => rfl
  | cons c rest => rw [List.dropWhile_cons_of_neg (by simp [hstop c rfl])]

/-- A text has one core, and trimming finds it. -/
theorem IsCore.trim_eq {text core : List Char} (h : IsCore text core) : trim text = core := by
  obtain ⟨front, back, rfl, hfront, hback⟩ := h.split
  cases core with
  | nil =>
    have hall : ∀ c ∈ front ++ back, isBlank c = true := List.forall_mem_append.2 ⟨hfront, hback⟩
    rw [List.append_nil, trim, List.dropWhile_eq_nil_iff.2 hall]
    rfl
  | cons c rest =>
    have hreverse : ∀ c ∈ back.reverse, isBlank c = true := fun c hc => hback c (List.mem_reverse.1 hc)
    have hlast : ∀ d ∈ (c :: rest).reverse.head?, isBlank d = false := by
      rw [List.head?_reverse]
      exact h.last
    have hfirst : ∀ d ∈ (c :: rest ++ back).head?, isBlank d = false := h.head
    rw [trim, List.append_assoc, dropWhile_append_stop hfront hfirst, List.reverse_append,
      dropWhile_append_stop hreverse hlast, List.reverse_reverse]

theorem head?_dropWhile {p : Char → Bool} {text : List Char} {c : Char}
    (hc : (text.dropWhile p).head? = some c) : p c = false := by
  have h := List.head?_dropWhile_not p text
  rwa [hc] at h

theorem isCore_trim (text : List Char) : IsCore text (trim text) := by
  have htrim : trim text = (text.dropWhile isBlank).rdropWhile isBlank := rfl
  have hfront := List.takeWhile_append_dropWhile (p := isBlank) (l := text)
  have hback := List.rdropWhile_append_rtakeWhile (p := isBlank) (l := text.dropWhile isBlank)
  rw [← htrim] at hback
  refine ⟨⟨text.takeWhile isBlank, (text.dropWhile isBlank).rtakeWhile isBlank, ?_, ?_, ?_⟩, ?_, ?_⟩
  · rw [List.append_assoc, hback, hfront]
  · exact fun c => List.mem_takeWhile_imp
  · exact fun c => List.mem_rtakeWhile_imp
  · intro c hc
    have hhead : (text.dropWhile isBlank).head? = some c := by
      rw [← hback, List.head?_append, hc]
      rfl
    exact head?_dropWhile hhead
  · intro c hc
    rw [trim, List.getLast?_reverse] at hc
    exact head?_dropWhile hc

end Text

namespace Config

/-- The number that decimal digits stand for, the highest first. -/
def decimalValue (digits : List Char) : Nat :=
  Nat.ofDigits 10 (digits.reverse.map fun c => c.toNat - '0'.toNat)

/-- The text is one plus sign or none and one decimal digit or more, which stand for a number. -/
def IsNumeral (text : List Char) (value : Nat) : Prop :=
  ∃ sign digits, text = sign ++ digits ∧ (sign = [] ∨ sign = ['+']) ∧ digits ≠ [] ∧
    (∀ c ∈ digits, c.isDigit = true) ∧ decimalValue digits = value

theorem foldl_eq_decimalValue (digits : List Char) :
    digits.foldl (fun n c => 10 * n + (c.toNat - '0'.toNat)) 0 = decimalValue digits := by
  rw [decimalValue, Nat.ofDigits_eq_foldr, List.foldr_map, List.foldr_reverse]
  simp only [Nat.cast_id, Nat.add_comm]

theorem digits?_eq_some_iff {text : List Char} {value : Nat} :
    digits? text = some value ↔ (text ≠ [] ∧ ∀ c ∈ text, c.isDigit = true) ∧
      decimalValue text = value ∧ value ≤ ceiling := by
  unfold digits?
  rw [foldl_eq_decimalValue]
  by_cases htext : text ≠ [] ∧ ∀ c ∈ text, c.isDigit = true
  · have hdigits : (text.isEmpty || !text.all Char.isDigit) = false := by
      simpa using htext
    rw [hdigits, if_neg (by decide)]
    dsimp only
    constructor
    · intro h
      obtain ⟨hle, hvalue⟩ := Option.ite_none_right_eq_some.1 h
      obtain rfl := Option.some.inj hvalue
      exact ⟨htext, rfl, hle⟩
    · rintro ⟨-, rfl, hle⟩
      rw [if_pos hle]
  · have hdigits : (text.isEmpty || !text.all Char.isDigit) = true := by
      by_contra hnot
      simp at hnot
      exact htext hnot
    rw [hdigits, if_pos rfl]
    simp only [htext, false_and, reduceCtorEq]

/-- A plus sign is no digit, so the digits of a number are behind its sign or all of its text. -/
theorem number?_eq_some_iff {text : List Char} {value : Nat} :
    number? text = some value ↔ IsNumeral text value ∧ value ≤ ceiling := by
  constructor
  · intro h
    unfold number? at h
    split at h
    · rename_i digits
      obtain ⟨⟨hne, hdigits⟩, hvalue, hle⟩ := digits?_eq_some_iff.1 h
      exact ⟨⟨['+'], digits, rfl, Or.inr rfl, hne, hdigits, hvalue⟩, hle⟩
    · obtain ⟨⟨hne, hdigits⟩, hvalue, hle⟩ := digits?_eq_some_iff.1 h
      exact ⟨⟨[], text, rfl, Or.inl rfl, hne, hdigits, hvalue⟩, hle⟩
  · rintro ⟨⟨sign, digits, rfl, rfl | rfl, hne, hdigits, hvalue⟩, hle⟩
    · rw [List.nil_append, number?]
      · exact digits?_eq_some_iff.2 ⟨⟨hne, hdigits⟩, hvalue, hle⟩
      · rintro rest rfl
        cases hdigits '+' List.mem_cons_self
    · exact digits?_eq_some_iff.2 ⟨⟨hne, hdigits⟩, hvalue, hle⟩

theorem IsNumeral.unique {text : List Char} {value other : Nat} (h : IsNumeral text value)
    (hother : IsNumeral text other) : value = other := by
  obtain ⟨sign, digits, rfl, hsign, -, hdigits, rfl⟩ := h
  obtain ⟨another, more, hsplit, hanother, -, hmore, rfl⟩ := hother
  rcases hsign with rfl | rfl
  · rcases hanother with rfl | rfl
    · rw [show digits = more from hsplit]
    · rw [show digits = '+' :: more from hsplit] at hdigits
      cases hdigits '+' List.mem_cons_self
  · rcases hanother with rfl | rfl
    · rw [← show '+' :: digits = more from hsplit] at hmore
      cases hmore '+' List.mem_cons_self
    · rw [List.append_cancel_left hsplit]

/-! ### Settings -/

theorem ofTabSize_eq_ok_iff {size : Nat} {config : Config} :
    ofTabSize size = .ok config ↔ 0 < size ∧ config.tabSize = size := by
  unfold ofTabSize
  split
  · rename_i hpos
    rw [Except.ok.injEq]
    constructor
    · rintro rfl
      exact ⟨hpos, rfl⟩
    · rintro ⟨-, rfl⟩
      rfl
  · rename_i hzero
    exact ⟨fun h => (by cases h), fun h => absurd h.1 hzero⟩

theorem parse_of_some {value : String} {size : Nat} (h : number? (Text.trim value.toList) = some size) :
    parse value = ofTabSize size := by
  rw [parse, h]

theorem parse_of_none {value : String} (h : number? (Text.trim value.toList) = none) :
    parse value = .error (.invalidTabSize value) := by
  rw [parse, h]

/-- The number that is read is the one that is spelled. -/
theorem parse_of_isNumeral {value : String} {core : List Char} {size : Nat}
    (hcore : Text.IsCore value.toList core) (h : IsNumeral core size) :
    parse value = if size ≤ ceiling then ofTabSize size else .error (.invalidTabSize value) := by
  have htrim := hcore.trim_eq
  split
  · rename_i hle
    apply parse_of_some
    rw [htrim, number?_eq_some_iff]
    exact ⟨h, hle⟩
  · rename_i hgt
    apply parse_of_none
    rw [htrim, Option.eq_none_iff_forall_ne_some]
    intro other hother
    obtain ⟨hspelled, hle⟩ := number?_eq_some_iff.1 hother
    rw [hspelled.unique h] at hle
    exact hgt hle

theorem parse_of_not_isNumeral {value : String} {core : List Char}
    (hcore : Text.IsCore value.toList core) (h : ∀ size, ¬ IsNumeral core size) :
    parse value = .error (.invalidTabSize value) := by
  apply parse_of_none
  rw [hcore.trim_eq, Option.eq_none_iff_forall_ne_some]
  intro size hsize
  exact h size (number?_eq_some_iff.1 hsize).1

theorem tabSize_of_parse {value : String} {config : Config} (h : parse value = .ok config) :
    0 < config.tabSize ∧ config.tabSize ≤ ceiling := by
  cases hnumber : number? (Text.trim value.toList) with
  | none =>
    rw [parse_of_none hnumber] at h
    cases h
  | some size =>
    rw [parse_of_some hnumber] at h
    obtain ⟨hpos, hsize⟩ := ofTabSize_eq_ok_iff.1 h
    rw [hsize]
    exact ⟨hpos, (number?_eq_some_iff.1 hnumber).2⟩

/-- The settings that can be obtained: from a number up to the ceiling, from a text, as the standard ones, from the
environment, and from arguments that start from settings that can be obtained. -/
inductive Obtained : Config → Prop
  | ofTabSize {size : Nat} {config : Config} :
      size ≤ ceiling → Config.ofTabSize size = .ok config → Obtained config
  | parse {value : String} {config : Config} : Config.parse value = .ok config → Obtained config
  | standard : Obtained standard
  | ofEnvironment (value : Option String) : Obtained (ofEnvironment value)
  | arguments {base : Config} {arguments : List String} {options : Options} :
      Obtained base → Options.parse base arguments = .ok options → Obtained options.config

theorem ofEnvironment_cases (value : Option String) :
    (∃ text, value = some text ∧ parse text = .ok (ofEnvironment value)) ∨
      ((∀ text config, value = some text → parse text ≠ .ok config) ∧ ofEnvironment value = standard) := by
  cases value with
  | none => exact Or.inr ⟨fun text config h => (by cases h), rfl⟩
  | some text =>
    cases hparse : parse text with
    | ok config =>
      refine Or.inl ⟨text, rfl, ?_⟩
      rw [ofEnvironment, Option.map_some, hparse]
    | error error =>
      refine Or.inr ⟨?_, ?_⟩
      · rintro _ config ⟨⟩ hok
        rw [hparse] at hok
        cases hok
      · rw [ofEnvironment, Option.map_some, hparse]

theorem tabSize_of_obtained {config : Config} (h : Obtained config) :
    0 < config.tabSize ∧ config.tabSize ≤ ceiling := by
  induction h with
  | ofTabSize hle hsize =>
    obtain ⟨hpos, rfl⟩ := ofTabSize_eq_ok_iff.1 hsize
    exact ⟨hpos, hle⟩
  | parse hparse => exact tabSize_of_parse hparse
  | standard => decide
  | ofEnvironment value =>
    rcases ofEnvironment_cases value with ⟨text, -, hparse⟩ | ⟨-, hstandard⟩
    · exact tabSize_of_parse hparse
    · rw [hstandard]
      decide
  | @arguments base arguments options _ hparse ih =>
    have hconfig := (Options.parse_eq_ok_iff.1 hparse).config
    rcases Options.exists_last_flag arguments with hunset | ⟨before, value, after, hsplit, hafter⟩
    · rwa [hconfig.unset hunset]
    · exact tabSize_of_parse (hconfig.last before value after hsplit hafter)

/-- A text has one core, which is left without the white space at its ends. Where the core is a decimal number that
may follow one plus sign, this number is the tab size if it is positive and up to the ceiling; it is an error of its
own if it is zero. Every other text is invalid, and is named as a whole. A number that is given as such makes settings
unless it is zero. So no settings that can be obtained have the tab size zero, nor one beyond the ceiling. -/
theorem parse_numeral (value : String) :
    (∃! core, Text.IsCore value.toList core) ∧
    (∀ core, Text.IsCore value.toList core →
      (∀ size, IsNumeral core size →
        (1 ≤ size → size ≤ ceiling → ∃ config, parse value = .ok config ∧ config.tabSize = size) ∧
        (size = 0 → parse value = .error .zeroTabSize) ∧
        (ceiling < size → parse value = .error (.invalidTabSize value))) ∧
      ((∀ size, ¬ IsNumeral core size) → parse value = .error (.invalidTabSize value))) ∧
    (∀ size config, ofTabSize size = .ok config ↔ size ≠ 0 ∧ config.tabSize = size) ∧
    ∀ config, Obtained config → config.tabSize ≠ 0 ∧ config.tabSize ≤ ceiling := by
  refine ⟨⟨_, Text.isCore_trim _, fun core hcore => hcore.trim_eq.symm⟩, fun core hcore => ⟨?_, ?_⟩,
    ?_, ?_⟩
  · intro size hsize
    have hparse := parse_of_isNumeral hcore hsize
    refine ⟨?_, ?_, ?_⟩
    · intro hpos hle
      rw [if_pos hle] at hparse
      exact ⟨⟨size, hpos⟩, by rw [hparse, ofTabSize_eq_ok_iff]; exact ⟨hpos, rfl⟩, rfl⟩
    · rintro rfl
      rw [hparse]
      rfl
    · intro hgt
      rw [hparse, if_neg (Nat.not_le.2 hgt)]
  · exact parse_of_not_isNumeral hcore
  · intro size config
    rw [ofTabSize_eq_ok_iff, Nat.pos_iff_ne_zero]
  · intro config hconfig
    obtain ⟨hpos, hle⟩ := tabSize_of_obtained hconfig
    exact ⟨Nat.ne_of_gt hpos, hle⟩

/-- The largest tab size with leading zeros, between white space of other scripts, and the next number. -/
theorem parse_numeral_ceiling :
    let largest := "\u00a0+0004294967295\u3000"
    let beyond := "4294967296\t"
    Text.IsCore largest.toList "+0004294967295".toList ∧ IsNumeral "+0004294967295".toList ceiling ∧
    Text.IsCore beyond.toList "4294967296".toList ∧ IsNumeral "4294967296".toList (ceiling + 1) ∧
    (∃ config, parse largest = .ok config ∧ config.tabSize = ceiling) ∧
    parse beyond = .error (.invalidTabSize beyond) := by
  intro largest beyond
  have hcore : Text.IsCore largest.toList "+0004294967295".toList :=
    ⟨⟨['\u00a0'], ['\u3000'], by decide, List.all_eq_true.1 rfl, List.all_eq_true.1 rfl⟩,
      by rintro c ⟨⟩; rfl, by rintro c ⟨⟩; rfl⟩
  have hnumeral : IsNumeral "+0004294967295".toList ceiling :=
    ⟨['+'], "0004294967295".toList, rfl, Or.inr rfl, by decide, List.all_eq_true.1 rfl, by decide⟩
  have hnext : Text.IsCore beyond.toList "4294967296".toList :=
    ⟨⟨[], ['\t'], by decide, List.all_eq_true.1 rfl, List.all_eq_true.1 rfl⟩,
      by rintro c ⟨⟩; rfl, by rintro c ⟨⟩; rfl⟩
  have hnumber : IsNumeral "4294967296".toList (ceiling + 1) :=
    ⟨[], "4294967296".toList, rfl, Or.inl rfl, by decide, List.all_eq_true.1 rfl, by decide⟩
  obtain ⟨-, hlargest, -⟩ := parse_numeral largest
  obtain ⟨-, hbeyond, -⟩ := parse_numeral beyond
  obtain ⟨hok, -, -⟩ := (hlargest _ hcore).1 _ hnumeral
  obtain ⟨-, -, herror⟩ := (hbeyond _ hnext).1 _ hnumber
  exact ⟨hcore, hnumeral, hnext, hnumber, hok (by decide) (Nat.le_refl _), herror (Nat.lt_succ_self _)⟩

end Config

end Lexis
