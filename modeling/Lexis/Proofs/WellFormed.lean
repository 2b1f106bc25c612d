import Lexis.Proofs.Readings
import Lexis.Proofs.Runs
import Lexis.Upcoming

/-!
# Well-formed lexemes

Which texts a token of each kind can carry. Numbers carry their digits without separators, words and
names the characters of their class, operators a spelling that can be reached one character at a time.
Main statement: every lexeme that is read is well-formed (`Upcoming.wellFormed`).
-/

namespace Lexis

open Text

/-- A run of characters of one class that is not empty. -/
def IsRun (p : Char → Bool) (text : List Char) : Prop := text ≠ [] ∧ ∀ c ∈ text, p c = true

namespace Decimal

/-- At most one sign. -/
def IsSign (text : List Char) : Prop := text = [] ∨ text = ['+'] ∨ text = ['-']

/-- `Parts fraction exponent text`: behind the whole part stand a fraction, if `fraction` tells that the
literal has none yet, and an exponent, if `exponent` tells so, in either order. -/
inductive Parts : Bool → Bool → List Char → Prop
  | nil {fraction exponent : Bool} : Parts fraction exponent []
  | fraction {exponent : Bool} {digits rest : List Char} :
      IsRun Char.isDigit digits → Parts true exponent rest →
      Parts false exponent ('.' :: (digits ++ rest))
  | exponent {fraction : Bool} {sign digits rest : List Char} :
      IsSign sign → IsRun Char.isDigit digits → Parts fraction true rest →
      Parts fraction false ('e' :: (sign ++ digits ++ rest))

end Decimal

namespace ValueKind

/-- The texts that a value of a kind can carry. -/
def Admits : ValueKind → List Char → Prop
  | intDec, text => IsRun Char.isDigit text
  | intHex, text => IsRun Radix.hex.isDigit text
  | intOct, text => IsRun Radix.oct.isDigit text
  | intBin, text => IsRun Radix.bin.isDigit text
  | float, text => ∃ whole parts, text = whole ++ parts ∧ IsRun Char.isDigit whole ∧ parts ≠ [] ∧
      Decimal.Parts false false parts
  | ident, text => ∀ c ∈ text, c ≠ '\x60' ∧ isLineEnd c = false
  | atom, text => ∃ c rest, text = c :: rest ∧ c.isAlpha = true ∧ ∀ d ∈ rest, Word.isPart d = true
  | string, _ => True
  | documentation, text => ∀ c ∈ text, isLineEnd c = false

end ValueKind

namespace Lexeme

/-- A lexeme carries a text that its kind admits: a keyword and an operator carry their spelling. The end
of the input is no lexeme that is read. -/
def WellFormed (lexeme : Lexeme) : Prop :=
  match lexeme.kind with
  | .value kind => kind.Admits lexeme.text.toList
  | .keyword word => lexeme.text = word.spelling
  | .operator op => lexeme.text = op.spelling ∧ Operator.isReachable op.spelling = true
  | .endOfInput => False

theorem wellFormed_ofValue {kind : ValueKind} {text : List Char} (h : kind.Admits text) :
    (ofValue kind text).WellFormed := by
  show kind.Admits (String.ofList text).toList
  rwa [String.toList_ofList]

theorem WellFormed.kind_ne {lexeme : Lexeme} (h : lexeme.WellFormed) : lexeme.kind ≠ .endOfInput := by
  intro hkind
  simp [WellFormed, hkind] at h

end Lexeme

/-! ### Numbers -/

theorem Digits.isRun_ofRun {isDigit : Char → Bool} {text : List Char}
    (h : ofRun (run isDigit text) ≠ []) : IsRun isDigit (ofRun (run isDigit text)) := by
  refine ⟨h, ?_⟩
  intro c hc
  obtain ⟨hrun, hmark⟩ := List.mem_filter.1 hc
  have hclass := List.mem_takeWhile_imp hrun
  simp only [bne_iff_ne, ne_eq] at hmark
  simpa [hmark] using hclass

theorem Radix.wellFormed_read {radix : Radix} {text : List Char} {lexeme : Lexeme}
    (h : (radix.read text).result = .ok lexeme) : lexeme.WellFormed := by
  unfold read at h
  dsimp only at h
  split at h
  · simp [Reading.fault] at h
  · rename_i hdigits
    simp only [Reading.found, Except.ok.injEq] at h
    subst h
    apply Lexeme.wellFormed_ofValue
    have hrun : IsRun radix.isDigit (Digits.ofRun (Digits.run radix.isDigit text)) :=
      Digits.isRun_ofRun (by simpa using hdigits)
    cases radix <;> exact hrun

namespace Decimal

theorem isSign_sign (text : List Char) : IsSign (sign text) := by
  unfold sign
  split
  · exact Or.inr (Or.inl rfl)
  · exact Or.inr (Or.inr rfl)
  · exact Or.inl rfl

theorem isRun_takeWhile {text : List Char} (h : ¬ (text.takeWhile Char.isDigit).isEmpty = true) :
    IsRun Char.isDigit (text.takeWhile Char.isDigit) :=
  ⟨by simpa using h, fun _ hc => List.mem_takeWhile_imp hc⟩

theorem parts_readExponent {text power : List Char} (h : (readExponent text).result = .ok power) :
    ∃ sign digits, power = sign ++ digits ∧ IsSign sign ∧ IsRun Char.isDigit digits := by
  unfold readExponent at h
  dsimp only at h
  split at h
  · simp [Reading.fault] at h
  · rename_i hdigits
    simp only [Reading.found, Except.ok.injEq] at h
    exact ⟨_, _, h.symm, isSign_sign text, isRun_takeWhile hdigits⟩

/-- What is read behind the whole part is a fraction and an exponent, each at most once. -/
theorem parts_readParts (fraction exponent : Bool) (text : List Char) :
    ∀ {part : List Char}, (readParts fraction exponent text).result = .ok part →
      Parts fraction exponent part := by
  fun_induction readParts fraction exponent text with
  | case1 => intro part h; cases h; exact .nil
  | case2 => intro part h; cases h; exact .nil
  | case3 => intro part h; cases h
  | case4 fraction exponent rest digits hdigits hfraction =>
    rename_i ih
    intro part h
    obtain ⟨tail, htail, rfl⟩ := Reading.result_cons h
    rw [Bool.not_eq_true] at hfraction
    subst hfraction
    exact .fraction (isRun_takeWhile hdigits) (ih htail)
  | case5 => intro part h; cases h
  | case6 => intro part h; cases h
  | case7 fraction exponent c rest _ _ hexponent power n hpower ih =>
    intro part h
    obtain ⟨tail, htail, rfl⟩ := Reading.result_cons h
    rw [Bool.not_eq_true] at hexponent
    subst hexponent
    have hresult : (readExponent rest).result = .ok power := by rw [hpower]
    obtain ⟨sign, digits, rfl, hsign, hdigits⟩ := parts_readExponent hresult
    exact .exponent hsign hdigits (ih htail)
  | case8 => intro part h; cases h
  | case9 => intro part h; cases h; exact .nil

theorem wellFormed_read {c : Char} {rest : List Char} {lexeme : Lexeme} (hc : c.isDigit = true)
    (h : (read (c :: rest)).result = .ok lexeme) : lexeme.WellFormed := by
  have hmark : c ≠ '_' := by
    rintro rfl
    exact absurd hc (by decide)
  have hwhole : IsRun Char.isDigit (Digits.ofRun (Digits.run Char.isDigit (c :: rest))) := by
    apply Digits.isRun_ofRun
    simp [Digits.run, Digits.ofRun, hc, hmark]
  obtain ⟨part, hpart, rfl⟩ := Reading.result_map h
  split
  · exact Lexeme.wellFormed_ofValue hwhole
  · rename_i hne
    apply Lexeme.wellFormed_ofValue
    exact ⟨_, part, rfl, hwhole, by simpa using hne, parts_readParts _ _ _ hpart⟩

end Decimal

theorem Number.wellFormed_read {c : Char} {rest : List Char} {lexeme : Lexeme}
    (hc : c.isDigit = true) (h : (read (c :: rest)).result = .ok lexeme) : lexeme.WellFormed := by
  unfold read at h
  split at h
  · exact Radix.wellFormed_read h
  · exact Decimal.wellFormed_read hc h

/-! ### Words -/

namespace Word

theorem run_cons {c : Char} (hc : c.isAlpha = true) (rest : List Char) :
    run (c :: rest) = c :: run rest := by
  simp [run, isPart, Char.isAlphanum, hc]

theorem isPart_of_mem_run {text : List Char} {c : Char} (h : c ∈ run text) : isPart c = true :=
  List.mem_takeWhile_imp h

/-- No character of a word is a backtick or ends a line. -/
theorem admits_ident_run (text : List Char) : ValueKind.ident.Admits (run text) := by
  intro c hc
  have hpart := isPart_of_mem_run hc
  refine ⟨?_, ?_⟩
  · rintro rfl
    exact absurd hpart (by decide)
  · cases hend : isLineEnd c with
    | false => rfl
    | true =>
      simp only [isLineEnd, Bool.or_eq_true, beq_iff_eq] at hend
      rcases hend with rfl | rfl <;> exact absurd hpart (by decide)

theorem wellFormed_classify (text : List Char) : (classify (run text)).WellFormed := by
  unfold classify
  split
  · rfl
  · exact Lexeme.wellFormed_ofValue (admits_ident_run text)

theorem wellFormed_readMarked {text : List Char} {lexeme : Lexeme}
    (h : (readMarked text).result = .ok lexeme) : lexeme.WellFormed := by
  unfold readMarked at h
  split at h
  · simp [Reading.fault] at h
  · rename_i c rest
    split at h
    · obtain ⟨content, -, rfl⟩ := Reading.result_map h
      exact Lexeme.wellFormed_ofValue trivial
    · split at h
      · rename_i halpha
        cases h
        apply Lexeme.wellFormed_ofValue
        exact ⟨c, run rest, run_cons halpha rest, halpha, fun d hd => isPart_of_mem_run hd⟩
      · simp [Reading.fault] at h

theorem wellFormed_readExtended {text : List Char} {lexeme : Lexeme}
    (h : (readExtended text).result = .ok lexeme) : lexeme.WellFormed := by
  unfold readExtended at h
  dsimp only at h
  split at h
  · simp [Reading.fault] at h
  · split at h
    · cases h
      apply Lexeme.wellFormed_ofValue
      intro d hd
      have hd := List.mem_takeWhile_imp hd
      simpa using hd
    · simp [Reading.fault] at h

end Word

/-! ### Comments and operators -/

namespace Comment

theorem isLineEnd_of_mem_lineRest {text : List Char} {c : Char} (h : c ∈ lineRest text) :
    isLineEnd c = false := by
  simpa using List.mem_takeWhile_imp h

theorem mem_of_mem_documentationText {line : List Char} {c : Char}
    (h : c ∈ documentationText line) : c ∈ line := by
  unfold documentationText at h
  split at h
  · simp at h
  · rename_i d rest
    split at h
    · exact List.mem_cons_of_mem d h
    · exact h

theorem wellFormed_readLine {text : List Char} {lexeme : Lexeme}
    (h : (readLine text).result = .ok (some lexeme)) : lexeme.WellFormed := by
  unfold readLine at h
  split at h
  · cases h
    apply Lexeme.wellFormed_ofValue
    intro c hc
    exact isLineEnd_of_mem_lineRest (mem_of_mem_documentationText hc)
  · cases h

end Comment

namespace Operator

theorem isReachable_singleton (c : Char) :
    isReachable (String.singleton c) = (ofSpelling? (String.singleton c)).isSome := by
  rw [isReachable, String.toList_singleton]
  simp

/-- A text is reached one character later exactly when it is an operator too. -/
theorem isReachable_push {text : String} (h : isReachable text = true) (c : Char) :
    isReachable (text.push c) = (ofSpelling? (text.push c)).isSome := by
  unfold isReachable at h ⊢
  dsimp only at h ⊢
  rw [Bool.and_eq_true] at h
  have hlast : String.ofList (text.toList ++ [c]) = text.push c := by
    rw [← String.toList_push, String.ofList_toList]
  have hearlier : ((List.range text.toList.length).all fun n =>
      (ofSpelling? (String.ofList ((text.toList ++ [c]).take (n + 1)))).isSome) = true := by
    rw [← h.2, Bool.eq_iff_iff, List.all_eq_true, List.all_eq_true]
    have htake : ∀ n ∈ List.range text.toList.length,
        (text.toList ++ [c]).take (n + 1) = text.toList.take (n + 1) :=
      fun n hn => List.take_append_of_le_length (List.mem_range.1 hn)
    constructor
    · intro hall n hn
      rw [← htake n hn]
      exact hall n hn
    · intro hall n hn
      rw [htake n hn]
      exact hall n hn
  have hfull : (text.toList ++ [c]).take (text.toList.length + 1) = text.toList ++ [c] :=
    List.take_of_length_le (by simp)
  rw [String.toList_push, List.length_append, List.length_singleton, List.range_succ,
    List.all_append, hearlier, List.all_cons, hfull, hlast]
  simp

theorem isReachable_grow {op : Operator} (text : List Char) (h : isReachable op.spelling = true) :
    isReachable (op.grow text).spelling = true := by
  induction text generalizing op with
  | nil => exact h
  | cons c rest ih =>
    unfold grow
    split
    · rename_i longer hlonger
      apply ih
      rw [spelling_of_ofSpelling? hlonger, isReachable_push h, hlonger]
      rfl
    · exact h

theorem isReachable_munch? {text : List Char} {op : Operator} (h : munch? text = some op) :
    isReachable op.spelling = true := by
  unfold munch? at h
  split at h
  · simp at h
  · simp only [Option.map_eq_some_iff] at h
    obtain ⟨first, hfirst, rfl⟩ := h
    apply isReachable_grow
    rw [spelling_of_ofSpelling? hfirst, isReachable_singleton, hfirst]
    rfl

theorem wellFormed_read {c : Char} {rest : List Char} {lexeme : Lexeme}
    (h : (read c rest).result = .ok lexeme) : lexeme.WellFormed := by
  unfold read at h
  split at h
  · rename_i op hop
    cases h
    exact ⟨rfl, isReachable_munch? hop⟩
  · cases h

end Operator

/-! ### The front of a text -/

theorem Front.wellFormed_read {c : Char} {rest : List Char} {lexeme : Lexeme}
    (h : (read c rest).result = .ok (some lexeme)) : lexeme.WellFormed := by
  revert h
  fun_cases read c rest with
  | case1 hdigit =>
    intro h
    exact Number.wellFormed_read hdigit (Reading.result_map_some h)
  | case2 =>
    intro h
    cases h
    exact Word.wellFormed_classify _
  | case3 =>
    intro h
    exact Word.wellFormed_readMarked (Reading.result_map_some h)
  | case4 =>
    intro h
    exact Word.wellFormed_readExtended (Reading.result_map_some h)
  | case5 =>
    intro h
    obtain ⟨inner, -, heq⟩ := Reading.result_map h
    cases heq
    exact Lexeme.wellFormed_ofValue trivial
  | case6 =>
    intro h
    obtain ⟨inner, -, heq⟩ := Reading.result_map h
    cases heq
    exact Lexeme.wellFormed_ofValue trivial
  | case7 => exact Comment.wellFormed_readLine
  | case8 =>
    unfold Comment.readBlock
    split <;> intro h <;> cases h
  | case9 =>
    intro h
    exact Operator.wellFormed_read (Reading.result_map_some h)
  | case10 => intro h; cases h
  | case11 => intro h; cases h

/-- Every lexeme that comes next is well-formed. -/
theorem Upcoming.wellFormed {text : List Char} {reading : Reading Lexeme} {lexeme : Lexeme}
    (h : (ofText text).reading = some reading) (hresult : reading.result = .ok lexeme) :
    lexeme.WellFormed := by
  fun_induction ofText text with
  | case1 => cases h
  | case2 => cases h; cases hresult
  | case3 c rest found n hfront =>
    cases h
    cases hresult
    have hread : (Front.read c rest).result = .ok (some lexeme) := by rw [hfront]
    exact Front.wellFormed_read hread
  | case4 _ _ _ _ _ ih => exact ih h

end Lexis
