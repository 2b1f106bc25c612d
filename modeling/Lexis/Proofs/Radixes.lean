import Lexis.Proofs.Escape.CodeUnits
import Lexis.Proofs.Segments
import Lexis.Proofs.Written.Number

/-!
# The extent of a radix literal

Behind a zero and the mark of a radix, the digits of this radix and separators, in any order and as far as they
go, belong to the literal. It stands for its digits, and without one it is a fault. What follows is left for the
next token, be it a digit of another radix. Main statement: `Lexer.nextToken_radix`.
-/

namespace Lexis

open Text

namespace Radix

/-- The marks that name a radix. -/
def marks : Radix → List Char
  | hex => ['x', 'X']
  | oct => ['o']
  | bin => ['b', 'B']

/-- How many digits a radix has. -/
def base : Radix → Nat
  | hex => 16
  | oct => 8
  | bin => 2

/-- A digit of a radix, of either case, has a value below the base. -/
def IsDigit (radix : Radix) (c : Char) : Prop := ∃ value < radix.base, IsHexDigit value c

instance (radix : Radix) (c : Char) : Decidable (radix.IsDigit c) :=
  inferInstanceAs (Decidable (∃ value < radix.base, IsHexDigit value c))

/-- The digits and separators at the front of a text, as far as they go, and what follows them. -/
structure IsFront (radix : Radix) (text run after : List Char) : Prop where
  append_eq : run ++ after = text
  mem : ∀ c ∈ run, radix.IsDigit c ∨ c = '_'
  stop : ∀ c ∈ after.head?, ¬ radix.IsDigit c ∧ c ≠ '_'

/-- `Separated digits run`: the run is the digits with separators in front of them, between them and behind
them. -/
inductive Separated : List Char → List Char → Prop
  | nil : Separated [] []
  | digit {c : Char} {digits run : List Char} :
      Separated digits run → Separated (c :: digits) (c :: run)
  | separator {digits run : List Char} : Separated digits run → Separated digits ('_' :: run)

/-! ### Digits -/

theorem toNat_lt_of_isDigit {radix : Radix} {c : Char} (h : radix.isDigit c = true) :
    c.toNat < 128 := by
  have hle : c ≤ 'f' := by
    cases radix with
    | hex =>
      simp only [isDigit, Char.isDigit, Bool.or_eq_true, Bool.and_eq_true, decide_eq_true_eq] at h
      rcases h with (hdigit | hlower) | hupper
      · exact UInt32.le_trans hdigit.2 (by decide)
      · exact hlower.2
      · exact Char.le_trans hupper.2 (by decide)
    | oct =>
      simp only [isDigit, Bool.and_eq_true, decide_eq_true_eq] at h
      exact Char.le_trans h.2 (by decide)
    | bin =>
      simp only [isDigit, Bool.or_eq_true, beq_iff_eq] at h
      rcases h with rfl | rfl
      · decide
      · decide
  rw [Char.le_def, UInt32.le_iff_toNat_le] at hle
  exact Nat.lt_of_le_of_lt hle (by decide)

theorem isDigit_iff {radix : Radix} {c : Char} : radix.isDigit c = true ↔ radix.IsDigit c := by
  have hall : ∀ n < 128, radix.isDigit (Char.ofNat n) = true ↔ radix.IsDigit (Char.ofNat n) := by
    cases radix with
    | hex => decide +kernel
    | oct => decide +kernel
    | bin => decide +kernel
  by_cases hc : c.toNat < 128
  · have h := hall c.toNat hc
    rwa [Char.ofNat_toNat] at h
  · constructor
    · exact fun h => absurd (toNat_lt_of_isDigit h) hc
    · rintro ⟨value, -, h⟩
      exact absurd (toNat_lt_of_hexDigit? (hexDigit?_eq_some_iff.2 h)) hc

/-- No separator is a digit. -/
theorem IsDigit.ne_separator {radix : Radix} {c : Char} (h : radix.IsDigit c) : c ≠ '_' :=
  ne_of_class (isDigit_iff.2 h) radix.isDigit_underscore

theorem ofMark?_of_mem_marks {radix : Radix} {mark : Char} (h : mark ∈ radix.marks) :
    ofMark? mark = some radix := by
  cases radix with
  | hex =>
    rcases List.mem_pair.1 h with rfl | rfl
    · rfl
    · rfl
  | oct =>
    obtain rfl := List.mem_singleton.1 h
    rfl
  | bin =>
    rcases List.mem_pair.1 h with rfl | rfl
    · rfl
    · rfl

/-! ### Digits with separators -/

namespace Separated

variable {digits run : List Char} (h : Separated digits run)

include h

theorem cases_mem {c : Char} (hc : c ∈ run) : c ∈ digits ∨ c = '_' := by
  induction h with
  | nil => cases hc
  | digit _ ih =>
    rcases List.mem_cons.1 hc with rfl | hc
    · exact Or.inl List.mem_cons_self
    · exact (ih hc).imp_left (List.mem_cons_of_mem _)
  | separator _ ih =>
    rcases List.mem_cons.1 hc with rfl | hc
    · exact Or.inr rfl
    · exact ih hc

theorem mem_run {d : Char} (hd : d ∈ digits) : d ∈ run := by
  induction h with
  | nil => cases hd
  | digit _ ih =>
    rcases List.mem_cons.1 hd with rfl | hd
    · exact List.mem_cons_self
    · exact List.mem_cons_of_mem _ (ih hd)
  | separator _ ih => exact List.mem_cons_of_mem _ (ih hd)

/-- Without the separators the digits are left. -/
theorem ofRun_eq (hdigits : ∀ d ∈ digits, d ≠ '_') : Digits.ofRun run = digits := by
  unfold Digits.ofRun
  induction h with
  | nil => rfl
  | @digit c digits run _ ih =>
    have hc : (c != '_') = true := bne_iff_ne.2 (hdigits c List.mem_cons_self)
    rw [List.filter_cons, if_pos hc, ih fun d hd => hdigits d (List.mem_cons_of_mem c hd)]
  | separator _ ih => rw [List.filter_cons_of_neg (by decide), ih hdigits]

end Separated

/-! ### Reading -/

namespace IsFront

variable {radix : Radix} {text run after : List Char}

theorem run_eq (h : radix.IsFront text run after) : Digits.run radix.isDigit text = run := by
  rw [← h.append_eq]
  apply takeWhile_append_stop
  · intro c hc
    simpa [isDigit_iff] using h.mem c hc
  · intro c hc
    simpa [← isDigit_iff] using h.stop c hc

/-- A text of separators alone has no digits. -/
theorem isEmpty_ofRun (h : radix.IsFront text run after) :
    (Digits.ofRun run).isEmpty = true ↔ ¬ ∃ c ∈ run, radix.IsDigit c := by
  rw [Digits.ofRun, List.isEmpty_iff, List.filter_eq_nil_iff]
  constructor
  · rintro hnone ⟨c, hc, hdigit⟩
    exact hnone c hc (bne_iff_ne.2 hdigit.ne_separator)
  · intro hnone c hc hne
    rcases h.mem c hc with hdigit | hseparator
    · exact hnone ⟨c, hc, hdigit⟩
    · exact bne_iff_ne.1 hne hseparator

theorem of_separated {digits : List Char} (hdigits : ∀ d ∈ digits, radix.IsDigit d)
    (h : Separated digits run) (hafter : ∀ c ∈ after.head?, ¬ radix.IsDigit c ∧ c ≠ '_') :
    radix.IsFront (run ++ after) run after where
  append_eq := rfl
  mem c hc := (h.cases_mem hc).imp_left (hdigits c)
  stop := hafter

end IsFront

theorem exists_isFront (radix : Radix) (text : List Char) :
    ∃ run after, radix.IsFront text run after := by
  refine ⟨Digits.run radix.isDigit text, text.drop (Digits.run radix.isDigit text).length, ?_, ?_, ?_⟩
  · conv_lhs =>
      lhs
      rw [Digits.run, ← take_length_takeWhile]
    exact List.take_append_drop _ text
  · intro c hc
    have hclass := List.mem_takeWhile_imp hc
    simpa [isDigit_iff] using hclass
  · intro c hc
    have hclass := stop_of_takeWhile _ text c hc
    simpa [← isDigit_iff] using hclass

end Radix

/-- A zero and a mark are read in front of the digits of the radix. -/
theorem Front.read_mark {radix : Radix} {mark : Char} (h : mark ∈ radix.marks) (text : List Char) :
    read '0' (mark :: text) = ((radix.read text).shift 2).map some := by
  have hradix : Number.radix? ('0' :: mark :: text) = some radix := Radix.ofMark?_of_mem_marks h
  rw [read_digit (by decide), Number.read, hradix]
  rfl

namespace Lexer

section

variable {lexer : Lexer} {radix : Radix} {mark : Char} (hmark : mark ∈ radix.marks) {text : List Char}
  (hrest : lexer.cursor.rest = '0' :: mark :: text) (hlength : lexer.cursor.rest.length ≤ ceiling)
  {run after : List Char} (h : radix.IsFront text run after)

include hrest h

theorem rest_skip_radix : (lexer.skip (2 + run.length)).cursor.rest = after := by
  have hsplit : lexer.cursor.rest = ('0' :: mark :: run) ++ after := by
    rw [hrest, ← h.append_eq]
    rfl
  exact rest_skip_of_length hsplit (Nat.add_comm run.length 2)

include hlength

theorem length_radix_le : 2 + run.length ≤ ceiling := by
  rw [hrest, ← h.append_eq, List.length_cons, List.length_cons, List.length_append] at hlength
  omega

include hmark

theorem nextToken_radix_found (hdigit : ∃ c ∈ run, radix.IsDigit c) :
    lexer.nextToken =
      (.ok ⟨.ofValue radix.kind (run.filter (· != '_')),
          ⟨lexer.cursor.place.row, lexer.cursor.place.col, 2 + run.length⟩⟩,
        lexer.skip (2 + run.length)) := by
  have hread := Front.read_mark hmark text
  rw [Radix.read, h.run_eq, if_neg fun hempty => h.isEmpty_ofRun.1 hempty hdigit] at hread
  exact nextToken_of_found hrest hread (length_radix_le hrest hlength h)

theorem nextToken_radix_fault (hnone : ¬ ∃ c ∈ run, radix.IsDigit c) :
    lexer.nextToken =
      (.error ⟨radix.fault, ⟨lexer.cursor.place.row, lexer.cursor.place.col, 2 + run.length⟩⟩,
        lexer.skip (2 + run.length)) := by
  have hread := Front.read_mark hmark text
  rw [Radix.read, h.run_eq, if_pos (h.isEmpty_ofRun.2 hnone)] at hread
  exact nextToken_of_fault hrest hread (length_radix_le hrest hlength h)

end

/-- A zero and the mark of a radix open a literal, which takes up the digits of the radix and the separators
behind them as far as they go. With a digit among them it is the integer of these digits, in their case and
whatever separators are put between them. Without one it is a fault. What follows is left either way. -/
theorem nextToken_radix {lexer : Lexer} {radix : Radix} {mark : Char} (hmark : mark ∈ radix.marks)
    {text : List Char} (hrest : lexer.cursor.rest = '0' :: mark :: text)
    (hlength : lexer.cursor.rest.length ≤ ceiling) :
    let place := lexer.cursor.place
    let kind : ValueKind :=
      match radix with
      | .hex => .intHex
      | .oct => .intOct
      | .bin => .intBin
    let fault : Fault :=
      match radix with
      | .hex => .invalidHexNumber
      | .oct => .invalidOctNumber
      | .bin => .invalidBinNumber
    (∃ run after, radix.IsFront text run after) ∧
    (∀ run after, radix.IsFront text run after →
      let n := 2 + run.length
      ((∃ c ∈ run, radix.IsDigit c) →
        lexer.nextToken =
          (.ok ⟨.ofValue kind (run.filter (· != '_')), ⟨place.row, place.col, n⟩⟩,
            lexer.skip n)) ∧
      ((¬ ∃ c ∈ run, radix.IsDigit c) →
        lexer.nextToken = (.error ⟨fault, ⟨place.row, place.col, n⟩⟩, lexer.skip n)) ∧
      (lexer.skip n).cursor.rest = after) ∧
    ∀ digits run after, digits ≠ [] → (∀ d ∈ digits, radix.IsDigit d) →
      Radix.Separated digits run → (∀ c ∈ after.head?, ¬ radix.IsDigit c ∧ c ≠ '_') →
      text = run ++ after →
      let n := 2 + run.length
      lexer.nextToken =
        (.ok ⟨.ofValue kind digits, ⟨place.row, place.col, n⟩⟩, lexer.skip n) ∧
      (lexer.skip n).cursor.rest = after := by
  intro place kind fault
  have hkind : kind = radix.kind := by cases radix <;> rfl
  have hfault : fault = radix.fault := by cases radix <;> rfl
  rw [hkind, hfault]
  refine ⟨radix.exists_isFront text, ?_, ?_⟩
  · intro run after h n
    exact ⟨nextToken_radix_found hmark hrest hlength h, nextToken_radix_fault hmark hrest hlength h,
      rest_skip_radix hrest h⟩
  · intro digits run after hne hdigits hseparated hafter htext n
    subst htext
    have h := Radix.IsFront.of_separated hdigits hseparated hafter
    have hrun : run.filter (· != '_') = digits :=
      hseparated.ofRun_eq fun d hd => (hdigits d hd).ne_separator
    obtain ⟨d, hd⟩ := List.exists_mem_of_ne_nil digits hne
    have hnext := nextToken_radix_found hmark hrest hlength h
      ⟨d, hseparated.mem_run hd, hdigits d hd⟩
    rw [hrun] at hnext
    exact ⟨hnext, rest_skip_radix hrest h⟩

/-- Separators on all sides of digits of either case, and a binary literal that has no digit in front of a digit
of another radix. -/
theorem nextToken_radix_separated :
    let lexer := ofSource .standard "0X_1f_F__g"
    let other := ofSource .standard "0b__2"
    'X' ∈ Radix.hex.marks ∧ 'b' ∈ Radix.bin.marks ∧
    Radix.Separated ['1', 'f', 'F'] "_1f_F__".toList ∧
    lexer.nextToken =
      (.ok ⟨⟨.value .intHex, "1fF"⟩, ⟨1, 1, 9⟩⟩, ⟨.standard, ⟨['g'], ⟨1, 10⟩⟩, false⟩) ∧
    other.nextToken =
      (.error ⟨.invalidBinNumber, ⟨1, 1, 4⟩⟩, ⟨.standard, ⟨['2'], ⟨1, 5⟩⟩, false⟩) := by
  intro lexer other
  have hhex : 'X' ∈ Radix.hex.marks := by decide
  have hbin : 'b' ∈ Radix.bin.marks := by decide
  have hseparated : Radix.Separated ['1', 'f', 'F'] "_1f_F__".toList :=
    .separator (.digit (.digit (.separator (.digit (.separator (.separator .nil))))))
  have hclass : ['1', 'f', 'F'].all Radix.hex.isDigit = true := by decide
  have hdigits : ∀ d ∈ ['1', 'f', 'F'], Radix.hex.IsDigit d :=
    fun d hd => Radix.isDigit_iff.1 (List.all_eq_true.1 hclass d hd)
  have hafter : ∀ c ∈ ['g'].head?, ¬ Radix.hex.IsDigit c ∧ c ≠ '_' := by
    rintro _ ⟨⟩
    decide
  have hseparators : ∀ c ∈ ['_', '_'], c = '_' := by simp
  have hfront : Radix.bin.IsFront "__2".toList ['_', '_'] ['2'] := {
    append_eq := rfl
    mem := fun c hc => Or.inr (hseparators c hc)
    stop := by
      rintro _ ⟨⟩
      decide }
  obtain ⟨-, -, hall⟩ := @nextToken_radix lexer .hex 'X' hhex "_1f_F__g".toList rfl (by decide)
  obtain ⟨hnext, -⟩ := hall _ _ ['g'] (by simp) hdigits hseparated hafter rfl
  obtain ⟨-, hall, -⟩ := @nextToken_radix other .bin 'b' hbin "__2".toList rfl (by decide)
  obtain ⟨-, hfault, -⟩ := hall _ _ hfront
  have hnone : ¬ ∃ c ∈ ['_', '_'], Radix.bin.IsDigit c := by
    rintro ⟨c, hc, hdigit⟩
    exact hdigit.ne_separator (hseparators c hc)
  refine ⟨hhex, hbin, hseparated, ?_, ?_⟩
  · rw [hnext]
    rfl
  · rw [hfault hnone]
    rfl

end Lexer

end Lexis
