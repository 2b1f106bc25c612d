import Lexis.Front
import Lexis.Proofs.Runs

/-!
# The front of a text by its first characters

Which reader reads a front is told by its first character, and for a slash and a backslash by the second
one too.
-/

namespace Lexis.Front

open Text

theorem isDigit_of_isAlpha {c : Char} (h : c.isAlpha = true) : c.isDigit = false := by
  have halpha : (decide (c.val ≥ 65 ∧ c.val ≤ 90) || (c.val ≥ 97 && c.val ≤ 122)) = true := h
  show (c.val ≥ 48 && c.val ≤ 57) = false
  simp only [Bool.or_eq_true, Bool.and_eq_true, decide_eq_true_eq, ge_iff_le,
    UInt32.le_iff_toNat_le] at halpha
  simp only [Bool.and_eq_false_iff, decide_eq_false_iff_not, ge_iff_le, UInt32.le_iff_toNat_le]
  simp only [UInt32.reduceToNat] at halpha ⊢
  omega

theorem read_digit {c : Char} (h : c.isDigit = true) (rest : List Char) :
    read c rest = (Number.read (c :: rest)).map some := by
  rw [read, if_pos h]

theorem read_alpha {c : Char} (h : c.isAlpha = true) (rest : List Char) :
    read c rest = (Word.read (c :: rest)).map some := by
  rw [read, if_neg (by simp [isDigit_of_isAlpha h]), if_pos h]

theorem read_number_sign (rest : List Char) :
    read '#' rest = (Word.readMarked rest).map some := by
  simp [read]

theorem read_backtick (rest : List Char) :
    read '\x60' rest = (Word.readExtended rest).map some := by
  simp [read]

theorem read_quote {c : Char} (h : Quoted.isQuote c = true) (rest : List Char) :
    read c rest =
      ((Quoted.read c rest).map fun text => some (.ofValue .string text)).shift 1 := by
  simp only [Quoted.isQuote, Bool.or_eq_true, beq_iff_eq] at h
  rcases h with rfl | rfl <;> simp [read, Quoted.isQuote]

theorem read_backslash_backslash (rest : List Char) :
    read '\\' ('\\' :: rest) =
      ((TextBlock.read rest).map fun text => some (.ofValue .string text)).shift 2 := by
  simp [read, Quoted.isQuote]

/-- Two slashes open a line comment. -/
theorem read_slash_slash (text : List Char) : read '/' ('/' :: text) = Comment.readLine text := by
  simp [read, Quoted.isQuote]

/-- A slash and a star open a block comment. -/
theorem read_slash_star (text : List Char) : read '/' ('*' :: text) = Comment.readBlock text := by
  simp [read, Quoted.isQuote]

/-- The characters that open something else than an operator, whatever follows them. -/
def isOpener (c : Char) : Bool :=
  c.isDigit || c.isAlpha || c == '#' || c == '\x60' || Quoted.isQuote c

/-- The openers of two characters. -/
def isPairOpener (c : Char) (rest : List Char) : Bool :=
  (c == '\\' && rest.head? == some '\\') ||
    (c == '/' && (rest.head? == some '/' || rest.head? == some '*'))

/-- What nothing else opens is an operator, white space, or unknown. -/
theorem read_other {c : Char} {rest : List Char} (hopener : isOpener c = false)
    (hpair : isPairOpener c rest = false) :
    read c rest =
      match Operator.munch? (c :: rest) with
      | some op => .found (some (.ofOperator op)) op.spelling.length
      | none => if isBlank c then .found none 1 else .fault (.unknownCharacter c) 1 := by
  simp only [isOpener, Bool.or_eq_false_iff, beq_eq_false_iff_ne, ne_eq] at hopener
  obtain ⟨⟨⟨⟨hdigit, halpha⟩, hmark⟩, htick⟩, hquote⟩ := hopener
  have hback : ¬ (c = '\\' ∧ rest.head? = some '\\') := by
    rintro ⟨rfl, hnext⟩
    simp [isPairOpener, hnext] at hpair
  have hline : ¬ (c = '/' ∧ rest.head? = some '/') := by
    rintro ⟨rfl, hnext⟩
    simp [isPairOpener, hnext] at hpair
  have hblock : ¬ (c = '/' ∧ rest.head? = some '*') := by
    rintro ⟨rfl, hnext⟩
    simp [isPairOpener, hnext] at hpair
  rw [read, hdigit, halpha, hquote, if_neg hmark, if_neg htick, if_neg hback, if_neg hline,
    if_neg hblock]
  cases hstarter : Operator.isStarter c with
  | true =>
    obtain ⟨op, hop, hread⟩ := Operator.read_of_isStarter hstarter rest
    rw [hop, hread]
    rfl
  | false =>
    rw [Operator.munch?_eq_none hstarter]
    cases isBlank c <;> rfl

/-- What the first characters of a text open. -/
inductive Opening (c : Char) (rest : List Char) : Prop
  | digit : c.isDigit = true → Opening c rest
  | alpha : c.isAlpha = true → Opening c rest
  | mark : c = '#' → Opening c rest
  | backtick : c = '\x60' → Opening c rest
  | quote : Quoted.isQuote c = true → Opening c rest
  | block : c = '\\' → rest.head? = some '\\' → Opening c rest
  | comment : c = '/' → rest.head? = some '/' ∨ rest.head? = some '*' → Opening c rest
  | other : isOpener c = false → isPairOpener c rest = false → Opening c rest

theorem opening (c : Char) (rest : List Char) : Opening c rest := by
  by_cases hdigit : c.isDigit = true
  · exact .digit hdigit
  by_cases halpha : c.isAlpha = true
  · exact .alpha halpha
  by_cases hmark : c = '#'
  · exact .mark hmark
  by_cases htick : c = '\x60'
  · exact .backtick htick
  by_cases hquote : Quoted.isQuote c = true
  · exact .quote hquote
  by_cases hblock : c = '\\' ∧ rest.head? = some '\\'
  · exact .block hblock.1 hblock.2
  by_cases hcomment : c = '/' ∧ (rest.head? = some '/' ∨ rest.head? = some '*')
  · exact .comment hcomment.1 hcomment.2
  refine .other ?_ ?_
  · simp [isOpener, hdigit, halpha, hmark, htick, hquote]
  · simp only [isPairOpener, Bool.or_eq_false_iff, Bool.and_eq_false_imp, beq_iff_eq,
      beq_eq_false_iff_ne]
    exact ⟨fun hc hnext => hblock ⟨hc, hnext⟩,
      fun hc => ⟨fun hnext => hcomment ⟨hc, Or.inl hnext⟩, fun hnext => hcomment ⟨hc, Or.inr hnext⟩⟩⟩

/-- No white space is a character that something else than trivia starts with. -/
theorem read_blank {c : Char} (h : isBlank c = true) (rest : List Char) :
    read c rest = .found none 1 := by
  have hall : (blanks.all fun d =>
      !isOpener d && d != '\\' && d != '/' && !Operator.isStarter d) = true := by
    decide +kernel
  have hc := of_isBlank hall h
  simp only [Bool.and_eq_true, Bool.not_eq_true', bne_iff_ne, ne_eq] at hc
  obtain ⟨⟨⟨hopener, hback⟩, hslash⟩, hop⟩ := hc
  rw [read_other hopener (by simp [isPairOpener, hback, hslash]), Operator.munch?_eq_none hop]
  dsimp only
  rw [if_pos h]

end Lexis.Front
