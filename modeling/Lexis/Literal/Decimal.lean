import Lexis.Literal.Digits
import Lexis.Reading
import Lexis.Token

/-!
# Decimal literals

A decimal literal is a whole part, which may hold separators, and then at most one fraction and at
most one exponent, in either order. With a fraction or an exponent it is a float. A dot starts a
fraction only where a digit follows it, so `1..2` starts with the integer `1`.
-/

namespace Lexis.Decimal

/-- The sign at the front of a text, if there is one. -/
def sign : List Char → List Char
  | '+' :: _ => ['+']
  | '-' :: _ => ['-']
  | _ => []

/-- Reads the exponent whose mark stands right before the text: one sign or none, then digits. -/
def readExponent (text : List Char) : Reading (List Char) :=
  let signed := sign text
  let digits := (text.drop signed.length).takeWhile Char.isDigit
  if digits.isEmpty then .fault .invalidFloatNumber signed.length
  else .found (signed ++ digits) (signed.length + digits.length)

/-- Reads the fraction and the exponent that can still follow; `fraction` and `exponent` tell which
of them the literal has already. The text is empty where neither follows. -/
def readParts (fraction exponent : Bool) (text : List Char) : Reading (List Char) :=
  match text with
  | [] => .found [] 0
  | c :: rest =>
    if c = '.' then
      let digits := rest.takeWhile Char.isDigit
      if digits.isEmpty then .found [] 0
      else if fraction then .fault .invalidFloatNumber 0
      else
        (readParts true exponent (rest.drop digits.length)).cons ⟨'.' :: digits, 1 + digits.length⟩
    else if c = 'e' ∨ c = 'E' then
      if exponent then .fault .invalidFloatNumber 0
      else
        match readExponent rest with
        | ⟨.error fault, n⟩ => .fault fault (1 + n)
        | ⟨.ok power, n⟩ => (readParts fraction true (rest.drop n)).cons ⟨'e' :: power, 1 + n⟩
    else if c = '_' ∧ (fraction ∨ exponent) then .fault .underscoreInFloat 0
    else .found [] 0
termination_by text.length

/-- Reads a decimal literal. -/
def read (text : List Char) : Reading Lexeme :=
  let whole := Digits.run Char.isDigit text
  let digits := Digits.ofRun whole
  let parts := readParts false false (text.drop whole.length)
  (parts.map fun part =>
    if part.isEmpty then .ofValue .intDec digits else .ofValue .float (digits ++ part)).shift
    whole.length

/-- A sign lies within the text. -/
theorem length_sign_le (text : List Char) : (sign text).length ≤ text.length := by
  unfold sign
  split <;> simp

/-- An exponent lies within the text. -/
theorem length_readExponent_le (text : List Char) :
    (readExponent text).length ≤ text.length := by
  have hsign := length_sign_le text
  have hdigits :=
    (List.takeWhile_sublist Char.isDigit (l := text.drop (sign text).length)).length_le
  rw [List.length_drop] at hdigits
  unfold readExponent
  dsimp only
  split
  · exact hsign
  · rw [Reading.length_found]
    omega

/-- The fraction and the exponent lie within the text. -/
theorem length_readParts_le (fraction exponent : Bool) (text : List Char) :
    (readParts fraction exponent text).length ≤ text.length := by
  fun_induction readParts fraction exponent text with
  | case4 _ _ rest digits _ _ ih =>
    have hdigits : digits.length ≤ rest.length := (List.takeWhile_sublist _).length_le
    rw [List.length_drop] at ih
    rw [Reading.length_cons, List.length_cons]
    dsimp only
    omega
  | case6 _ _ c rest _ _ _ fault n hexponent =>
    have hlen := length_readExponent_le rest
    rw [hexponent] at hlen
    rw [Reading.length_fault, List.length_cons]
    exact Nat.add_comm 1 n ▸ Nat.succ_le_succ hlen
  | case7 _ _ c rest _ _ _ power n hexponent ih =>
    have hlen := length_readExponent_le rest
    rw [hexponent] at hlen
    change n ≤ rest.length at hlen
    rw [List.length_drop] at ih
    rw [Reading.length_cons, List.length_cons]
    dsimp only
    omega
  | _ => exact Nat.zero_le _

/-- A decimal literal lies within the text. -/
theorem length_read_le (text : List Char) : (read text).length ≤ text.length := by
  have hrun := Digits.length_run_le Char.isDigit text
  have hparts :=
    length_readParts_le false false (text.drop (Digits.run Char.isDigit text).length)
  rw [List.length_drop] at hparts
  simp only [read, Reading.length_shift, Reading.length_map]
  omega

end Lexis.Decimal
