import Lexis.Reading
import Lexis.Text.Blank
import Lexis.Text.CodeUnit

/-!
# Escapes

What a backslash stands for inside a quoted string or a text block. An escape that is not understood
is no fault: the backslash then stands for itself, and so does the letter `u` of a `\u` that spells
no character.
-/

namespace Lexis.Escape

open Text

/-- The character that a one-letter escape stands for. -/
def letter? : Char → Option Char
  | '\x22' => some '\x22'
  | '\x27' => some '\x27'
  | '0' => some '\x00'
  | 'b' => some '\x08'
  | 'f' => some '\x0c'
  | 'n' => some '\n'
  | 'r' => some '\r'
  | 't' => some '\t'
  | _ => none

/-- The code unit spelled by any number of further `u` marks and four hexadecimal digits, with the
number of characters they take up. -/
def unit? (text : List Char) : Option (Nat × Nat) :=
  let marks := (text.takeWhile (· == 'u')).length
  (CodeUnit.read? (text.drop marks)).map fun unit => (unit, marks + 4)

/-- The character spelled after `\u`: one code unit, or two in two adjacent escapes. -/
def unicode? (text : List Char) : Option Piece := do
  let (unit, n) ← unit? text
  match CodeUnit.char? unit with
  | some c => some ⟨[c], n⟩
  | none =>
    match text.drop n with
    | '\\' :: 'u' :: more => do
      let (low, m) ← unit? more
      let c ← CodeUnit.pair? unit low
      some ⟨[c], n + 2 + m⟩
    | _ => none

/-- Reads the escape whose backslash stands right before the text; the length counts the backslash.
A line break after the backslash is dropped together with the white space that follows. -/
def read (text : List Char) : Piece :=
  match text with
  | [] => ⟨['\\'], 1⟩
  | c :: rest =>
    match letter? c with
    | some decoded => ⟨[decoded], 2⟩
    | none =>
      if c = '\n' ∨ (c = '\r' ∧ rest.head? = some '\n') then
        ⟨[], 2 + (rest.takeWhile isBlank).length⟩
      else if c = 'u' then
        match unicode? rest with
        | some piece => ⟨piece.text, 2 + piece.length⟩
        | none => ⟨['\\', 'u'], 2⟩
      else ⟨['\\'], 1⟩

/-- A spelled code unit lies within the text. -/
theorem length_unit?_le {text : List Char} {unit n : Nat} (h : unit? text = some (unit, n)) :
    n ≤ text.length := by
  unfold unit? at h
  simp only [Option.map_eq_some_iff, Prod.mk.injEq] at h
  obtain ⟨_, hread, -, rfl⟩ := h
  have hfour := CodeUnit.four_le_length hread
  rw [List.length_drop] at hfour
  omega

/-- A spelled character lies within the text. -/
theorem length_unicode?_le {text : List Char} {piece : Piece} (h : unicode? text = some piece) :
    piece.length ≤ text.length := by
  unfold unicode? at h
  simp only [Option.bind_eq_bind, Option.bind_eq_some_iff] at h
  obtain ⟨⟨unit, n⟩, hunit, h⟩ := h
  have hn := length_unit?_le hunit
  dsimp only at h
  split at h
  · simp only [Option.some.injEq] at h
    subst h
    exact hn
  · split at h
    · rename_i more hmore
      simp only [Option.bind_eq_some_iff, Option.some.injEq] at h
      obtain ⟨⟨low, m⟩, hlow, _, _, rfl⟩ := h
      have hm := length_unit?_le hlow
      have hlen := congrArg List.length hmore
      simp only [List.length_drop, List.length_cons] at hlen
      dsimp only
      omega
    · simp at h

/-- An escape lies within its backslash and the text that follows. -/
theorem length_read_le (text : List Char) : (read text).length ≤ text.length + 1 := by
  unfold read
  split
  · simp
  · rename_i c rest
    split
    · simp
    · split
      · have hrun := (List.takeWhile_sublist isBlank (l := rest)).length_le
        simp only [List.length_cons]
        omega
      · split
        · split
          · rename_i piece hpiece
            have hlen := length_unicode?_le hpiece
            simp only [List.length_cons]
            omega
          · simp
        · simp

/-- An escape takes up at least its backslash. -/
theorem one_le_length_read (text : List Char) : 1 ≤ (read text).length := by
  unfold read
  split
  · exact Nat.le_refl 1
  · split
    · exact Nat.le_succ 1
    · split
      · exact Nat.le_add_right_of_le (Nat.le_succ 1)
      · split
        · split
          · exact Nat.le_add_right_of_le (Nat.le_succ 1)
          · exact Nat.le_succ 1
        · exact Nat.le_refl 1

end Lexis.Escape
