import Lexis.Proofs.Lookahead.Quoted

/-!
# Written strings

Any text can be written between double quotes, with the quotes and the backslashes in it escaped, and is
read back as it is.
-/

namespace Lexis

namespace Escape

/-- A character as it is written between double quotes. -/
def written (c : Char) : List Char :=
  if c = '\x22' then ['\\', '\x22']
  else if c = '\\' then ['\\', 'u', '0', '0', '5', 'C']
  else [c]

theorem read_quote (rest : List Char) : read ('\x22' :: rest) = ⟨['\x22'], 2⟩ := rfl

theorem read_backslash (rest : List Char) :
    read ('u' :: '0' :: '0' :: '5' :: 'C' :: rest) = ⟨['\\'], 6⟩ := rfl

end Escape

namespace Quoted

/-- A text as it is written between double quotes. -/
def written (text : List Char) : List Char := text.flatMap Escape.written

theorem read_written_cons (c : Char) (rest : List Char) :
    read '\x22' (Escape.written c ++ rest) =
      (read '\x22' rest).cons ⟨[c], (Escape.written c).length⟩ := by
  by_cases hquote : c = '\x22'
  · subst hquote
    show read '\x22' ('\\' :: '\x22' :: rest) = _
    rw [read_escape, Escape.read_quote]
    rfl
  · by_cases hback : c = '\\'
    · subst hback
      show read '\x22' ('\\' :: 'u' :: '0' :: '0' :: '5' :: 'C' :: rest) = _
      rw [read_escape, Escape.read_backslash]
      rfl
    · have hplain : Escape.written c = [c] := by rw [Escape.written, if_neg hquote, if_neg hback]
      rw [hplain, List.singleton_append, read_verbatim hback hquote]
      rfl

/-- A written string is read back up to its closing quote. -/
theorem read_written (text after : List Char) :
    read '\x22' (written text ++ '\x22' :: after) = .found text ((written text).length + 1) := by
  induction text with
  | nil => exact read_close (by decide) after
  | cons c text ih =>
    have hwritten : written (c :: text) = Escape.written c ++ written text := List.flatMap_cons
    rw [hwritten, List.append_assoc, read_written_cons, ih, Reading.cons_found, List.length_append,
      Nat.add_assoc]
    rfl

end Quoted

end Lexis
