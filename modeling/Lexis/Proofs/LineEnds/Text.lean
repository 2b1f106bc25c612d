import Mathlib.Data.List.Chain
import Lexis.Literal.Quoted
import Lexis.Proofs.Outcomes
import Lexis.Proofs.Readings
import Lexis.Proofs.Runs
import Lexis.Token

/-!
# Carriage returns in front of line feeds

A text whose lines end with a line feed becomes one whose lines end with a carriage return and a line feed.
A reading carries over when it takes up the characters that its own ones become, with a related result.
-/

namespace Lexis

open Text

namespace Text

/-- The text with a carriage return in front of each line feed. -/
def crlf (text : List Char) : List Char :=
  text.flatMap fun c => if c = '\n' then ['\r', '\n'] else [c]

@[simp] theorem crlf_nil : crlf [] = [] := rfl

@[simp] theorem crlf_line (text : List Char) : crlf ('\n' :: text) = '\r' :: '\n' :: crlf text := rfl

theorem crlf_cons {c : Char} (h : c ≠ '\n') (text : List Char) : crlf (c :: text) = c :: crlf text := by
  rw [crlf, List.flatMap_cons, if_neg h]
  rfl

@[simp] theorem crlf_append (s t : List Char) : crlf (s ++ t) = crlf s ++ crlf t := List.flatMap_append

theorem crlf_of_not_mem {text : List Char} (h : '\n' ∉ text) : crlf text = text := by
  induction text with
  | nil => rfl
  | cons c rest ih =>
    rw [List.mem_cons, not_or] at h
    rw [crlf_cons (Ne.symm h.1), ih h.2]

/-- No other first character comes or goes. -/
theorem head?_crlf {d : Char} (hline : d ≠ '\n') (hreturn : d ≠ '\r') (text : List Char) :
    (crlf text).head? = some d ↔ text.head? = some d := by
  cases text with
  | nil => rfl
  | cons c rest =>
    by_cases hc : c = '\n'
    · subst hc
      simp [hline.symm, hreturn.symm]
    · rw [crlf_cons hc]
      rfl

theorem crlf_take_add (text : List Char) (m n : Nat) :
    crlf (text.take (m + n)) = crlf (text.take m) ++ crlf ((text.drop m).take n) := by
  rw [List.take_add, crlf_append]

theorem crlf_take_cons {c : Char} (h : c ≠ '\n') (text : List Char) (n : Nat) :
    crlf ((c :: text).take (1 + n)) = c :: crlf (text.take n) := by
  rw [Nat.add_comm, List.take_succ_cons, crlf_cons h]

theorem crlf_take_one {c : Char} (h : c ≠ '\n') (text : List Char) :
    crlf ((c :: text).take 1) = [c] :=
  crlf_cons h []

theorem drop_one_add (c : Char) (text : List Char) (n : Nat) :
    (c :: text).drop (1 + n) = text.drop n := by
  rw [Nat.add_comm, List.drop_succ_cons]

/-- What stands behind the front of a text stands behind what the front becomes. -/
theorem drop_crlf (text : List Char) (n : Nat) :
    (crlf text).drop (crlf (text.take n)).length = crlf (text.drop n) := by
  rw [← List.take_append_drop n text, crlf_append, List.take_append_drop, List.drop_left]

theorem take_crlf (text : List Char) (n : Nat) :
    (crlf text).take (crlf (text.take n)).length = crlf (text.take n) := by
  rw [← List.take_append_drop n text, crlf_append, List.take_append_drop, List.take_left]

/-- A run of characters of a class that both characters are of, or none of them, stays a run. -/
theorem takeWhile_crlf {p : Char → Bool} (h : p '\r' = p '\n') (text : List Char) :
    (crlf text).takeWhile p = crlf (text.takeWhile p) := by
  induction text with
  | nil => rfl
  | cons c rest ih =>
    by_cases hc : c = '\n'
    · subst hc
      rw [crlf_line, List.takeWhile_cons, List.takeWhile_cons, List.takeWhile_cons, h, ih]
      split <;> rfl
    · rw [crlf_cons hc, List.takeWhile_cons, List.takeWhile_cons, ih]
      split
      · exact (crlf_cons hc _).symm
      · rfl

section

variable {p : Char → Bool} (hreturn : p '\r' = false) (hline : p '\n' = false) (text : List Char)

include hline

theorem crlf_takeWhile : crlf (text.takeWhile p) = text.takeWhile p := by
  apply crlf_of_not_mem
  intro hmem
  rw [List.mem_takeWhile_imp hmem] at hline
  cases hline

theorem crlf_take_takeWhile :
    crlf (text.take (text.takeWhile p).length) = text.takeWhile p := by
  rw [take_length_takeWhile, crlf_takeWhile hline]

theorem drop_crlf_takeWhile :
    (crlf text).drop (text.takeWhile p).length = crlf (text.drop (text.takeWhile p).length) := by
  rw [← drop_crlf, crlf_take_takeWhile hline]

include hreturn

/-- A run of other characters stays as it is. -/
theorem takeWhile_crlf_of_stop : (crlf text).takeWhile p = text.takeWhile p := by
  rw [takeWhile_crlf (hreturn.trans hline.symm), crlf_takeWhile hline]

end

end Text

/-- `reading.Carried R text other` tells that a reading of the text becomes another one where carriage
returns stand in front of its line feeds: it takes up what its characters become, and the results agree. -/
structure Reading.Carried {α : Type} (R : α → α → Prop) (text : List Char)
    (reading other : Reading α) : Prop where
  length : other.length = (crlf (text.take reading.length)).length
  result : Agree R Eq reading.result other.result

namespace Reading.Carried

variable {α β : Type} {R : α → α → Prop} {text : List Char} {reading other : Reading α}

theorem found {a b : α} {m n : Nat} (hR : R a b) (h : n = (crlf (text.take m)).length) :
    (Reading.found a m).Carried R text (.found b n) :=
  ⟨h, .ok hR⟩

theorem fault {f : Fault} {m n : Nat} (h : n = (crlf (text.take m)).length) :
    (Reading.fault f m).Carried R text (.fault f n) :=
  ⟨h, .error rfl⟩

theorem imp {S : α → α → Prop} (h : reading.Carried R text other) (hR : ∀ a b, R a b → S a b) :
    reading.Carried S text other :=
  ⟨h.length, h.result.imp hR fun _ _ hfault => hfault⟩

theorem map {S : β → β → Prop} {f : α → β} (h : reading.Carried R text other)
    (hR : ∀ a b, R a b → S (f a) (f b)) : (reading.map f).Carried S text (other.map f) :=
  ⟨h.length, h.result.map hR⟩

theorem shift {m n : Nat} (h : reading.Carried R (text.drop m) other)
    (hn : n = (crlf (text.take m)).length) : (reading.shift m).Carried R text (other.shift n) := by
  refine ⟨?_, h.result⟩
  rw [length_shift, length_shift, h.length, hn, crlf_take_add, List.length_append]

/-- A piece in front carries over with the reading behind it. -/
theorem cons {R S : List Char → List Char → Prop} {piece partner : Piece}
    {reading other : Reading (List Char)} (h : reading.Carried R (text.drop piece.length) other)
    (hlength : partner.length = (crlf (text.take piece.length)).length)
    (hR : ∀ s t, R s t → S (piece.text ++ s) (partner.text ++ t)) :
    (reading.cons piece).Carried S text (other.cons partner) :=
  ⟨(h.shift hlength).length, h.result.map hR⟩

theorem verbatim {R S : List Char → List Char → Prop} {c : Char} {rest : List Char}
    {reading other : Reading (List Char)} (hline : c ≠ '\n') (h : reading.Carried R rest other)
    (hR : ∀ s t, R s t → S (c :: s) (c :: t)) :
    (reading.cons (.verbatim c)).Carried S (c :: rest) (other.cons (.verbatim c)) := by
  refine .cons h ?_ hR
  rw [Piece.verbatim, crlf_take_one hline]
  rfl

end Reading.Carried

/-- A character behind another one is no line feed, or the other one is a backslash. -/
def Quoted.BehindEscape (c d : Char) : Prop := d = '\n' → c = '\\'

/-- A string between quotes in which every line feed directly follows a backslash. -/
def Quoted.LinesEscaped (span : List Char) : Prop :=
  (∃ quote ∈ span.head?, isQuote quote = true) ∧ span.IsChain BehindEscape

/-- What a lexeme that was read from `span` keeps: its kind, and its text unless line feeds in it became
part of the text. -/
structure Lexeme.Kept (span : List Char) (lexeme other : Lexeme) : Prop where
  kind : other.kind = lexeme.kind
  text : '\n' ∉ span ∨ Quoted.LinesEscaped span → other.text = lexeme.text

theorem Lexeme.Kept.of_eq {span : List Char} {lexeme other : Lexeme} (h : lexeme = other) :
    Lexeme.Kept span lexeme other :=
  h ▸ ⟨rfl, fun _ => rfl⟩

end Lexis
