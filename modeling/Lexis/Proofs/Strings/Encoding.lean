import Lexis.Proofs.Escape.Unicode
import Lexis.Proofs.Strings.Closing

/-!
# Encodings of a text

A text can be written between two quotes in many ways: each character by itself, by a letter behind a
backslash, or by its code units, and with line continuations between the characters. All of them are read as
the same text. Main statement: `Lexer.nextToken_encoded`.
-/

namespace Lexis

open Text

namespace Escape

/-- The letter of the one-letter escape of a character. -/
def letterOf? : Char → Option Char
  | '\x22' => some '\x22'
  | '\x27' => some '\x27'
  | '\x00' => some '0'
  | '\x08' => some 'b'
  | '\x0c' => some 'f'
  | '\n' => some 'n'
  | '\r' => some 'r'
  | '\t' => some 't'
  | _ => none

/-- A backslash, one mark or more, and four digits of either case that spell the code unit. -/
def IsUnitEscape (unit : Nat) (text : List Char) : Prop :=
  ∃ marks digits, text = '\\' :: (List.replicate (marks + 1) 'u' ++ digits) ∧
    CodeUnit.Spells unit digits

/-- The escapes of a character: the one of a letter, and those of its code units, one behind the other. -/
inductive Encodes (c : Char) : List Char → Prop
  | letter {letter : Char} : letterOf? c = some letter → Encodes c ['\\', letter]
  | units {escapes : List (List Char)} :
      List.Forall₂ IsUnitEscape (CodeUnit.ofChar c) escapes → Encodes c escapes.flatten

theorem letter?_of_letterOf? {c letter : Char} (h : letterOf? c = some letter) :
    letter? letter = some c := by
  unfold letterOf? at h
  split at h
  all_goals cases h
  all_goals rfl

/-- Behind the first mark of a unicode escape, the marks that follow belong to it too. -/
theorem read_marks {text : List Char} {piece : Piece} (hmark : text.head? ≠ some 'u')
    (h : unicode? text = some piece) (marks : Nat) :
    read ('u' :: (List.replicate marks 'u' ++ text)) =
      ⟨piece.text, 2 + (marks + piece.length)⟩ := by
  have hunicode := unicode?_marks hmark marks
  rw [h] at hunicode
  exact read_unicode hunicode

/-- One unit that is no surrogate is the whole character. -/
theorem read_unit {c : Char} {digits : List Char} (h : CodeUnit.Spells c.toNat digits) (marks : Nat)
    (rest : List Char) :
    read (List.replicate (marks + 1) 'u' ++ digits ++ rest) = ⟨[c], marks + 6⟩ := by
  have hunit : SpellsUnit (digits ++ rest) c.toNat :=
    ⟨h.take_append rest, CodeUnit.not_surrogate c⟩
  rw [List.replicate_succ, List.cons_append, List.cons_append, List.append_assoc,
    read_marks (head?_ne_of_spells hunit.1) (unicode?_of_unit hunit), Char.ofNat_toNat,
    Nat.add_comm]

/-- A high surrogate needs the low one in the escape behind it. -/
theorem read_pair {high low : Nat} (hhigh : 0xD800 ≤ high ∧ high ≤ 0xDBFF)
    (hlow : 0xDC00 ≤ low ∧ low ≤ 0xDFFF) {first second : List Char}
    (hfirst : CodeUnit.Spells high first) (hsecond : CodeUnit.Spells low second)
    (marks more : Nat) (rest : List Char) :
    read (List.replicate (marks + 1) 'u' ++ first ++
        '\\' :: (List.replicate (more + 1) 'u' ++ second) ++ rest) =
      ⟨[Char.ofNat (0x10000 + (high - 0xD800) * 0x400 + (low - 0xDC00))], marks + more + 12⟩ := by
  have hpair : SpellsPair (first ++ '\\' :: (List.replicate (more + 1) 'u' ++ (second ++ rest)))
      high low (more + 1) := {
    high_spelled := hfirst.take_append _
    high_bounds := hhigh
    marks_pos := Nat.succ_pos more
    low_spelled := ⟨second ++ rest, List.drop_left' hfirst.length_eq, hsecond.take_append rest⟩
    low_bounds := hlow }
  have hread := read_marks (head?_ne_of_spells hpair.high_spelled) (unicode?_of_pair hpair) marks
  simp only [List.replicate_succ, List.cons_append, List.append_assoc] at hread ⊢
  rw [hread]
  congr 1
  omega

/-- An escape of a character is read as this character, up to the end of the escape. -/
theorem Encodes.read_append {c : Char} {text : List Char} (h : Encodes c text) (rest : List Char) :
    ∃ chars, text = '\\' :: chars ∧ read (chars ++ rest) = ⟨[c], text.length⟩ := by
  cases h with
  | letter hletter => exact ⟨_, rfl, read_letter (letter?_of_letterOf? hletter) rest⟩
  | units hunits =>
    by_cases hlarge : c.toNat < 0x10000
    · rw [CodeUnit.ofChar, if_pos hlarge, List.forall₂_cons_left_iff] at hunits
      obtain ⟨_, _, ⟨marks, digits, rfl, hdigits⟩, hnil, rfl⟩ := hunits
      obtain rfl := List.forall₂_nil_left_iff.1 hnil
      refine ⟨_, List.append_nil _, ?_⟩
      rw [read_unit hdigits]
      simp [hdigits.length_eq]
    · obtain ⟨high, low, hunitsOf, hhigh, hlow, hc⟩ := CodeUnit.ofChar_surrogates hlarge
      rw [hunitsOf, List.forall₂_cons_left_iff] at hunits
      obtain ⟨_, _, ⟨marks, first, rfl, hfirst⟩, hunits, rfl⟩ := hunits
      rw [List.forall₂_cons_left_iff] at hunits
      obtain ⟨_, _, ⟨more, second, rfl, hsecond⟩, hnil, rfl⟩ := hunits
      obtain rfl := List.forall₂_nil_left_iff.1 hnil
      refine ⟨List.replicate (marks + 1) 'u' ++ first ++
        '\\' :: (List.replicate (more + 1) 'u' ++ second), by simp, ?_⟩
      rw [read_pair hhigh hlow hfirst hsecond, hc]
      simp [hfirst.length_eq, hsecond.length_eq]
      omega

/-- A reader that reads an escape at its front goes on behind the escape of a character. -/
theorem Encodes.resume {reader : List Char → Reading (List Char)}
    (hreader : ∀ rest, reader ('\\' :: rest) =
      (reader (rest.drop ((read rest).length - 1))).cons (read rest))
    {c : Char} {chars : List Char} (h : Encodes c chars) (rest : List Char) :
    reader (chars ++ rest) = (reader rest).cons ⟨[c], chars.length⟩ := by
  obtain ⟨behind, rfl, hread⟩ := h.read_append rest
  rw [List.cons_append, hreader, hread, List.length_cons, Nat.add_sub_cancel, List.drop_left]

end Escape

namespace Quoted

/-- `Encodes quote text body`: the body stands for the text between two quotes. Each character of the text is
written by itself or by one of its escapes. Line continuations may stand in front of a character and at the
end, but not in front of white space that is written by itself. -/
inductive Encodes (quote : Char) : List Char → List Char → Prop
  | nil : Encodes quote [] []
  | verbatim {c : Char} {text body : List Char} :
      c ≠ '\\' → c ≠ quote → Encodes quote text body → Encodes quote (c :: text) (c :: body)
  | escape {c : Char} {chars text body : List Char} :
      Escape.Encodes c chars → Encodes quote text body → Encodes quote (c :: text) (chars ++ body)
  | continuation {line blanks text body : List Char} :
      line = ['\n'] ∨ line = ['\r', '\n'] → (∀ c ∈ blanks, isBlank c = true) →
      (∀ c ∈ body.head?, isBlank c = false) → Encodes quote text body →
      Encodes quote text ('\\' :: (line ++ (blanks ++ body)))

theorem read_escaped {c : Char} {chars : List Char} (h : Escape.Encodes c chars) (quote : Char)
    (rest : List Char) : read quote (chars ++ rest) = (read quote rest).cons ⟨[c], chars.length⟩ :=
  h.resume (read_escape quote) rest

/-- A line continuation leaves nothing in the text. -/
theorem read_continuation {line blanks rest : List Char} (hline : line = ['\n'] ∨ line = ['\r', '\n'])
    (hblanks : ∀ c ∈ blanks, isBlank c = true) (hrest : ∀ c ∈ rest.head?, isBlank c = false)
    (quote : Char) :
    read quote ('\\' :: (line ++ (blanks ++ rest))) =
      (read quote rest).cons ⟨[], 1 + line.length + blanks.length⟩ := by
  have hrun : (blanks ++ rest).takeWhile isBlank = blanks := takeWhile_append_stop hblanks hrest
  have hread : Escape.read (line ++ (blanks ++ rest)) = ⟨[], 1 + line.length + blanks.length⟩ := by
    rcases hline with rfl | rfl
    · show Escape.read ('\n' :: (blanks ++ rest)) = _
      rw [Escape.read_line, hrun]
      rfl
    · show Escape.read ('\r' :: '\n' :: (blanks ++ rest)) = _
      rw [Escape.read_return_line, List.takeWhile_cons_of_pos (by decide), hrun, List.length_cons,
        Nat.add_comm blanks.length, ← Nat.add_assoc]
      rfl
  have hdrop : (line ++ (blanks ++ rest)).drop (1 + line.length + blanks.length - 1) = rest := by
    rw [← List.append_assoc]
    apply List.drop_left'
    rw [List.length_append]
    omega
  rw [read_escape, hread, hdrop]

/-- An encoding is read back up to its closing quote. -/
theorem read_encoded {quote : Char} (hquote : isQuote quote = true) {text body : List Char}
    (h : Encodes quote text body) (after : List Char) :
    read quote (body ++ quote :: after) = .found text (body.length + 1) := by
  have hback : quote ≠ '\\' := ne_of_class hquote rfl
  induction h with
  | nil => exact read_close hback after
  | @verbatim c text body hc hclose _ ih =>
    rw [List.cons_append, read_verbatim hc hclose, ih, Reading.cons_found, List.length_cons]
    exact congrArg _ (Nat.add_comm 1 _)
  | @escape c chars text body hchars _ ih =>
    rw [List.append_assoc, read_escaped hchars, ih, Reading.cons_found, List.length_append,
      Nat.add_assoc]
    rfl
  | @continuation line blanks text body hline hblanks hhead _ ih =>
    have hstop : ∀ c ∈ (body ++ quote :: after).head?, isBlank c = false := by
      cases body with
      | nil =>
        rintro _ ⟨⟩
        rcases eq_of_isQuote hquote with rfl | rfl
        · decide
        · decide
      | cons c body => exact hhead
    rw [List.cons_append, List.append_assoc, List.append_assoc,
      read_continuation hline hblanks hstop, ih, Reading.cons_found, List.length_cons,
      List.length_append, List.length_append]
    congr 1
    dsimp only
    omega

end Quoted

namespace Lexer

open Quoted

/-- Whatever way a text is written between two quotes, and whatever follows, the next token is the string of
this text, and it takes up exactly what was written. -/
theorem nextToken_encoded {lexer : Lexer} {quote : Char} (hquote : isQuote quote = true)
    {text body after : List Char} (h : Encodes quote text body)
    (hrest : lexer.cursor.rest = quote :: (body ++ quote :: after))
    (hlength : body.length + 2 ≤ ceiling) :
    lexer.nextToken =
      (.ok ⟨.ofValue .string text,
          ⟨lexer.cursor.place.row, lexer.cursor.place.col, body.length + 2⟩⟩,
        lexer.skip (body.length + 2)) ∧
      (lexer.skip (body.length + 2)).cursor.rest = after :=
  ⟨nextToken_string hquote hrest (read_encoded hquote h after) hlength, rest_skip_string hrest rfl⟩

/-- Between single quotes: a continuation with an indentation, a character by itself, a line feed by its
letter, a surrogate pair with marks of different numbers, the quote itself, and a continuation at the end. -/
theorem nextToken_encoded_mixed :
    let lexer := ofSource .standard "'\\\n  x\\n\\uD83D\\uuude00\\'\\\r\n'!"
    let body := "\\\n  x\\n\\uD83D\\uuude00\\'\\\r\n".toList
    isQuote '\x27' = true ∧ Encodes '\x27' ['x', '\n', '😀', '\x27'] body ∧
    lexer.cursor.rest = '\x27' :: (body ++ '\x27' :: ['!']) ∧ body.length + 2 ≤ ceiling ∧
    lexer.nextToken =
      (.ok ⟨⟨.value .string, "x\n😀'"⟩, ⟨1, 1, 28⟩⟩, ⟨.standard, ⟨['!'], ⟨3, 2⟩⟩, false⟩) := by
  intro lexer body
  have hbody : Encodes '\x27' ['x', '\n', '😀', '\x27'] body := by
    have hfeed : Escape.Encodes '\n' "\\n".toList := .letter rfl
    have hclose : Escape.Encodes '\x27' "\\'".toList := .letter rfl
    have hpair : Escape.Encodes '😀' "\\uD83D\\uuude00".toList :=
      @Escape.Encodes.units _ ["\\uD83D".toList, "\\uuude00".toList]
        (.cons ⟨0, "D83D".toList, by decide, by decide⟩
          (.cons ⟨2, "de00".toList, by decide, by decide⟩ .nil))
    have hend : Encodes '\x27' [] "\\\r\n".toList :=
      @Encodes.continuation _ ['\r', '\n'] [] [] [] (Or.inr rfl) (by simp) (by simp) .nil
    have htext := Encodes.escape hfeed (.escape hpair (.escape hclose hend))
    have hblank : isBlank ' ' = true := rfl
    have hplain : isBlank 'x' = false := rfl
    have hindented := @Encodes.continuation '\x27' ['\n'] [' ', ' '] _ _ (Or.inl rfl)
      (by simp [hblank]) (by simp [hplain]) (@Encodes.verbatim _ 'x' _ _ (by decide) (by decide) htext)
    exact hindented
  have hquote : isQuote '\x27' = true := by decide
  have hrest : lexer.cursor.rest = '\x27' :: (body ++ '\x27' :: ['!']) := by decide
  have hlength : body.length + 2 ≤ ceiling := by decide
  obtain ⟨hnext, -⟩ := nextToken_encoded hquote hbody hrest hlength
  refine ⟨hquote, hbody, hrest, hlength, ?_⟩
  rw [hnext]
  rfl

end Lexer

end Lexis
