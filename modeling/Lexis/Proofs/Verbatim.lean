import Lexis.Proofs.Segments

/-!
# The extent of verbatim forms

A verbatim string and a name between backticks keep each character up to the first one that closes them. The
string is closed by its quote alone, and line breaks stand in it. The name has to be closed on its line, and an
error leaves the line break for the next token. A number sign in front of anything else but a letter is an error
of this one character. Main statement: `Lexer.nextToken_verbatim`.
-/

namespace Lexis

open Text

/-- `IsCut stop text front after`: the text is cut in front of the first character that `stop` holds of, or at
its end where there is none. -/
structure IsCut (stop : Char → Prop) (text front after : List Char) : Prop where
  append_eq : front ++ after = text
  free : ∀ c ∈ front, ¬ stop c
  stop : ∀ c ∈ after.head?, stop c

theorem exists_isCut (stop : Char → Prop) [DecidablePred stop] (text : List Char) :
    ∃ front after, IsCut stop text front after := by
  induction text with
  | nil => exact ⟨[], [], rfl, by simp, by simp⟩
  | cons c rest ih =>
    by_cases hc : stop c
    · exact ⟨[], c :: rest, rfl, by simp, by simpa using hc⟩
    · obtain ⟨front, after, rfl, hfree, hstop⟩ := ih
      refine ⟨c :: front, after, rfl, ?_, hstop⟩
      intro d hd
      rcases List.mem_cons.1 hd with rfl | hd
      · exact hc
      · exact hfree d hd

namespace IsCut

variable {stop : Char → Prop} {text front after : List Char} (h : IsCut stop text front after)

include h

theorem drop_eq : text.drop front.length = after := by
  rw [← h.append_eq, List.drop_left]

theorem takeWhile_eq {p : Char → Bool} (hp : ∀ c, p c = true ↔ ¬ stop c) :
    text.takeWhile p = front := by
  rw [← h.append_eq]
  apply takeWhile_append_stop
  · intro c hc
    exact (hp c).2 (h.free c hc)
  · intro c hc
    rw [← Bool.not_eq_true, hp, not_not]
    exact h.stop c hc

end IsCut

/-! ### Reading -/

namespace Quoted

variable {quote : Char}

theorem readRaw_of_not_mem {content : List Char} (h : quote ∉ content) (after : List Char) :
    readRaw quote (content ++ quote :: after) = .found content (content.length + 1) := by
  have hcontent : (content ++ quote :: after).takeWhile (· != quote) = content := by
    apply takeWhile_append_stop
    · intro c hc
      rw [bne_iff_ne]
      rintro rfl
      exact h hc
    · rintro _ ⟨⟩
      exact bne_self_eq_false quote
  have hlt : content.length < (content ++ quote :: after).length := by simp
  rw [readRaw, hcontent]
  exact if_pos hlt

theorem readRaw_of_open {text : List Char} (h : quote ∉ text) :
    readRaw quote text = .fault .unterminatedString text.length := by
  have hcontent : text.takeWhile (· != quote) = text := by
    rw [List.takeWhile_eq_self_iff]
    intro c hc
    rw [bne_iff_ne]
    rintro rfl
    exact h hc
  rw [readRaw, hcontent]
  exact if_neg (Nat.lt_irrefl _)

end Quoted

namespace Word

/-- The characters that end a name between backticks, well or badly. -/
def IsStop (c : Char) : Prop := c = '\x60' ∨ isLineEnd c = true

instance : DecidablePred IsStop := fun c => inferInstanceAs (Decidable (c = '\x60' ∨ isLineEnd c = true))

section

variable {text word : List Char}

theorem takeWhile_of_isCut {after : List Char} (h : IsCut IsStop text word after) :
    (text.takeWhile fun c => c != '\x60' && !isLineEnd c) = word := by
  apply h.takeWhile_eq
  intro c
  simp [IsStop]

theorem readExtended_closed {behind : List Char} (h : IsCut IsStop text word ('\x60' :: behind)) :
    readExtended text = .found (.ofValue .ident word) (1 + word.length + 1) := by
  rw [readExtended, takeWhile_of_isCut h, h.drop_eq]
  rfl

theorem readExtended_line_end {c : Char} {behind : List Char} (h : IsCut IsStop text word (c :: behind))
    (hc : isLineEnd c = true) :
    readExtended text = .fault (.unterminatedExtendedIdentifier .lineEnd) (1 + word.length) := by
  have htick : c ≠ '\x60' := ne_of_class hc (by decide)
  rw [readExtended, takeWhile_of_isCut h, h.drop_eq]
  exact if_neg htick

theorem readExtended_file_end (h : IsCut IsStop text word []) :
    readExtended text = .fault (.unterminatedExtendedIdentifier .fileEnd) (1 + word.length) := by
  rw [readExtended, takeWhile_of_isCut h, h.drop_eq]

end

end Word

namespace Lexer

variable {lexer : Lexer}

/-! ### Verbatim strings -/

section

variable {quote : Char} (hquote : Quoted.isQuote quote = true)

include hquote

theorem front_raw (text : List Char) :
    Front.read '#' (quote :: text) =
      (((Quoted.readRaw quote text).map (Lexeme.ofValue .string)).shift 2).map some := by
  rw [Front.read_number_sign, Word.readMarked, if_pos hquote]

theorem nextToken_raw_closed {content after : List Char}
    (hrest : lexer.cursor.rest = '#' :: quote :: (content ++ quote :: after)) (h : quote ∉ content) :
    let n := content.length + 3
    lexer.nextToken = (.ok ⟨.ofValue .string content, lexer.cursor.place.position n⟩, lexer.skip n) ∧
    (lexer.skip n).cursor.rest = after := by
  intro n
  have hn : 2 + (content.length + 1) = n := by omega
  have hread := front_raw hquote (content ++ quote :: after)
  rw [Quoted.readRaw_of_not_mem h] at hread
  have hnext := nextToken_of_front hrest hread
  have hsplit : lexer.cursor.rest = ('#' :: quote :: content ++ [quote]) ++ after := by
    rw [hrest, List.append_assoc]
    rfl
  refine ⟨?_, rest_skip_of_length hsplit ?_⟩
  · rw [hnext, ← hn]
    rfl
  · simp [n]

theorem nextToken_raw_open {text : List Char} (hrest : lexer.cursor.rest = '#' :: quote :: text)
    (h : quote ∉ text) :
    let n := lexer.cursor.rest.length
    lexer.nextToken = (.error ⟨.unterminatedString, lexer.cursor.place.position n⟩, lexer.skip n) ∧
    (lexer.skip n).cursor.rest = [] := by
  intro n
  have hn : 2 + text.length = n := by
    rw [Nat.add_comm]
    exact (congrArg List.length hrest).symm
  have hread := front_raw hquote text
  rw [Quoted.readRaw_of_open h] at hread
  have hnext := nextToken_of_front hrest hread
  refine ⟨?_, ?_⟩
  · rw [hnext, ← hn]
    rfl
  · rw [skip, Cursor.rest_skip, List.drop_length]

end

/-! ### Names between backticks -/

section

variable {text word after : List Char} (hrest : lexer.cursor.rest = '\x60' :: text)
  (h : IsCut Word.IsStop text word after)

include hrest h

theorem rest_skip_extended : (lexer.skip (1 + word.length)).cursor.rest = after := by
  have hsplit : lexer.cursor.rest = ('\x60' :: word) ++ after := by
    rw [hrest, ← h.append_eq]
    rfl
  exact rest_skip_of_length hsplit (Nat.add_comm word.length 1)

/-- A name that stops at a backtick ends right behind it. -/
theorem nextToken_extended_closed {behind : List Char} (hafter : after = '\x60' :: behind) :
    let n := word.length + 1 + 1
    lexer.nextToken = (.ok ⟨.ofValue .ident word, lexer.cursor.place.position n⟩, lexer.skip n) ∧
    (lexer.skip n).cursor.rest = behind := by
  intro n
  subst hafter
  have hn : 1 + word.length + 1 = n := by omega
  have hread := Front.read_backtick text
  rw [Word.readExtended_closed h] at hread
  have hnext := nextToken_of_front hrest hread
  have hsplit : lexer.cursor.rest = ('\x60' :: word ++ ['\x60']) ++ behind := by
    rw [hrest, ← h.append_eq, List.append_assoc]
    rfl
  refine ⟨?_, rest_skip_of_length hsplit ?_⟩
  · rw [hnext, ← hn]
    rfl
  · simp [n]

/-- A name that stops at anything else ends in front of it. -/
theorem nextToken_extended_fault {boundary : Boundary}
    (hread : Word.readExtended text =
      .fault (.unterminatedExtendedIdentifier boundary) (1 + word.length)) :
    let n := word.length + 1
    lexer.nextToken =
      (.error ⟨.unterminatedExtendedIdentifier boundary, lexer.cursor.place.position n⟩,
        lexer.skip n) ∧
    (lexer.skip n).cursor.rest = after := by
  intro n
  have hn : 1 + word.length = n := Nat.add_comm 1 word.length
  have hfront := Front.read_backtick text
  rw [hread] at hfront
  have hnext := nextToken_of_front hrest hfront
  rw [← hn]
  exact ⟨hnext, rest_skip_extended hrest h⟩

end

/-! ### Number signs in front of anything else -/

theorem nextToken_mark_fault {text : List Char} (hrest : lexer.cursor.rest = '#' :: text)
    (h : ∀ c ∈ text.head?, Quoted.isQuote c = false ∧ c.isAlpha = false) :
    let place := lexer.cursor.place
    lexer.nextToken = (.error ⟨.invalidAtomStart, ⟨place.row, place.col, 1⟩⟩, lexer.skip 1) ∧
    (lexer.skip 1).cursor.rest = text := by
  intro place
  have hread : Word.readMarked text = .fault .invalidAtomStart 1 := by
    cases text with
    | nil => rfl
    | cons c rest =>
      obtain ⟨hquote, halpha⟩ := h c rfl
      rw [Word.readMarked, hquote, halpha]
      rfl
  have hfront : Front.read '#' text = .fault .invalidAtomStart 1 := by
    rw [Front.read_number_sign, hread]
    rfl
  exact ⟨nextToken_of_fault hrest hfront (by decide), @rest_skip_of_length _ ['#'] text 1 hrest rfl⟩

/-- A verbatim string is the text up to the first quote of its kind, line breaks and backslashes included, and
without such a quote it is an error of all the text that is left. A name between backticks, which is never a
keyword and may be empty, is the text up to the first backtick; where a line break or the end of the text comes
first it is an error up to there. A number sign that neither a quote nor a letter follows is an error of its
own. -/
theorem nextToken_verbatim (lexer : Lexer) :
    let place := lexer.cursor.place
    (∀ quote text, Quoted.isQuote quote = true → lexer.cursor.rest = '#' :: quote :: text →
      (quote ∈ text → ∃ content after, text = content ++ quote :: after ∧ quote ∉ content) ∧
      (∀ content after, text = content ++ quote :: after → quote ∉ content →
        let n := content.length + 3
        lexer.nextToken = (.ok ⟨.ofValue .string content, place.position n⟩, lexer.skip n) ∧
        (lexer.skip n).cursor.rest = after) ∧
      (quote ∉ text →
        let n := lexer.cursor.rest.length
        lexer.nextToken = (.error ⟨.unterminatedString, place.position n⟩, lexer.skip n) ∧
        (lexer.skip n).cursor.rest = [])) ∧
    (∀ text, lexer.cursor.rest = '\x60' :: text →
      (∃ word after, IsCut Word.IsStop text word after) ∧
      ∀ word after, IsCut Word.IsStop text word after →
        let n := word.length + 1
        (∀ behind, after = '\x60' :: behind →
          lexer.nextToken =
            (.ok ⟨.ofValue .ident word, place.position (n + 1)⟩, lexer.skip (n + 1)) ∧
          (lexer.skip (n + 1)).cursor.rest = behind) ∧
        (∀ c behind, after = c :: behind → isLineEnd c = true →
          lexer.nextToken =
            (.error ⟨.unterminatedExtendedIdentifier .lineEnd, place.position n⟩, lexer.skip n) ∧
          (lexer.skip n).cursor.rest = after) ∧
        (after = [] →
          lexer.nextToken =
            (.error ⟨.unterminatedExtendedIdentifier .fileEnd, place.position n⟩, lexer.skip n) ∧
          (lexer.skip n).cursor.rest = [])) ∧
    ∀ text, lexer.cursor.rest = '#' :: text →
      (∀ c ∈ text.head?, Quoted.isQuote c = false ∧ c.isAlpha = false) →
      lexer.nextToken = (.error ⟨.invalidAtomStart, ⟨place.row, place.col, 1⟩⟩, lexer.skip 1) ∧
      (lexer.skip 1).cursor.rest = text := by
  intro place
  refine ⟨?_, ?_, fun _ => nextToken_mark_fault⟩
  · intro quote text hquote hrest
    refine ⟨List.eq_append_cons_of_mem, ?_, nextToken_raw_open hquote hrest⟩
    rintro content after rfl hcontent
    exact nextToken_raw_closed hquote hrest hcontent
  · intro text hrest
    refine ⟨exists_isCut Word.IsStop text, ?_⟩
    intro word after h n
    refine ⟨fun _ => nextToken_extended_closed hrest h, ?_, ?_⟩
    · rintro c behind rfl hc
      exact nextToken_extended_fault hrest h (Word.readExtended_line_end h hc)
    · rintro rfl
      exact nextToken_extended_fault hrest h (Word.readExtended_file_end h)

/-- Backslashes and line breaks stand in a verbatim string, a keyword between backticks is a name, and a name
breaks off in front of a carriage return. -/
theorem nextToken_verbatim_kept :
    let raw := ofSource .standard "#'\\\n\"'x"
    let name := ofSource .standard "\x60if\x60x"
    let broken := ofSource .standard "\x60a\r\x60"
    let mark := ofSource .standard "#_"
    raw.nextToken = (.ok ⟨⟨.value .string, "\\\n\""⟩, ⟨1, 1, 6⟩⟩, ⟨.standard, ⟨['x'], ⟨2, 3⟩⟩, false⟩) ∧
    name.nextToken = (.ok ⟨⟨.value .ident, "if"⟩, ⟨1, 1, 4⟩⟩, ⟨.standard, ⟨['x'], ⟨1, 5⟩⟩, false⟩) ∧
    IsCut Word.IsStop "a\r\x60".toList ['a'] ['\r', '\x60'] ∧
    broken.nextToken =
      (.error ⟨.unterminatedExtendedIdentifier .lineEnd, ⟨1, 1, 2⟩⟩,
        ⟨.standard, ⟨['\r', '\x60'], ⟨1, 3⟩⟩, false⟩) ∧
    mark.nextToken =
      (.error ⟨.invalidAtomStart, ⟨1, 1, 1⟩⟩, ⟨.standard, ⟨['_'], ⟨1, 2⟩⟩, false⟩) := by
  intro raw name broken mark
  have hname : IsCut Word.IsStop "if\x60x".toList ['i', 'f'] ['\x60', 'x'] :=
    ⟨rfl, by simp [Word.IsStop, isLineEnd], by rintro _ ⟨⟩; simp [Word.IsStop, isLineEnd]⟩
  have hbroken : IsCut Word.IsStop "a\r\x60".toList ['a'] ['\r', '\x60'] :=
    ⟨rfl, by simp [Word.IsStop, isLineEnd], by rintro _ ⟨⟩; simp [Word.IsStop, isLineEnd]⟩
  obtain ⟨hstring, -, -⟩ := nextToken_verbatim raw
  obtain ⟨-, hclosed, -⟩ := hstring '\x27' "\\\n\"'x".toList rfl rfl
  have hraw : raw.nextToken = (.ok ⟨_, raw.cursor.place.position 6⟩, raw.skip 6) :=
    (hclosed "\\\n\"".toList ['x'] rfl (by decide)).1
  obtain ⟨-, hextended, -⟩ := nextToken_verbatim name
  obtain ⟨-, hall⟩ := hextended "if\x60x".toList rfl
  have hclosed : name.nextToken = (.ok ⟨_, name.cursor.place.position 4⟩, name.skip 4) :=
    ((hall _ _ hname).1 ['x'] rfl).1
  obtain ⟨-, hextended, -⟩ := nextToken_verbatim broken
  obtain ⟨-, hall⟩ := hextended "a\r\x60".toList rfl
  have hbreak : broken.nextToken = (.error ⟨_, broken.cursor.place.position 2⟩, broken.skip 2) :=
    ((hall _ _ hbroken).2.1 '\r' ['\x60'] rfl rfl).1
  obtain ⟨-, -, hmark⟩ := nextToken_verbatim mark
  obtain ⟨hfault, -⟩ := hmark ['_'] rfl (by rintro _ ⟨⟩; decide)
  refine ⟨?_, ?_, hbroken, ?_, ?_⟩
  · rw [hraw, Place.position_of_le (by decide)]
    rfl
  · rw [hclosed, Place.position_of_le (by decide)]
    rfl
  · rw [hbreak, Place.position_of_le (by decide)]
    rfl
  · rw [hfault]
    rfl

end Lexer

end Lexis
