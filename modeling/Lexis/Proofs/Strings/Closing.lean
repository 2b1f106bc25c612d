import Lexis.Proofs.Escape.Forms
import Lexis.Proofs.Segments

/-!
# Which quote closes a string

A string ends at the first quote of its kind that does not stand right behind a backslash, whatever escapes,
malformed ones too, stand in front of it. Where there is no such quote the string is never closed and takes up
the rest of the text. Main statement: `Lexer.nextToken_closing`.
-/

namespace Lexis

open Text

namespace Quoted

/-- Every quote in the text stands right behind a backslash, so none of them closes a string. -/
def IsOpen (quote : Char) (text : List Char) : Prop :=
  ∀ front back, text = front ++ quote :: back → front.getLast? = some '\\'

/-- What an escape takes up in front of `back`: no quote in it closes the string, and it does not end with a
backslash that the quote at the front of `back` stands behind. -/
structure Chunk (quote : Char) (chunk back : List Char) : Prop where
  isOpen : IsOpen quote chunk
  last : back.head? = some quote → chunk.getLast? ≠ some '\\'

theorem isOpen_iff {quote : Char} {text : List Char} :
    IsOpen quote text ↔
      ∀ n < text.length, text[n]? = some quote → (text.take n).getLast? = some '\\' := by
  constructor
  · intro h n hn hquote
    apply h (text.take n) (text.drop (n + 1))
    obtain ⟨_, rfl⟩ := List.getElem?_eq_some_iff.1 hquote
    rw [List.cons_getElem_drop_succ, List.take_append_drop]
  · rintro h front back rfl
    simpa using h front.length (by simp) (by simp)

instance (quote : Char) (text : List Char) : Decidable (IsOpen quote text) :=
  decidable_of_iff _ isOpen_iff.symm

theorem isOpen_of_not_mem {quote : Char} {text : List Char} (h : quote ∉ text) :
    IsOpen quote text := by
  rintro front back rfl
  simp at h

theorem not_isOpen_quote {quote : Char} (text : List Char) : ¬ IsOpen quote (quote :: text) := by
  intro h
  cases h [] text rfl

/-- A text behind another one is open as long as no quote at its front loses the backslash in front of it. -/
theorem IsOpen.of_append {quote : Char} {chunk text : List Char} (h : IsOpen quote (chunk ++ text))
    (hlast : text.head? = some quote → chunk.getLast? ≠ some '\\') : IsOpen quote text := by
  rintro front back rfl
  have hbehind := h (chunk ++ front) back (by rw [List.append_assoc])
  cases front with
  | nil =>
    rw [List.append_nil] at hbehind
    exact absurd hbehind (hlast rfl)
  | cons c front =>
    rwa [List.getLast?_append_of_ne_nil _ (List.cons_ne_nil c front)] at hbehind

namespace Chunk

variable {quote : Char} {chunk back : List Char}

theorem singleton {c : Char} (hclose : c ≠ quote) (hback : c ≠ '\\') (back : List Char) :
    Chunk quote [c] back where
  isOpen := isOpen_of_not_mem (by simpa using hclose.symm)
  last _ := by simpa using hback

/-- A closing quote of the whole text is one of the text behind the chunk. -/
theorem split (h : Chunk quote chunk back) {front after : List Char}
    (htext : chunk ++ back = front ++ quote :: after) (hopen : IsOpen quote front)
    (hlast : front.getLast? ≠ some '\\') :
    ∃ more, front = chunk ++ more ∧ back = more ++ quote :: after ∧ IsOpen quote more ∧
      more.getLast? ≠ some '\\' := by
  obtain ⟨more, rfl, rfl⟩ : ∃ more, front = chunk ++ more ∧ back = more ++ quote :: after := by
    rcases List.append_eq_append_iff.1 htext with ⟨more, hfront, hback⟩ | ⟨more, hchunk, hafter⟩
    · exact ⟨more, hfront, hback⟩
    · cases more with
      | nil => exact ⟨[], by simpa using hchunk.symm, hafter.symm⟩
      | cons c more =>
        -- The closing quote cannot stand inside the chunk.
        obtain ⟨rfl, -⟩ := List.cons.inj hafter
        exact absurd (h.isOpen front more hchunk) hlast
  refine ⟨more, rfl, rfl, hopen.of_append ?_, ?_⟩
  · intro hhead
    apply h.last
    rw [List.head?_append, hhead]
    rfl
  · cases more with
    | nil => simp
    | cons c more => rwa [List.getLast?_append_of_ne_nil _ (List.cons_ne_nil c more)] at hlast

end Chunk

/-! ### Escapes -/

/-- An escape whose characters behind the backslash hold no quote and end with another character than a
backslash. -/
theorem chunk_of_not_mem {quote : Char} (hquote : quote ≠ '\\') {chars : List Char}
    (hmem : quote ∉ chars) (hlast : ∃ c ∈ chars.getLast?, c ≠ '\\') (back : List Char) :
    Chunk quote ('\\' :: chars) back where
  isOpen := isOpen_of_not_mem (by simp [hquote, hmem])
  last _ := by
    obtain ⟨c, hc, hne⟩ := hlast
    rw [Option.mem_def] at hc
    simp [List.getLast?_cons, hc, hne]

theorem chunk_letter {quote c : Char} (hquote : quote ≠ '\\') (hback : c ≠ '\\') (back : List Char) :
    Chunk quote ['\\', c] back where
  isOpen := by
    intro front after htext
    match front with
    | [] => exact absurd (List.cons.inj htext).1.symm hquote
    | [d] => rw [← (List.cons.inj htext).1]; rfl
    | d :: e :: front => simp at htext
  last _ := by simpa using hback

/-- A lone backslash is no escape of the quote, since that would be read as one. -/
theorem chunk_lone {quote : Char} (hquote : quote ≠ '\\') {back : List Char}
    (hback : back.head? ≠ some quote) : Chunk quote ['\\'] back where
  isOpen := isOpen_of_not_mem (by simpa using hquote)
  last hhead := absurd hhead hback

theorem eq_of_isQuote {c : Char} (h : isQuote c = true) : c = '\x22' ∨ c = '\x27' := by
  simpa [isQuote] using h

/-- No escape, malformed ones too, reaches over a closing quote or ends with a backslash in front of one. -/
theorem chunk_escape {quote : Char} (hquote : isQuote quote = true) (text : List Char) :
    Chunk quote ('\\' :: text.take ((Escape.read text).length - 1))
      (text.drop ((Escape.read text).length - 1)) := by
  have hback : quote ≠ '\\' := ne_of_class hquote rfl
  obtain ⟨hblank, hinner, hletter⟩ : isBlank quote = false ∧ Escape.isInner quote = false ∧
      Escape.letter? quote ≠ none := by
    rcases eq_of_isQuote hquote with rfl | rfl
    · decide
    · decide
  cases text with
  | nil => exact chunk_lone hback (by simp)
  | cons c rest =>
    cases hc : Escape.letter? c with
    | some decoded =>
      rw [Escape.read_letter hc]
      refine chunk_letter hback ?_ rest
      rintro rfl
      cases hc
    | none =>
      by_cases hline : c = '\n' ∨ (c = '\r' ∧ rest.head? = some '\n')
      · -- All that is skipped is white space, and the quote is none.
        have hall : ∀ d ∈ c :: rest.takeWhile isBlank, isBlank d = true := by
          intro d hd
          rcases List.mem_cons.1 hd with rfl | hd
          · rcases hline with rfl | ⟨rfl, -⟩
            · decide
            · decide
          · exact List.mem_takeWhile_imp hd
        rw [Escape.read_break hline,
          show 2 + (rest.takeWhile isBlank).length - 1 = (rest.takeWhile isBlank).length + 1 by omega,
          List.take_succ_cons, take_length_takeWhile]
        refine chunk_of_not_mem hback ?_ ?_ _
        · intro hmem
          rw [hall quote hmem] at hblank
          cases hblank
        · have hne := List.cons_ne_nil c (rest.takeWhile isBlank)
          refine ⟨_, List.getLast?_eq_some_getLast hne, ?_⟩
          exact ne_of_class (hall _ (List.getLast_mem hne)) (by decide)
      · by_cases hmark : c = 'u'
        · subst hmark
          cases hunicode : Escape.unicode? rest with
          | none =>
            rw [Escape.read_mark hunicode]
            exact chunk_letter hback (by decide) rest
          | some piece =>
            obtain ⟨d, hd, hne⟩ := Escape.last_of_unicode? hunicode
            rw [Option.mem_def] at hd
            rw [Escape.read_unicode hunicode,
              show 2 + piece.length - 1 = piece.length + 1 by omega]
            refine chunk_of_not_mem hback ?_ ⟨d, by simp [List.getLast?_cons, hd], hne⟩ _
            intro hmem
            rcases List.mem_cons.1 hmem with rfl | hmem
            · cases hinner
            · rw [Escape.isInner_of_unicode? hunicode quote hmem] at hinner
              cases hinner
        · rw [Escape.read_other hc hline hmark]
          refine chunk_lone hback ?_
          rintro ⟨⟩
          exact hletter hc

/-! ### The closing quote -/

variable {quote : Char} (hquote : isQuote quote = true)

include hquote

/-- A text without a closing quote is read to its end. -/
theorem read_of_isOpen {text : List Char} (h : IsOpen quote text) :
    read quote text = .fault .unterminatedString text.length := by
  fun_induction read quote text with
  | case1 => rfl
  | case2 rest escape ih =>
    have hone : 1 ≤ escape.length := Escape.one_le_length_read rest
    have hle : escape.length ≤ rest.length + 1 := Escape.length_read_le rest
    have hchunk := chunk_escape hquote rest
    rw [← List.take_append_drop (escape.length - 1) rest, ← List.cons_append] at h
    rw [ih (h.of_append hchunk.last), Reading.cons_fault, List.length_drop, List.length_cons]
    congr 1
    omega
  | case3 rest => exact absurd h (not_isOpen_quote rest)
  | case4 c rest hback hclose ih =>
    have hchunk := Chunk.singleton hclose hback rest
    rw [ih (@IsOpen.of_append _ [c] rest h hchunk.last), Reading.cons_fault, List.length_cons]
    exact congrArg _ (Nat.add_comm 1 _)

/-- A text with a closing quote is read right behind the first one. -/
theorem read_of_closing (text : List Char) :
    ∀ {front after : List Char}, text = front ++ quote :: after → IsOpen quote front →
      front.getLast? ≠ some '\\' → ∃ content, read quote text = .found content (front.length + 1) := by
  fun_induction read quote text with
  | case1 =>
    intro front after htext
    simp at htext
  | case2 rest escape =>
    rename_i ih
    intro front after htext hopen hlast
    have hone : 1 ≤ escape.length := Escape.one_le_length_read rest
    have hle : escape.length ≤ rest.length + 1 := Escape.length_read_le rest
    have hchunk : Chunk quote ('\\' :: rest.take (escape.length - 1))
        (rest.drop (escape.length - 1)) := chunk_escape hquote rest
    have hsplit : '\\' :: rest.take (escape.length - 1) ++ rest.drop (escape.length - 1) =
        front ++ quote :: after := by
      rw [List.cons_append, List.take_append_drop, htext]
    obtain ⟨more, rfl, hmore, hmoreOpen, hmoreLast⟩ := hchunk.split hsplit hopen hlast
    obtain ⟨content, hread⟩ := ih hmore hmoreOpen hmoreLast
    refine ⟨escape.text ++ content, ?_⟩
    rw [hread, Reading.cons_found, List.length_append, List.length_cons,
      List.length_take_of_le (by omega)]
    congr 1
    omega
  | case3 rest =>
    intro front after htext hopen _
    cases front with
    | nil => exact ⟨[], rfl⟩
    | cons c front =>
      obtain ⟨rfl, -⟩ := List.cons.inj htext
      exact absurd hopen (not_isOpen_quote front)
  | case4 c rest hback hclose ih =>
    intro front after htext hopen hlast
    obtain ⟨more, rfl, hmore, hmoreOpen, hmoreLast⟩ :=
      (Chunk.singleton hclose hback rest).split htext hopen hlast
    obtain ⟨content, hread⟩ := ih hmore hmoreOpen hmoreLast
    refine ⟨c :: content, ?_⟩
    rw [hread, Reading.cons_found]
    congr 1
    exact Nat.add_comm 1 _

omit hquote in
/-- Where some quote closes a string, there is a first one. -/
theorem exists_first_closing {text : List Char} (h : ¬ IsOpen quote text) :
    ∃ front after, text = front ++ quote :: after ∧ IsOpen quote front ∧
      front.getLast? ≠ some '\\' := by
  induction hn : text.length using Nat.strong_induction_on generalizing text with
  | _ n ih =>
    unfold IsOpen at h
    push Not at h
    obtain ⟨front, after, rfl, hlast⟩ := h
    by_cases hopen : IsOpen quote front
    · exact ⟨front, after, rfl, hopen, hlast⟩
    · obtain ⟨first, more, rfl, hfirst⟩ := ih front.length (by rw [← hn]; simp) hopen rfl
      exact ⟨first, more ++ quote :: after, by simp, hfirst⟩

end Quoted

namespace Lexer

open Quoted

section

variable {lexer : Lexer} {quote : Char} (hquote : isQuote quote = true) {text : List Char}
  (hrest : lexer.cursor.rest = quote :: text)

include hquote hrest

/-- A string that is closed is the next token. -/
theorem nextToken_string {content : List Char} {n : Nat} (hread : read quote text = .found content n)
    (hn : n + 1 ≤ ceiling) :
    lexer.nextToken =
      (.ok ⟨.ofValue .string content, ⟨lexer.cursor.place.row, lexer.cursor.place.col, n + 1⟩⟩,
        lexer.skip (n + 1)) := by
  apply nextToken_of_found hrest _ hn
  rw [Front.read_quote hquote, hread, Nat.add_comm n 1]
  rfl

theorem nextToken_unterminated {n : Nat} (hread : read quote text = .fault .unterminatedString n)
    (hn : n + 1 ≤ ceiling) :
    lexer.nextToken =
      (.error ⟨.unterminatedString, ⟨lexer.cursor.place.row, lexer.cursor.place.col, n + 1⟩⟩,
        lexer.skip (n + 1)) := by
  apply nextToken_of_fault hrest _ hn
  rw [Front.read_quote hquote, hread, Nat.add_comm n 1]
  rfl

omit hquote in
/-- The rest of the text behind a closing quote. -/
theorem rest_skip_string {front after : List Char} (htext : text = front ++ quote :: after) :
    (lexer.skip (front.length + 2)).cursor.rest = after := by
  rw [skip, Cursor.rest_skip, hrest, htext, List.drop_succ_cons, ← List.drop_drop, List.drop_left]
  rfl

end

/-- A string is read exactly when some quote of its kind does not stand right behind a backslash, and it ends
right behind the first such quote. Otherwise it is never closed, and the error takes up the rest of the text. -/
theorem nextToken_closing {lexer : Lexer} {quote : Char} (hquote : isQuote quote = true)
    {text : List Char} (hrest : lexer.cursor.rest = quote :: text)
    (hlength : text.length + 1 ≤ ceiling) :
    let place := lexer.cursor.place
    ((∃ token, lexer.nextToken.1 = .ok token) ↔
      ∃ front after, text = front ++ quote :: after ∧ front.getLast? ≠ some '\\') ∧
    (∀ front after, text = front ++ quote :: after → front.getLast? ≠ some '\\' →
      IsOpen quote front →
      ∃ content, lexer.nextToken =
        (.ok ⟨.ofValue .string content, ⟨place.row, place.col, front.length + 2⟩⟩,
          lexer.skip (front.length + 2)) ∧
        (lexer.skip (front.length + 2)).cursor.rest = after) ∧
    (IsOpen quote text →
      lexer.nextToken =
        (.error ⟨.unterminatedString, ⟨place.row, place.col, text.length + 1⟩⟩,
          lexer.skip (text.length + 1)) ∧
        (lexer.skip (text.length + 1)).cursor.rest = []) := by
  intro place
  have hclosed : ∀ front after, text = front ++ quote :: after → front.getLast? ≠ some '\\' →
      IsOpen quote front →
      ∃ content, lexer.nextToken =
        (.ok ⟨.ofValue .string content, ⟨place.row, place.col, front.length + 2⟩⟩,
          lexer.skip (front.length + 2)) ∧
        (lexer.skip (front.length + 2)).cursor.rest = after := by
    intro front after htext hlast hopen
    obtain ⟨content, hread⟩ := read_of_closing hquote text htext hopen hlast
    rw [htext, List.length_append, List.length_cons] at hlength
    exact ⟨content, nextToken_string hquote hrest hread (by omega), rest_skip_string hrest htext⟩
  have hopen : IsOpen quote text →
      lexer.nextToken =
        (.error ⟨.unterminatedString, ⟨place.row, place.col, text.length + 1⟩⟩,
          lexer.skip (text.length + 1)) ∧
        (lexer.skip (text.length + 1)).cursor.rest = [] := by
    intro h
    refine ⟨nextToken_unterminated hquote hrest (read_of_isOpen hquote h) hlength, ?_⟩
    rw [skip, Cursor.rest_skip, hrest, List.drop_succ_cons, List.drop_length]
  refine ⟨⟨?_, ?_⟩, hclosed, hopen⟩
  · rintro ⟨token, htoken⟩
    by_contra hnone
    have hall : IsOpen quote text := by
      intro front after htext
      by_contra hlast
      exact hnone ⟨front, after, htext, hlast⟩
    rw [(hopen hall).1] at htoken
    cases htoken
  · rintro ⟨front, after, htext, hlast⟩
    obtain ⟨first, more, hfirst, hfirstOpen, hfirstLast⟩ :=
      exists_first_closing fun hall => hlast (hall front after htext)
    obtain ⟨content, hnext, -⟩ := hclosed first more hfirst hfirstLast hfirstOpen
    exact ⟨_, congrArg Prod.fst hnext⟩

/-- Two backslashes do not free the quote behind them, and neither does a malformed unicode escape. -/
theorem nextToken_closing_double_backslash :
    let lexer := ofSource .standard "'\\\\' \\uD83D\\u'y"
    let front := "\\\\' \\uD83D\\u".toList
    isQuote '\x27' = true ∧ lexer.cursor.rest = '\x27' :: (front ++ '\x27' :: ['y']) ∧
    (front ++ '\x27' :: ['y']).length + 1 ≤ ceiling ∧ IsOpen '\x27' front ∧
    front.getLast? ≠ some '\\' ∧
    ∃ content, lexer.nextToken =
      (.ok ⟨.ofValue .string content, ⟨1, 1, 14⟩⟩, lexer.skip 14) := by
  intro lexer front
  have hquote : isQuote '\x27' = true := by decide
  have hrest : lexer.cursor.rest = '\x27' :: (front ++ '\x27' :: ['y']) := by decide
  have hlength : (front ++ '\x27' :: ['y']).length + 1 ≤ ceiling := by decide
  have hopen : IsOpen '\x27' front := by decide
  have hlast : front.getLast? ≠ some '\\' := by decide
  obtain ⟨-, hclosed, -⟩ := nextToken_closing hquote hrest hlength
  obtain ⟨content, hnext, -⟩ := hclosed front ['y'] rfl hlast hopen
  exact ⟨hquote, hrest, hlength, hopen, hlast, content, hnext⟩

end Lexer

end Lexis
