import Lexis.Proofs.Escape.Forms
import Lexis.Proofs.LineEnds.Text
import Lexis.Proofs.Lookahead.Quoted

/-!
# Strings with carriage returns

A line break behind a backslash leaves nothing in a string, with a carriage return or without one, and no
other escape reaches over a line feed. So a string keeps its text as long as every line feed in it stands
behind a backslash; in any case it closes where it did.
-/

namespace Lexis

open Text

/-! ### Escapes -/

namespace Text.CodeUnit

/-- Only digits are looked at. -/
theorem read?_takeWhile (text : List Char) :
    read? (text.takeWhile fun c => (hexDigit? c).isSome) = read? text := by
  match text with
  | a :: b :: c :: d :: rest =>
    simp only [List.takeWhile_cons]
    cases ha : hexDigit? a with
    | none => simp [read?, ha]
    | some _ =>
      cases hb : hexDigit? b with
      | none => simp [read?, hb]
      | some _ =>
        cases hc : hexDigit? c with
        | none => simp [read?, hc]
        | some _ =>
          cases hd : hexDigit? d with
          | none => simp [read?, hd]
          | some _ => simp [read?, ha, hb, hc, hd]
  | [] | [_] | [_, _] | [_, _, _] =>
    cases h : read? (List.takeWhile _ _) with
    | none => rfl
    | some unit =>
      have hfour := four_le_length h
      have hle := (List.takeWhile_sublist (fun c => (hexDigit? c).isSome)).length_le.trans' hfour
      simp at hle

theorem read?_crlf (text : List Char) : read? (crlf text) = read? text := by
  rw [← read?_takeWhile, takeWhile_crlf_of_stop (by decide) (by decide), read?_takeWhile]

end Text.CodeUnit

namespace Escape

theorem unit?_crlf (text : List Char) : unit? (crlf text) = unit? text := by
  unfold unit?
  dsimp only
  rw [takeWhile_crlf_of_stop (by decide) (by decide), drop_crlf_takeWhile (by decide),
    CodeUnit.read?_crlf]

theorem not_mem_of_inner {text : List Char} (h : ∀ c ∈ text, isInner c = true) : '\n' ∉ text :=
  fun hmem => absurd (h _ hmem) (by decide)

theorem unicode?_crlf (text : List Char) : unicode? (crlf text) = unicode? text := by
  simp only [unicode?, unit?_crlf, Option.bind_eq_bind]
  cases hfirst : unit? text with
  | none => rfl
  | some found =>
    obtain ⟨unit, n⟩ := found
    simp only [Option.bind_some]
    cases CodeUnit.char? unit with
    | some c => rfl
    | none =>
      have hfree := crlf_of_not_mem (not_mem_of_inner (isInner_of_unit? hfirst))
      have hdrop := drop_crlf text n
      rw [hfree, List.length_take_of_le (length_unit?_le hfirst)] at hdrop
      rw [hdrop]
      cases text.drop n with
      | nil => rfl
      | cons d more =>
        by_cases hback : d = '\\'
        · subst hback
          rw [crlf_cons (by decide)]
          cases more with
          | nil => rfl
          | cons e more =>
            by_cases hmark : e = 'u'
            · subst hmark
              rw [crlf_cons (by decide)]
              simp only [unit?_crlf]
            · by_cases hline : e = '\n'
              · subst hline
                rfl
              · rw [crlf_cons hline]
                simp [hmark]
        · by_cases hline : d = '\n'
          · subst hline
            rfl
          · rw [crlf_cons hline]
            simp [hback]

theorem not_mem_of_unicode? {text : List Char} {piece : Piece} (h : unicode? text = some piece) :
    '\n' ∉ text.take piece.length :=
  not_mem_of_inner (isInner_of_unicode? h)

section

variable {text : List Char} (hreturn : '\r' ∉ text)

include hreturn

/-- An escape stands for the same text, and takes up what its characters become. -/
theorem read_crlf : (read (crlf text)).text = (read text).text ∧
    (read (crlf text)).length - 1 = (crlf (text.take ((read text).length - 1))).length := by
  cases text with
  | nil => exact ⟨rfl, rfl⟩
  | cons c rest =>
    by_cases hline : c = '\n'
    · subst hline
      have hblanks := takeWhile_crlf (show isBlank '\r' = isBlank '\n' by decide) rest
      rw [crlf_line, read_return_line, read_line]
      refine ⟨rfl, ?_⟩
      rw [show 2 + (rest.takeWhile isBlank).length - 1 = (rest.takeWhile isBlank).length + 1 by omega,
        List.take_succ_cons, take_length_takeWhile, crlf_line,
        List.takeWhile_cons_of_pos (by decide), hblanks]
      simp only [List.length_cons]
      omega
    · rw [crlf_cons hline]
      cases hletter : letter? c with
      | some decoded =>
        rw [read_letter hletter, read_letter hletter]
        refine ⟨rfl, ?_⟩
        rw [show 2 - 1 = 1 from rfl, crlf_take_one hline]
        rfl
      | none =>
        by_cases hmark : c = 'u'
        · subst hmark
          have hsame := unicode?_crlf rest
          cases hunicode : unicode? rest with
          | none =>
            rw [hunicode] at hsame
            rw [read_mark hunicode, read_mark hsame]
            exact ⟨rfl, rfl⟩
          | some piece =>
            rw [hunicode] at hsame
            rw [read_unicode hunicode, read_unicode hsame]
            refine ⟨rfl, ?_⟩
            rw [show 2 + piece.length - 1 = piece.length + 1 by omega, List.take_succ_cons, crlf_cons hline,
              crlf_of_not_mem (not_mem_of_unicode? hunicode), List.length_cons,
              List.length_take_of_le (length_unicode?_le hunicode)]
        · have hother : c ≠ '\r' := by
            rintro rfl
            exact hreturn List.mem_cons_self
          rw [read_other hletter (by simp [hline, hother]) hmark,
            read_other hletter (by simp [hline, hother]) hmark]
          exact ⟨rfl, rfl⟩

theorem length_read_crlf : (read (crlf text)).length =
    (crlf (('\\' :: text).take (read text).length)).length := by
  have hone := one_le_length_read text
  have hcrlf := one_le_length_read (crlf text)
  have hlength := (read_crlf hreturn).2
  obtain ⟨k, hk⟩ := Nat.exists_eq_add_of_le' hone
  rw [hk, Nat.add_sub_cancel] at hlength
  rw [hk, List.take_succ_cons, crlf_cons (by decide), List.length_cons, ← hlength]
  omega

theorem drop_read_crlf : (crlf text).drop ((read (crlf text)).length - 1) =
    crlf (text.drop ((read text).length - 1)) := by
  rw [(read_crlf hreturn).2, drop_crlf]

/-- An escape in front carries over with the reading behind it. -/
theorem carried_cons {R S : List Char → List Char → Prop} {reading other : Reading (List Char)}
    (h : reading.Carried R (text.drop ((read text).length - 1)) other)
    (hR : ∀ s t, R s t → S ((read text).text ++ s) ((read text).text ++ t)) :
    (reading.cons (read text)).Carried S ('\\' :: text) (other.cons (read (crlf text))) := by
  rw [← drop_cons_read '\\'] at h
  refine h.cons (length_read_crlf hreturn) ?_
  rw [(read_crlf hreturn).1]
  exact hR

/-- A line feed right behind an escape does not follow a backslash. -/
theorem last_of_read (h : '\n' ∈ (text.drop ((read text).length - 1)).head?) :
    ∃ c ∈ (text.take ((read text).length - 1)).getLast?, c ≠ '\\' := by
  cases text with
  | nil => cases h
  | cons c rest =>
    by_cases hline : c = '\n'
    · subst hline
      rw [read_line,
        show 2 + (rest.takeWhile isBlank).length - 1 = (rest.takeWhile isBlank).length + 1 by omega,
        List.drop_succ_cons] at h
      cases stop_of_takeWhile isBlank rest '\n' h
    · cases hletter : letter? c with
      | some decoded =>
        rw [read_letter hletter]
        refine ⟨c, rfl, ?_⟩
        rintro rfl
        cases hletter
      | none =>
        by_cases hmark : c = 'u'
        · subst hmark
          cases hunicode : unicode? rest with
          | none =>
            rw [read_mark hunicode]
            exact ⟨'u', rfl, by decide⟩
          | some piece =>
            obtain ⟨d, hd, hne⟩ := last_of_unicode? hunicode
            refine ⟨d, ?_, hne⟩
            rw [Option.mem_def] at hd
            rw [read_unicode hunicode, show 2 + piece.length - 1 = piece.length + 1 by omega,
              List.take_succ_cons, List.getLast?_cons, hd]
            rfl
        · have hother : c ≠ '\r' := by
            rintro rfl
            exact hreturn List.mem_cons_self
          rw [read_other hletter (by simp [hline, hother]) hmark] at h
          cases h
          exact absurd rfl hline

end

end Escape

/-! ### Quoted strings -/

namespace Quoted

/-- Only a backslash may have a line feed behind it, so another character can take the place of any
character that is none. -/
theorem isChain_of_ne {c : Char} {text : List Char} (h : (c :: text).IsChain BehindEscape)
    (hne : c ≠ '\\') (d : Char) : (d :: text).IsChain BehindEscape := by
  rw [List.isChain_cons] at h ⊢
  exact ⟨fun e he hline => absurd (h.1 e he hline) hne, h.2⟩

theorem isChain_of_not_mem {text : List Char} (h : '\n' ∉ text) : text.IsChain BehindEscape := by
  induction text with
  | nil => exact .nil
  | cons c rest ih =>
    rw [List.mem_cons, not_or] at h
    refine List.isChain_cons.2 ⟨?_, ih h.2⟩
    rintro d hd rfl
    exact absurd (List.mem_of_mem_head? hd) h.2

theorem isChain_behind_escape {text : List Char} (hreturn : '\r' ∉ text) {n : Nat}
    (h : ('\\' :: text.take ((Escape.read text).length - 1 + n)).IsChain BehindEscape) (d : Char) :
    (d :: (text.drop ((Escape.read text).length - 1)).take n).IsChain BehindEscape := by
  rw [List.take_add, ← List.cons_append, List.isChain_append] at h
  refine List.isChain_cons.2 ⟨?_, h.2.1⟩
  rintro e he rfl
  have hhead : '\n' ∈ (text.drop ((Escape.read text).length - 1)).head? := by
    rw [List.head?_take] at he
    split at he
    · cases he
    · exact he
  obtain ⟨c, hc, hne⟩ := Escape.last_of_read hreturn hhead
  rw [Option.mem_def] at hc
  refine absurd (h.2.2 c ?_ _ he rfl) hne
  rw [List.getLast?_cons, hc]
  rfl

/-- A string closes where it did, and keeps its text if every line feed in it is behind a backslash. -/
theorem carried_read {quote : Char} (hquote : isQuote quote = true) {text : List Char}
    (hreturn : '\r' ∉ text) :
    (read quote text).Carried
      (fun s t => (quote :: text.take (read quote text).length).IsChain BehindEscape → t = s) text
      (read quote (crlf text)) := by
  have hback : quote ≠ '\\' := ne_of_class hquote rfl
  have hline : quote ≠ '\n' := ne_of_class hquote rfl
  have hother : '\r' ≠ quote := (ne_of_class hquote rfl).symm
  -- The quote stands for what was read so far: neither ends with a backslash that escapes what comes next.
  fun_induction read quote text with
  | case1 =>
    rw [crlf_nil, read]
    exact .fault rfl
  | case2 rest escape ih =>
    have hrest : '\r' ∉ rest := List.not_mem_of_not_mem_cons hreturn
    rw [crlf_cons (by decide), read_escape, Escape.drop_read_crlf hrest]
    refine Escape.carried_cons hrest (ih fun hmem => hrest (List.mem_of_mem_drop hmem)) ?_
    intro s t htext hchain
    rw [Reading.length_cons, Escape.take_cons_read, List.isChain_cons] at hchain
    rw [htext (isChain_behind_escape hrest hchain.2 quote)]
  | case3 rest =>
    rw [crlf_cons hline, read_close hback]
    refine .found (fun _ => rfl) ?_
    rw [crlf_take_one hline]
    rfl
  | case4 c rest hc hclose ih =>
    have hrest : '\r' ∉ rest := List.not_mem_of_not_mem_cons hreturn
    by_cases hfeed : c = '\n'
    · subst hfeed
      rw [crlf_line, read_verbatim (by decide) hother, read_verbatim hc hclose, Reading.cons_cons]
      refine (ih hrest).cons rfl ?_
      intro s t _ hchain
      rw [Reading.length_cons, Nat.add_comm, Piece.verbatim, List.take_succ_cons,
        List.isChain_cons_cons] at hchain
      exact absurd (hchain.1 rfl) hback
    · rw [crlf_cons hfeed, read_verbatim hc hclose]
      refine .verbatim hfeed (ih hrest) ?_
      intro s t htext hchain
      rw [Reading.length_cons, Nat.add_comm, Piece.verbatim, List.take_succ_cons,
        List.isChain_cons_cons] at hchain
      rw [htext (isChain_of_ne hchain.2 hc quote)]

end Quoted

/-! ### Text blocks -/

namespace TextBlock

/-- Behind a line break stand an indentation and what follows it. -/
theorem crlf_line_indent (rest : List Char) : crlf rest =
    crlf (rest.takeWhile isBlank) ++ crlf (rest.drop (rest.takeWhile isBlank).length) := by
  have h := List.take_append_drop (rest.takeWhile isBlank).length rest
  rw [take_length_takeWhile] at h
  rw [← crlf_append, h]

theorem length_crlf_take_line (rest : List Char) (n : Nat) :
    (crlf (('\n' :: rest).take (1 + (rest.takeWhile isBlank).length + n))).length =
      1 + (1 + (crlf (rest.takeWhile isBlank)).length +
        (crlf ((rest.drop (rest.takeWhile isBlank).length).take n)).length) := by
  rw [show 1 + (rest.takeWhile isBlank).length + n = (rest.takeWhile isBlank).length + n + 1 by omega,
    List.take_succ_cons, List.take_add, take_length_takeWhile, crlf_line, crlf_append,
    List.length_cons, List.length_cons, List.length_append]
  omega

theorem isBlank_of_mem_crlf {rest : List Char} :
    ∀ c ∈ crlf (rest.takeWhile isBlank), isBlank c = true := by
  intro c hc
  rw [← takeWhile_crlf (by decide)] at hc
  exact List.mem_takeWhile_imp hc

theorem mem_take_line (rest : List Char) (n : Nat) : '\n' ∈ ('\n' :: rest).take (1 + n) := by
  rw [Nat.add_comm, List.take_succ_cons]
  exact List.mem_cons_self

/-- A text block ends where it did, and keeps its text if no line feed stands in it. -/
theorem carried_read {text : List Char} (hreturn : '\r' ∉ text) :
    (read text).Carried (fun s t => '\n' ∉ text.take (read text).length → t = s) text
      (read (crlf text)) := by
  fun_induction read text with
  | case1 =>
    rw [crlf_nil, read]
    exact .found (fun _ => rfl) rfl
  | case2 rest escape ih =>
    have hrest : '\r' ∉ rest := List.not_mem_of_not_mem_cons hreturn
    rw [crlf_cons (by decide), read_escape, Escape.drop_read_crlf hrest]
    refine Escape.carried_cons hrest (ih fun hmem => hrest (List.mem_of_mem_drop hmem)) ?_
    intro s t htext hfree
    rw [Reading.length_cons, List.take_add, Escape.drop_cons_read, List.mem_append, not_or] at hfree
    rw [htext hfree.2]
  | case3 rest indent more hmore _ ih =>
    have htail := ih fun hmem => hreturn (List.mem_cons_of_mem _ (List.mem_of_mem_drop hmem))
    have hdrop : rest.drop (indent + 2) = more := by
      rw [← List.drop_drop, hmore]
      rfl
    rw [hdrop] at htail ⊢
    rw [crlf_line, crlf_line_indent rest, hmore, crlf_cons (by decide), crlf_cons (by decide),
      read_verbatim (by decide) (by decide), read_line_more isBlank_of_mem_crlf, Reading.cons_cons]
    refine .cons (R := fun s t => '\n' ∉ more.take (read more).length → t = s) ?_ ?_ ?_
    · rw [Nat.add_assoc, Nat.add_comm, List.drop_succ_cons, hdrop]
      exact htail
    · rw [length_crlf_take_line, hmore]
      rfl
    · intro s t _ hfree
      rw [Reading.length_cons, Nat.add_assoc, Nat.add_assoc] at hfree
      exact absurd (mem_take_line rest _) hfree
  | case4 rest indent tail hother hmore _ =>
    have hhead : (crlf tail).head? ≠ some '\\' := by
      rw [Ne, head?_crlf (by decide) (by decide), List.head?_eq_some_iff]
      rintro ⟨more, htail⟩
      exact hother more htail
    rw [crlf_line, crlf_line_indent rest, hmore, crlf_cons (by decide),
      read_verbatim (by decide) (by decide), read_line_fault isBlank_of_mem_crlf hhead]
    refine .fault ?_
    rw [length_crlf_take_line, hmore]
    rfl
  | case5 rest indent _ hback _ =>
    have hlength := length_crlf_take_line rest 0
    have hstop := stop_of_takeWhile isBlank rest
    rw [List.take_zero, crlf_nil] at hlength
    rw [crlf_line, crlf_line_indent rest, read_verbatim (by decide) (by decide)]
    cases htail : rest.drop indent with
    | nil =>
      rw [crlf_nil, List.append_nil, read_line_nil isBlank_of_mem_crlf]
      exact .found (fun hfree => absurd (mem_take_line rest _) hfree) hlength.symm
    | cons c more =>
      have hblank : isBlank c = false := hstop c (by rw [htail]; rfl)
      have hline : c ≠ '\n' := by
        rintro rfl
        cases hblank
      have hne : c ≠ '\\' := by
        rintro rfl
        exact hback more htail
      rw [crlf_cons hline, read_line_end isBlank_of_mem_crlf hblank hne]
      exact .found (fun hfree => absurd (mem_take_line rest _) hfree) hlength.symm
  | case6 c rest hback hline ih =>
    have hrest : '\r' ∉ rest := List.not_mem_of_not_mem_cons hreturn
    rw [crlf_cons hline, read_verbatim hback hline]
    refine .verbatim hline (ih hrest) ?_
    intro s t htext hfree
    rw [Reading.length_cons, List.take_add, List.mem_append, not_or] at hfree
    rw [htext hfree.2]

end TextBlock

end Lexis
