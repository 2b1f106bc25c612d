import Lexis.Literal.Quoted
import Lexis.Literal.TextBlock
import Lexis.Proofs.Lookahead.Escape

/-!
# How far strings look ahead

The quote that closes a string and the line feed that ends a text block stop every escape in front of
them. So a string that ends inside a text is read without the characters behind its end, and a text block
with no more than the one character that tells that it does not go on.
-/

namespace Lexis

open Text

namespace Quoted

theorem read_escape (quote : Char) (rest : List Char) :
    read quote ('\\' :: rest) =
      (read quote (rest.drop ((Escape.read rest).length - 1))).cons (Escape.read rest) := by
  rw [read, if_pos rfl]

theorem read_close {quote : Char} (h : quote ≠ '\\') (rest : List Char) :
    read quote (quote :: rest) = .found [] 1 := by
  rw [read, if_neg h, if_pos rfl]

theorem read_verbatim {quote c : Char} (hback : c ≠ '\\') (hclose : c ≠ quote) (rest : List Char) :
    read quote (c :: rest) = (read quote rest).cons (.verbatim c) := by
  rw [read, if_neg hback, if_neg hclose]

/-- A string that is closed holds the quote that closes it. -/
theorem mem_take_of_isOk {quote : Char} {text : List Char}
    (h : (read quote text).result.isOk = true) : quote ∈ text.take (read quote text).length := by
  fun_induction read quote text with
  | case1 => cases h
  | case2 rest escape ih =>
    have hone : 1 ≤ escape.length := Escape.one_le_length_read rest
    rw [Reading.isOk_cons] at h
    rw [Reading.length_cons, Nat.add_comm, Nat.add_comm, List.take_add,
      show escape.length = escape.length - 1 + 1 by omega, List.drop_succ_cons]
    exact List.mem_append_right _ (ih h)
  | case3 => simp
  | case4 c rest _ _ ih =>
    rw [Reading.isOk_cons] at h
    rw [Reading.length_cons, Nat.add_comm]
    exact List.mem_cons_of_mem _ (ih h)

/-- A string that is never closed takes up the text. -/
theorem length_read_of_not_isOk {quote : Char} {text : List Char}
    (h : (read quote text).result.isOk = false) : (read quote text).length = text.length := by
  fun_induction read quote text with
  | case1 => rfl
  | case2 rest escape ih =>
    have hone : 1 ≤ escape.length := Escape.one_le_length_read rest
    have hle : escape.length ≤ rest.length + 1 := Escape.length_read_le rest
    rw [Reading.isOk_cons] at h
    rw [Reading.length_cons, ih h, List.length_drop, List.length_cons]
    omega
  | case3 => cases h
  | case4 c rest _ _ ih =>
    rw [Reading.isOk_cons] at h
    rw [Reading.length_cons, ih h, List.length_cons]
    exact Nat.add_comm 1 _

theorem length_readRaw_of_not_isOk {quote : Char} {text : List Char}
    (h : (readRaw quote text).result.isOk = false) : (readRaw quote text).length = text.length := by
  unfold readRaw at h ⊢
  dsimp only at h ⊢
  split at h
  · cases h
  · rename_i hopen
    rw [if_neg hopen]
    rfl

/-- A string that is closed inside a text is read alike whatever follows the text. -/
theorem read_congr {quote : Char} (hquote : Escape.isInner quote = false)
    (front rest after : List Char) (hok : (read quote (front ++ rest)).result.isOk = true)
    (hlength : (read quote (front ++ rest)).length ≤ front.length) :
    read quote (front ++ after) = read quote (front ++ rest) := by
  have hne : quote ≠ '\\' := by
    rintro rfl
    exact absurd hquote (by decide)
  cases front with
  | nil =>
    have hmem := mem_take_of_isOk hok
    rw [Nat.le_zero.1 hlength, List.take_zero] at hmem
    cases hmem
  | cons c front =>
    rw [List.cons_append] at hok hlength
    rw [List.cons_append, List.cons_append]
    by_cases hback : c = '\\'
    · subst hback
      rw [read_escape, Reading.isOk_cons] at hok
      rw [read_escape, Reading.length_cons, List.length_cons] at hlength
      have hone := Escape.one_le_length_read (front ++ rest)
      have hle : (Escape.read (front ++ rest)).length - 1 ≤ front.length := by omega
      rw [List.drop_append_of_le_length hle] at hok hlength
      have hinner : (read quote (front.drop ((Escape.read (front ++ rest)).length - 1) ++
          rest)).length ≤ (front.drop ((Escape.read (front ++ rest)).length - 1)).length := by
        rw [List.length_drop]
        omega
      -- The quote that closes the string stands behind the escape.
      have hstops : Escape.Stops (front.drop ((Escape.read (front ++ rest)).length - 1)) := by
        have hmem := mem_take_of_isOk hok
        rw [List.take_append_of_le_length hinner] at hmem
        exact ⟨quote, List.mem_of_mem_take hmem, hquote⟩
      rw [read_escape, read_escape, Escape.read_congr hstops, List.drop_append_of_le_length hle,
        List.drop_append_of_le_length hle, read_congr hquote _ rest after hok hinner]
    · by_cases hclose : c = quote
      · subst hclose
        rw [read_close hne, read_close hne]
      · rw [read_verbatim hback hclose, Reading.isOk_cons] at hok
        rw [read_verbatim hback hclose, Reading.length_cons, List.length_cons] at hlength
        simp only [Piece.verbatim] at hlength
        rw [read_verbatim hback hclose, read_verbatim hback hclose,
          read_congr hquote front rest after hok (by omega)]
termination_by front.length

/-- The same holds of a verbatim string: it ends at the first quote. -/
theorem readRaw_congr {quote : Char} {front rest after : List Char}
    (hok : (readRaw quote (front ++ rest)).result.isOk = true)
    (hlength : (readRaw quote (front ++ rest)).length ≤ front.length) :
    readRaw quote (front ++ after) = readRaw quote (front ++ rest) := by
  have hlt : ((front ++ rest).takeWhile (· != quote)).length + 1 ≤ front.length := by
    unfold readRaw at hok hlength
    dsimp only at hok hlength
    split at hok
    · rename_i hclosed
      rwa [if_pos hclosed] at hlength
    · cases hok
  have hcontent : (front ++ after).takeWhile (· != quote) =
      (front ++ rest).takeWhile (· != quote) := takeWhile_congr (Or.inl hlt)
  have hclosed : ∀ text : List Char,
      ((front ++ rest).takeWhile (· != quote)).length < (front ++ text).length := by
    intro text
    rw [List.length_append]
    omega
  unfold readRaw
  dsimp only
  rw [hcontent, if_pos (hclosed after), if_pos (hclosed rest)]

end Quoted

namespace TextBlock

theorem read_escape (rest : List Char) :
    read ('\\' :: rest) =
      (read (rest.drop ((Escape.read rest).length - 1))).cons (Escape.read rest) := by
  rw [read, if_pos rfl]

theorem read_verbatim {c : Char} (hback : c ≠ '\\') (hline : c ≠ '\n') (rest : List Char) :
    read (c :: rest) = (read rest).cons (.verbatim c) := by
  rw [read, if_neg hback, if_neg hline]

/-! What a line break makes of a text block, by what follows the indentation behind it. -/

theorem read_line_more {indent : List Char} (hindent : ∀ c ∈ indent, isBlank c = true)
    (rest : List Char) :
    read ('\n' :: (indent ++ '\\' :: '\\' :: rest)) =
      (read rest).cons ⟨['\n'], 1 + indent.length + 2⟩ := by
  have hrun : (indent ++ '\\' :: '\\' :: rest).takeWhile isBlank = indent :=
    takeWhile_append_stop hindent (by rintro _ ⟨⟩; decide)
  rw [read, if_neg (by decide), if_pos rfl]
  dsimp only
  rw [hrun, List.drop_left, ← List.drop_drop, List.drop_left]
  rfl

theorem read_line_fault {indent : List Char} (hindent : ∀ c ∈ indent, isBlank c = true)
    {rest : List Char} (h : rest.head? ≠ some '\\') :
    read ('\n' :: (indent ++ '\\' :: rest)) =
      .fault .malformedTextBlock (1 + indent.length + 1) := by
  have hrun : (indent ++ '\\' :: rest).takeWhile isBlank = indent :=
    takeWhile_append_stop hindent (by rintro _ ⟨⟩; decide)
  rw [read, if_neg (by decide), if_pos rfl]
  dsimp only
  rw [hrun, List.drop_left]
  split
  · rename_i more heq
    rw [(List.cons.inj heq).2] at h
    exact absurd rfl h
  · rfl
  · rename_i hother
    exact absurd rfl (hother rest)

theorem read_line_end {indent : List Char} (hindent : ∀ c ∈ indent, isBlank c = true)
    {c : Char} (hblank : isBlank c = false) (h : c ≠ '\\') (rest : List Char) :
    read ('\n' :: (indent ++ c :: rest)) = .found [] (1 + indent.length) := by
  have hrun : (indent ++ c :: rest).takeWhile isBlank = indent :=
    takeWhile_append_stop hindent (by rintro _ ⟨⟩; exact hblank)
  rw [read, if_neg (by decide), if_pos rfl]
  dsimp only
  rw [hrun, List.drop_left]
  split
  · rename_i heq
    exact absurd (List.cons.inj heq).1 h
  · rename_i heq
    exact absurd (List.cons.inj heq).1 h
  · rfl

theorem read_line_nil {indent : List Char} (hindent : ∀ c ∈ indent, isBlank c = true) :
    read ('\n' :: indent) = .found [] (1 + indent.length) := by
  have hrun : indent.takeWhile isBlank = indent := List.takeWhile_eq_self_iff.2 hindent
  rw [read, if_neg (by decide), if_pos rfl]
  dsimp only
  rw [hrun, List.drop_length]

theorem length_read_line_backslash {indent : List Char} (hindent : ∀ c ∈ indent, isBlank c = true)
    (rest : List Char) : indent.length + 2 ≤ (read ('\n' :: (indent ++ '\\' :: rest))).length := by
  by_cases hmore : rest.head? = some '\\'
  · obtain ⟨more, rfl⟩ := List.head?_eq_some_iff.1 hmore
    rw [read_line_more hindent, Reading.length_cons]
    dsimp only
    omega
  · rw [read_line_fault hindent hmore, Reading.length_fault]
    omega

theorem indent_lt_length_read (rest : List Char) :
    (rest.takeWhile isBlank).length + 1 ≤ (read ('\n' :: rest)).length := by
  rw [read, if_neg (by decide), if_pos rfl]
  dsimp only
  split
  · rw [Reading.length_cons]
    dsimp only
    omega
  · rw [Reading.length_fault]
    omega
  · rw [Reading.length_found]
    omega

/-- A text block that does not go on to the end of the text holds a line break. -/
theorem mem_take_of_lt {text : List Char} (h : (read text).length < text.length) :
    '\n' ∈ text.take (read text).length := by
  induction hn : text.length using Nat.strong_induction_on generalizing text with
  | _ n ih =>
    cases text with
    | nil => cases h
    | cons c rest =>
      by_cases hback : c = '\\'
      · subst hback
        have hone := Escape.one_le_length_read rest
        rw [read_escape, Reading.length_cons, List.length_cons] at h
        rw [read_escape, Reading.length_cons, List.take_add]
        generalize (Escape.read rest).length = m at h hone ⊢
        obtain ⟨k, rfl⟩ := Nat.exists_eq_add_of_le' hone
        rw [Nat.add_sub_cancel] at h ⊢
        rw [List.drop_succ_cons]
        refine List.mem_append_right _ (ih _ ?_ ?_ rfl)
        · rw [← hn, List.length_drop, List.length_cons]
          omega
        · rw [List.length_drop]
          omega
      · by_cases hline : c = '\n'
        · subst hline
          have hone := indent_lt_length_read rest
          generalize (read ('\n' :: rest)).length = m at hone ⊢
          obtain ⟨k, rfl⟩ := Nat.exists_eq_add_of_le' (Nat.le_of_add_left_le hone)
          rw [List.take_succ_cons]
          exact List.mem_cons_self
        · rw [read_verbatim hback hline, Reading.length_cons, List.length_cons] at h
          rw [read_verbatim hback hline, Reading.length_cons, Nat.add_comm]
          simp only [Piece.verbatim] at h
          exact List.mem_cons_of_mem _ (ih _ (by rw [← hn]; simp) (by omega) rfl)

section

variable {front rest after : List Char}
  (ih : ∀ tail : List Char, tail.length ≤ front.length →
    (read (tail ++ rest)).length + 1 ≤ tail.length → read (tail ++ after) = read (tail ++ rest))

include ih

theorem read_congr_escape (h : (read ('\\' :: (front ++ rest))).length ≤ front.length) :
    read ('\\' :: (front ++ after)) = read ('\\' :: (front ++ rest)) := by
  rw [read_escape, Reading.length_cons] at h
  have hone := Escape.one_le_length_read (front ++ rest)
  have hle : (Escape.read (front ++ rest)).length - 1 ≤ front.length := by omega
  rw [List.drop_append_of_le_length hle] at h
  have htail := List.length_drop (i := (Escape.read (front ++ rest)).length - 1) (l := front)
  have hinner : (read (front.drop ((Escape.read (front ++ rest)).length - 1) ++ rest)).length + 1 ≤
      (front.drop ((Escape.read (front ++ rest)).length - 1)).length := by
    omega
  -- The text block does not reach the end, so a line break stands behind the escape.
  have hstops : Escape.Stops (front.drop ((Escape.read (front ++ rest)).length - 1)) := by
    have hmem := mem_take_of_lt (Nat.lt_of_lt_of_le hinner (by simp))
    rw [List.take_append_of_le_length (Nat.le_of_lt hinner)] at hmem
    exact ⟨'\n', List.mem_of_mem_take hmem, by decide⟩
  rw [read_escape, read_escape, Escape.read_congr hstops, List.drop_append_of_le_length hle,
    List.drop_append_of_le_length hle, ih _ (by omega) hinner]

theorem read_congr_line (h : (read ('\n' :: (front ++ rest))).length ≤ front.length) :
    read ('\n' :: (front ++ after)) = read ('\n' :: (front ++ rest)) := by
  have hlength := indent_lt_length_read (front ++ rest)
  obtain ⟨indent, d, tail, rfl, hindent, hblank⟩ :=
    @exists_split_of_takeWhile isBlank front rest (by omega)
  rw [List.append_assoc, List.cons_append] at h
  rw [List.append_assoc, List.append_assoc, List.cons_append, List.cons_append]
  by_cases hback : d = '\\'
  · subst hback
    -- A single backslash at the end of `front` would still have to be told from two.
    cases tail with
    | nil =>
      have hlast := length_read_line_backslash hindent rest
      rw [List.nil_append, List.length_append, List.length_singleton] at h
      omega
    | cons e tail =>
      by_cases hsecond : e = '\\'
      · subst hsecond
        rw [List.cons_append, read_line_more hindent, Reading.length_cons] at h
        simp only [List.length_append, List.length_cons] at h ih
        rw [List.cons_append, List.cons_append, read_line_more hindent, read_line_more hindent,
          ih tail (by omega) (by omega)]
      · rw [List.cons_append, List.cons_append, read_line_fault hindent (by simpa using hsecond),
          read_line_fault hindent (by simpa using hsecond)]
  · rw [read_line_end hindent hblank hback, read_line_end hindent hblank hback]

end

/-- A text block whose end has one more character behind it inside a text is read alike whatever
follows the text. -/
theorem read_congr (front rest after : List Char)
    (h : (read (front ++ rest)).length + 1 ≤ front.length) :
    read (front ++ after) = read (front ++ rest) := by
  induction hn : front.length using Nat.strong_induction_on generalizing front with
  | _ n ih =>
    subst hn
    cases front with
    | nil => simp at h
    | cons c front =>
      have hshorter : ∀ tail : List Char, tail.length ≤ front.length →
          (read (tail ++ rest)).length + 1 ≤ tail.length →
          read (tail ++ after) = read (tail ++ rest) :=
        fun tail hlength htail => ih _ (Nat.lt_succ_of_le hlength) tail htail rfl
      rw [List.cons_append, List.length_cons, Nat.add_le_add_iff_right] at h
      rw [List.cons_append, List.cons_append]
      by_cases hback : c = '\\'
      · subst hback
        exact read_congr_escape hshorter h
      · by_cases hline : c = '\n'
        · subst hline
          exact read_congr_line hshorter h
        · rw [read_verbatim hback hline, Reading.length_cons, Piece.verbatim, Nat.add_comm] at h
          rw [read_verbatim hback hline, read_verbatim hback hline,
            hshorter front (Nat.le_refl _) h]

end TextBlock

end Lexis
