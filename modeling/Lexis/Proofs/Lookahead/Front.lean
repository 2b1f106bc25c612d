import Lexis.Proofs.Lookahead.Number
import Lexis.Proofs.Lookahead.Word
import Lexis.Proofs.Trivia

/-!
# How far the lexer looks ahead

No reader looks at more than two characters behind what it takes up. A text that ends with a well-formed
front is read alike when white space follows, except that a line comment goes on unless that is a line
break, and that a text block takes up the white space.
-/

namespace Lexis

open Text

namespace Comment

theorem isDocumentation_of_lineEndHead {text : List Char} (h : LineEndHead text) :
    isDocumentation text = false := by
  unfold isDocumentation
  split
  · exact absurd (h '/' rfl) (by decide)
  · rfl

theorem isDocumentation_slash (rest : List Char) :
    isDocumentation ('/' :: rest) = (rest.head? != some '/') := rfl

theorem readLine_of_isDocumentation {text : List Char} (h : isDocumentation text = true) :
    readLine text = .found
      (some (.ofValue .documentation (documentationText (lineRest (text.drop 1)))))
      (3 + (lineRest (text.drop 1)).length) := by
  rw [readLine, if_pos h]

theorem readLine_of_not_isDocumentation {text : List Char} (h : isDocumentation text = false) :
    readLine text = .found none (2 + (lineRest text).length) := by
  rw [readLine, if_neg (by simp [h])]

/-- Whether a comment is documentation is told by the two characters behind its slashes. -/
theorem isDocumentation_congr {front rest after : List Char}
    (h : (readLine (front ++ rest)).length + 1 ≤ front.length + 2 ∨
      (readLine (front ++ rest)).length ≤ front.length + 2 ∧ LineEndHead after) :
    isDocumentation (front ++ after) = isDocumentation (front ++ rest) := by
  match front with
  | [] =>
    have htwo := two_le_length_readLine rest
    rw [List.nil_append, List.length_nil] at h
    rw [List.nil_append, List.nil_append]
    rcases h with h | ⟨h, hafter⟩
    · omega
    · rw [isDocumentation_of_lineEndHead hafter]
      cases hdoc : isDocumentation rest with
      | false => rfl
      | true =>
        rw [readLine_of_isDocumentation hdoc, Reading.length_found] at h
        omega
  | [c] =>
    by_cases hslash : c = '/'
    · subst hslash
      rw [List.singleton_append] at h
      rw [List.singleton_append, List.singleton_append]
      cases hdoc : isDocumentation ('/' :: rest) with
      | true =>
        rw [readLine_of_isDocumentation hdoc, Reading.length_found, List.length_singleton] at h
        rcases h with h | ⟨-, hafter⟩
        · omega
        · rw [isDocumentation_slash, bne_iff_ne]
          intro hmark
          exact absurd (hafter '/' hmark) (by decide)
      | false =>
        rw [readLine_of_not_isDocumentation hdoc, Reading.length_found, List.length_singleton] at h
        have hmark : rest.head? = some '/' := by simpa [isDocumentation_slash] using hdoc
        obtain ⟨more, rfl⟩ := List.head?_eq_some_iff.1 hmark
        have hline : 2 ≤ (lineRest ('/' :: '/' :: more)).length := by
          simp [lineRest, show isLineEnd '/' = false from rfl]
        omega
    · simp [isDocumentation, hslash]
  | c :: d :: front =>
    by_cases hslash : c = '/'
    · subst hslash
      rfl
    · simp [isDocumentation, hslash]

theorem lineRest_congr {front rest after : List Char}
    (h : (lineRest (front ++ rest)).length + 1 ≤ front.length ∨
      (lineRest (front ++ rest)).length ≤ front.length ∧ LineEndHead after) :
    lineRest (front ++ after) = lineRest (front ++ rest) := by
  apply takeWhile_congr
  rcases h with h | ⟨h, hafter⟩
  · exact Or.inl h
  · refine Or.inr ⟨h, fun c hc => ?_⟩
    rw [hafter c hc]
    rfl

theorem readLine_congr {front rest after : List Char}
    (h : (readLine (front ++ rest)).length + 1 ≤ front.length + 2 ∨
      (readLine (front ++ rest)).length ≤ front.length + 2 ∧ LineEndHead after) :
    readLine (front ++ after) = readLine (front ++ rest) := by
  have hsame := isDocumentation_congr h
  cases hdoc : isDocumentation (front ++ rest) with
  | false =>
    rw [hdoc] at hsame
    rw [readLine_of_not_isDocumentation hdoc, Reading.length_found] at h
    have hline : lineRest (front ++ after) = lineRest (front ++ rest) := by
      apply lineRest_congr
      rcases h with h | ⟨h, hafter⟩
      · exact Or.inl (by omega)
      · exact Or.inr ⟨by omega, hafter⟩
    rw [readLine_of_not_isDocumentation hsame, readLine_of_not_isDocumentation hdoc, hline]
  | true =>
    rw [hdoc] at hsame
    rw [readLine_of_isDocumentation hdoc, Reading.length_found] at h
    have hone : 1 ≤ front.length := by omega
    rw [List.drop_append_of_le_length hone] at h
    have hline : lineRest (front.drop 1 ++ after) = lineRest (front.drop 1 ++ rest) := by
      apply lineRest_congr
      rw [List.length_drop]
      rcases h with h | ⟨h, hafter⟩
      · exact Or.inl (by omega)
      · exact Or.inr ⟨by omega, hafter⟩
    rw [readLine_of_isDocumentation hsame, readLine_of_isDocumentation hdoc,
      List.drop_append_of_le_length hone, List.drop_append_of_le_length hone, hline]

theorem closing?_congr {front rest : List Char} {n : Nat} (h : closing? (front ++ rest) = some n)
    (hn : n ≤ front.length) (after : List Char) : closing? (front ++ after) = some n := by
  have hclosed := isClosed_of_closing? h
  rw [List.take_append_of_le_length hn] at hclosed
  have hfound := closing?_append hclosed (front.drop n ++ after)
  rwa [← List.append_assoc, List.take_append_drop, List.length_take, Nat.min_eq_left hn] at hfound

theorem readBlock_congr {c d : Char} {front rest after : List Char}
    (h : (readBlock (front ++ rest)).Settled 1 (c :: d :: front) after) :
    readBlock (front ++ after) = readBlock (front ++ rest) := by
  unfold readBlock at h ⊢
  cases hclose : closing? (front ++ rest) with
  | none =>
    rw [hclose] at h
    rcases h with h | ⟨hok, -⟩
    · simp only [Reading.length_fault, List.length_append, List.length_cons] at h
      omega
    · cases hok
  | some n =>
    rw [hclose] at h
    have hle := h.length_le
    simp only [Reading.length_found, List.length_cons] at hle
    rw [closing?_congr hclose (by omega) after]

end Comment

namespace Front

/-- What is read at the front of `c :: (front ++ rest)` does not hang on what follows `front`, as far as
white space may follow. -/
structure Settled (c : Char) (front rest after : List Char) : Prop where
  reading : (read c (front ++ rest)).Settled 2 (c :: front) after
  line : c = '/' → (front ++ rest).head? = some '/' →
    (read c (front ++ rest)).length + 1 ≤ (c :: front).length ∨ LineEndHead after
  block : c = '\\' → (front ++ rest).head? = some '\\' →
    (read c (front ++ rest)).length + 1 ≤ (c :: front).length

theorem two_le_length_read_backslash {rest : List Char} (h : rest.head? = some '\\') :
    2 ≤ (read '\\' rest).length := by
  obtain ⟨more, rfl⟩ := List.head?_eq_some_iff.1 h
  rw [read_backslash_backslash, Reading.length_shift]
  omega

theorem two_le_length_read_slash {rest : List Char}
    (h : rest.head? = some '/' ∨ rest.head? = some '*') : 2 ≤ (read '/' rest).length := by
  rcases h with h | h
  · obtain ⟨more, rfl⟩ := List.head?_eq_some_iff.1 h
    rw [read_slash_slash]
    exact Comment.two_le_length_readLine more
  · obtain ⟨more, rfl⟩ := List.head?_eq_some_iff.1 h
    rw [read_slash_star]
    exact Comment.two_le_length_readBlock more

theorem isPairOpener_of_blankHead (c : Char) {text : List Char} (h : BlankHead text) :
    isPairOpener c text = false := by
  cases text with
  | nil => simp [isPairOpener]
  | cons d rest =>
    have hd : isBlank d = true := h d rfl
    have hback : d ≠ '\\' := ne_of_class hd (by decide)
    have hslash : d ≠ '/' := ne_of_class hd (by decide)
    have hstar : d ≠ '*' := ne_of_class hd (by decide)
    simp [isPairOpener, hback, hslash, hstar]

theorem isInner_of_isQuote {c : Char} (h : Quoted.isQuote c = true) : Escape.isInner c = false := by
  simp only [Quoted.isQuote, Bool.or_eq_true, beq_iff_eq] at h
  rcases h with rfl | rfl <;> decide

theorem read_congr_quote {c : Char} {front rest after : List Char} (hquote : Quoted.isQuote c = true)
    (h : Settled c front rest after) : read c (front ++ after) = read c (front ++ rest) := by
  have hreading := h.reading
  rw [read_quote hquote] at hreading
  have hinner : (Quoted.read c (front ++ rest)).Settled 2 front after := hreading.of_shift.of_map
  have hok := hinner.isOk_of_lt fun hopen => by
    rw [Quoted.length_read_of_not_isOk hopen, List.length_append]
    omega
  rw [read_quote hquote, read_quote hquote,
    Quoted.read_congr (isInner_of_isQuote hquote) front rest after hok hinner.length_le]

theorem read_congr_backslash {front rest after : List Char}
    (hnext : (front ++ rest).head? = some '\\') (h : Settled '\\' front rest after) :
    read '\\' (front ++ after) = read '\\' (front ++ rest) := by
  have hlength := h.block rfl hnext
  cases front with
  | nil =>
    have htwo := two_le_length_read_backslash hnext
    rw [List.length_singleton] at hlength
    omega
  | cons d front =>
    cases hnext
    rw [List.cons_append, read_backslash_backslash, Reading.length_shift, Reading.length_map,
      List.length_cons, List.length_cons] at hlength
    rw [List.cons_append, List.cons_append, read_backslash_backslash, read_backslash_backslash,
      TextBlock.read_congr front rest after (by omega)]

theorem read_congr_slash {front rest after : List Char}
    (hnext : (front ++ rest).head? = some '/' ∨ (front ++ rest).head? = some '*')
    (h : Settled '/' front rest after) : read '/' (front ++ after) = read '/' (front ++ rest) := by
  have hreading := h.reading
  have hle := hreading.length_le
  cases front with
  | nil =>
    have htwo := two_le_length_read_slash hnext
    rw [List.length_singleton] at hle
    omega
  | cons d front =>
    rcases hnext with hnext | hnext
    · have hlength := h.line rfl hnext
      cases hnext
      rw [List.cons_append, read_slash_slash, List.length_cons, List.length_cons] at hlength hle
      rw [List.cons_append, List.cons_append, read_slash_slash, read_slash_slash,
        Comment.readLine_congr (hlength.imp id fun hafter => ⟨hle, hafter⟩)]
    · cases hnext
      rw [List.cons_append, read_slash_star] at hreading
      rw [List.cons_append, List.cons_append, read_slash_star, read_slash_star,
        Comment.readBlock_congr (hreading.mono (by decide))]

theorem isPairOpener_congr {c : Char} {front rest after : List Char}
    (h : Settled c front rest after) (hpair : isPairOpener c (front ++ rest) = false) :
    isPairOpener c (front ++ after) = false := by
  cases front with
  | cons d front => exact hpair
  | nil =>
    rcases h.reading with hroom | ⟨-, -, hafter⟩
    · simp at hroom
    · exact isPairOpener_of_blankHead c hafter

theorem read_congr_other {c : Char} {front rest after : List Char} (hopener : isOpener c = false)
    (hpair : isPairOpener c (front ++ rest) = false) (h : Settled c front rest after) :
    read c (front ++ after) = read c (front ++ rest) := by
  have hreading := h.reading
  rw [read_other hopener hpair] at hreading
  rw [read_other hopener hpair, read_other hopener (isPairOpener_congr h hpair)]
  cases hop : Operator.munch? (c :: (front ++ rest)) with
  | some op =>
    rw [hop] at hreading
    rw [Operator.munch?_congr hop (hreading.room_front (show 1 ≤ 2 by decide) (Nat.le_refl _))]
  | none =>
    have hnone : Operator.munch? (c :: (front ++ after)) = none := by
      rw [← Option.not_isSome_iff_eq_none, Operator.isSome_munch?] at hop ⊢
      exact hop
    rw [hnone]

/-- A front that is settled is read alike whatever follows. -/
theorem read_congr {c : Char} {front rest after : List Char} (h : Settled c front rest after) :
    read c (front ++ after) = read c (front ++ rest) := by
  have hreading := h.reading
  cases opening c (front ++ rest) with
  | digit hdigit =>
    rw [read_digit hdigit] at hreading
    rw [read_digit hdigit, read_digit hdigit, Number.read_congr hreading.of_map]
  | alpha halpha =>
    rw [read_alpha halpha] at hreading
    rw [read_alpha halpha, read_alpha halpha, Word.read_congr (hreading.of_map.mono (by decide))]
  | mark hmark =>
    subst hmark
    rw [read_number_sign] at hreading
    rw [read_number_sign, read_number_sign, Word.readMarked_congr hreading.of_map]
  | backtick htick =>
    subst htick
    rw [read_backtick] at hreading
    rw [read_backtick, read_backtick, Word.readExtended_congr (hreading.of_map.mono (by decide))]
  | quote hquote => exact read_congr_quote hquote h
  | block hback hnext =>
    subst hback
    exact read_congr_backslash hnext h
  | comment hslash hnext =>
    subst hslash
    exact read_congr_slash hnext h
  | other hopener hpair => exact read_congr_other hopener hpair h

/-- A front that is settled where the text ends is read alike when more text follows. -/
theorem read_append {c : Char} {front after : List Char} (h : Settled c front [] after) :
    read c (front ++ after) = read c front := by
  rw [read_congr h, List.append_nil]

theorem settled_nil {c : Char} {front after : List Char}
    (hroom : (read c front).length + 2 ≤ (c :: front).length ∨
      (read c front).result.isOk = true ∧ LineEndHead after)
    (hblock : c = '\\' → front.head? = some '\\' →
      (read c front).length + 1 ≤ (c :: front).length) : Settled c front [] after := by
  have hle := length_read_le c front
  rcases hroom with hroom | ⟨hok, hafter⟩
  · exact {
      reading := by
        rw [List.append_nil]
        exact Or.inl hroom
      line := fun _ _ => by
        rw [List.append_nil]
        exact Or.inl (Nat.le_of_succ_le hroom)
      block := by rwa [List.append_nil] }
  · exact {
      reading := by
        rw [List.append_nil]
        exact Or.inr ⟨hok, hle, hafter.blankHead⟩
      line := fun _ _ => Or.inr hafter
      block := by rwa [List.append_nil] }

end Front

namespace Upcoming

/-- What comes next is the same whatever follows the text, where there is room behind the token, or
where the token is well-formed and a line break follows. -/
theorem ofText_append_of_room {text after : List Char} {reading : Reading Lexeme}
    (h : (ofText text).reading = some reading)
    (hroom : (ofText text).gap + reading.length + 2 ≤ text.length ∨
      reading.result.isOk = true ∧ LineEndHead after)
    (hblock : ∀ more, text.drop (ofText text).gap = '\\' :: '\\' :: more →
      (ofText text).gap + reading.length + 1 ≤ text.length) :
    ofText (text ++ after) = ofText text := by
  obtain ⟨c, rest, hdrop, hread⟩ := front_of_reading h
  have htrivia := trivia_gap text
  have hgap := (gap_lt_length h).1
  have hlength := congrArg List.length hdrop
  rw [List.length_drop, List.length_cons] at hlength
  have hupcoming : ofText text = ⟨(ofText text).gap, some reading⟩ := by rw [← h]
  generalize (ofText text).gap = gap at *
  have hsettled : Front.Settled c rest [] after := by
    apply Front.settled_nil
    · rw [hread, Reading.length_map, Reading.isOk_map, List.length_cons]
      rcases hroom with hroom | hroom
      · exact Or.inl (by omega)
      · exact Or.inr hroom
    · rintro rfl hnext
      obtain ⟨more, rfl⟩ := List.head?_eq_some_iff.1 hnext
      have hlt := hblock more hdrop
      rw [hread, Reading.length_map]
      simp only [List.length_cons] at hlength ⊢
      omega
  have hfront : Front.read c (rest ++ after) = reading.map some := by
    rw [Front.read_append hsettled, hread]
  have hsplit : text ++ after = text.take gap ++ (c :: (rest ++ after)) := by
    rw [← List.cons_append, ← hdrop, ← List.append_assoc, List.take_append_drop]
  have htriviaAfter : Trivia (text.take gap) (c :: (rest ++ after)) := by
    rw [hdrop] at htrivia
    exact htrivia.append_right (Or.inl (List.cons_ne_nil c rest))
  rw [hupcoming, hsplit, ofText_append htriviaAfter, ofText_of_front hfront, List.length_take,
    Nat.min_eq_left (Nat.le_of_lt hgap)]
  rfl

end Upcoming

end Lexis
