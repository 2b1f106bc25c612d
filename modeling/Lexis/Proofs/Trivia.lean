import Lexis.Proofs.Fronts
import Lexis.Upcoming

/-!
# Trivia

What may stand between two tokens: white space, closed block comments, and line comments that are no
documentation. Trivia is described here without the reader, as a text together with the text that
follows it, since a line comment runs up to a line break or to the end. Main statements: the reader
passes over trivia only (`Upcoming.trivia_gap`), and it passes over trivia as a whole
(`Upcoming.ofText_append`).
-/

namespace Lexis

open Text

namespace Comment

/-- The body of a block comment with its closing mark: the first closing mark stands at its end. -/
def IsClosed (body : List Char) : Prop :=
  ['*', '/'] <:+ body ∧ ¬ ['*', '/'] <:+: body.dropLast

/-- The text behind two slashes, up to the end of the line, that makes no documentation: after one
more slash there is a second one. -/
def IsRemark (line : List Char) : Prop :=
  (∀ c ∈ line, isLineEnd c = false) ∧ ∀ more, line = '/' :: more → more.head? = some '/'

end Comment

/-- `Trivia gap text` tells that `gap` is trivia where `text` follows it. -/
inductive Trivia : List Char → List Char → Prop
  | nil {text : List Char} : Trivia [] text
  | blank {c : Char} {gap text : List Char} :
      isBlank c = true → Trivia gap text → Trivia (c :: gap) text
  | block {body gap text : List Char} :
      Comment.IsClosed body → Trivia gap text → Trivia ('/' :: '*' :: (body ++ gap)) text
  | line {remark gap text : List Char} :
      Comment.IsRemark remark → (∀ c ∈ (gap ++ text).head?, isLineEnd c = true) →
      Trivia gap text → Trivia ('/' :: '/' :: (remark ++ gap)) text

/-- Trivia in front of trivia is trivia. -/
theorem Trivia.append {gap later text : List Char} (h : Trivia gap (later ++ text))
    (hlater : Trivia later text) : Trivia (gap ++ later) text := by
  generalize htext : later ++ text = whole at h
  induction h with
  | nil => exact hlater
  | blank hblank _ ih => exact .blank hblank (ih htext)
  | block hclosed _ ih =>
    simp only [List.cons_append, List.append_assoc]
    exact .block hclosed (ih htext)
  | line hremark hend _ ih =>
    simp only [List.cons_append, List.append_assoc]
    refine .line hremark ?_ (ih htext)
    rwa [List.append_assoc, htext]

/-- Trivia stays trivia when more text follows, unless a line comment in it goes on. -/
theorem Trivia.append_right {gap text after : List Char} (h : Trivia gap text)
    (hafter : text ≠ [] ∨ LineEndHead after) : Trivia gap (text ++ after) := by
  induction h with
  | nil => exact .nil
  | blank hblank _ ih => exact .blank hblank (ih hafter)
  | block hclosed _ ih => exact .block hclosed (ih hafter)
  | @line remark gap text hremark hend _ ih =>
    refine .line hremark ?_ (ih hafter)
    rw [← List.append_assoc]
    cases hline : gap ++ text with
    | cons c rest =>
      rw [hline] at hend
      exact hend
    | nil =>
      rcases hafter with hne | hafter
      · exact absurd (List.append_eq_nil_iff.1 hline).2 hne
      · exact hafter

namespace Comment

/-- What the search for the closing mark finds is a closed body. -/
theorem isClosed_of_closing? {text : List Char} {n : Nat} (h : closing? text = some n) :
    IsClosed (text.take n) := by
  induction text generalizing n with
  | nil => simp [closing?] at h
  | cons c rest ih =>
    unfold closing? at h
    split at h
    · rename_i hmark
      obtain ⟨rfl, hslash⟩ := hmark
      cases rest with
      | nil => simp at hslash
      | cons d more =>
        simp only [List.head?_cons, Option.some.injEq] at hslash h
        subst hslash h
        refine ⟨List.suffix_refl _, ?_⟩
        intro hinfix
        have hlen := hinfix.length_le
        simp at hlen
    · rename_i hmark
      simp only [Option.map_eq_some_iff] at h
      obtain ⟨m, hm, rfl⟩ := h
      obtain ⟨hsuffix, hfirst⟩ := ih hm
      have hne : rest.take m ≠ [] := by
        intro hnil
        rw [hnil] at hsuffix
        simpa using hsuffix.length_le
      refine ⟨hsuffix.trans (List.suffix_cons c _), ?_⟩
      rw [List.take_succ_cons, List.dropLast_cons_of_ne_nil hne, List.infix_cons_iff]
      -- An earlier mark would start at `c`, where the search has not found it, or behind `c`.
      rintro (hfront | hinner)
      · obtain ⟨hc, hslash⟩ := List.cons_prefix_cons.1 hfront
        obtain ⟨more, rfl⟩ :=
          hslash.trans ((List.dropLast_prefix _).trans (List.take_prefix m rest))
        exact hmark ⟨hc.symm, rfl⟩
      · exact hfirst hinner

/-- A closed body is found as a whole, whatever follows it. -/
theorem closing?_append {body : List Char} (h : IsClosed body) (text : List Char) :
    closing? (body ++ text) = some body.length := by
  obtain ⟨hsuffix, hfirst⟩ := h
  induction body with
  | nil => simpa using hsuffix.length_le
  | cons c rest ih =>
    rw [List.cons_append, closing?]
    by_cases hmark : c = '*' ∧ (rest ++ text).head? = some '/'
    · rw [if_pos hmark]
      obtain ⟨rfl, hslash⟩ := hmark
      cases rest with
      | nil => simpa using hsuffix.length_le
      | cons d more =>
        simp only [List.cons_append, List.head?_cons, Option.some.injEq] at hslash
        subst hslash
        cases more with
        | nil => rfl
        | cons e tail =>
          -- The mark at the front would not be the last two characters.
          refine absurd ?_ hfirst
          exact ⟨[], (e :: tail).dropLast, by simp⟩
    · rw [if_neg hmark]
      have hne : rest ≠ [] := by
        rintro rfl
        simpa using hsuffix.length_le
      have htail : ['*', '/'] <:+ rest := by
        rcases List.suffix_cons_iff.1 hsuffix with heq | htail
        · obtain ⟨rfl, rfl⟩ := List.cons.inj heq
          exact absurd ⟨rfl, rfl⟩ hmark
        · exact htail
      have hinner : ¬ ['*', '/'] <:+: rest.dropLast := by
        intro hinfix
        apply hfirst
        rw [List.dropLast_cons_of_ne_nil hne]
        exact hinfix.trans (List.suffix_cons c _).isInfix
      rw [ih htail hinner]
      rfl

/-- The rest of a line with a remark is no documentation, and a line comment of it is trivia. -/
theorem isRemark_lineRest {text : List Char} (h : isDocumentation text = false) :
    IsRemark (lineRest text) := by
  refine ⟨fun c hc => by simpa using List.mem_takeWhile_imp hc, ?_⟩
  intro more hmore
  cases text with
  | nil => simp [lineRest] at hmore
  | cons c rest =>
    have hc : isLineEnd c = false := by
      cases hend : isLineEnd c with
      | false => rfl
      | true => simp [lineRest, hend] at hmore
    simp only [lineRest, List.takeWhile_cons, hc, Bool.not_false, if_true, List.cons.injEq] at hmore
    obtain ⟨rfl, rfl⟩ := hmore
    have hslash : rest.head? = some '/' := by simpa [isDocumentation] using h
    cases rest with
    | nil => simp at hslash
    | cons d tail =>
      simp only [List.head?_cons, Option.some.injEq] at hslash
      subst hslash
      rfl

/-- A line comment of a remark takes up the line and finds nothing. -/
theorem readLine_remark {line text : List Char} (h : IsRemark line) (hend : LineEndHead text) :
    readLine (line ++ text) = .found none (2 + line.length) := by
  obtain ⟨hline, hslash⟩ := h
  have hdoc : isDocumentation (line ++ text) = false := by
    cases line with
    | nil =>
      cases text with
      | nil => rfl
      | cons c rest =>
        have hc := hend c rfl
        unfold isDocumentation
        split
        · rename_i more heq
          obtain ⟨rfl, -⟩ := List.cons.inj heq
          exact absurd hc (by decide)
        · rfl
    | cons c rest =>
      unfold isDocumentation
      split
      · rename_i more heq
        obtain ⟨rfl, rfl⟩ := List.cons.inj heq
        have hsecond := hslash rest rfl
        cases rest with
        | nil => simp at hsecond
        | cons d tail =>
          simp only [List.head?_cons, Option.some.injEq] at hsecond
          subst hsecond
          rfl
      · rfl
  have hrest : lineRest (line ++ text) = line := by
    apply takeWhile_append_stop
    · intro c hc
      simp [hline c hc]
    · intro c hc
      simp [hend c hc]
  simp only [readLine, hdoc, hrest]
  rfl

end Comment

namespace Front

private theorem result_map_ne {α : Type} (reading : Reading α) (f : α → Lexeme) :
    (reading.map fun value => some (f value)).result ≠ .ok none := by
  obtain ⟨result, n⟩ := reading
  cases result <;> simp [Reading.map, Except.map]

/-- Trivia at the front of a text is one character of white space, a line comment of a remark, or a
closed block comment. -/
theorem read_eq_none {c : Char} {rest : List Char} {n : Nat} (h : read c rest = ⟨.ok none, n⟩) :
    (isBlank c = true ∧ n = 1) ∨
    (∃ text, c = '/' ∧ rest = '/' :: text ∧ Comment.isDocumentation text = false ∧
      n = 2 + (Comment.lineRest text).length) ∨
    ∃ text m, c = '/' ∧ rest = '*' :: text ∧ Comment.closing? text = some m ∧ n = 2 + m := by
  have hresult := congrArg Reading.result h
  have hlength := congrArg Reading.length h
  revert hresult hlength
  clear h
  fun_cases read c rest with
  | case1 => exact fun hresult => absurd hresult (result_map_ne _ id)
  | case2 => exact fun hresult => absurd hresult (result_map_ne _ id)
  | case3 => exact fun hresult => absurd hresult (result_map_ne _ id)
  | case4 => exact fun hresult => absurd hresult (result_map_ne _ id)
  | case5 => exact fun hresult => absurd hresult (result_map_ne _ _)
  | case6 => exact fun hresult => absurd hresult (result_map_ne _ _)
  | case7 _ _ _ _ _ _ hline =>
    obtain ⟨rfl, hslash⟩ := hline
    obtain ⟨text, rfl⟩ := List.head?_eq_some_iff.1 hslash
    intro hresult hlength
    refine Or.inr (Or.inl ⟨text, rfl, rfl, ?_⟩)
    rw [List.drop_one, List.tail_cons, Comment.readLine] at hresult hlength
    split at hresult
    · simp [Reading.found] at hresult
    · rename_i hdoc
      rw [if_neg hdoc] at hlength
      exact ⟨by simpa using hdoc, hlength.symm⟩
  | case8 _ _ _ _ _ _ _ hblock =>
    obtain ⟨rfl, hstar⟩ := hblock
    obtain ⟨text, rfl⟩ := List.head?_eq_some_iff.1 hstar
    intro hresult hlength
    rw [List.drop_one, List.tail_cons, Comment.readBlock] at hresult hlength
    cases hclose : Comment.closing? text with
    | none => simp [hclose, Reading.fault] at hresult
    | some m =>
      simp only [hclose] at hlength
      exact Or.inr (Or.inr ⟨text, m, rfl, rfl, hclose, hlength.symm⟩)
  | case9 => exact fun hresult => absurd hresult (result_map_ne _ id)
  | case10 _ _ _ _ _ _ _ _ hblank => exact fun _ hlength => Or.inl ⟨hblank, hlength.symm⟩
  | case11 => exact fun hresult => absurd hresult (by simp [Reading.fault])

/-- A piece of trivia at the front of a text is trivia in front of the trivia that follows it. -/
theorem trivia_take {c : Char} {rest gap text : List Char} {n : Nat}
    (h : read c rest = ⟨.ok none, n⟩) (hrest : (c :: rest).drop n = gap ++ text)
    (hgap : Trivia gap text) : Trivia ((c :: rest).take n ++ gap) text := by
  rcases read_eq_none h with
    ⟨hblank, rfl⟩ | ⟨line, rfl, rfl, hdoc, rfl⟩ | ⟨body, m, rfl, rfl, hclose, rfl⟩
  · exact .blank hblank hgap
  · have hend : LineEndHead (gap ++ text) := by
      rw [← hrest, Nat.add_comm]
      intro d hd
      simpa using stop_of_takeWhile (fun c => !isLineEnd c) line d hd
    rw [Nat.add_comm, List.take_succ_cons, List.take_succ_cons,
      show line.take (Comment.lineRest line).length = Comment.lineRest line from
        take_length_takeWhile _ line]
    exact .line (Comment.isRemark_lineRest hdoc) hend hgap
  · rw [Nat.add_comm, List.take_succ_cons, List.take_succ_cons]
    exact .block (Comment.isClosed_of_closing? hclose) hgap

end Front

namespace Upcoming

/-- What the reader passes over is trivia. -/
theorem trivia_gap (text : List Char) :
    Trivia (text.take (ofText text).gap) (text.drop (ofText text).gap) := by
  fun_induction ofText text with
  | case1 => exact .nil
  | case2 => exact .nil
  | case3 => exact .nil
  | case4 c rest n hfront next ih =>
    have hone := Front.one_le_length_read c rest
    rw [hfront] at hone
    obtain ⟨m, rfl⟩ := Nat.exists_eq_add_of_le' hone
    rw [Nat.add_sub_cancel] at ih
    have htake : (c :: rest).take (m + 1 + next.gap) =
        (c :: rest).take (m + 1) ++ (rest.drop m).take next.gap := List.take_add
    have hdrop : (c :: rest).drop (m + 1 + next.gap) = (rest.drop m).drop next.gap := by
      rw [Nat.add_right_comm, List.drop_succ_cons, List.drop_drop]
    show Trivia ((c :: rest).take (m + 1 + next.gap)) ((c :: rest).drop (m + 1 + next.gap))
    rw [htake, hdrop]
    exact Front.trivia_take hfront (List.take_append_drop _ _).symm ih

/-- The token that comes next is the front of the text behind the trivia. -/
theorem front_of_reading {text : List Char} {reading : Reading Lexeme}
    (h : (ofText text).reading = some reading) :
    ∃ c rest, text.drop (ofText text).gap = c :: rest ∧ Front.read c rest = reading.map some := by
  fun_induction ofText text with
  | case1 => cases h
  | case2 c rest fault n hfront =>
    cases h
    exact ⟨c, rest, rfl, hfront⟩
  | case3 c rest lexeme n hfront =>
    cases h
    exact ⟨c, rest, rfl, hfront⟩
  | case4 c rest n hfront next ih =>
    obtain ⟨d, more, hdrop, hread⟩ := ih h
    have hone := Front.one_le_length_read c rest
    rw [hfront] at hone
    obtain ⟨m, rfl⟩ := Nat.exists_eq_add_of_le' hone
    refine ⟨d, more, ?_, hread⟩
    rw [← hdrop]
    show (c :: rest).drop (m + 1 + next.gap) = (rest.drop m).drop next.gap
    rw [Nat.add_right_comm, List.drop_succ_cons, List.drop_drop]

theorem ofText_of_front {c : Char} {rest : List Char} {reading : Reading Lexeme}
    (h : Front.read c rest = reading.map some) : ofText (c :: rest) = ⟨0, some reading⟩ := by
  obtain ⟨result, n⟩ := reading
  cases result with
  | error fault =>
    rw [ofText, h]
    rfl
  | ok lexeme =>
    rw [ofText, h]
    rfl

theorem ofText_of_none {c : Char} {rest : List Char} {n : Nat}
    (h : Front.read c rest = .found none (n + 1)) :
    ofText (c :: rest) = ⟨n + 1 + (ofText (rest.drop n)).gap, (ofText (rest.drop n)).reading⟩ := by
  rw [ofText, h]
  rfl

/-- Trivia is passed over as a whole: what comes next is what comes next behind it. -/
theorem ofText_append {gap text : List Char} (h : Trivia gap text) :
    ofText (gap ++ text) = ⟨gap.length + (ofText text).gap, (ofText text).reading⟩ := by
  induction h with
  | nil => simp
  | @blank c gap text hblank _ ih =>
    rw [List.cons_append, ofText_of_none (n := 0) (Front.read_blank hblank _), List.drop_zero, ih]
    simp only [List.length_cons]
    congr 1
    omega
  | @block body gap text hclosed _ ih =>
    have hfront : Front.read '/' ('*' :: (body ++ gap ++ text)) =
        .found none (body.length + 1 + 1) := by
      rw [Front.read_slash_star, Comment.readBlock, List.append_assoc,
        Comment.closing?_append hclosed]
      exact congrArg (Reading.found none) (Nat.add_comm 2 _)
    rw [List.cons_append, List.cons_append, ofText_of_none hfront, List.drop_succ_cons,
      List.append_assoc, List.drop_left, ih]
    simp only [List.length_cons, List.length_append]
    congr 1
    omega
  | @line remark gap text hremark hend _ ih =>
    have hfront : Front.read '/' ('/' :: (remark ++ gap ++ text)) =
        .found none (remark.length + 1 + 1) := by
      rw [Front.read_slash_slash, List.append_assoc, Comment.readLine_remark hremark hend,
        Nat.add_comm]
    rw [List.cons_append, List.cons_append, ofText_of_none hfront, List.drop_succ_cons,
      List.append_assoc, List.drop_left, ih]
    simp only [List.length_cons, List.length_append]
    congr 1
    omega

end Upcoming

end Lexis
