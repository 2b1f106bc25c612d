import Lexis.Operator.Munch
import Lexis.Proofs.Lookahead.Quoted
import Lexis.Word

/-!
# How far words and operators look ahead

A word, a name and an operator look at the one character behind them.
-/

namespace Lexis

open Text

namespace Word

theorem isPart_of_isBlank {c : Char} (h : isBlank c = true) : isPart c = false := by
  have hall : (blanks.all fun d => !isPart d) = true := by decide
  simpa using of_isBlank hall h

theorem run_congr {front rest after : List Char} (h : Room 1 (run (front ++ rest)).length front after) :
    run (front ++ after) = run (front ++ rest) :=
  takeWhile_of_room (fun _ hc => isPart_of_isBlank hc) h

theorem read_congr {c : Char} {front rest after : List Char}
    (h : (read (c :: (front ++ rest))).Settled 1 (c :: front) after) :
    read (c :: (front ++ after)) = read (c :: (front ++ rest)) := by
  have hroom : Room 1 (run (c :: (front ++ rest))).length (c :: front) after :=
    h.room_front (Nat.le_refl 1) (Nat.le_refl _)
  have hrun : run (c :: (front ++ after)) = run (c :: (front ++ rest)) :=
    @run_congr (c :: front) rest after hroom
  rw [read, read, hrun]

/-- A well-formed atom or verbatim string is longer than its number sign. -/
theorem two_le_length_readMarked {text : List Char} (h : (readMarked text).result.isOk = true) :
    2 ≤ (readMarked text).length := by
  unfold readMarked at h ⊢
  split at h
  · cases h
  · rename_i c rest
    split at h
    · rename_i hquote
      rw [if_pos hquote, Reading.length_shift]
      omega
    · rename_i hquote
      rw [if_neg hquote]
      split at h
      · rename_i halpha
        have hone : 1 ≤ (run (c :: rest)).length := one_le_length_read rest halpha
        rw [if_pos halpha, Reading.length_found]
        omega
      · cases h

theorem readMarked_congr {mark : Char} {front rest after : List Char}
    (h : (readMarked (front ++ rest)).Settled 2 (mark :: front) after) :
    readMarked (front ++ after) = readMarked (front ++ rest) := by
  cases front with
  | nil =>
    rcases h with h | ⟨hok, hlength, -⟩
    · simp at h
    · have htwo := two_le_length_readMarked hok
      simp only [List.length_cons, List.length_nil] at hlength
      omega
  | cons c front =>
    rw [List.cons_append] at h
    rw [List.cons_append, List.cons_append]
    by_cases hquote : Quoted.isQuote c = true
    · simp only [readMarked, hquote, if_true] at h ⊢
      have hinner : (Quoted.readRaw c (front ++ rest)).Settled 2 front after := h.of_shift.of_map
      have hok := hinner.isOk_of_lt fun hopen => by
        rw [Quoted.length_readRaw_of_not_isOk hopen, List.length_append]
        omega
      rw [Quoted.readRaw_congr hok hinner.length_le]
    · by_cases halpha : c.isAlpha = true
      · simp only [readMarked, if_neg hquote, if_pos halpha] at h ⊢
        have hroom : Room 1 (run (c :: (front ++ rest))).length (c :: front) after :=
          h.room (show 1 ≤ 2 by decide) (Nat.le_refl _)
        have hrun : run (c :: (front ++ after)) = run (c :: (front ++ rest)) :=
          @run_congr (c :: front) rest after hroom
        rw [hrun]
      · simp [readMarked, hquote, halpha]

theorem readExtended_congr {tick : Char} {front rest after : List Char}
    (h : (readExtended (front ++ rest)).Settled 1 (tick :: front) after) :
    readExtended (front ++ after) = readExtended (front ++ rest) := by
  have hlt : ((front ++ rest).takeWhile fun c => c != '\x60' && !isLineEnd c).length + 1 ≤
      front.length := by
    have hdrop := List.length_drop (l := front ++ rest)
      (i := ((front ++ rest).takeWhile fun c => c != '\x60' && !isLineEnd c).length)
    unfold readExtended at h
    dsimp only at h
    split at h
    · rename_i hnil
      rw [hnil, List.length_nil, List.length_append] at hdrop
      rcases h with h | ⟨hok, -⟩
      · simp only [Reading.length_fault, List.length_cons] at h
        omega
      · cases hok
    · split at h
      · have hle := h.length_le
        simp only [Reading.length_found, List.length_cons] at hle
        omega
      · rcases h with h | ⟨hok, -⟩
        · simp only [Reading.length_fault, List.length_cons] at h
          omega
        · cases hok
  have hword : ((front ++ after).takeWhile fun c => c != '\x60' && !isLineEnd c) =
      (front ++ rest).takeWhile fun c => c != '\x60' && !isLineEnd c := takeWhile_congr (Or.inl hlt)
  unfold readExtended
  dsimp only
  rw [hword, List.drop_append_of_le_length (Nat.le_of_lt hlt),
    List.drop_append_of_le_length (Nat.le_of_lt hlt)]
  cases hstop : front.drop
      ((front ++ rest).takeWhile fun c => c != '\x60' && !isLineEnd c).length with
  | nil =>
    have hlength := congrArg List.length hstop
    rw [List.length_drop, List.length_nil] at hlength
    omega
  | cons c tail => rfl

end Word

namespace Operator

/-- No operator holds white space. -/
theorem ofSpelling?_push_of_blank (op : Operator) {c : Char} (h : isBlank c = true) :
    ofSpelling? (op.spelling.push c) = none := by
  cases hlonger : ofSpelling? (op.spelling.push c) with
  | none => rfl
  | some longer =>
    have hmem : c ∈ longer.spelling.toList := by
      rw [spelling_of_ofSpelling? hlonger, String.toList_push]
      simp
    have hall : longer.spelling.toList.all (fun d => !isBlank d) = true := by
      cases longer <;> decide
    have hblank := List.all_eq_true.1 hall c hmem
    rw [h] at hblank
    cases hblank

theorem grow_of_blankHead (op : Operator) {text : List Char} (h : BlankHead text) :
    op.grow text = op := by
  cases text with
  | nil => rfl
  | cons c rest => rw [grow, ofSpelling?_push_of_blank op (h c rfl)]

theorem grow_cons_of_some {op longer : Operator} {c : Char}
    (h : ofSpelling? (op.spelling.push c) = some longer) (rest : List Char) :
    op.grow (c :: rest) = longer.grow rest := by
  rw [grow, h]

theorem grow_cons_of_none {op : Operator} {c : Char} (h : ofSpelling? (op.spelling.push c) = none)
    (rest : List Char) : op.grow (c :: rest) = op := by
  rw [grow, h]

theorem length_spelling_le_grow (op : Operator) (text : List Char) :
    op.spelling.length ≤ (op.grow text).spelling.length := by
  induction text generalizing op with
  | nil => exact Nat.le_refl _
  | cons c rest ih =>
    cases hlonger : ofSpelling? (op.spelling.push c) with
    | none => rw [grow_cons_of_none hlonger]
    | some longer =>
      have hle := ih longer
      rw [spelling_of_ofSpelling? hlonger, String.length_push] at hle
      rw [grow_cons_of_some hlonger]
      omega

theorem grow_congr {op : Operator} {front rest after : List Char}
    (h : Room 1 ((op.grow (front ++ rest)).spelling.length - op.spelling.length) front after) :
    op.grow (front ++ after) = op.grow (front ++ rest) := by
  induction front generalizing op with
  | nil =>
    rcases h with h | ⟨h, hafter⟩
    · simp at h
    · rw [List.nil_append, List.length_nil] at h
      rw [List.nil_append, List.nil_append, grow_of_blankHead op hafter]
      cases rest with
      | nil => rfl
      | cons c rest =>
        cases hlonger : ofSpelling? (op.spelling.push c) with
        | none => rw [grow_cons_of_none hlonger]
        | some longer =>
          have hle := length_spelling_le_grow longer rest
          rw [spelling_of_ofSpelling? hlonger, String.length_push] at hle
          rw [grow_cons_of_some hlonger] at h
          omega
  | cons c front ih =>
    rw [List.cons_append] at h
    rw [List.cons_append, List.cons_append]
    cases hlonger : ofSpelling? (op.spelling.push c) with
    | none => rw [grow_cons_of_none hlonger, grow_cons_of_none hlonger]
    | some longer =>
      have hspelling := congrArg String.length (spelling_of_ofSpelling? hlonger)
      rw [String.length_push] at hspelling
      have hle := length_spelling_le_grow longer (front ++ rest)
      rw [grow_cons_of_some hlonger] at h
      rw [grow_cons_of_some hlonger, grow_cons_of_some hlonger]
      apply ih
      rcases h with h | ⟨h, hafter⟩
      · rw [List.length_cons] at h
        exact Or.inl (by omega)
      · rw [List.length_cons] at h
        exact Or.inr ⟨by omega, hafter⟩

theorem munch?_congr {c : Char} {front rest after : List Char} {op : Operator}
    (hop : munch? (c :: (front ++ rest)) = some op)
    (h : Room 1 op.spelling.length (c :: front) after) :
    munch? (c :: (front ++ after)) = some op := by
  rw [munch?, Option.map_eq_some_iff] at hop
  obtain ⟨first, hfirst, rfl⟩ := hop
  have hone : first.spelling.length = 1 := by
    rw [spelling_of_ofSpelling? hfirst, String.length_singleton]
  have hle := length_spelling_le_grow first (front ++ rest)
  rw [munch?, hfirst, Option.map_some, grow_congr]
  rcases h with h | ⟨h, hafter⟩
  · rw [List.length_cons] at h
    exact Or.inl (by omega)
  · rw [List.length_cons] at h
    exact Or.inr ⟨by omega, hafter⟩

end Operator

end Lexis
