import Lexis.Proofs.Readings
import Lexis.Proofs.Runs

/-!
# Room behind a reading

A text is read as `front ++ rest`, and then as `front ++ after`. Both readings agree where there is room
behind the reading: enough characters of `front` that the reader looks no further, or nothing but white
space where `front` ends.
-/

namespace Lexis

open Text

/-- Behind `n` characters there are `k` more of `front`, or `after` starts no further character of any
token. -/
def Room (k n : Nat) (front after : List Char) : Prop :=
  n + k ≤ front.length ∨ n ≤ front.length ∧ BlankHead after

theorem Room.le {k n : Nat} {front after : List Char} (h : Room k n front after) :
    n ≤ front.length := by
  rcases h with h | h
  · omega
  · exact h.1

/-- A reading is settled where there is room behind it; where it reaches the end of `front` it has to be
well-formed too, since what is malformed may go on. -/
def Reading.Settled {α : Type} (k : Nat) (reading : Reading α) (front after : List Char) : Prop :=
  reading.length + k ≤ front.length ∨
    reading.result.isOk = true ∧ reading.length ≤ front.length ∧ BlankHead after

namespace Reading.Settled

/-- There is room behind each part of what a settled reading takes up. -/
theorem room {α : Type} {k : Nat} {reading : Reading α} {front after : List Char}
    (h : reading.Settled k front after) {j m n : Nat} (hj : j ≤ k) (hn : m + n ≤ reading.length) :
    Room j n (front.drop m) after := by
  rcases h with h | ⟨-, h, hafter⟩
  · refine Or.inl ?_
    rw [List.length_drop]
    omega
  · refine Or.inr ⟨?_, hafter⟩
    rw [List.length_drop]
    omega

theorem room_front {α : Type} {k : Nat} {reading : Reading α} {front after : List Char}
    (h : reading.Settled k front after) {j n : Nat} (hj : j ≤ k) (hn : n ≤ reading.length) :
    Room j n front after := by
  have hroom := h.room hj (Nat.le_trans (Nat.le_of_eq (Nat.zero_add n)) hn)
  rwa [List.drop_zero] at hroom

theorem length_le {α : Type} {k : Nat} {reading : Reading α} {front after : List Char}
    (h : reading.Settled k front after) : reading.length ≤ front.length := by
  rcases h with h | ⟨-, h, -⟩
  · omega
  · exact h

/-- A reading that would take up more than `front` where it fails is well-formed. -/
theorem isOk_of_lt {α : Type} {k : Nat} {reading : Reading α} {front after : List Char}
    (h : reading.Settled (k + 1) front after)
    (hfail : reading.result.isOk = false → front.length ≤ reading.length) :
    reading.result.isOk = true := by
  rcases h with h | ⟨hok, -⟩
  · cases hok : reading.result.isOk with
    | true => rfl
    | false =>
      have hle := hfail hok
      omega
  · exact hok

theorem mono {α : Type} {j k : Nat} {reading : Reading α} {front after : List Char}
    (h : reading.Settled k front after) (hj : j ≤ k) : reading.Settled j front after := by
  rcases h with h | h
  · exact Or.inl (by omega)
  · exact Or.inr h

theorem of_map {α β : Type} {f : α → β} {k : Nat} {reading : Reading α} {front after : List Char}
    (h : (reading.map f).Settled k front after) : reading.Settled k front after := by
  simpa [Settled] using h

theorem of_shift {α : Type} {k m : Nat} {reading : Reading α} {front after : List Char}
    (h : (reading.shift m).Settled k front after) : reading.Settled k (front.drop m) after := by
  rcases h with h | ⟨hok, h, hafter⟩
  · rw [Reading.length_shift] at h
    refine Or.inl ?_
    rw [List.length_drop]
    omega
  · rw [Reading.length_shift] at h
    refine Or.inr ⟨hok, ?_, hafter⟩
    rw [List.length_drop]
    omega

theorem of_cons {k : Nat} {piece : Piece} {reading : Reading (List Char)}
    {front after : List Char} (h : (reading.cons piece).Settled k front after) :
    reading.Settled k (front.drop piece.length) after :=
  h.of_shift.of_map

end Reading.Settled

/-- A run is found again where it ends inside `front`, or at its end with no further character of the
class behind it. -/
theorem takeWhile_congr {p : Char → Bool} {front rest after : List Char}
    (h : ((front ++ rest).takeWhile p).length + 1 ≤ front.length ∨
      ((front ++ rest).takeWhile p).length ≤ front.length ∧ ∀ c ∈ after.head?, p c = false) :
    (front ++ after).takeWhile p = (front ++ rest).takeWhile p := by
  induction front with
  | nil =>
    rcases h with h | ⟨h, hstop⟩
    · simp at h
    · rw [List.nil_append, List.length_nil] at h
      rw [List.nil_append, List.nil_append, List.eq_nil_of_length_eq_zero (Nat.le_zero.1 h)]
      exact @takeWhile_append_stop p [] after (by simp) hstop
  | cons c front ih =>
    rw [List.cons_append, List.cons_append, List.takeWhile_cons, List.takeWhile_cons]
    cases hc : p c with
    | true =>
      rw [List.cons_append, List.takeWhile_cons_of_pos hc] at h
      simp only [List.length_cons] at h
      rw [if_pos rfl, if_pos rfl, ih]
      rcases h with h | ⟨h, hstop⟩
      · exact Or.inl (by omega)
      · exact Or.inr ⟨by omega, hstop⟩
    | false => rfl

/-- A run that ends inside `front` splits it at the character that ends the run. -/
theorem exists_split_of_takeWhile {p : Char → Bool} {front rest : List Char}
    (h : ((front ++ rest).takeWhile p).length + 1 ≤ front.length) :
    ∃ run d tail, front = run ++ d :: tail ∧ (∀ c ∈ run, p c = true) ∧ p d = false := by
  have hstop := stop_of_takeWhile p (front ++ rest)
  have hrun : front.take ((front ++ rest).takeWhile p).length = (front ++ rest).takeWhile p := by
    rw [← List.take_append_of_le_length (Nat.le_of_lt h), take_length_takeWhile]
  rw [List.drop_append_of_le_length (Nat.le_of_lt h)] at hstop
  cases htail : front.drop ((front ++ rest).takeWhile p).length with
  | nil =>
    have hlength := congrArg List.length htail
    rw [List.length_drop, List.length_nil] at hlength
    omega
  | cons d tail =>
    rw [htail] at hstop
    refine ⟨(front ++ rest).takeWhile p, d, tail, ?_, fun c hc => List.mem_takeWhile_imp hc,
      hstop d rfl⟩
    rw [← htail, ← hrun, List.length_take, Nat.min_eq_left (Nat.le_of_lt h), List.take_append_drop]

theorem takeWhile_of_room {p : Char → Bool} {front rest after : List Char}
    (hp : ∀ c, isBlank c = true → p c = false)
    (h : Room 1 ((front ++ rest).takeWhile p).length front after) :
    (front ++ after).takeWhile p = (front ++ rest).takeWhile p := by
  apply takeWhile_congr
  rcases h with h | ⟨h, hafter⟩
  · exact Or.inl h
  · exact Or.inr ⟨h, fun c hc => hp c (hafter c hc)⟩

end Lexis
