import Lexis.Proofs.Stepwise.Moves

/-!
# Escapes read character by character

An escape can be resolved by moves over one character at a time: the cursor eats the marks and reads digit by digit,
goes on with a second escape where the first one is a surrogate, and is set back behind the first mark where they
spell no character. This leads to the same state as the piece that is read ahead. Main statement:
`Decoding.attempt_eq`.
-/

namespace Lexis

open Text

namespace Decoding

/-! ### Code units -/

/-- Reads a number of hexadecimal digits one by one, and stops in front of a character that is none. -/
def readDigits (tab : Nat) : Nat → Nat → Decoding → Option Nat × Decoding
  | 0, value, state => (some value, state)
  | n + 1, value, state =>
    match state.cursor.rest.head?.bind hexDigit? with
    | none => (none, state)
    | some digit => readDigits tab n (value * 16 + digit) (state.advance tab)

/-- Reads a code unit behind any number of marks. -/
def readUnit (tab : Nat) (state : Decoding) : Option Nat × Decoding :=
  readDigits tab 4 0 (state.eatWhile tab (· == 'u'))

/-- Reads an escape of a low surrogate, and no other. -/
def readLow (tab : Nat) (state : Decoding) : Option Nat × Decoding :=
  match state.cursor.rest with
  | '\\' :: 'u' :: _ =>
    let (unit, behind) := (state.advance tab).readUnit tab
    (unit.filter CodeUnit.isLow, behind)
  | _ => (none, state)

/-- Reads one code unit, and an escape of another one where the first is a surrogate. -/
def readChar (tab : Nat) (state : Decoding) : Option Char × Decoding :=
  match state.readUnit tab with
  | (none, behind) => (none, behind)
  | (some unit, behind) =>
    match CodeUnit.char? unit with
    | some c => (some c, behind)
    | none =>
      match behind.readLow tab with
      | (none, behind) => (none, behind)
      | (some low, behind) => (CodeUnit.pair? unit low, behind)

/-- The number that the first digits of a text add to the digits in front of them. -/
def digits? : Nat → Nat → List Char → Option Nat
  | 0, value, _ => some value
  | n + 1, value, text =>
    (text.head?.bind hexDigit?).bind fun digit => digits? n (value * 16 + digit) text.tail

theorem read?_eq_digits? (text : List Char) : CodeUnit.read? text = digits? 4 0 text := by
  rcases text with _ | ⟨a, _ | ⟨b, _ | ⟨c, _ | ⟨d, rest⟩⟩⟩⟩ <;>
    simp [CodeUnit.read?, digits?]

/-- Digits that are read one by one are moved over. -/
theorem readDigits_of_some (tab : Nat) {n value unit : Nat} {state : Decoding}
    (h : digits? n value state.cursor.rest = some unit) :
    state.readDigits tab n value = (some unit, state.move tab n) := by
  induction n generalizing value state with
  | zero =>
    cases h
    rfl
  | succ n ih =>
    rw [digits?, Option.bind_eq_some_iff] at h
    obtain ⟨digit, hdigit, h⟩ := h
    obtain ⟨c, hc, -⟩ := Option.bind_eq_some_iff.1 hdigit
    obtain ⟨more, hrest⟩ := List.head?_eq_some_iff.1 hc
    rw [hrest, List.tail_cons, ← rest_advance tab hrest] at h
    rw [readDigits, hdigit]
    dsimp only
    rw [ih h, advance_of_cons tab hrest, move_move, Nat.add_comm]

theorem readDigits_of_none (tab : Nat) {n value : Nat} {state : Decoding}
    (h : digits? n value state.cursor.rest = none) : (state.readDigits tab n value).1 = none := by
  induction n generalizing value state with
  | zero => cases h
  | succ n ih =>
    rw [digits?] at h
    rw [readDigits]
    cases hdigit : state.cursor.rest.head?.bind hexDigit? with
    | none => rfl
    | some digit =>
      obtain ⟨c, hc, -⟩ := Option.bind_eq_some_iff.1 hdigit
      obtain ⟨more, hrest⟩ := List.head?_eq_some_iff.1 hc
      rw [hdigit, Option.bind_some, hrest, List.tail_cons, ← rest_advance tab hrest] at h
      exact ih h

theorem rest_eatWhile (tab : Nat) (p : Char → Bool) (state : Decoding) :
    (state.eatWhile tab p).cursor.rest =
      state.cursor.rest.drop (state.cursor.rest.takeWhile p).length := by
  rw [eatWhile_eq, rest_move]

theorem readUnit_of_some (tab : Nat) {unit n : Nat} {state : Decoding}
    (h : Escape.unit? state.cursor.rest = some (unit, n)) :
    state.readUnit tab = (some unit, state.move tab n) := by
  rw [Escape.unit?, Option.map_eq_some_iff] at h
  obtain ⟨_, hread, hn⟩ := h
  cases hn
  rw [read?_eq_digits?, ← rest_eatWhile tab] at hread
  rw [readUnit, readDigits_of_some tab hread, eatWhile_eq, move_move]

theorem exists_of_readUnit {tab unit : Nat} {state : Decoding} (h : (state.readUnit tab).1 = some unit) :
    ∃ n, Escape.unit? state.cursor.rest = some (unit, n) := by
  cases hunit : Escape.unit? state.cursor.rest with
  | none =>
    rw [Escape.unit?, Option.map_eq_none_iff, read?_eq_digits?, ← rest_eatWhile tab] at hunit
    rw [readUnit, readDigits_of_none tab hunit] at h
    cases h
  | some found =>
    rw [readUnit_of_some tab hunit] at h
    cases h
    exact ⟨found.2, rfl⟩

/-- The first mark is one of those that are passed over. -/
theorem unit?_mark (text : List Char) :
    Escape.unit? ('u' :: text) = (Escape.unit? text).map fun (unit, n) => (unit, n + 1) := by
  rw [Escape.unit?, Escape.unit?, List.takeWhile_cons_of_pos rfl, List.length_cons, List.drop_succ_cons,
    Option.map_map]
  congr 1

theorem readLow_of_some (tab : Nat) {low m : Nat} {more : List Char} {state : Decoding}
    (hrest : state.cursor.rest = '\\' :: 'u' :: more) (h : Escape.unit? more = some (low, m))
    (hlow : CodeUnit.isLow low = true) : state.readLow tab = (some low, state.move tab (2 + m)) := by
  have hunit : Escape.unit? (state.advance tab).cursor.rest = some (low, m + 1) := by
    rw [rest_advance tab hrest, unit?_mark, h]
    rfl
  rw [readLow, hrest]
  simp only [readUnit_of_some tab hunit]
  rw [Option.filter_some_pos hlow, advance_of_cons tab hrest, move_move, show 1 + (m + 1) = 2 + m by omega]

theorem exists_of_readLow {tab low : Nat} {state : Decoding} (h : (state.readLow tab).1 = some low) :
    ∃ more m, state.cursor.rest = '\\' :: 'u' :: more ∧ Escape.unit? more = some (low, m) := by
  unfold readLow at h
  split at h
  · rename_i more hmore
    obtain ⟨n, hn⟩ := exists_of_readUnit (Option.filter_eq_some_iff.1 h).1
    rw [rest_advance tab hmore, unit?_mark, Option.map_eq_some_iff] at hn
    obtain ⟨⟨found, m⟩, hm, hsame⟩ := hn
    cases hsame
    exact ⟨more, m, hmore, hm⟩
  · cases h

theorem isLow_of_pair? {high low : Nat} {c : Char} (h : CodeUnit.pair? high low = some c) :
    CodeUnit.isLow low = true := by
  obtain ⟨hboth, -⟩ := Option.ite_none_right_eq_some.1 h
  exact (Bool.and_eq_true_iff.1 hboth).2

/-- A character that is read ahead is read digit by digit too, and what spells it is moved over. -/
theorem readChar_of_some (tab : Nat) {piece : Piece} {state : Decoding}
    (h : Escape.unicode? state.cursor.rest = some piece) :
    ∃ c, state.readChar tab = (some c, state.move tab piece.length) ∧ piece.text = [c] := by
  unfold Escape.unicode? at h
  simp only [Option.bind_eq_bind, Option.bind_eq_some_iff] at h
  obtain ⟨⟨unit, n⟩, hunit, h⟩ := h
  rw [readChar, readUnit_of_some tab hunit]
  dsimp only at h ⊢
  cases hchar : CodeUnit.char? unit with
  | some c =>
    rw [hchar] at h
    cases h
    exact ⟨c, rfl, rfl⟩
  | none =>
    rw [hchar] at h
    dsimp only at h ⊢
    split at h
    · rename_i more hmore
      simp only [Option.bind_eq_some_iff, Option.some.injEq] at h
      obtain ⟨⟨low, m⟩, hlow, c, hc, rfl⟩ := h
      have hread : (state.move tab n).readLow tab = (some low, (state.move tab n).move tab (2 + m)) :=
        readLow_of_some tab hmore hlow (isLow_of_pair? hc)
      rw [hread, move_move]
      refine ⟨c, ?_, rfl⟩
      rw [Nat.add_assoc, ← hc]
    · cases h

theorem readChar_of_none (tab : Nat) {state : Decoding} (h : Escape.unicode? state.cursor.rest = none) :
    (state.readChar tab).1 = none := by
  rw [Option.eq_none_iff_forall_ne_some]
  intro c hc
  unfold readChar at hc
  split at hc
  · cases hc
  rename_i unit behind hread
  obtain ⟨n, hunit⟩ := exists_of_readUnit (congrArg Prod.fst hread)
  rw [readUnit_of_some tab hunit] at hread
  cases hread
  split at hc
  · rename_i hchar
    simp [Escape.unicode?, hunit, hchar] at h
  · rename_i hsurrogate
    split at hc
    · cases hc
    rename_i low behind hlow
    obtain ⟨more, m, hmore, hm⟩ := exists_of_readLow (congrArg Prod.fst hlow)
    rw [rest_move] at hmore
    dsimp only at hc
    simp [Escape.unicode?, hunit, hsurrogate, hmore, hm, hc] at h

/-! ### Escapes -/

/-- Reads what stands behind the first mark, and is set back there where this spells no character. -/
def readUnicode (tab : Nat) (state : Decoding) : Decoding :=
  match state.readChar tab with
  | (some c, behind) => behind.push [c]
  | (none, _) => state.push ['\\', 'u']

/-- Reads what stands behind the backslash. -/
def readBehind (tab : Nat) (state : Decoding) : Decoding :=
  match state.cursor.rest with
  | [] => state.push ['\\']
  | c :: rest =>
    match Escape.letter? c with
    | some decoded => (state.advance tab).push [decoded]
    | none =>
      if c = '\n' ∨ (c = '\r' ∧ rest.head? = some '\n') then (state.advance tab).eatWhile tab isBlank
      else if c = 'u' then (state.advance tab).readUnicode tab
      else state.push ['\\']

/-- An attempt at an escape: whether there was one, and the state behind it. -/
def attempt (tab : Nat) (state : Decoding) : Bool × Decoding :=
  if state.cursor.rest.head? = some '\\' then (true, (state.advance tab).readBehind tab)
  else (false, state)

theorem readUnicode_of_some (tab : Nat) {piece : Piece} {state : Decoding}
    (h : Escape.unicode? state.cursor.rest = some piece) : state.readUnicode tab = state.take tab piece := by
  obtain ⟨c, hread, htext⟩ := readChar_of_some tab h
  rw [readUnicode, hread, take_eq, htext]

/-- Where no character is spelled, it does not count how far the cursor has got. -/
theorem readUnicode_of_none (tab : Nat) {state : Decoding}
    (h : Escape.unicode? state.cursor.rest = none) : state.readUnicode tab = state.push ['\\', 'u'] := by
  have hread := readChar_of_none tab h
  unfold readUnicode
  split
  · rename_i hsome
    rw [hsome] at hread
    cases hread
  · rfl

/-- What is read behind a backslash is the piece that is read ahead. -/
theorem readBehind_eq (tab : Nat) {state : Decoding} {rest : List Char}
    (hrest : state.cursor.rest = '\\' :: rest) :
    (state.advance tab).readBehind tab = state.take tab (Escape.read rest) := by
  have hbehind := rest_advance tab hrest
  cases rest with
  | nil =>
    rw [readBehind, hbehind, advance_of_cons tab hrest]
    rfl
  | cons c more =>
    have hnext : (state.advance tab).advance tab = state.move tab 2 := by
      rw [advance_of_cons tab hbehind, advance_of_cons tab hrest, move_move]
    have hmore : (state.move tab 2).cursor.rest = more := by
      rw [rest_move, hrest]
      rfl
    rw [readBehind, hbehind]
    dsimp only
    rw [hnext]
    cases hletter : Escape.letter? c with
    | some decoded =>
      rw [Escape.read_letter hletter]
      rfl
    | none =>
      dsimp only
      split
      · rename_i hbreak
        rw [eatWhile_eq, move_move, hmore, Escape.read_break hbreak, take_eq, push_nil]
      rename_i hbreak
      split
      · rename_i hmark
        subst hmark
        cases hunicode : Escape.unicode? more with
        | some piece =>
          rw [Escape.read_unicode hunicode]
          rw [← hmore] at hunicode
          rw [readUnicode_of_some tab hunicode, take_eq, take_eq, move_move]
        | none =>
          rw [Escape.read_mark hunicode]
          rw [← hmore] at hunicode
          exact readUnicode_of_none tab hunicode
      · rename_i hmark
        rw [Escape.read_other hletter hbreak hmark, advance_of_cons tab hrest]
        rfl

theorem attempt_of_backslash (tab : Nat) {state : Decoding} {rest : List Char}
    (hrest : state.cursor.rest = '\\' :: rest) :
    state.attempt tab = (true, state.take tab (Escape.read rest)) := by
  rw [attempt, hrest, if_pos (List.head?_cons), readBehind_eq tab hrest]

theorem attempt_of_ne (tab : Nat) {state : Decoding} (h : state.cursor.rest.head? ≠ some '\\') :
    state.attempt tab = (false, state) := if_neg h

/-- Moving character by character, an attempt resolves the escape that is read ahead, and there is one exactly where
a backslash stands. -/
theorem attempt_eq (tab : Nat) (state : Decoding) :
    state.attempt tab =
      match state.resolve tab with
      | some next => (true, next)
      | none => (false, state) := by
  by_cases hback : state.cursor.rest.head? = some '\\'
  · obtain ⟨rest, hrest⟩ := List.head?_eq_some_iff.1 hback
    rw [attempt_of_backslash tab hrest, resolve_of_backslash tab hrest]
  · have hnone : state.resolve tab = none := by
      unfold resolve
      split
      · rename_i rest hrest
        rw [hrest] at hback
        exact absurd rfl hback
      · rfl
    rw [attempt_of_ne tab hback, hnone]

end Decoding

end Lexis
