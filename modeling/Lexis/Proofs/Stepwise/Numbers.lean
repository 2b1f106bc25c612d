import Lexis.Literal.Number
import Lexis.Proofs.Lookahead.Number
import Lexis.Proofs.Stepwise.Scans
import Lexis.Proofs.Written.Number

/-!
# Scanners of numbers

The digits of a radix are read in one loop. A decimal literal is read in another one, which keeps in mind whether
the literal is a float already, and looks at the text so far to tell whether it has a fraction or an exponent. Main
statement: `Number.delivers_scan`.
-/

namespace Lexis

namespace Digits

/-- A turn of the loop over digits and separators. -/
def turn (tab : Nat) (isDigit : Char → Bool) (state : Decoding) : Turn :=
  match state.cursor.rest with
  | [] => .finish none state
  | c :: _ =>
    if isDigit c then .again ((state.push [c]).advance tab)
    else if c = '_' then .again (state.advance tab)
    else .finish none state

/-- The digits at the front of a text, as a reading. -/
def read (isDigit : Char → Bool) (text : List Char) : Reading (List Char) :=
  .found (ofRun (run isDigit text)) (run isDigit text).length

theorem run_cons {isDigit : Char → Bool} {c : Char} (h : isDigit c = true ∨ c = '_') (rest : List Char) :
    run isDigit (c :: rest) = c :: run isDigit rest := by
  refine List.takeWhile_cons_of_pos ?_
  rwa [Bool.or_eq_true, beq_iff_eq]

theorem run_stop {isDigit : Char → Bool} {c : Char} (h : ¬ isDigit c = true) (hc : c ≠ '_')
    (rest : List Char) : run isDigit (c :: rest) = [] :=
  List.takeWhile_cons_of_neg (by simp [h, hc])

theorem ofRun_digit {c : Char} (h : c ≠ '_') (digits : List Char) : ofRun (c :: digits) = c :: ofRun digits :=
  List.filter_cons_of_pos (by simpa using h)

theorem ofRun_separator (digits : List Char) : ofRun ('_' :: digits) = ofRun digits :=
  List.filter_cons_of_neg (by decide)

theorem follows_turn (tab : Nat) {isDigit : Char → Bool} (hseparator : isDigit '_' = false) (state : Decoding) :
    Turn.Follows tab (read isDigit ·.cursor.rest) state (turn tab isDigit state) := by
  cases hrest : state.cursor.rest with
  | nil =>
    simp only [turn, hrest]
    refine Turn.follows_stop tab ?_
    rw [hrest]
    rfl
  | cons c rest =>
    simp only [turn, hrest]
    by_cases hdigit : isDigit c = true
    · rw [if_pos hdigit]
      refine Turn.follows_push tab hrest ?_
      rw [Decoding.rest_take_verbatim tab hrest, hrest, read, read, run_cons (.inl hdigit),
        ofRun_digit (ne_of_class hdigit hseparator), List.length_cons, Nat.add_comm]
      rfl
    rw [if_neg hdigit]
    by_cases hc : c = '_'
    · subst hc
      rw [if_pos rfl]
      refine Turn.follows_skip tab hrest ?_
      rw [Decoding.rest_advance tab hrest, hrest, read, read, run_cons (.inr rfl), ofRun_separator,
        List.length_cons, Nat.add_comm]
      rfl
    · rw [if_neg hc]
      refine Turn.follows_stop tab ?_
      rw [hrest, read, run_stop hdigit hc]
      rfl

end Digits

namespace Radix

theorem shortens_turn (tab : Nat) (radix : Radix) : Turn.Shortens (Digits.turn tab radix.isDigit) :=
  Turn.shortens_of_follows (Digits.follows_turn tab radix.isDigit_underscore)

/-- Scans the digits behind a mark. -/
def scan (tab : Nat) (radix : Radix) (state : Decoding) : Scan :=
  let last := (Turn.run (Digits.turn tab radix.isDigit) (radix.shortens_turn tab) state).2
  if last.text.isEmpty then (some (last.error radix.fault), last)
  else (some (last.token (.ofValue radix.kind last.text)), last)

theorem delivers_scan (tab : Nat) (radix : Radix) (state : Decoding) (htext : state.text = []) :
    Delivers tab state ((radix.read state.cursor.rest).map some) (radix.scan tab state) := by
  obtain ⟨fault, text, n, hrun, hread⟩ :=
    Turn.run_eq (Digits.follows_turn tab radix.isDigit_underscore) (radix.shortens_turn tab) state
  rw [scan, hrun]
  cases fault with
  | some fault => cases hread
  | none =>
    cases hread
    dsimp only
    rw [Decoding.text_push_move tab _ htext, read]
    split
    · exact .error tab _ state _ radix.fault
    · exact .token tab _ state _ _

end Radix

namespace Decimal

/-- Reads on in a literal. The flags tell whether it has a fraction and an exponent already; where it has one of
them, no separator can stand among its digits. -/
def readOn (fraction exponent : Bool) (text : List Char) : Reading (List Char) :=
  let whole := if fraction || exponent then text.takeWhile Char.isDigit else Digits.run Char.isDigit text
  (readParts fraction exponent (text.drop whole.length)).cons ⟨Digits.ofRun whole, whole.length⟩

section

variable (fraction exponent : Bool) {c : Char}

theorem readOn_nil : readOn fraction exponent [] = .found [] 0 := by
  rw [readOn, Digits.run, List.takeWhile_nil, List.takeWhile_nil, ite_self, List.drop_nil, readParts]
  rfl

/-- Behind a fraction or an exponent, digits alone are read on. -/
theorem readOn_float (h : (fraction || exponent) = true) (text : List Char) :
    readOn fraction exponent text =
      (readParts fraction exponent (text.drop (text.takeWhile Char.isDigit).length)).cons
        ⟨text.takeWhile Char.isDigit, (text.takeWhile Char.isDigit).length⟩ := by
  have hdigits : ∀ c ∈ text.takeWhile Char.isDigit, c.isDigit = true := fun _ hc => List.mem_takeWhile_imp hc
  rw [readOn, if_pos h, Digits.ofRun_of_digits rfl hdigits]

theorem readOn_digit (h : c.isDigit = true) (rest : List Char) :
    readOn fraction exponent (c :: rest) = (readOn fraction exponent rest).cons (.verbatim c) := by
  have hc : c ≠ '_' := ne_of_class h rfl
  rw [readOn, readOn, Reading.cons_cons]
  split
  · rw [List.takeWhile_cons_of_pos h, Digits.ofRun_digit hc, List.length_cons, List.drop_succ_cons, Nat.add_comm]
    rfl
  · rw [Digits.run_cons (.inl h), Digits.ofRun_digit hc, List.length_cons, List.drop_succ_cons, Nat.add_comm]
    rfl

theorem readOn_separator (rest : List Char) :
    readOn false false ('_' :: rest) = (readOn false false rest).cons ⟨[], 1⟩ := by
  rw [readOn, readOn, Reading.cons_cons, Bool.or_false, if_neg Bool.false_ne_true, if_neg Bool.false_ne_true,
    Digits.run_cons (.inr rfl), Digits.ofRun_separator, List.length_cons, List.drop_succ_cons, Nat.add_comm]
  rfl

/-- Where no digit stands, and no separator that is passed over, the literal goes on with a part or ends. -/
theorem readOn_part (h : ¬ c.isDigit = true) (hseparator : c = '_' → (fraction || exponent) = true)
    (rest : List Char) :
    readOn fraction exponent (c :: rest) = readParts fraction exponent (c :: rest) := by
  have hdigits : (c :: rest).takeWhile Char.isDigit = [] := List.takeWhile_cons_of_neg h
  rw [readOn]
  split
  · rw [hdigits]
    exact Reading.cons_nil _
  · rename_i hinteger
    rw [Digits.run_stop h fun hc => hinteger (hseparator hc)]
    exact Reading.cons_nil _

theorem isEmpty_digits (text : List Char) :
    (text.takeWhile Char.isDigit).isEmpty = !text.head?.any Char.isDigit := by
  cases text with
  | nil => rfl
  | cons c rest =>
    rw [List.head?_cons, Option.any_some]
    cases hc : c.isDigit with
    | true => rw [List.takeWhile_cons_of_pos hc, List.isEmpty_cons, Bool.not_true]
    | false => rw [List.takeWhile_cons_of_neg (by simp [hc]), List.isEmpty_nil, Bool.not_false]

theorem readOn_dot {rest : List Char} (h : rest.head?.any Char.isDigit = true) :
    readOn fraction exponent ('.' :: rest) =
      if fraction then .fault .invalidFloatNumber 0
      else (readOn true exponent rest).cons (.verbatim '.') := by
  rw [readOn_part _ _ (by decide) (by simp), readParts_dot rfl, isEmpty_digits, h, if_neg (by decide)]
  split
  · rfl
  · rw [readOn_float true exponent rfl, Reading.cons_cons]
    rfl

theorem readOn_dot_end {rest : List Char} (h : ¬ rest.head?.any Char.isDigit = true) :
    readOn fraction exponent ('.' :: rest) = .found [] 0 := by
  rw [readOn_part _ _ (by decide) (by simp), readParts_dot rfl, isEmpty_digits, if_pos (by simpa using h)]

theorem readOn_mark (hc : c = 'e' ∨ c = 'E') (rest : List Char) :
    readOn fraction exponent (c :: rest) =
      if exponent then .fault .invalidFloatNumber 0
      else if (rest.drop (sign rest).length).head?.any Char.isDigit then
        (readOn fraction true (rest.drop (sign rest).length)).cons ⟨'e' :: sign rest, 1 + (sign rest).length⟩
      else .fault .invalidFloatNumber (1 + (sign rest).length) := by
  have hdigit : ¬ c.isDigit = true := by rcases hc with rfl | rfl <;> decide
  have hseparator : c ≠ '_' := by rcases hc with rfl | rfl <;> decide
  rw [readOn_part _ _ hdigit fun h => absurd h hseparator, readParts_mark hc]
  split
  · rfl
  rw [readExponent, isEmpty_digits]
  cases hany : (rest.drop (sign rest).length).head?.any Char.isDigit with
  | false => rfl
  | true =>
    rw [if_neg (by decide), if_pos rfl, readOn_float fraction true (Bool.or_true _), Reading.cons_cons,
      List.drop_drop, Nat.add_assoc]
    rfl

theorem readOn_stop (hdigit : ¬ c.isDigit = true) (hdot : c ≠ '.') (hmark : ¬ (c = 'e' ∨ c = 'E'))
    (hseparator : c = '_' → (fraction || exponent) = true) (rest : List Char) :
    readOn fraction exponent (c :: rest) =
      if c = '_' then .fault .underscoreInFloat 0 else .found [] 0 := by
  rw [readOn_part _ _ hdigit hseparator, readParts_other hdot hmark]
  by_cases hc : c = '_'
  · have hfloat : fraction = true ∨ exponent = true := Bool.or_eq_true _ _ ▸ hseparator hc
    rw [if_pos ⟨hc, hfloat⟩, if_pos hc]
  · rw [if_neg fun h => hc h.1, if_neg hc]

end

/-! ### Scanning -/

/-- Reads the sign behind an exponent mark, if there is one, and tells whether a digit stands behind it. -/
def scanSign (tab : Nat) (state : Decoding) : Bool × Decoding :=
  match state.cursor.rest with
  | [] => (false, state)
  | c :: _ =>
    if c = '+' ∨ c = '-' then
      let next := (state.push [c]).advance tab
      (next.cursor.rest.head?.any Char.isDigit, next)
    else (c.isDigit, state)

theorem sign_of_mark {c : Char} (h : c = '+' ∨ c = '-') (rest : List Char) : sign (c :: rest) = [c] := by
  rcases h with rfl | rfl <;> rfl

theorem sign_of_other {c : Char} (h : ¬ (c = '+' ∨ c = '-')) (rest : List Char) : sign (c :: rest) = [] := by
  unfold sign
  split
  · rename_i heq
    exact absurd (.inl (List.cons.inj heq).1) h
  · rename_i heq
    exact absurd (.inr (List.cons.inj heq).1) h
  · rfl

theorem scanSign_eq (tab : Nat) (state : Decoding) :
    scanSign tab state =
      ((state.cursor.rest.drop (sign state.cursor.rest).length).head?.any Char.isDigit,
        state.take tab ⟨sign state.cursor.rest, (sign state.cursor.rest).length⟩) := by
  cases hrest : state.cursor.rest with
  | nil =>
    rw [scanSign, hrest]
    exact Prod.ext rfl (state.take_nil tab).symm
  | cons c rest =>
    rw [scanSign, hrest]
    dsimp only
    by_cases hsign : c = '+' ∨ c = '-'
    · have hnext : (state.take tab ⟨[c], 1⟩).cursor.rest = rest := Decoding.rest_move_one tab hrest
      rw [if_pos hsign, sign_of_mark hsign, Decoding.advance_push tab hrest, hnext]
      rfl
    · rw [if_neg hsign, sign_of_other hsign]
      exact Prod.ext rfl (state.take_nil tab).symm

/-- A dot starts a fraction where a digit follows it. -/
def dotTurn (tab : Nat) (isFloat : Bool) (state : Decoding) : Bool × Turn :=
  if !state.cursor.rest[1]?.any Char.isDigit then (isFloat, .finish none state)
  else if state.text.contains '.' then (isFloat, .finish (some .invalidFloatNumber) state)
  else (true, .again ((state.push ['.']).advance tab))

/-- A mark starts an exponent, and a digit has to stand behind it and its sign. -/
def markTurn (tab : Nat) (isFloat : Bool) (state : Decoding) : Bool × Turn :=
  if state.text.contains 'e' then (isFloat, .finish (some .invalidFloatNumber) state)
  else
    match scanSign tab ((state.push ['e']).advance tab) with
    | (true, next) => (true, .again next)
    | (false, last) => (true, .finish (some .invalidFloatNumber) last)

/-- A turn of the loop over a literal. It also tells whether the literal is a float from here on. -/
def turn (tab : Nat) (isFloat : Bool) (state : Decoding) : Bool × Turn :=
  match state.cursor.rest with
  | [] => (isFloat, .finish none state)
  | c :: _ =>
    if c = '.' then dotTurn tab isFloat state
    else if c = 'e' ∨ c = 'E' then markTurn tab isFloat state
    else if c = '_' then
      if isFloat then (isFloat, .finish (some .underscoreInFloat) state)
      else (isFloat, .again (state.advance tab))
    else if c.isDigit then (isFloat, .again ((state.push [c]).advance tab))
    else (isFloat, .finish none state)

/-- A text with a fraction or an exponent is the text of a float. -/
def isMarked (text : List Char) : Bool := text.contains '.' || text.contains 'e'

/-- Reads on behind the text of a state. -/
def readState (state : Decoding) : Reading (List Char) :=
  readOn (state.text.contains '.') (state.text.contains 'e') state.cursor.rest

section

variable (tab : Nat) {state : Decoding} {c : Char} {rest : List Char} (hrest : state.cursor.rest = c :: rest)

include hrest

theorem readState_eq :
    readState state = readOn (state.text.contains '.') (state.text.contains 'e') (c :: rest) := by
  rw [readState, hrest]

theorem readState_take {piece : Piece} {n : Nat} (hpiece : piece.length = 1 + n) :
    readState (state.take tab piece) =
      readOn (state.text.contains '.' || piece.text.contains '.')
        (state.text.contains 'e' || piece.text.contains 'e') (rest.drop n) := by
  rw [readState, Decoding.take, Cursor.rest_skip, hrest, hpiece, Nat.add_comm, List.drop_succ_cons,
    List.contains_append, List.contains_append]

theorem readState_verbatim (d : Char) :
    readState (state.take tab (.verbatim d)) =
      readOn (state.text.contains '.' || '.' == d) (state.text.contains 'e' || 'e' == d) rest := by
  have hread : readState (state.take tab (.verbatim d)) =
      readOn (state.text.contains '.' || [d].contains '.') (state.text.contains 'e' || [d].contains 'e') rest :=
    readState_take tab hrest (n := 0) rfl
  simpa only [List.contains_cons, List.contains_nil, Bool.or_false] using hread

/-- An exponent mark is taken up together with the sign behind it. -/
theorem scanSign_mark :
    scanSign tab ((state.push ['e']).advance tab) =
      ((rest.drop (sign rest).length).head?.any Char.isDigit,
        state.take tab ⟨'e' :: sign rest, 1 + (sign rest).length⟩) := by
  have hnext : (state.take tab ⟨['e'], 1⟩).cursor.rest = rest := Decoding.rest_move_one tab hrest
  rw [scanSign_eq, Decoding.advance_push tab hrest, hnext, Decoding.take_take]
  rfl

end

theorem contains_dot_sign (text : List Char) : (sign text).contains '.' = false := by
  unfold sign
  split <;> rfl

/-- What a turn leads to: it takes up a piece that the reader reads too, or it ends the loop where the reader ends.
The literal is a float from then on if it was one or if a fraction or an exponent has been taken up. The reader goes
by the text, so the flag has to agree with it. -/
inductive Leads (tab : Nat) (isFloat : Bool) (state : Decoding) : Bool × Turn → Prop
  | again {piece : Piece} : 1 ≤ piece.length → piece.length ≤ state.cursor.rest.length →
      (isFloat = isMarked state.text →
        readState state = (readState (state.take tab piece)).cons piece) →
      Leads tab isFloat state (isFloat || isMarked piece.text, .again (state.take tab piece))
  | finish {fault : Option Fault} {text : List Char} {n : Nat} :
      (isFloat = isMarked state.text → readState state = .ended fault text n) →
      Leads tab isFloat state (isFloat || isMarked text, .finish fault ((state.move tab n).push text))

section

variable (tab : Nat) (isFloat : Bool) {state : Decoding}

theorem leads_stop {fault : Option Fault}
    (hread : isFloat = isMarked state.text → readState state = .ended fault [] 0) :
    Leads tab isFloat state (isFloat, .finish fault state) := by
  have hfinish : Leads tab isFloat state
      (isFloat || isMarked [], .finish fault ((state.move tab 0).push [])) := .finish hread
  rwa [Decoding.push_nil, show isMarked [] = false from rfl, Bool.or_false] at hfinish

section

variable {c : Char} {rest : List Char} (hrest : state.cursor.rest = c :: rest)

include hrest

theorem leads_push {d : Char}
    (hread : readState state = (readState (state.take tab (.verbatim d))).cons (.verbatim d)) :
    Leads tab isFloat state (isFloat || isMarked [d], .again ((state.push [d]).advance tab)) := by
  rw [Decoding.advance_push tab hrest [d]]
  refine .again (Nat.le_refl 1) ?_ fun _ => hread
  rw [hrest]
  exact Nat.le_add_left 1 _

theorem leads_dotTurn (hc : c = '.') : Leads tab isFloat state (dotTurn tab isFloat state) := by
  subst hc
  have hread := readState_eq hrest
  rw [dotTurn, Decoding.peek_of_cons hrest]
  by_cases hnext : rest.head?.any Char.isDigit = true
  · rw [readOn_dot _ _ hnext] at hread
    rw [hnext, if_neg (by decide)]
    by_cases hsecond : state.text.contains '.' = true
    · rw [if_pos hsecond] at hread ⊢
      exact leads_stop tab isFloat fun _ => hread
    · rw [if_neg hsecond] at hread ⊢
      have hpush := leads_push tab isFloat hrest (d := '.') <| by
        rw [hread, readState_verbatim tab hrest, beq_self_eq_true, Bool.or_true,
          show ('e' == '.') = false from rfl, Bool.or_false]
      rwa [show isMarked ['.'] = true from rfl, Bool.or_true] at hpush
  · rw [readOn_dot_end _ _ hnext] at hread
    rw [if_pos (by simpa using hnext)]
    exact leads_stop tab isFloat fun _ => hread

theorem leads_markTurn (hmark : c = 'e' ∨ c = 'E') : Leads tab isFloat state (markTurn tab isFloat state) := by
  have hread := readState_eq hrest
  rw [readOn_mark _ _ hmark] at hread
  rw [markTurn]
  by_cases hsecond : state.text.contains 'e' = true
  · rw [if_pos hsecond] at hread ⊢
    exact leads_stop tab isFloat fun _ => hread
  have hmarked : (isFloat || isMarked ('e' :: sign rest)) = true := by simp [isMarked]
  rw [if_neg hsecond] at hread ⊢
  rw [scanSign_mark tab hrest, ← hmarked]
  cases hnext : (rest.drop (sign rest).length).head?.any Char.isDigit with
  | false =>
    rw [hnext, if_neg Bool.false_ne_true] at hread
    exact .finish fun _ => hread
  | true =>
    rw [hnext, if_pos rfl] at hread
    have hle : 1 + (sign rest).length ≤ state.cursor.rest.length := by
      rw [hrest, List.length_cons, Nat.add_comm]
      exact Nat.succ_le_succ (length_sign_le rest)
    refine @Leads.again tab isFloat state ⟨'e' :: sign rest, _⟩ (Nat.le_add_right 1 _) hle fun _ => ?_
    have hdot : ('e' :: sign rest).contains '.' = false := contains_dot_sign rest
    have hexponent : ('e' :: sign rest).contains 'e' = true := rfl
    rw [hread, readState_take tab hrest rfl, hdot, hexponent, Bool.or_false, Bool.or_true]

theorem leads_separator (hc : c = '_') (hinteger : isFloat = false) :
    Leads tab isFloat state (isFloat, .again (state.advance tab)) := by
  subst hc
  have hnext : readState (state.move tab 1) =
      readOn (state.text.contains '.') (state.text.contains 'e') rest := by
    rw [readState, Decoding.rest_move_one tab hrest]
    rfl
  have hagain : Leads tab isFloat state (isFloat || isMarked [], .again (state.take tab ⟨[], 1⟩)) := by
    refine @Leads.again tab isFloat state ⟨[], 1⟩ (Nat.le_refl 1) ?_ fun hflag => ?_
    · rw [hrest]
      exact Nat.le_add_left 1 _
    · obtain ⟨hfraction, hexponent⟩ := Bool.or_eq_false_iff.1 (hflag.symm.trans hinteger)
      rw [readState_eq hrest, Decoding.take_eq, Decoding.push_nil, hnext, hfraction, hexponent,
        readOn_separator]
  rwa [Decoding.take_eq, Decoding.push_nil, ← Decoding.advance_of_cons tab hrest,
    show isMarked [] = false from rfl, Bool.or_false] at hagain

theorem leads_digit (hdigit : c.isDigit = true) :
    Leads tab isFloat state (isFloat, .again ((state.push [c]).advance tab)) := by
  have hdot : ('.' == c) = false := beq_false_of_ne (ne_of_class hdigit rfl).symm
  have hmark : ('e' == c) = false := beq_false_of_ne (ne_of_class hdigit rfl).symm
  have hpush := leads_push tab isFloat hrest (d := c) <| by
    rw [readState_eq hrest, readState_verbatim tab hrest, readOn_digit _ _ hdigit, hdot, hmark, Bool.or_false,
      Bool.or_false]
  have hmarked : isMarked [c] = false := by
    rw [isMarked, List.contains_cons, List.contains_cons, hdot, hmark]
    rfl
  rwa [hmarked, Bool.or_false] at hpush

end

theorem leads_turn (state : Decoding) : Leads tab isFloat state (turn tab isFloat state) := by
  cases hrest : state.cursor.rest with
  | nil =>
    rw [turn, hrest]
    refine leads_stop tab isFloat fun _ => ?_
    rw [readState, hrest, readOn_nil]
    rfl
  | cons c rest =>
    rw [turn, hrest]
    dsimp only
    by_cases hdot : c = '.'
    · rw [if_pos hdot]
      exact leads_dotTurn tab isFloat hrest hdot
    rw [if_neg hdot]
    by_cases hmark : c = 'e' ∨ c = 'E'
    · rw [if_pos hmark]
      exact leads_markTurn tab isFloat hrest hmark
    rw [if_neg hmark]
    by_cases hdigit : c.isDigit = true
    · rw [if_neg (ne_of_class hdigit rfl), if_pos hdigit]
      exact leads_digit tab isFloat hrest hdigit
    have hstop := readOn_stop (state.text.contains '.') (state.text.contains 'e') hdigit hdot hmark
    by_cases hseparator : c = '_'
    · rw [if_pos hseparator]
      cases hfloat : isFloat with
      | true =>
        refine leads_stop tab true fun hflag => ?_
        rw [readState_eq hrest, hstop fun _ => hflag.symm, if_pos hseparator]
        rfl
      | false => exact leads_separator tab false hrest hseparator rfl
    · rw [if_neg hseparator, if_neg hdigit]
      refine leads_stop tab isFloat fun _ => ?_
      rw [readState_eq hrest, hstop fun h => absurd h hseparator, if_neg hseparator]
      rfl

end

/-! ### The loop over a literal -/

/-- A literal that is a float or not. -/
def literal (isFloat : Bool) (text : List Char) : Lexeme :=
  .ofValue (if isFloat then .float else .intDec) text

theorem length_lt_of_turn {tab : Nat} {isFloat flag : Bool} {state next : Decoding}
    (h : turn tab isFloat state = (flag, .again next)) :
    next.cursor.rest.length < state.cursor.rest.length := by
  have hleads := leads_turn tab isFloat state
  rw [h] at hleads
  cases hleads with
  | again hone hle _ =>
    rw [Decoding.take, Cursor.rest_skip, List.length_drop]
    omega

/-- Scans a decimal literal, or what is left of it. -/
def scanFrom (tab : Nat) (isFloat : Bool) (state : Decoding) : Scan :=
  match h : turn tab isFloat state with
  | (flag, .again next) =>
    have := length_lt_of_turn h
    scanFrom tab flag next
  | (flag, .finish fault last) => .close (literal flag) (fault, last)
termination_by state.cursor.rest.length

theorem scanFrom_of_again {tab : Nat} {isFloat flag : Bool} {state next : Decoding}
    (h : turn tab isFloat state = (flag, .again next)) :
    scanFrom tab isFloat state = scanFrom tab flag next := by
  rw [scanFrom]
  split
  · rename_i hagain
    rw [h] at hagain
    cases hagain
    rfl
  · rename_i hfinish
    rw [h] at hfinish
    cases hfinish

theorem scanFrom_of_finish {tab : Nat} {isFloat flag : Bool} {state last : Decoding} {fault : Option Fault}
    (h : turn tab isFloat state = (flag, .finish fault last)) :
    scanFrom tab isFloat state = .close (literal flag) (fault, last) := by
  rw [scanFrom]
  split
  · rename_i hagain
    rw [h] at hagain
    cases hagain
  · rename_i hfinish
    rw [h] at hfinish
    cases hfinish
    rfl

theorem isMarked_append (first second : List Char) :
    isMarked (first ++ second) = (isMarked first || isMarked second) := by
  rw [isMarked, isMarked, isMarked, List.contains_append, List.contains_append]
  ac_rfl

/-- A scan that starts with the flag of its text takes up what the reader reads and ends with the flag of the
whole. -/
theorem scanFrom_eq (tab : Nat) {isFloat : Bool} {state : Decoding} (hflag : isFloat = isMarked state.text) :
    ∃ fault text n,
      scanFrom tab isFloat state =
        .close (literal (isMarked (state.text ++ text))) (fault, (state.move tab n).push text) ∧
      readState state = .ended fault text n := by
  have hleads := leads_turn tab isFloat state
  cases hstate : turn tab isFloat state with
  | mk flag result =>
    cases result with
    | again next =>
      have hshorter := length_lt_of_turn hstate
      rw [hstate] at hleads
      cases hleads with
      | @again piece _ _ hpiece =>
        have hnext : (isFloat || isMarked piece.text) = isMarked (state.take tab piece).text := by
          rw [hflag]
          exact (isMarked_append _ _).symm
        obtain ⟨fault, text, n, hscan, hread⟩ := scanFrom_eq tab hnext
        refine ⟨fault, piece.text ++ text, piece.length + n, ?_, ?_⟩
        · rw [scanFrom_of_again hstate, hscan, ← Decoding.take_eq tab ⟨text, n⟩, Decoding.take_take,
            ← List.append_assoc]
          rfl
        · rw [hpiece hflag, hread, Reading.cons_ended]
    | finish fault last =>
      rw [hstate] at hleads
      cases hleads with
      | @finish _ text n hread =>
        refine ⟨fault, text, n, ?_, hread hflag⟩
        rw [scanFrom_of_finish hstate, isMarked_append, hflag]
termination_by state.cursor.rest.length

theorem isMarked_of_parts {parts : List Char} (h : Parts false false parts) : isMarked parts = !parts.isEmpty := by
  cases h with
  | nil => rfl
  | fraction => rfl
  | exponent => exact Bool.or_true _

theorem isMarked_of_digits {digits : List Char} (h : ∀ c ∈ digits, c.isDigit = true) :
    isMarked digits = false := by
  have hno : ∀ d : Char, d.isDigit = false → digits.contains d = false := by
    intro d hd
    rw [← Bool.not_eq_true, List.contains_iff_mem]
    exact fun hmem => ne_of_class (h d hmem) hd rfl
  rw [isMarked, hno '.' rfl, hno 'e' rfl, Bool.or_false]

/-- The text of a literal tells whether it is a float. -/
theorem map_read_eq (text : List Char) :
    (read text).map some = (readOn false false text).map fun whole => some (literal (isMarked whole) whole) := by
  have hwhole : isMarked (Digits.ofRun (Digits.run Char.isDigit text)) = false :=
    isMarked_of_digits fun c hc => (Digits.isRun_ofRun (List.ne_nil_of_mem hc)).2 c hc
  rw [read, readOn, if_neg (by decide), Reading.cons, Reading.map_shift, Reading.map_shift, Reading.map_map,
    Reading.map_map]
  refine congrArg _ (Reading.map_congr fun part hpart => ?_)
  have hmarked := isMarked_of_parts (parts_readParts false false _ hpart)
  rw [isMarked_append, hwhole, Bool.false_or, hmarked, literal]
  cases part with
  | nil =>
    rw [List.append_nil]
    rfl
  | cons c part => rfl

/-- Scans the decimal literal at the cursor. -/
def scan (tab : Nat) (state : Decoding) : Scan := scanFrom tab false state

theorem delivers_scan (tab : Nat) {state : Decoding} (htext : state.text = []) :
    Delivers tab state ((read state.cursor.rest).map some) (scan tab state) := by
  have hflag : false = isMarked state.text := by
    rw [htext]
    rfl
  obtain ⟨fault, text, n, hscan, hread⟩ := scanFrom_eq tab hflag
  rw [readState, htext] at hread
  rw [map_read_eq, show readOn false false state.cursor.rest = .ended fault text n from hread, scan, hscan, htext]
  cases fault with
  | none =>
    rw [Scan.close, Decoding.text_push_move tab n htext]
    exact .token tab n state text (literal (isMarked text) text)
  | some fault => exact .error tab n state text fault

end Decimal

/-- Scans the number at the cursor. -/
def Number.scan (tab : Nat) (state : Decoding) : Scan :=
  match radix? state.cursor.rest with
  | some radix => radix.scan tab ((state.advance tab).advance tab)
  | none => Decimal.scan tab state

theorem Number.delivers_scan (tab : Nat) {state : Decoding} (htext : state.text = []) :
    Delivers tab state ((read state.cursor.rest).map some) (scan tab state) := by
  rw [scan, read]
  cases hradix : radix? state.cursor.rest with
  | none => exact Decimal.delivers_scan tab htext
  | some radix =>
    unfold radix? at hradix
    split at hradix
    · rename_i mark more hmore
      dsimp only
      rw [Decoding.advance_advance tab hmore, Reading.map_shift]
      exact (radix.delivers_scan tab (state.move tab 2) htext).shift
    · cases hradix

end Lexis
