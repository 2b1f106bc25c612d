import Lexis.Proofs.Tokens

/-!
# Rows

A lexer that starts some rows further down hands out the same tokens so many rows further down, as long
as no row reaches the ceiling. Main statement: `Lexer.tokens_down`.
-/

namespace Lexis

namespace Place

/-- The place `n` rows further down. -/
def down (n : Nat) (p : Place) : Place := ⟨p.row + n, p.col⟩

theorem row_after_line {p : Place} (tab : Nat) (h : p.row + 1 ≤ ceiling) :
    (p.after tab '\n').row = p.row + 1 := by
  simp only [after, if_true, Nat.min_eq_right h]

theorem row_after_of_ne {c : Char} (h : c ≠ '\n') (tab : Nat) (p : Place) :
    (p.after tab c).row = p.row := by
  rw [after, if_neg h]
  split <;> rfl

theorem after_down_line {p : Place} {n : Nat} (tab : Nat) (h : p.row + n + 1 ≤ ceiling) :
    (p.down n).after tab '\n' = (p.after tab '\n').down n := by
  have hrow : p.row + 1 ≤ ceiling := by omega
  simp only [after, down, if_true, Nat.min_eq_right h, Nat.min_eq_right hrow, mk.injEq, and_true]
  omega

theorem after_down_of_ne {c : Char} (h : c ≠ '\n') (tab n : Nat) (p : Place) :
    (p.down n).after tab c = (p.after tab c).down n := by
  simp only [after, if_neg h]
  split <;> rfl

theorem row_afterText {tab : Nat} {p : Place} {text : List Char}
    (h : p.row + text.count '\n' ≤ ceiling) :
    (p.afterText tab text).row = p.row + text.count '\n' := by
  induction text generalizing p with
  | nil => rfl
  | cons c rest ih =>
    show ((p.after tab c).afterText tab rest).row = _
    by_cases hline : c = '\n'
    · subst hline
      rw [List.count_cons_self] at h ⊢
      have hrow := @row_after_line p tab (by omega)
      rw [ih (by omega), hrow]
      omega
    · rw [List.count_cons_of_ne hline] at h ⊢
      have hrow := row_after_of_ne hline tab p
      rw [ih (by omega), hrow]

theorem afterText_down {tab n : Nat} {p : Place} {text : List Char}
    (h : p.row + text.count '\n' + n ≤ ceiling) :
    (p.down n).afterText tab text = (p.afterText tab text).down n := by
  induction text generalizing p with
  | nil => rfl
  | cons c rest ih =>
    show ((p.down n).after tab c).afterText tab rest = ((p.after tab c).afterText tab rest).down n
    by_cases hline : c = '\n'
    · subst hline
      rw [List.count_cons_self] at h
      have hrow := @row_after_line p tab (by omega)
      rw [after_down_line tab (by omega), ih (by omega)]
    · rw [List.count_cons_of_ne hline] at h
      have hrow := row_after_of_ne hline tab p
      rw [after_down_of_ne hline, ih (by omega)]

end Place

/-- The position `n` rows further down. -/
def Position.down (n : Nat) (p : Position) : Position := ⟨p.row + n, p.col, p.len⟩

/-- The same token `n` rows further down. -/
def Token.down (n : Nat) (token : Token) : Token := ⟨token.toLexeme, token.position.down n⟩

/-- The same error `n` rows further down. -/
def LexError.down (n : Nat) (error : LexError) : LexError := ⟨error.fault, error.position.down n⟩

/-- The same item `n` rows further down. -/
def Item.down (n : Nat) : Item → Item
  | .ok token => .ok (token.down n)
  | .error error => .error (error.down n)

theorem Reading.locate_down (reading : Reading Lexeme) (place : Place) (n : Nat) :
    reading.locate (place.down n) = Item.down n (reading.locate place) := by
  obtain ⟨result, length⟩ := reading
  cases result <;> rfl

namespace Lexer

/-- The same lexer `n` rows further down. -/
def down (n : Nat) (lexer : Lexer) : Lexer :=
  ⟨lexer.config, ⟨lexer.cursor.rest, lexer.cursor.place.down n⟩, lexer.done⟩

/-- The row that the text of a lexer ends in. -/
def lastRow (lexer : Lexer) : Nat := lexer.cursor.place.row + lexer.cursor.rest.count '\n'

/-- A pull moves down by the line breaks that it takes off the text. -/
theorem lastRow_nextToken {lexer : Lexer} (h : lexer.lastRow ≤ ceiling) :
    lexer.nextToken.2.lastRow = lexer.lastRow := by
  have hcovers := lexer.covers
  have hcount := congrArg (List.count '\n') hcovers.rest
  rw [List.count_append] at hcount
  unfold lastRow at h ⊢
  rw [hcovers.place, Place.row_afterText (by omega), hcount, Nat.add_assoc]

theorem count_take_le (text : List Char) (n : Nat) : (text.take n).count '\n' ≤ text.count '\n' :=
  (List.take_sublist n text).count_le '\n'

theorem skip_down {tab n m : Nat} {cursor : Cursor}
    (h : cursor.place.row + cursor.rest.count '\n' + n ≤ ceiling) :
    Cursor.skip tab m ⟨cursor.rest, cursor.place.down n⟩ =
      ⟨(cursor.skip tab m).rest, (cursor.skip tab m).place.down n⟩ := by
  have hcount := count_take_le cursor.rest m
  simp only [Cursor.skip]
  rw [Place.afterText_down (by omega)]

theorem nextToken_down {lexer : Lexer} {n : Nat} (h : lexer.lastRow + n ≤ ceiling) :
    (lexer.down n).nextToken = (Item.down n lexer.nextToken.1, lexer.nextToken.2.down n) := by
  cases hreading : (Upcoming.ofText lexer.cursor.rest).reading with
  | none =>
    rw [@nextToken_of_none (lexer.down n) hreading, nextToken_of_none hreading]
    simp only [down, skip_down h]
    rw [Place.afterText_down h]
    rfl
  | some reading =>
    have hcount := count_take_le lexer.cursor.rest (Upcoming.ofText lexer.cursor.rest).gap
    unfold lastRow at h
    rw [@nextToken_of_some (lexer.down n) reading hreading, nextToken_of_some hreading]
    simp only [down, skip_down h]
    rw [Place.afterText_down (by omega), Reading.locate_down]

theorem isEnd_down (n : Nat) (item : Item) : isEnd (Item.down n item) = isEnd item := by
  cases item <;> rfl

/-- The outcome of a lexer that starts `n` rows further down. -/
theorem tokens_down {lexer : Lexer} {n : Nat} (hdone : lexer.done = false)
    (h : lexer.lastRow + n ≤ ceiling) :
    (lexer.down n).tokens =
      match lexer.tokens with
      | .ok tokens => .ok (tokens.map (Token.down n))
      | .error error => .error (error.down n) := by
  induction lexer using pull_induction with
  | stop lexer hend =>
    have hdown : isEnd (lexer.down n).nextToken.1 = true := by
      rw [nextToken_down h, isEnd_down, hend]
    rw [tokens_of_isEnd hdone hend, @tokens_of_isEnd (lexer.down n) hdone hdown]
    rfl
  | error lexer error hitem _ =>
    have hstep : (lexer.down n).nextToken.1 = .error (error.down n) := by
      rw [nextToken_down h, hitem]
      rfl
    rw [tokens_of_error hdone hitem, @tokens_of_error (lexer.down n) _ hdone hstep]
  | token lexer token hitem hend ih =>
    have hstep : (lexer.down n).nextToken.1 = .ok (token.down n) := by
      rw [nextToken_down h, hitem]
      rfl
    have hlast : lexer.nextToken.2.lastRow + n ≤ ceiling := by
      rw [lastRow_nextToken (by omega)]
      exact h
    rw [tokens_of_token hdone hitem hend, @tokens_of_token (lexer.down n) _ hdone hstep hend,
      nextToken_down h, ih ((done_nextToken lexer).trans hdone) hlast]
    cases lexer.nextToken.2.tokens <;> rfl

end Lexer

end Lexis
