import Lexis.Cursor
import Lexis.Proofs.Escape.Forms
import Lexis.Proofs.Lookahead.Quoted

/-!
# Tokens that are being read

A token is read piece by piece: each piece moves the cursor on and adds to the text so far. Main statement: resolving
the escape at the cursor is a step of the readers of strings and text blocks (`Decoding.resume_resolve`).
-/

namespace Lexis

/-- A token that is being read: where it starts, where the cursor is, how many characters it has taken up, and the
text that these stand for. -/
structure Decoding where
  start : Place
  cursor : Cursor
  length : Nat
  text : List Char
  deriving DecidableEq, Repr

namespace Decoding

/-- Moves over a piece and adds what it stands for to the text. -/
def take (tab : Nat) (piece : Piece) (state : Decoding) : Decoding :=
  ⟨state.start, state.cursor.skip tab piece.length, state.length + piece.length,
    state.text ++ piece.text⟩

/-- Resolves the escape at the cursor. There is none unless a backslash stands there. -/
def resolve (tab : Nat) (state : Decoding) : Option Decoding :=
  match state.cursor.rest with
  | '\\' :: rest => some (state.take tab (Escape.read rest))
  | _ => none

/-- What a reader makes of the whole when it goes on from here. -/
def resume (read : List Char → Reading (List Char)) (state : Decoding) : Reading (List Char) :=
  (read state.cursor.rest).cons ⟨state.text, state.length⟩

theorem resolve_of_backslash (tab : Nat) {state : Decoding} {rest : List Char}
    (hrest : state.cursor.rest = '\\' :: rest) :
    state.resolve tab = some (state.take tab (Escape.read rest)) := by
  rw [resolve, hrest]
  rfl

/-- A reader that reads an escape at its front goes on behind it. -/
theorem resume_resolve {read : List Char → Reading (List Char)}
    (hread : ∀ rest, read ('\\' :: rest) =
      (read (rest.drop ((Escape.read rest).length - 1))).cons (Escape.read rest))
    {tab : Nat} {state next : Decoding} (h : state.resolve tab = some next) :
    state.resume read = next.resume read := by
  unfold resolve at h
  split at h
  · rename_i rest hrest
    cases h
    unfold resume take
    rw [Cursor.rest_skip, hrest, hread, Escape.drop_cons_read, Reading.cons_cons]
  · cases h

theorem resume_quoted {tab : Nat} {state next : Decoding} (h : state.resolve tab = some next)
    (quote : Char) : state.resume (Quoted.read quote) = next.resume (Quoted.read quote) :=
  resume_resolve (Quoted.read_escape quote) h

theorem resume_textBlock {tab : Nat} {state next : Decoding} (h : state.resolve tab = some next) :
    state.resume TextBlock.read = next.resume TextBlock.read :=
  resume_resolve TextBlock.read_escape h

end Decoding

end Lexis
