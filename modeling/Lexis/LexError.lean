import Lexis.Fault
import Lexis.Position

/-!
# Lexical errors

A lexical error is a fault at a position. Rendered against the source it shows the line where the
token starts, with a caret under each of its characters.
-/

namespace Lexis

/-- A fault and the position of the token that has it. -/
structure LexError where
  fault : Fault
  position : Position
  deriving DecidableEq, Repr, Hashable

namespace LexError

/-- The printed form names the fault only. -/
protected def toString (error : LexError) : String := "LexerError: " ++ error.fault.message

instance : ToString LexError := ⟨LexError.toString⟩

/-- The line of a source with a given number; lines are counted from one and end at line feeds. -/
def sourceLine? (source : String) (row : Nat) : Option (List Char) :=
  if row = 0 then none else (source.toList.splitOn '\n')[row - 1]?

/-- A line as it is shown: each tab takes up one column. -/
def shownLine (line : List Char) : String :=
  String.ofList (line.map fun c => if c = '\t' then ' ' else c)

/-- The line of carets that marks a position: one caret at least. -/
def carets (position : Position) : String :=
  String.ofList
    (List.replicate (position.col - 1) ' ' ++ List.replicate (max position.len 1) '^')

/-- The error as a block of lines: the place, the source line with its carets where the source has
such a line, and the message. -/
def render (error : LexError) (source : String) : String :=
  let excerpt := match sourceLine? source error.position.row with
    | some line => shownLine line ++ "\n" ++ carets error.position ++ "\n"
    | none => ""
  s!"at line [{error.position.row},{error.position.col}]:\n" ++ excerpt ++ "    " ++
    error.toString

end LexError

end Lexis
