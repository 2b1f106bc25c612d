import Lexis.Kind
import Lexis.Position

/-!
# Lexemes and tokens

A lexeme is a kind with its decoded text; a token is a lexeme with its position. Two tokens are taken
for the same when their lexemes are equal, wherever they stand.
-/

namespace Lexis

/-- A kind with its decoded text: delimiters, escapes, number marks and separators are gone. -/
structure Lexeme where
  kind : Kind
  text : String
  deriving DecidableEq, Repr, Hashable

namespace Lexeme

/-- A value with its decoded text. -/
def ofValue (kind : ValueKind) (text : List Char) : Lexeme :=
  ⟨.value kind, String.ofList text⟩

/-- A keyword carries its spelling. -/
def ofKeyword (word : Keyword) : Lexeme := ⟨.keyword word, word.spelling⟩

/-- An operator carries its spelling. -/
def ofOperator (op : Operator) : Lexeme := ⟨.operator op, op.spelling⟩

end Lexeme

/-- A lexeme with its position. -/
structure Token extends Lexeme where
  position : Position
  deriving Repr

namespace Token

/-- The empty token that stands at the end of the input. -/
def endOfInput (place : Place) : Token :=
  ⟨⟨.endOfInput, ""⟩, place.position 0⟩

/-- Tells the end of the input from the other tokens. -/
def isEndOfInput (token : Token) : Bool := token.kind == .endOfInput

instance : BEq Token := ⟨fun a b => a.toLexeme == b.toLexeme⟩

instance : Hashable Token := ⟨fun token => hash token.toLexeme⟩

/-- Two tokens are taken for the same exactly when their lexemes are equal. -/
theorem beq_iff (a b : Token) : (a == b) = true ↔ a.toLexeme = b.toLexeme := by
  show (a.toLexeme == b.toLexeme) = true ↔ _
  exact beq_iff_eq

/-- The printed form: kind, place and text. -/
protected def toString (token : Token) : String :=
  s!"{token.kind} {token.position} {token.text}"

instance : ToString Token := ⟨Token.toString⟩

end Token

end Lexis
