import Lexis.Keyword
import Lexis.Operator

/-!
# Token kinds

A token is a value, whose text varies, a keyword, an operator, or the end of the input. Keywords and
operators are fully described by their spelling; values and the end of the input have none.
-/

namespace Lexis

/-- The kinds of token whose text varies. -/
inductive ValueKind where
  | intDec | intHex | intOct | intBin | float | ident | atom | string | documentation
  deriving DecidableEq, Repr, Hashable

namespace ValueKind

/-- Every value kind: numbers, then names, then texts. -/
def all : List ValueKind :=
  [intDec, intHex, intOct, intBin, float, ident, atom, string, documentation]

/-- The name of the kind for a reader. -/
def displayName : ValueKind → String
  | intDec => "integer"
  | intHex => "hex integer"
  | intOct => "octal integer"
  | intBin => "binary integer"
  | float => "float"
  | ident => "identifier"
  | atom => "atom"
  | string => "string"
  | documentation => "documentation"

end ValueKind

/-- The four families of token kinds. -/
inductive Family where
  | value | keyword | operator | other
  deriving DecidableEq, Repr

/-- What a token is. -/
inductive Kind where
  | value (kind : ValueKind)
  | keyword (word : Keyword)
  | operator (op : Operator)
  | endOfInput
  deriving DecidableEq, Repr, Hashable

namespace Kind

/-- Every kind: values, keywords, operators, and last the end of the input. -/
def all : List Kind :=
  ValueKind.all.map value ++ Keyword.all.map keyword ++ Operator.all.map operator ++ [endOfInput]

/-- The family of a kind. -/
def family : Kind → Family
  | value _ => .value
  | keyword _ => .keyword
  | operator _ => .operator
  | endOfInput => .other

/-- The spelling of a keyword. -/
def keywordSpelling? : Kind → Option String
  | keyword word => some word.spelling
  | _ => none

/-- The spelling of an operator. -/
def operatorSpelling? : Kind → Option String
  | operator op => some op.spelling
  | _ => none

/-- The spelling of a keyword or an operator. -/
def spelling? : Kind → Option String
  | keyword word => some word.spelling
  | operator op => some op.spelling
  | _ => none

/-- The name of a kind for a reader: its spelling where there is one. -/
def displayName : Kind → String
  | value kind => kind.displayName
  | keyword word => word.spelling
  | operator op => op.spelling
  | endOfInput => "end of input"

/-- The printed form of a kind: a spelling stands between double quotes, a name stands bare. -/
protected def toString (kind : Kind) : String :=
  match kind.spelling? with
  | some spelling => "\"" ++ spelling ++ "\""
  | none => kind.displayName

instance : ToString Kind := ⟨Kind.toString⟩

end Kind

end Lexis
