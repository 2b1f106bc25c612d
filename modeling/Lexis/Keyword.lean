/-!
# Keywords

The reserved words. A word is reserved only in exactly its spelling, so the lookup is case-sensitive.
-/

namespace Lexis

/-- The reserved words. -/
inductive Keyword where
  | kwTrue | kwFalse | kwNone
  | kwWhere
  | kwIf | kwElse | kwMatch | kwWhile
  | kwThrow | kwTry | kwCatch | kwFinally
  | kwLet | kwVar
  | kwIs | kwTypeof | kwYield
  | kwNot | kwAnd | kwOr
  deriving DecidableEq, Repr, Hashable

namespace Keyword

/-- Every reserved word, literals first. -/
def all : List Keyword :=
  [kwTrue, kwFalse, kwNone, kwWhere, kwIf, kwElse, kwMatch, kwWhile, kwThrow, kwTry, kwCatch,
   kwFinally, kwLet, kwVar, kwIs, kwTypeof, kwYield, kwNot, kwAnd, kwOr]

/-- The word as it is written in a source text. -/
def spelling : Keyword → String
  | kwTrue => "true"
  | kwFalse => "false"
  | kwNone => "none"
  | kwWhere => "where"
  | kwIf => "if"
  | kwElse => "else"
  | kwMatch => "match"
  | kwWhile => "while"
  | kwThrow => "throw"
  | kwTry => "try"
  | kwCatch => "catch"
  | kwFinally => "finally"
  | kwLet => "let"
  | kwVar => "var"
  | kwIs => "is"
  | kwTypeof => "typeof"
  | kwYield => "yield"
  | kwNot => "not"
  | kwAnd => "and"
  | kwOr => "or"

/-- The reserved word with a given spelling. -/
def ofSpelling? (text : String) : Option Keyword :=
  all.find? fun word => word.spelling == text

/-- The list of reserved words is complete. -/
theorem mem_all (word : Keyword) : word ∈ all := by
  cases word <;> decide

/-- A reserved word is found by its own spelling. -/
theorem ofSpelling?_spelling (word : Keyword) : ofSpelling? word.spelling = some word := by
  cases word <;> decide

/-- The lookup answers with a word of the spelling asked for. -/
theorem spelling_of_ofSpelling? {text : String} {word : Keyword}
    (h : ofSpelling? text = some word) : word.spelling = text := by
  simpa using List.find?_some h

end Keyword

end Lexis
