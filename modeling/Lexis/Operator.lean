/-!
# Operators

The operators, their spellings and the lookup by spelling. A reader that grows an operator one
character at a time only ever passes through operators, so it can produce exactly the spellings all
of whose nonempty beginnings are operators themselves (`Operator.isReachable`). Main statement: the
characters that an operator can start with are exactly the operators of one character.
-/

namespace Lexis

/-- The operators and the punctuation. -/
inductive Operator where
  | plus | minus | star | slash | percent
  | shr | shl | amp | pipe | caret
  | plusPlus | minusMinus
  | eq | plusEq | minusEq | starEq | slashEq | percentEq | ampEq | pipeEq | caretEq | shrEq | shlEq
  | tilde | question | bang
  | eqEq | notEq | ltEq | lt | gt | gtEq
  | arrow | dotGt | backslash
  | dotDot | dotDotLt | ltDotDot | ltDotDotLt | dotDotDot
  | dollar
  | lParen | rParen | lBracket | rBracket | lBrace | rBrace
  | comma | dot | colon | semicolon | atSign
  deriving DecidableEq, Repr, Hashable

namespace Operator

/-- Every operator: arithmetic, bits, assignment, comparison, ranges, then punctuation. -/
def all : List Operator :=
  [plus, minus, star, slash, percent, shr, shl, amp, pipe, caret, plusPlus, minusMinus, eq, plusEq,
   minusEq, starEq, slashEq, percentEq, ampEq, pipeEq, caretEq, shrEq, shlEq, tilde, question, bang,
   eqEq, notEq, ltEq, lt, gt, gtEq, arrow, dotGt, backslash, dotDot, dotDotLt, ltDotDot, ltDotDotLt,
   dotDotDot, dollar, lParen, rParen, lBracket, rBracket, lBrace, rBrace, comma, dot, colon,
   semicolon, atSign]

/-- The operator as it is written in a source text. -/
def spelling : Operator → String
  | plus => "+"
  | minus => "-"
  | star => "*"
  | slash => "/"
  | percent => "%"
  | shr => ">>"
  | shl => "<<"
  | amp => "&"
  | pipe => "|"
  | caret => "^"
  | plusPlus => "++"
  | minusMinus => "--"
  | eq => "="
  | plusEq => "+="
  | minusEq => "-="
  | starEq => "*="
  | slashEq => "/="
  | percentEq => "%="
  | ampEq => "&="
  | pipeEq => "|="
  | caretEq => "^="
  | shrEq => ">>="
  | shlEq => "<<="
  | tilde => "~"
  | question => "?"
  | bang => "!"
  | eqEq => "=="
  | notEq => "!="
  | ltEq => "<="
  | lt => "<"
  | gt => ">"
  | gtEq => ">="
  | arrow => "->"
  | dotGt => ".>"
  | backslash => "\\"
  | dotDot => ".."
  | dotDotLt => "..<"
  | ltDotDot => "<.."
  | ltDotDotLt => "<..<"
  | dotDotDot => "..."
  | dollar => "$"
  | lParen => "("
  | rParen => ")"
  | lBracket => "["
  | rBracket => "]"
  | lBrace => "\x7b"
  | rBrace => "\x7d"
  | comma => ","
  | dot => "."
  | colon => ":"
  | semicolon => ";"
  | atSign => "@"

/-- The operator with a given spelling. -/
def ofSpelling? (text : String) : Option Operator :=
  all.find? fun op => op.spelling == text

/-- The characters that an operator can start with. -/
def starters : String := "@$+-*/%()[]\x7b\x7d=<>!&|.,^~?:;\\"

/-- Tells whether an operator can start with the character. -/
def isStarter (c : Char) : Bool := starters.toList.contains c

/-- Tells whether the text is an operator that can be reached one character at a time: the text is
nonempty and each of its nonempty beginnings is an operator. -/
def isReachable (text : String) : Bool :=
  let chars := text.toList
  !chars.isEmpty &&
    (List.range chars.length).all fun n =>
      (ofSpelling? (String.ofList (chars.take (n + 1)))).isSome

/-- The list of operators is complete. -/
theorem mem_all (op : Operator) : op ∈ all := by
  cases op <;> decide

/-- An operator is found by its own spelling. -/
theorem ofSpelling?_spelling (op : Operator) : ofSpelling? op.spelling = some op := by
  cases op <;> decide

/-- The lookup answers with an operator of the spelling asked for. -/
theorem spelling_of_ofSpelling? {text : String} {op : Operator}
    (h : ofSpelling? text = some op) : op.spelling = text := by
  simpa using List.find?_some h

private theorem isStarter_of_spelling {op : Operator} {c : Char}
    (h : op.spelling.toList = [c]) : isStarter c = true := by
  cases op <;> simp [spelling] at h <;> subst h <;> decide

/-- The characters that an operator can start with are the operators of one character. -/
theorem isSome_ofSpelling?_singleton (c : Char) :
    (ofSpelling? (String.singleton c)).isSome = isStarter c := by
  rw [Bool.eq_iff_iff]
  constructor
  · intro h
    obtain ⟨op, hop⟩ := Option.isSome_iff_exists.1 h
    apply isStarter_of_spelling
    rw [spelling_of_ofSpelling? hop]
    exact String.toList_singleton c
  · intro h
    have hall :
        (starters.toList.all fun d => (ofSpelling? (String.singleton d)).isSome) = true := by
      decide +kernel
    exact List.all_eq_true.1 hall c (List.contains_iff_mem.1 h)

end Operator

end Lexis
