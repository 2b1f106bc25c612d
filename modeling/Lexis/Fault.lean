/-!
# Faults

What can be wrong with the front of a text, and the message for each. No message spans more than one
line unless the unknown character it names is a line break.
-/

namespace Lexis

/-- Where an identifier between backticks broke off. -/
inductive Boundary where
  | lineEnd | fileEnd
  deriving DecidableEq, Repr

/-- What is wrong with a malformed token. -/
inductive Fault where
  /-- A second fraction or exponent, or an exponent without digits. -/
  | invalidFloatNumber
  /-- A separator after the fraction or the exponent. -/
  | underscoreInFloat
  | invalidHexNumber
  | invalidOctNumber
  | invalidBinNumber
  | unterminatedString
  | unterminatedComment
  | unterminatedExtendedIdentifier (boundary : Boundary)
  /-- A line of a text block that starts with a single backslash. -/
  | malformedTextBlock
  | invalidAtomStart
  | unknownCharacter (c : Char)
  deriving DecidableEq, Repr

namespace Fault

/-- The message for a reader. -/
def message : Fault → String
  | invalidFloatNumber => "Invalid float number"
  | underscoreInFloat => "Underscore ('_') not available in float part of number"
  | invalidHexNumber => "Invalid hex number"
  | invalidOctNumber => "Invalid oct number"
  | invalidBinNumber => "Invalid bin number"
  | unterminatedString => "Reached end of source code while parsing text string."
  | unterminatedComment => "Reached end of source code while parsing multiline comment"
  | unterminatedExtendedIdentifier .lineEnd =>
    "Reached end of line while parsing extended identifier."
  | unterminatedExtendedIdentifier .fileEnd =>
    "Reached end of file while parsing extended identifier."
  | malformedTextBlock => "Incorrect multi line string. '\\' expected"
  | invalidAtomStart => "Atom identifier must start with correct identifier symbol"
  | unknownCharacter c => "Unknown character '" ++ String.singleton c ++ "'"

/-- Different faults have different messages, so the message stands for the fault. -/
instance : Hashable Fault := ⟨fun fault => hash fault.message⟩

end Fault

end Lexis
