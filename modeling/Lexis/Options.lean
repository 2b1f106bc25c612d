import Lexis.Config

/-!
# Options of the listing command

The arguments name one file and may set the tab size, in any order; the last setting counts. The
leftmost argument that has no place is the one reported.
-/

namespace Lexis

/-- Why the arguments are rejected. -/
inductive OptionError where
  | tabSize (error : ConfigError)
  | unknownOption (argument : String)
  | unexpectedArgument (argument : String)
  | missingPath
  deriving DecidableEq, Repr

namespace OptionError

/-- The message for a reader. -/
def message : OptionError → String
  | tabSize error => "--tab-size: " ++ error.message
  | unknownOption argument => "unknown option '" ++ argument ++ "'"
  | unexpectedArgument argument => "unexpected argument '" ++ argument ++ "'"
  | missingPath => "missing file path"

end OptionError

/-- What an argument is by itself. -/
inductive Argument where
  | tabSize (value : String)
  | unknownOption
  | path
  deriving DecidableEq, Repr

namespace Argument

/-- The front of an argument that sets the tab size. -/
def tabSizeFlag : String := "--tab-size="

/-- An argument that starts with the flag sets the tab size; any other that starts with a hyphen is
no known option; the rest are paths. -/
def ofText (text : String) : Argument :=
  if tabSizeFlag.toList.isPrefixOf text.toList then
    .tabSize (String.ofList (text.toList.drop tabSizeFlag.length))
  else if text.toList.head? = some '-' then .unknownOption
  else .path

end Argument

/-- The file to list and the settings to read it with. -/
structure Options where
  path : String
  config : Config
  deriving DecidableEq, Repr

namespace Options

/-- Reads the arguments that are left, given the path and the settings found so far. -/
def parseFrom (path : Option String) (config : Config) :
    List String → Except OptionError Options
  | [] =>
    match path with
    | some path => .ok ⟨path, config⟩
    | none => .error .missingPath
  | text :: rest =>
    match Argument.ofText text with
    | .tabSize value =>
      match Config.parse value with
      | .ok config => parseFrom path config rest
      | .error error => .error (.tabSize error)
    | .unknownOption => .error (.unknownOption text)
    | .path =>
      match path with
      | none => parseFrom (some text) config rest
      | some _ => .error (.unexpectedArgument text)

/-- Reads the arguments, starting from given settings. -/
def parse (base : Config) (arguments : List String) : Except OptionError Options :=
  parseFrom none base arguments

end Options

end Lexis
