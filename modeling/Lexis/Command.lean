import Lexis.Files
import Lexis.Lexer
import Lexis.Listing
import Lexis.Options

/-!
# The command line

What the arguments ask for, and what the program writes in answer. Only the listing of a file reads
anything; it writes the listing on the standard output, or one failure on the standard error: of its
options first, then of reading the file, then of the text in it.
-/

namespace Lexis

/-- What a run of the program leaves behind. -/
structure Outcome where
  exitCode : Nat
  stdout : String
  stderr : String
  deriving DecidableEq, Repr

namespace Outcome

/-- A run that succeeds. -/
def success (stdout : String) : Outcome := ⟨0, stdout, ""⟩

/-- A run that fails before it has written anything. -/
def failure (stderr : String) : Outcome := ⟨1, "", stderr⟩

end Outcome

/-- What the arguments ask for. -/
inductive Command where
  | usage
  | version
  | lex (options : Options)
  | rejected (error : OptionError)
  | unknown (name : String)

namespace Command

/-- The version of the program. -/
def versionNumber : String := "0.1.0"

/-- The help text. -/
def usageText : String :=
  "Foo Compiler\n" ++
  "\n" ++
  "Usage: fooc <command> [options]\n" ++
  "\n" ++
  "Commands:\n" ++
  "  lex <file>           Tokenize and display tokens\n" ++
  "  help                 Show this help message\n" ++
  "  version              Show version information\n" ++
  "\n" ++
  "Lex options:\n" ++
  "  --tab-size=<n>      Columns per tab (default: $FOO_TAB_SIZE or 4)\n" ++
  "\n" ++
  "Environment:\n" ++
  "  FOO_TAB_SIZE        Default tab width\n" ++
  "  RUST_LOG            Enable tracing output (e.g. foo_lexer=trace)\n"

/-- Reads the arguments; `environment` is the value of the variable that sets the tab size. -/
def ofArguments (environment : Option String) : List String → Command
  | [] => usage
  | name :: rest =>
    if name = "lex" then
      match Options.parse (Config.ofEnvironment environment) rest with
      | .ok options => lex options
      | .error error => rejected error
    else if name ∈ ["help", "--help", "-h"] then usage
    else if name ∈ ["version", "--version", "-v"] then version
    else unknown name

/-- Lists the tokens of a file, given what reading it gave. -/
def list (options : Options) (contents : Except ReadFailure ByteArray) : Outcome :=
  match contents.bind decodeSource with
  | .error failure => .failure (failure.message options.path ++ "\n")
  | .ok source =>
    match tokenize options.config source with
    | .ok tokens => .success (Listing.render options.path tokens)
    | .error error => .failure (error.render source ++ "\n")

/-- Runs a command with a way to read a file. -/
def run {m : Type → Type} [Monad m] (read : String → m (Except ReadFailure ByteArray)) :
    Command → m Outcome
  | usage => pure (.success usageText)
  | version => pure (.success ("Foo Compiler " ++ versionNumber ++ "\n"))
  | lex options => do
    let contents ← read options.path
    pure (list options contents)
  | rejected error =>
    pure (.failure
      ("error: " ++ error.message ++ "\nUsage: fooc lex <file> [--tab-size=N]\n"))
  | unknown name => pure ⟨1, usageText, "Unknown command: " ++ name ++ "\n\n"⟩

/-- Runs the program over files held in memory. -/
def runIn (files : Files) (environment : Option String) (arguments : List String) : Outcome :=
  Id.run (run (fun path => pure (files.read path)) (ofArguments environment arguments))

end Command

end Lexis
