import Lexis.Position
import Lexis.Text.Blank

/-!
# Configuration

The one setting of a lexer: how many columns a tab moves on. It is never zero. As a text it is a
decimal number that may follow one plus sign and may stand between white space.
-/

namespace Lexis

/-- The settings of a lexer. -/
structure Config where
  tabSize : Nat
  tabSize_pos : 0 < tabSize
  deriving DecidableEq, Repr

/-- Why a setting is rejected. -/
inductive ConfigError where
  | zeroTabSize
  | invalidTabSize (value : String)
  deriving DecidableEq, Repr

namespace ConfigError

/-- The message for a reader. -/
def message : ConfigError → String
  | zeroTabSize => "indentation tab size must be positive"
  | invalidTabSize value => "invalid indentation tab size \x60" ++ value ++ "\x60"

end ConfigError

namespace Config

/-- The tab size where nothing else is set. -/
def defaultTabSize : Nat := 4

/-- The name of the environment variable that sets the tab size. -/
def environmentVariable : String := "FOO_TAB_SIZE"

/-- The settings where nothing else is set. -/
def standard : Config := ⟨defaultTabSize, by decide⟩

instance : Inhabited Config := ⟨standard⟩

/-- The settings with a given tab size, which must not be zero. -/
def ofTabSize (size : Nat) : Except ConfigError Config :=
  if h : 0 < size then .ok ⟨size, h⟩ else .error .zeroTabSize

/-- The value of a nonempty run of decimal digits, where no counter is too small for it. -/
def digits? (text : List Char) : Option Nat :=
  if text.isEmpty || !text.all Char.isDigit then none
  else
    let value := text.foldl (fun n c => 10 * n + (c.toNat - '0'.toNat)) 0
    if value ≤ ceiling then some value else none

/-- The value of a decimal number that may follow one plus sign. -/
def number? : List Char → Option Nat
  | '+' :: digits => digits? digits
  | digits => digits? digits

/-- Reads the tab size from a text, and keeps the whole text where it holds none. -/
def parse (value : String) : Except ConfigError Config :=
  match number? (Text.trim value.toList) with
  | some size => ofTabSize size
  | none => .error (.invalidTabSize value)

/-- The settings that an environment variable makes; a missing or rejected value changes nothing. -/
def ofEnvironment (value : Option String) : Config :=
  match value.map parse with
  | some (.ok config) => config
  | _ => standard

end Config

end Lexis
