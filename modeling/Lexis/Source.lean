/-!
# Sources

A source is read as bytes and decoded as UTF-8. Reading can fail before there are any bytes, and
decoding fails where the bytes are no text.
-/

namespace Lexis

/-- Why a source cannot be read. -/
inductive ReadFailure where
  | missing
  | denied
  | notText
  /-- Any other failure, in the words of the system. -/
  | system (detail : String)
  deriving DecidableEq, Repr

namespace ReadFailure

/-- A directory stands where a file is read. -/
def isDirectory : ReadFailure := .system "Is a directory (os error 21)"

/-- A path leads on below a file. -/
def notDirectory : ReadFailure := .system "Not a directory (os error 20)"

/-- A path, or a name in it, is longer than the system allows. -/
def nameTooLong : ReadFailure := .system "File name too long (os error 36)"

/-- The message for a reader. -/
def message (path : String) : ReadFailure → String
  | missing => "fooc: no source file at '" ++ path ++ "'"
  | denied => "fooc: not allowed to read '" ++ path ++ "'"
  | notText => "fooc: '" ++ path ++ "' is not UTF-8 text"
  | system detail => "fooc: failed to read '" ++ path ++ "': " ++ detail

end ReadFailure

/-- Decodes the bytes of a source. -/
def decodeSource (bytes : ByteArray) : Except ReadFailure String :=
  match String.fromUTF8? bytes with
  | some source => .ok source
  | none => .error .notText

end Lexis
