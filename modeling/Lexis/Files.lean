import Lexis.Source

/-!
# Files held in memory

A directory of named files, and the way a path leads through it. A path may hold empty names and the
names `.` and `..`; above the directory there are directories only, and no other name is known there.
-/

namespace Lexis

/-- What a name stands for. -/
inductive FileEntry where
  | file (bytes : ByteArray)
  | directory

/-- Files and directories, by the names that lead to them. -/
structure Files where
  entries : List (List String × FileEntry)

/-- Where a path has led so far. -/
inductive Whereabouts where
  | inside (names : List String)
  | above

namespace Files

/-- The longest name in bytes. -/
def maxName : Nat := 255

/-- The longest path in bytes. -/
def maxPath : Nat := 4095

/-- The names that a path consists of. -/
def names (path : String) : List String :=
  (path.toList.splitOn '/').map String.ofList

/-- The files with the given paths. -/
def ofList (files : List (String × FileEntry)) : Files :=
  ⟨files.map fun (path, entry) => (names path, entry)⟩

/-- What the names lead to. The top and all that holds a file are directories. -/
def entry? (files : Files) (names : List String) : Option FileEntry :=
  match files.entries.find? (·.1 == names) with
  | some (_, entry) => some entry
  | none =>
    if names.isEmpty || files.entries.any (names.isPrefixOf ·.1) then some .directory else none

/-- Tells whether a path leads on from here. -/
def isDirectory (files : Files) : Whereabouts → Bool
  | .inside names =>
    match files.entry? names with
    | some .directory => true
    | _ => false
  | .above => true

/-- Follows one name of a path. -/
def follow (files : Files) (place : Whereabouts) (name : String) :
    Except ReadFailure Whereabouts :=
  if !files.isDirectory place then .error .notDirectory
  else if name = "" ∨ name = "." then .ok place
  else if name = ".." then
    match place with
    | .inside (first :: more) => .ok (.inside (first :: more).dropLast)
    | _ => .ok .above
  else if maxName < name.utf8ByteSize then .error .nameTooLong
  else
    match place with
    | .above => .error .missing
    | .inside names =>
      match files.entry? (names ++ [name]) with
      | some _ => .ok (.inside (names ++ [name]))
      | none => .error .missing

/-- The bytes of the file that a path leads to. -/
def read (files : Files) (path : String) : Except ReadFailure ByteArray :=
  if path = "" then .error .missing
  else if maxPath < path.utf8ByteSize then .error .nameTooLong
  else
    let start := if path.toList.head? = some '/' then .above else .inside []
    match (names path).foldlM files.follow start with
    | .error failure => .error failure
    | .ok .above => .error .isDirectory
    | .ok (.inside names) =>
      match files.entry? names with
      | some (.file bytes) => .ok bytes
      | some .directory => .error .isDirectory
      | none => .error .missing

end Files

end Lexis
