set_option autoImplicit false

/-! # Paths

A path is a list of names between slashes, and leads from folder to folder to a file or a folder. A
name that is empty or a dot stays where it is, two dots go up. Of the folders around the working
folder nothing is known but that they exist; of those at the root only a few are. -/

namespace InlinePlan.Command

/-- What a path leads to. -/
inductive PathEntry where
  | file (text : String)
  | folder
  deriving Repr, DecidableEq

/-- Why a path leads nowhere. -/
inductive PathFault where
  | absent
  | notFolder
  | nameTooLong
  | invalid
  deriving Repr, DecidableEq

def PathFault.message : PathFault → String
  | .absent => "no such file or directory"
  | .notFolder => "not a directory"
  | .nameTooLong => "file name too long"
  | .invalid => "invalid argument"

/-- Files by the names that lead to them from the working folder. -/
abbrev Files := List (List String × String)

/-- Where the way along a path has led: to a folder at or below the working folder, to one above it,
    to one that is reached from the root, or to a file. -/
inductive PathPlace where
  | inside (names : List String)
  | above
  | rooted (names : List String)
  | file (text : String)
  deriving Repr, DecidableEq

/-- The most bytes that a name has. -/
def longestName : Nat := 255

/-- The number of bytes from which on a path is too long. -/
def pathLimit : Nat := 4096

/-- The folders at the root that every system has. -/
def rootFolders : List String := ["bin", "dev", "etc", "tmp", "usr", "var"]

/-- The null device, which is an empty file. -/
def nullDevice : List String := ["dev", "null"]

namespace PathPlace

/-- The place that a name leads to from a folder. -/
def enter (files : Files) (name : String) : PathPlace → Except PathFault PathPlace
  | .inside names =>
    let path := names ++ [name]
    match files.lookup path with
    | some text => .ok (.file text)
    | none => if files.any (path.isPrefixOf ·.1) then .ok (.inside path) else .error .absent
  | .above => .error .absent
  | .rooted names =>
    let path := names ++ [name]
    if path = nullDevice then .ok (.file "")
    else if names = [] && rootFolders.contains name then .ok (.rooted path)
    else .error .absent
  | .file _ => .error .notFolder

/-- The folder around a folder. -/
def up : PathPlace → Except PathFault PathPlace
  | .inside [] | .above => .ok .above
  | .inside names => .ok (.inside names.dropLast)
  | .rooted names => .ok (.rooted names.dropLast)
  | .file _ => .error .notFolder

/-- One step along a path. Behind a file there is none. -/
def step (files : Files) (place : PathPlace) (name : String) : Except PathFault PathPlace :=
  match place with
  | .file _ => .error .notFolder
  | folder =>
    if name = "" || name = "." then .ok folder
    else if name = ".." then folder.up
    else if longestName < name.utf8ByteSize then .error .nameTooLong
    else folder.enter files name

/-- Follows names. -/
def walk (files : Files) (place : PathPlace) : List String → Except PathFault PathPlace
  | [] => .ok place
  | name :: names => (place.step files name).bind (walk files · names)

def entry : PathPlace → PathEntry
  | .file text => .file text
  | _ => .folder

end PathPlace

/-- The names of a path. -/
def pathNames (path : String) : List String := path.splitOn "/"

/-- What a path leads to, given the files of the working folder. -/
def Files.entry (files : Files) (path : String) : Except PathFault PathEntry :=
  if path = "" then .error .absent
  else if path.toList.contains '\x00' then .error .invalid
  else if pathLimit ≤ path.utf8ByteSize then .error .nameTooLong
  else
    let start := if path.startsWith "/" then PathPlace.rooted [] else .inside []
    (start.walk files (pathNames path)).map PathPlace.entry

/-- Files by the paths under which they were written. -/
def Files.ofPaths (files : List (String × String)) : Files :=
  files.map fun (path, text) =>
    ((pathNames path).filter fun name => name ≠ "" && name ≠ ".", text)

end InlinePlan.Command
