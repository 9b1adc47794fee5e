import FormatServer.Text.Bytes

namespace FormatServer

/-- What stands at a place of a file tree. -/
inductive FileEntry where
  | file (content : Bytes)
  | directory
  deriving DecidableEq, Repr

/-- Why a path cannot be looked up or read. A relative path names no file, and one that goes on
after a file leads through what is not a directory. -/
inductive FileError where
  | noSuchFile
  | notADirectory
  | isADirectory
  deriving DecidableEq, Repr

/-- The text of a file error. -/
def FileError.message : FileError → Bytes
  | noSuchFile => "No such file or directory"
  | notADirectory => "Not a directory"
  | isADirectory => "Is a directory"

/-- The entries of a tree by the names on the way from the root to them. The root is a directory
without an entry of its own; every other directory has one. Of two entries at one place the first
counts. -/
structure FileTree where
  entries : List (List Bytes × FileEntry) := []

namespace FileTree

/-- The entry at a place; the root is a directory whatever the entries are. -/
def entryAt? (tree : FileTree) (place : List Bytes) : Option FileEntry :=
  if place = [] then some .directory else (tree.entries.find? (·.1 = place)).map (·.2)

/-- Puts a directory where nothing stands, and leaves what stands there already. -/
def ensureDirectory (tree : FileTree) (place : List Bytes) : FileTree :=
  if (tree.entryAt? place).isSome then tree else ⟨(place, .directory) :: tree.entries⟩

/-- The places on the way to a place, from the root down and without the place itself. -/
def above (place : List Bytes) : List (List Bytes) :=
  (List.range place.length).map place.take

/-- Puts an entry in its place, and directories above it where nothing stands. A file above it stays
a file, so that no path leads to the entry while the file stands there. -/
def insert (tree : FileTree) (path : Bytes) (entry : FileEntry) : FileTree :=
  let place := path.components
  let rooted := (above place).foldl ensureDirectory tree
  ⟨(place, entry) :: rooted.entries.filter (·.1 ≠ place)⟩

/-- Removes the entry of one place. The directories above it stay, and so do the entries below it,
to which no path leads until a directory stands in that place again. -/
def erase (tree : FileTree) (path : Bytes) : FileTree :=
  ⟨tree.entries.filter (·.1 ≠ path.components)⟩

/-- Follows the pieces of a path from a directory. A name goes down, two dots go up, and an empty
piece or a single dot stays; nothing may follow a file. -/
def walk (tree : FileTree) : (place : List Bytes) → (pieces : List Bytes) →
    Except FileError FileEntry
  | place, pieces =>
    match tree.entryAt? place, pieces with
    | none, _ => .error .noSuchFile
    | some entry, [] => .ok entry
    | some (.file _), _ :: _ => .error .notADirectory
    | some .directory, piece :: rest =>
      if piece = [] ∨ piece = [Ascii.dot] then walk tree place rest
      else if piece = [Ascii.dot, Ascii.dot] then walk tree place.dropLast rest
      else walk tree (place ++ [piece]) rest

/-- What an absolute path leads to. -/
def lookup (tree : FileTree) (path : Bytes) : Except FileError FileEntry :=
  match path with
  | [] => .error .noSuchFile
  | first :: rest =>
    if first = Ascii.slash then tree.walk [] (Bytes.split Ascii.slash rest) else .error .noSuchFile

/-- Whether a path leads to a file or a directory. -/
def contains (tree : FileTree) (path : Bytes) : Bool :=
  (tree.lookup path).isOk

/-- Whether a path leads to a directory. -/
def isDirectory (tree : FileTree) (path : Bytes) : Bool :=
  match tree.lookup path with
  | .ok .directory => true
  | _ => false

/-- The content of the file that a path leads to. -/
def read (tree : FileTree) (path : Bytes) : Except FileError Bytes :=
  match tree.lookup path with
  | .ok (.file content) => .ok content
  | .ok .directory => .error .isADirectory
  | .error error => .error error

end FileTree

end FormatServer
