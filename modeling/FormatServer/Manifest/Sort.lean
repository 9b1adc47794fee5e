import FormatServer.Manifest.Fields
import FormatServer.Manifest.Member

/-!
Sorting the fields of a package manifest.

Members are moved as they are written: keys and values keep their bytes, only maps that are sorted
themselves are written anew.
-/

namespace FormatServer.Manifest

/-- Why a manifest cannot be sorted. The text may fail to be cut into members, and so may the value
of a field. -/
inductive SortError where
  | notJson
  | notAnObject
  | scan (error : ScanError)
  | scanField (field : Bytes) (error : ScanError)
  deriving DecidableEq, Repr

/-- The text of a sort error. -/
def SortError.message : SortError → Bytes
  | notJson => Bytes.concat ["package.json is not valid JSON: ", Json.syntaxErrorMessage]
  | notAnObject => "package.json must contain a JSON object"
  | scan error => Bytes.concat ["cannot scan package.json: ", error.message]
  | scanField field error => Bytes.concat ["cannot sort `", field, "`: ", error.message]

/-- Sorts members so that none stands before one whose key precedes its own; members neither of
which precedes the other keep their order. -/
def sortBy (before : Bytes → Bytes → Bool) (members : List Member) : List Member :=
  members.mergeSort fun left right => !before right.key left.key

/-- Where a script stands among the scripts of its group. -/
inductive HookKind where
  | pre
  | script
  | post
  deriving DecidableEq, Repr

/-- The order within a group. -/
def HookKind.rank : HookKind → Nat
  | pre => 0
  | script => 1
  | post => 2

/-- The script that a name is a hook of, and the kind of hook; a name is a hook only if what follows
`pre` or `post` is a script too. -/
def hookOf (names : List Bytes) (name : Bytes) : Bytes × HookKind :=
  let hook? (mark : String) (kind : HookKind) : Option (Bytes × HookKind) :=
    match name.after? (Bytes.ofString mark) with
    | some base => if names.contains base then some (base, kind) else none
    | none => none
  ((hook? "pre" .pre).orElse fun _ => hook? "post" .post).getD (name, .script)

/-- Whether a script stands before another: by the script they belong to, then the hooks around it.
-/
def scriptPrecedes (names : List Bytes) (left right : Bytes) : Bool :=
  let (base, kind) := hookOf names left
  let (otherBase, otherKind) := hookOf names right
  base < otherBase || (base = otherBase && kind.rank < otherKind.rank)

/-- Sorts the members of a value that is an object; any other value stays. -/
def sortValue (order : List Member → Bytes → Bytes → Bool) (value : Bytes) :
    Except ScanError Bytes :=
  if value.head? = some Ascii.openBrace then
    (scan value).map fun members => write (sortBy (order members) members)
  else .ok value

/-- Sorts the value of a field, if it is one of those that are sorted. -/
def sortField (withScripts : Bool) (member : Member) : Except SortError Member :=
  let sorted? : Option (Except ScanError Bytes) :=
    if orderedMaps.contains member.key then
      some (sortValue (fun _ left right => left < right) member.value)
    else if withScripts ∧ member.key = scriptsField then
      some (sortValue (fun members => scriptPrecedes (members.map (·.key))) member.value)
    else none
  match sorted? with
  | none => .ok member
  | some (.ok value) => .ok { member with value }
  | some (.error error) => .error (.scanField member.key error)

/-- Sorts a manifest: its fields, the maps among them, and the scripts if asked to. -/
def sort (source : Bytes) (withScripts : Bool) : Except SortError Bytes :=
  match Json.parse? source with
  | none => .error .notJson
  | some (.object _) =>
    match scan source with
    | .error error => .error (.scan error)
    | .ok members => ((sortBy precedes members).mapM (sortField withScripts)).map write
  | some _ => .error .notAnObject

end FormatServer.Manifest
