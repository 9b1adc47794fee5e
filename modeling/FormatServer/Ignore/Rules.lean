import FormatServer.Files
import FormatServer.Ignore.Rule
import FormatServer.Path

namespace FormatServer

/-- What the rules say about a path: what the last rule that matches it does, if there is one. -/
inductive Verdict where
  | undecided
  | ignored
  | kept
  deriving DecidableEq, Repr

/-- Why rules cannot be added. The lines of a file count from one. -/
inductive IgnoreError where
  | rule (error : RuleError)
  | ruleInFile (file : Bytes) (line : Nat) (error : RuleError)
  | unreadable (file : Bytes) (error : FileError)
  deriving DecidableEq, Repr

/-- The text of an ignore error. -/
def IgnoreError.message : IgnoreError → Bytes
  | rule error => error.message
  | ruleInFile file line error =>
    Bytes.concat [file, ":", Bytes.ofNat line, ": ", error.message]
  | unreadable file error =>
    Bytes.concat ["failed to read ignore file ", file, ": ", error.message]

/-- The rules for the paths below a root, in the order in which they were added. -/
structure IgnoreRules where
  root : Bytes
  list : List IgnoreRule := []
  deriving DecidableEq, Repr

namespace IgnoreRules

/-- A path without its trailing slashes; its first byte stays. -/
def trimRoot : Bytes → Bytes
  | [] => []
  | first :: rest => first :: Bytes.dropWhileEnd (· == Ascii.slash) rest

/-- No rules for a root. -/
def empty (root : Bytes) : IgnoreRules :=
  { root := trimRoot root }

/-- Adds the rule of a line, if it holds one. -/
def withLine (rules : IgnoreRules) (line : Bytes) : Except RuleError IgnoreRules :=
  match IgnoreRule.ofLine line with
  | .error error => .error error
  | .ok none => .ok rules
  | .ok (some rule) => .ok { rules with list := rules.list ++ [rule] }

/-- Adds the rules of lines, the first of which has the given number. The rules before a line that
is none stay. -/
def withLines (rules : IgnoreRules) : (number : Nat) → List Bytes →
    IgnoreRules × Option (Nat × RuleError)
  | _, [] => (rules, none)
  | number, line :: lines =>
    match rules.withLine line with
    | .error error => (rules, some (number, error))
    | .ok rules => withLines rules (number + 1) lines

/-- Adds the rules of a file. -/
def withFile (rules : IgnoreRules) (files : FileTree) (path : Bytes) :
    IgnoreRules × Option IgnoreError :=
  match files.read path with
  | .error error => (rules, some (.unreadable path error))
  | .ok content =>
    let (rules, failure) := rules.withLines 1 (Bytes.split Ascii.newline content)
    (rules, failure.map fun (line, error) => .ruleInFile path line error)

/-- What the last matching rule says about the components of a path below the root. -/
def verdictOf (rules : IgnoreRules) (path : List Bytes) (isDirectory : Bool) : Verdict :=
  let applies (rule : IgnoreRule) : Bool :=
    (!rule.directoryOnly || isDirectory) && RuleSegment.matchAll rule.segments path
  match rules.list.reverse.find? applies with
  | some rule => if rule.keeps then .kept else .ignored
  | none => .undecided

/-- The components of a path below the root, if it begins with the root and goes on with a slash
there. -/
def relative? (rules : IgnoreRules) (path : Bytes) : Option (List Bytes) :=
  match path.after? rules.root with
  | none => none
  | some rest =>
    if rest ≠ [] ∧ rules.root ≠ [] ∧ ¬Path.endsInSlash rules.root ∧
        rest.head? ≠ some Ascii.slash then none
    else some rest.components

/-- What the rules say about a path itself; nothing about the root and about paths outside. -/
def verdict (rules : IgnoreRules) (path : Bytes) (isDirectory : Bool) : Verdict :=
  match rules.relative? path with
  | none | some [] => .undecided
  | some components => rules.verdictOf components isDirectory

/-- The verdict on the first directory that has one, of `directory` and those above it that are
longer than the root. -/
def verdictOfDirectories (rules : IgnoreRules) (directory : Bytes) : Verdict :=
  if _inside : directory ≠ [] ∧ rules.root.length < directory.length then
    match rules.verdict directory true with
    | .undecided => rules.verdictOfDirectories (Path.parent directory)
    | verdict => verdict
  else .undecided
termination_by directory.length
decreasing_by exact Path.length_parent_lt _inside.1

/-- The verdict on a path, or else that of the nearest directory above it that has one. -/
def verdictWithParents (rules : IgnoreRules) (path : Bytes) (isDirectory : Bool) : Verdict :=
  match rules.verdict path isDirectory with
  | .undecided => rules.verdictOfDirectories (Path.parent path)
  | verdict => verdict

end IgnoreRules

end FormatServer
