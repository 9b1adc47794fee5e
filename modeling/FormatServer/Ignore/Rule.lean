import FormatServer.Ignore.Glob

namespace FormatServer

/-- One part of the pattern of a rule: any number of components, also none, or one component that a
pattern matches. -/
inductive RuleSegment where
  | anyDepth
  | component (pattern : Glob)
  deriving DecidableEq, Repr

/-- A rule of an ignore file, with its pattern from the root down. It `keeps` what it matches, or
ignores it. -/
structure IgnoreRule where
  segments : List RuleSegment
  keeps : Bool
  directoryOnly : Bool
  deriving DecidableEq, Repr

/-- Why a line is no rule: nothing is left but its marks, or a component of it is no pattern. -/
inductive RuleError where
  | emptyPattern (line : Bytes)
  | invalidPattern (line : Bytes)
  deriving DecidableEq, Repr

/-- The text of a rule error. -/
def RuleError.message : RuleError → Bytes
  | emptyPattern line => Bytes.concat ["pattern `", line, "` is empty"]
  | invalidPattern line =>
    Bytes.concat ["invalid pattern `", line, "`: ", Glob.syntaxErrorMessage]

namespace RuleSegment

/-- Whether a pattern matches all components of a path. -/
def matchAll : List RuleSegment → List Bytes → Bool
  | [] => List.isEmpty
  | .anyDepth :: segments => anySuffix (matchAll segments)
  | .component pattern :: segments => fun path =>
    match path with
    | [] => false
    | name :: rest => pattern.isMatch name && matchAll segments rest

/-- Puts `**` behind the segments read so far, unless one stands there. -/
def pushAnyDepth (segments : List RuleSegment) : List RuleSegment :=
  if segments.getLast? = some anyDepth then segments else segments ++ [anyDepth]

/-- Adds the components of a pattern to the segments read so far. -/
def ofComponents? (read : List RuleSegment) : List Bytes → Option (List RuleSegment)
  | [] => some read
  | name :: rest =>
    if name = [Ascii.star, Ascii.star] then ofComponents? (pushAnyDepth read) rest
    else match Glob.parse? name with
      | none => none
      | some pattern => ofComponents? (read ++ [component pattern]) rest

end RuleSegment

namespace IgnoreRule

/-- A line without the line ends at its end. -/
def trimLineEnd (line : Bytes) : Bytes :=
  line.dropWhileEnd fun byte => byte == Ascii.carriageReturn || byte == Ascii.newline

/-- A reversed line without the spaces at its front that no backslash follows. -/
def dropReversedSpaces : Bytes → Bytes
  | [] => []
  | byte :: rest =>
    if byte = Ascii.space ∧ rest.head? ≠ some Ascii.backslash then dropReversedSpaces rest
    else byte :: rest

/-- A line without the spaces at its end, up to one behind a backslash. -/
def trimSpaces (line : Bytes) : Bytes :=
  (dropReversedSpaces line.reverse).reverse

/-- The rule that a line stands for; none for a blank line and for a comment. -/
def ofLine (line : Bytes) : Except RuleError (Option IgnoreRule) :=
  let trimmed := trimSpaces (trimLineEnd line)
  match trimmed with
  | [] => .ok none
  | first :: rest =>
    if first = Ascii.hash then .ok none
    else
      let keeps := first == Ascii.bang
      let marked := if first = Ascii.bang ∨ first = Ascii.backslash then rest else trimmed
      let directoryOnly := marked.getLast? == some Ascii.slash
      let pattern : Bytes := if directoryOnly then marked.dropLast else marked
      if pattern = [] then .error (.emptyPattern line)
      else
        let start := if pattern.contains Ascii.slash then [] else [RuleSegment.anyDepth]
        match RuleSegment.ofComponents? start pattern.components with
        | none => .error (.invalidPattern line)
        | some segments => .ok (some { segments, keeps, directoryOnly })

end IgnoreRule

end FormatServer
