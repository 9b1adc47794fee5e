import FormatServer.Text.Bytes

namespace FormatServer.Path

/-- The part of a path that names where it starts: a slash, or two slashes, a network name and the
slash after it; empty for a relative path. -/
def root : Bytes → Bytes
  | first :: second :: third :: rest =>
    if first = Ascii.slash then
      if second = Ascii.slash ∧ third ≠ Ascii.slash then
        first :: second :: (third :: rest).takeWhile (· ≠ Ascii.slash) ++
          ((third :: rest).dropWhile (· ≠ Ascii.slash)).take 1
      else [first]
    else []
  | first :: _ => if first = Ascii.slash then [first] else []
  | [] => []

/-- Whether a text ends with a slash. -/
def endsInSlash (text : Bytes) : Bool :=
  text.getLast? == some Ascii.slash

/-- A path is absolute if its root ends with a slash. -/
def isAbsolute (path : Bytes) : Bool :=
  endsInSlash (root path)

/-- The bytes after the last slash. -/
def afterLastSlash (text : Bytes) : Bytes :=
  (text.reverse.takeWhile (· ≠ Ascii.slash)).reverse

/-- The last component of a path: `.` if a slash follows it, and the root itself, or the slash that
it ends with, if there is no other. -/
def filename (path : Bytes) : Bytes :=
  let start := root path
  let rest : Bytes := path.drop start.length
  if rest.all (· == Ascii.slash) then
    if endsInSlash start then [Ascii.slash] else start
  else if endsInSlash rest then [Ascii.dot]
  else afterLastSlash rest

/-- The last component of a path from its last dot on; empty without a dot and for the two
components that consist of dots alone. -/
def extension (path : Bytes) : Bytes :=
  let name := filename path
  if name = [Ascii.dot] ∨ name = [Ascii.dot, Ascii.dot] ∨ ¬name.contains Ascii.dot then []
  else Ascii.dot :: (name.reverse.takeWhile (· ≠ Ascii.dot)).reverse

/-- A path without its last component and the slashes before it, which are kept where they are the
root; empty for a single component and for a root. -/
def parent (path : Bytes) : Bytes :=
  let start := root path
  let rest : Bytes := path.drop start.length
  if rest.all (· == Ascii.slash) then
    if endsInSlash start then start.dropLast else []
  else
    let kept : Bytes := if endsInSlash rest then rest else rest.dropWhileEnd (· ≠ Ascii.slash)
    start ++ kept.dropWhileEnd (· == Ascii.slash)

/-- A path with one more component, after exactly one slash. -/
def append (path component : Bytes) : Bytes :=
  if endsInSlash path then path ++ component.dropWhile (· == Ascii.slash)
  else if path = [] ∨ component.head? = some Ascii.slash then path ++ component
  else path ++ Ascii.slash :: component

/-- Drops single dots, and with each double dot the component before it; at the root a double dot
drops nothing. `kept` holds the components passed, the last one first. -/
def resolveDots : (kept components : List Bytes) → List Bytes
  | kept, [] => kept.reverse
  | kept, component :: components =>
    if component = [Ascii.dot] then resolveDots kept components
    else if component = [Ascii.dot, Ascii.dot] then resolveDots kept.tail components
    else resolveDots (component :: kept) components

/-- Components with a slash between each two. -/
def join : List Bytes → Bytes
  | [] => []
  | [component] => component
  | component :: components => component ++ Ascii.slash :: join components

/-- An absolute path without empty components and without dots. -/
def normalize (path : Bytes) : Bytes :=
  let start := root path
  start ++ join (resolveDots [] (Bytes.components (path.drop start.length)))

/-- The root is the start of a path. -/
theorem root_prefix (path : Bytes) : root path <+: path := by
  unfold root
  split
  · next first second third rest =>
    split
    · split
      · obtain ⟨tail, equal⟩ :=
          List.take_prefix 1 ((third :: rest).dropWhile (· ≠ Ascii.slash))
        exact ⟨tail, by
          simp only [List.cons_append, List.append_assoc, equal, List.takeWhile_append_dropWhile]⟩
      · simp
    · simp
  · split <;> simp
  · simp

/-- A path that is not empty is longer than its parent. -/
theorem length_parent_lt {path : Bytes} (notEmpty : path ≠ []) :
    (parent path).length < path.length := by
  obtain ⟨rest, equal⟩ := root_prefix path
  have lengths := congrArg List.length equal
  have positive := List.length_pos_iff.2 notEmpty
  have dropped : path.drop (root path).length = rest := by
    calc path.drop (root path).length
        = (root path ++ rest).drop (root path).length := by rw [equal]
      _ = rest := by simp
  simp only [List.length_append] at lengths
  unfold parent
  simp only [dropped]
  split
  · split
    · next endsInSlash =>
      have rootNotEmpty : root path ≠ [] := by
        intro empty
        simp [empty, Path.endsInSlash] at endsInSlash
      have := List.length_pos_iff.2 rootNotEmpty
      simp only [List.length_dropLast]
      omega
    · simpa using positive
  · next notSlashes =>
    have shorter : (Bytes.dropWhileEnd (· == Ascii.slash)
        (if endsInSlash rest then rest else Bytes.dropWhileEnd (· ≠ Ascii.slash) rest)).length <
        rest.length := by
      split
      · next ends =>
        exact Bytes.length_dropWhileEnd_lt (by simpa [endsInSlash] using ends) (by simp)
      · next ends =>
        refine Nat.lt_of_le_of_lt (Bytes.length_dropWhileEnd_le _ _) ?_
        cases last : rest.getLast? with
        | none => simp_all
        | some byte =>
          refine Bytes.length_dropWhileEnd_lt last ?_
          simpa [endsInSlash, last] using ends
    simp only [List.length_append]
    omega

end FormatServer.Path
