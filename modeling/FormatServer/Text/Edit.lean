import FormatServer.Text.Position

/-!
The smallest edit that turns one text into another.

Both texts are cut into clusters, a byte with the continuation bytes that follow it, so an edit
never starts or ends inside a code point. The common first clusters are kept, then the common last
clusters of what remains.
-/

namespace FormatServer

/-- The places where an edit of a text may start or end: its two ends and every byte that does not
continue a code point. -/
def IsBoundary (text : Bytes) (offset : Nat) : Prop :=
  offset = 0 ∨ offset = text.length ∨
    ∃ byte, text[offset]? = some byte ∧ Utf8.isContinuationByte byte = false

/-- The clusters of a text: each byte that does not continue a code point starts one, and so does
the first byte of all. -/
def clusters : Bytes → List Bytes
  | [] => []
  | byte :: rest =>
    match rest, clusters rest with
    | next :: _, cluster :: others =>
      if Utf8.isContinuationByte next then (byte :: cluster) :: others
      else [byte] :: cluster :: others
    | _, others => [byte] :: others

/-- The longest list that both lists begin with. -/
def commonStart : (left right : List Bytes) → List Bytes
  | first :: left, other :: right => if first = other then first :: commonStart left right else []
  | _, _ => []

/-- The longest list that both lists end with. -/
def commonEnd (left right : List Bytes) : List Bytes :=
  (commonStart left.reverse right.reverse).reverse

/-- The replacement of the bytes from `start` to before `stop` of a text. -/
structure ByteEdit where
  start : UInt32
  stop : UInt32
  replacement : Bytes
  deriving DecidableEq, Repr

namespace ByteEdit

/-- The smallest edit that turns `source` into a different text `formatted`. -/
def between (source formatted : Bytes) : ByteEdit :=
  let kept := commonStart (clusters source) (clusters formatted)
  let sourceRest := (clusters source).drop kept.length
  let formattedRest := (clusters formatted).drop kept.length
  let tail := (commonEnd sourceRest formattedRest).flatten.length
  let start := kept.flatten.length
  { start := .ofNat start
    stop := .ofNat (source.length - tail)
    replacement := (formatted.take (formatted.length - tail)).drop start }

/-- The text that an edit makes of `source`. -/
def apply (edit : ByteEdit) (source : Bytes) : Bytes :=
  source.take edit.start.toNat ++ edit.replacement ++ source.drop edit.stop.toNat

end ByteEdit

/-- The edit of a document that turns `source` into a different text `formatted`. -/
def TextEdit.between (source formatted : Bytes) : Logged (List TextEdit) := do
  let edit := ByteEdit.between source formatted
  let start ← Position.ofOffset source edit.start.toNat
  let stop ← Position.ofOffset source edit.stop.toNat
  return [⟨⟨start, stop⟩, edit.replacement⟩]

/-- No byte is lost by cutting a text into clusters. -/
theorem flatten_clusters (text : Bytes) : (clusters text).flatten = text := by
  induction text with
  | nil => rfl
  | cons byte rest inductionHypothesis =>
    unfold clusters
    split
    · next next others cluster clustersRest equal =>
      rw [equal] at inductionHypothesis
      split <;> simp_all
    · simp [inductionHypothesis]

end FormatServer
