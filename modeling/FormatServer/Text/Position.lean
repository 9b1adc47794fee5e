import FormatServer.Log
import FormatServer.Text.Utf8

/-!
Positions in a text as an editor counts them: a line, and a column in UTF-16 units.

A text is walked by its first bytes alone: a first byte says how many bytes its code point takes
and how many UTF-16 units it is worth. A byte that cannot start a code point counts as one unit of
its own, and the first such byte of a walk is reported in the log.
-/

namespace FormatServer

/-- One step of a walk over a text: the bytes that the first byte announces, which may run past the
end of the text, and the UTF-16 units that they are worth. It is malformed if no code point can
start with that byte. -/
structure CodeStep where
  bytes : Nat
  units : Nat
  malformed : Bool
  deriving DecidableEq, Repr

namespace CodeStep

/-- The step that a byte announces. -/
def ofFirst (byte : UInt8) : CodeStep :=
  match Utf8.announcedLength? byte with
  | some length => ⟨length, if length = 4 then 2 else 1, false⟩
  | none => ⟨1, 1, true⟩

/-- The steps of a text once `pending` bytes of the step before it are passed. -/
def walkAfter : (pending : Nat) → Bytes → List CodeStep
  | _, [] => []
  | pending + 1, _ :: rest => walkAfter pending rest
  | 0, first :: rest => ofFirst first :: walkAfter ((ofFirst first).bytes - 1) rest

/-- The steps of a text. -/
def walk (text : Bytes) : List CodeStep :=
  walkAfter 0 text

/-- The bytes of all steps together. -/
def totalBytes : List CodeStep → Nat
  | [] => 0
  | step :: rest => step.bytes + totalBytes rest

/-- The UTF-16 units of all steps together. -/
def totalUnits : List CodeStep → Nat
  | [] => 0
  | step :: rest => step.units + totalUnits rest

/-- The fewest first steps that are worth at least `wanted` units, or all of them. -/
def reaching : (wanted : Nat) → List CodeStep → List CodeStep
  | 0, _ => []
  | _ + 1, [] => []
  | wanted + 1, step :: steps => step :: reaching (wanted + 1 - step.units) steps

/-- What is logged about the steps of a walk over `text`: the first malformed one, with the offset
of its byte and the whole text in hexadecimal. -/
def complaints (text : Bytes) (steps : List CodeStep) : List LogEntry :=
  if steps.any malformed then
    let offset := totalBytes (steps.takeWhile fun step => !step.malformed)
    [.error ["invalid UTF-8 near offset ", Bytes.ofNat offset, ": ", text.toHex]]
  else []

/-- Every step is worth one or two units. -/
theorem units_ofFirst (byte : UInt8) :
    (ofFirst byte).units = 1 ∨ (ofFirst byte).units = 2 := by
  unfold ofFirst
  split
  · split <;> simp
  · simp

/-- Every step takes at least one byte. -/
theorem bytes_ofFirst_pos (byte : UInt8) : 1 ≤ (ofFirst byte).bytes := by
  unfold ofFirst
  split
  · next length found => exact (Utf8.announcedLength?_bounds found).1
  · simp

end CodeStep

/-- The length of a text in UTF-16 units. -/
def utf16Length (text : Bytes) : Logged Nat :=
  let steps := CodeStep.walk text
  { value := CodeStep.totalUnits steps, entries := CodeStep.complaints text steps }

/-- The part of a line that a number of UTF-16 units spans, at most the whole line. It is exact if
the units end at the end of a code point that lies in the line. -/
structure ColumnSpan where
  bytes : Nat
  exact : Bool

/-- The bytes of a line that its first `units` UTF-16 units span. -/
def ColumnSpan.measure (line : Bytes) (units : Nat) : Logged ColumnSpan :=
  let steps := CodeStep.reaching units (CodeStep.walk line)
  let bytes := CodeStep.totalBytes steps
  { value :=
      if line.length < bytes then ⟨line.length, false⟩
      else ⟨bytes, CodeStep.totalUnits steps == units⟩
    entries := CodeStep.complaints line steps }

/-- A place in a text: both fields count from zero, the character in UTF-16 units. -/
structure Position where
  line : Int32 := 0
  character : Int32 := 0
  deriving DecidableEq, Repr

/-- The places from `start` to before `stop`. -/
structure Range where
  start : Position := {}
  stop : Position := {}
  deriving DecidableEq, Repr

/-- The replacement of a range of a document by a new text. -/
structure TextEdit where
  range : Range := {}
  newText : Bytes := []
  deriving DecidableEq, Repr

/-- Why a position names no place of a text. A character is invalid past the end of its line and
inside a code point. -/
inductive PositionError where
  | negativeLine (line : Int32)
  | negativeCharacter (character : Int32)
  | lineOutOfRange (line : Int32)
  | characterInvalid (character line : Int32)
  deriving DecidableEq, Repr

/-- The text of a position error. -/
def PositionError.message : PositionError → Bytes
  | negativeLine line =>
    Bytes.concat ["Line value can't be negative (", Bytes.ofInt line.toInt, ")"]
  | negativeCharacter character =>
    Bytes.concat ["Character value can't be negative (", Bytes.ofInt character.toInt, ")"]
  | lineOutOfRange line =>
    Bytes.concat ["Line value is out of range (", Bytes.ofInt line.toInt, ")"]
  | characterInvalid character line =>
    Bytes.concat
      ["UTF-16 offset ", Bytes.ofInt character.toInt, " is invalid for line ",
        Bytes.ofInt line.toInt]

namespace Position

/-- The text from the start of a line on, if there are that many lines. -/
def fromLine? : (line : Nat) → Bytes → Option Bytes
  | 0, text => some text
  | line + 1, text =>
    match text.dropWhile (· ≠ Ascii.newline) with
    | [] => none
    | _ :: rest => fromLine? line rest

/-- The bytes of a text up to its first line feed. -/
def firstLine (text : Bytes) : Bytes :=
  text.takeWhile (· ≠ Ascii.newline)

/-- The bytes of a text after its last line feed. -/
def lastLine (text : Bytes) : Bytes :=
  (text.reverse.takeWhile (· ≠ Ascii.newline)).reverse

/-- The place of a byte offset; an offset past the end stands for the end. -/
def ofOffset (text : Bytes) (offset : Nat) : Logged Position := do
  let before := text.take offset
  let character ← utf16Length (lastLine before)
  return ⟨Int32.ofNat (before.count Ascii.newline), Int32.ofNat character⟩

/-- The byte offset of a place. A character past the end of its line is the end of the line, and
one inside a code point is its end, if `allowBeyond` is set; else both are errors. -/
def toOffset (text : Bytes) (position : Position) (allowBeyond : Bool) :
    Logged (Except PositionError Nat) :=
  if position.line < 0 then return .error (.negativeLine position.line)
  else if position.character < 0 then return .error (.negativeCharacter position.character)
  else match fromLine? position.line.toInt.toNat text with
    | none => return .error (.lineOutOfRange position.line)
    | some rest => do
      let span ← ColumnSpan.measure (firstLine rest) position.character.toInt.toNat
      if !span.exact && !allowBeyond then
        return .error (.characterInvalid position.character position.line)
      else return .ok (text.length - rest.length + span.bytes)

end Position

end FormatServer
