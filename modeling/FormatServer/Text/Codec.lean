import FormatServer.Json.Schema
import FormatServer.Text.Position
import FormatServer.Uri

namespace FormatServer

namespace Position

/-- A position as a value. -/
def toJson (position : Position) : Json :=
  Json.mkObject
    [("line", Json.ofInt position.line.toInt), ("character", Json.ofInt position.character.toInt)]

/-- Decodes a position. -/
def decode (value : Json) : Decoded Position := do
  let members ← value.decodeObject
  let line ← members.require "line" Json.decodeInt32
  let character ← members.require "character" Json.decodeInt32
  return { line, character }

end Position

namespace Range

/-- A range as a value. -/
def toJson (range : Range) : Json :=
  Json.mkObject [("start", range.start.toJson), ("end", range.stop.toJson)]

/-- Decodes a range. -/
def decode (value : Json) : Decoded Range := do
  let members ← value.decodeObject
  let start ← members.require "start" Position.decode
  let stop ← members.require "end" Position.decode
  return { start, stop }

end Range

namespace TextEdit

/-- An edit as a value. -/
def toJson (edit : TextEdit) : Json :=
  Json.mkObject [("range", edit.range.toJson), ("newText", .string edit.newText)]

/-- Decodes an edit. -/
def decode (value : Json) : Decoded TextEdit := do
  let members ← value.decodeObject
  let range ← members.require "range" Range.decode
  let newText ← members.require "newText" Json.decodeString
  return { range, newText }

end TextEdit

namespace FileUri

/-- A document name as a value. -/
def toJson (document : FileUri) : Json :=
  .string document.print

/-- Decodes a document name; a value that is no string is refused without a reason. -/
def decode : Json → Decoded FileUri
  | .string uri =>
    match parse uri with
    | .ok document => .ok document
    | .error _ => .refuse .unresolvableUri
  | _ => .refuse .unreported

end FileUri

end FormatServer
