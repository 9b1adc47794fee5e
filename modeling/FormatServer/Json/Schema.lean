import FormatServer.Json.Value

namespace FormatServer

/-- What is wrong with a value. About an `unreported` fault nothing more is said than that the value
is of the wrong kind. -/
inductive SchemaFault where
  | expectedObject
  | expectedArray
  | expectedString
  | expectedInteger
  | expectedBoolean
  | missingValue
  | unresolvableUri
  | unreported
  deriving DecidableEq, Repr

/-- The text of a fault. -/
def SchemaFault.message : SchemaFault → Bytes
  | expectedObject => "expected object"
  | expectedArray => "expected array"
  | expectedString => "expected string"
  | expectedInteger => "expected integer"
  | expectedBoolean => "expected boolean"
  | missingValue => "missing value"
  | unresolvableUri => "unresolvable URI"
  | unreported => "invalid JSON contents"

/-- One step from a value to a part of it. -/
inductive SchemaStep where
  | field (name : Bytes)
  | index (place : Nat)
  deriving DecidableEq, Repr

/-- How a step is written. -/
def SchemaStep.render : SchemaStep → Bytes
  | field name => Ascii.dot :: name
  | index place => Bytes.concat ["[", Bytes.ofNat place, "]"]

/-- A fault and the steps that lead to the value it lies in, from the outermost. -/
structure SchemaError where
  fault : SchemaFault
  path : List SchemaStep := []
  deriving DecidableEq, Repr

/-- The text of an error in a value that has a name, empty for none. -/
def SchemaError.message (error : SchemaError) (name : Bytes) : Bytes :=
  let path := if error.fault = .unreported then [] else error.path
  let place : Bytes :=
    match path, name with
    | [], [] => ""
    | [], _ => Bytes.concat [" when parsing ", name]
    | path, [] => Bytes.concat (" at (root)" :: path.map SchemaStep.render)
    | path, _ => Bytes.concat (" at " :: name :: path.map SchemaStep.render)
  error.fault.message ++ place

/-- A value that is decoded, or the error found in it. -/
abbrev Decoded (α : Type) := Except SchemaError α

namespace Decoded

/-- A decoder's refusal of the value itself. -/
def refuse {α : Type} (fault : SchemaFault) : Decoded α :=
  .error { fault }

/-- Places an error below a step. -/
def below {α : Type} (step : SchemaStep) : Decoded α → Decoded α
  | .ok value => .ok value
  | .error error => .error { error with path := step :: error.path }

end Decoded

namespace Json

/-- Decodes a text. -/
def decodeString : Json → Decoded Bytes
  | string text => .ok text
  | _ => .refuse .expectedString

/-- Decodes a truth value. -/
def decodeBool : Json → Decoded Bool
  | bool value => .ok value
  | _ => .refuse .expectedBoolean

/-- Decodes a whole number of 64 bits. -/
def decodeInt64 (value : Json) : Decoded Int64 :=
  match value.toInt64? with
  | some integer => .ok integer
  | none => .refuse .expectedInteger

/-- Decodes a whole number and keeps its lowest 32 bits. -/
def decodeInt32 (value : Json) : Decoded Int32 :=
  value.decodeInt64.map Int64.toInt32

/-- Decodes the elements of an array in order, counting from `place`. -/
def decodeElements {α : Type} (decode : Json → Decoded α) :
    (place : Nat) → List Json → Decoded (List α)
  | _, [] => .ok []
  | place, element :: elements => do
    let first ← (decode element).below (.index place)
    let others ← decodeElements decode (place + 1) elements
    return first :: others

/-- Decodes an array. -/
def decodeArray {α : Type} (decode : Json → Decoded α) : Json → Decoded (List α)
  | array elements => decodeElements decode 0 elements
  | _ => .refuse .expectedArray

/-- Decodes the members of an object. -/
def decodeObject : Json → Decoded JsonObject
  | object members => .ok members
  | _ => .refuse .expectedObject

end Json

namespace JsonObject

/-- Decodes a field that must be there. -/
def require {α : Type} (members : JsonObject) (name : String) (decode : Json → Decoded α) :
    Decoded α :=
  Decoded.below (.field name) <|
    match members.get? name with
    | some value => decode value
    | none => .refuse .missingValue

/-- Decodes a field that may be absent and then keeps its default. -/
def optional {α : Type} (members : JsonObject) (name : String) (decode : Json → Decoded α)
    (default : α) : Decoded α :=
  match members.get? name with
  | some value => (decode value).below (.field name)
  | none => .ok default

end JsonObject

end FormatServer
