import FormatServer.Json.Token

/-!
Reading a JSON text: its tokens, then the value that they spell.

The readers take a bound on the number of nested calls. Each call that reads a value takes a token,
and between two such calls there is at most one other, so twice the number of tokens is enough.
-/

namespace FormatServer.Json

mutual

/-- Reads a value off the front of a list of tokens. -/
def readValue? : (bound : Nat) → List Token → Option (Json × List Token)
  | 0, _ => none
  | bound + 1, tokens =>
    match tokens with
    | .null :: rest => some (null, rest)
    | .bool value :: rest => some (bool value, rest)
    | .number value :: rest => some (number value, rest)
    | .string text :: rest => some (string text, rest)
    | .openBracket :: .closeBracket :: rest => some (array [], rest)
    | .openBracket :: rest =>
      (readElements? bound rest).map fun (elements, rest) => (array elements, rest)
    | .openBrace :: .closeBrace :: rest => some (object [], rest)
    | .openBrace :: rest =>
      (readMembers? bound rest).map fun (members, rest) =>
        (object (JsonObject.ofMembers members), rest)
    | _ => none

/-- Reads the elements of an array up to its closing bracket; there is at least one. -/
def readElements? : (bound : Nat) → List Token → Option (List Json × List Token)
  | 0, _ => none
  | bound + 1, tokens =>
    match readValue? bound tokens with
    | some (value, .closeBracket :: rest) => some ([value], rest)
    | some (value, .comma :: rest) =>
      (readElements? bound rest).map fun (values, rest) => (value :: values, rest)
    | _ => none

/-- Reads the members of an object up to its closing brace; there is at least one. -/
def readMembers? : (bound : Nat) → List Token → Option (List (Bytes × Json) × List Token)
  | 0, _ => none
  | bound + 1, tokens =>
    match tokens with
    | .string key :: .colon :: afterColon =>
      match readValue? bound afterColon with
      | some (value, .closeBrace :: rest) => some ([(key, value)], rest)
      | some (value, .comma :: rest) =>
        (readMembers? bound rest).map fun (members, rest) => ((key, value) :: members, rest)
      | _ => none
    | _ => none

end

/-- The value that a list of tokens spells. -/
def ofTokens? (tokens : List Token) : Option Json :=
  match readValue? (2 * tokens.length) tokens with
  | some (value, []) => some value
  | _ => none

/-- The value of a JSON text. The text must be well-formed UTF-8 as a whole. -/
def parse? (text : Bytes) : Option Json :=
  if Utf8.isWellFormed text then (Token.readAll? text).bind ofTokens? else none

/-- What is said of a text that is not JSON. -/
def syntaxErrorMessage : Bytes := "<json-error>"

end FormatServer.Json
