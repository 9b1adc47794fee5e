import FormatServer.Json.Value

namespace FormatServer

/-- A number in decimal. -/
def JsonNumber.print : JsonNumber → Bytes
  | signed value => Bytes.ofInt value.toInt
  | unsigned value => Bytes.ofNat value.toNat
  | binary value => value.print

namespace Json

/-- A byte of a text as it stands in a string literal. -/
def escapeByte (byte : UInt8) : Bytes :=
  if byte = Ascii.quote ∨ byte = Ascii.backslash then [Ascii.backslash, byte]
  else if byte < 0x20 then Bytes.concat ["\\u00", Bytes.toHex [byte]]
  else [byte]

/-- A text as a string literal. -/
def quote (text : Bytes) : Bytes :=
  Ascii.quote :: text.flatMap escapeByte ++ [Ascii.quote]

mutual

/-- Writes a value. -/
def print : Json → Bytes
  | null => "null"
  | bool value => if value then "true" else "false"
  | number value => value.print
  | string text => quote text
  | array [] => [Ascii.openBracket, Ascii.closeBracket]
  | array (element :: elements) =>
    Ascii.openBracket :: (print element ++ printElements elements)
  | object [] => [Ascii.openBrace, Ascii.closeBrace]
  | object ((key, value) :: members) =>
    Ascii.openBrace :: (quote key ++ Ascii.colon :: (print value ++ printMembers members))

/-- Writes the elements after the first and closes the array. -/
def printElements : List Json → Bytes
  | [] => [Ascii.closeBracket]
  | element :: elements => Ascii.comma :: (print element ++ printElements elements)

/-- Writes the members after the first and closes the object. -/
def printMembers : List (Bytes × Json) → Bytes
  | [] => [Ascii.closeBrace]
  | (key, value) :: members =>
    Ascii.comma :: (quote key ++ Ascii.colon :: (print value ++ printMembers members))

end

end Json

end FormatServer
