import FormatServer.Json.Comments

namespace FormatServer.Manifest

/-- A member of an object with the text it was written with: the literal of the key, with its quotes
and escapes, stands beside the key that it stands for. -/
structure Member where
  key : Bytes
  keyText : Bytes
  value : Bytes
  deriving DecidableEq, Repr

/-- Why a text cannot be cut into members. -/
inductive ScanError where
  | expected (what : Bytes) (offset : Nat)
  | invalidKey
  deriving DecidableEq, Repr

/-- The text of a scan error. -/
def ScanError.message : ScanError → Bytes
  | expected what offset =>
    Bytes.concat ["expected ", what, " at offset ", Bytes.ofNat offset]
  | invalidKey => Json.syntaxErrorMessage

/-- The bytes up to the end of the string literal that a reader is in or comes to first. -/
def literalLength : Quoting → Bytes → Nat
  | _, [] => 0
  | quoting, byte :: rest =>
    if quoting.after byte = .outside then 1 else 1 + literalLength (quoting.after byte) rest

/-- The bytes up to the bracket or brace that closes the outermost of those open, `depth` of which
are open already. Brackets in string literals do not count. -/
def nestedLength : Quoting → (depth : Nat) → Bytes → Nat
  | _, _, [] => 0
  | .outside, depth, byte :: rest =>
    if byte = Ascii.openBrace ∨ byte = Ascii.openBracket then
      1 + nestedLength .outside (depth + 1) rest
    else if byte = Ascii.closeBrace ∨ byte = Ascii.closeBracket then
      if depth ≤ 1 then 1 else 1 + nestedLength .outside (depth - 1) rest
    else 1 + nestedLength (Quoting.outside.after byte) depth rest
  | quoting, depth, byte :: rest => 1 + nestedLength (quoting.after byte) depth rest

/-- The bytes that end a number or a name. -/
def isTerminator (byte : UInt8) : Bool :=
  byte == Ascii.comma || byte == Ascii.closeBrace || byte == Ascii.closeBracket ||
    Token.isBlank byte

/-- The bytes of the value that a text starts with. -/
def valueLength : Bytes → Nat
  | [] => 0
  | first :: rest =>
    if first = Ascii.quote then literalLength .outside (first :: rest)
    else if first = Ascii.openBrace ∨ first = Ascii.openBracket then
      nestedLength .outside 0 (first :: rest)
    else ((first :: rest).takeWhile fun byte => !isTerminator byte).length

/-- Cuts the members of an object out of what follows its opening brace, up to the closing one;
there is at least one. `size` is the length of the whole text. -/
def scanMembers (size : Nat) (text : Bytes) : Except ScanError (List Member) :=
  match _atKey : text.dropWhile Ascii.isSpace with
  | [] => .error (.expected "object key" size)
  | first :: rest =>
    if first ≠ Ascii.quote then .error (.expected "object key" (size - (rest.length + 1)))
    else
      let keyLength := literalLength .outside (first :: rest)
      let keyText := (first :: rest).take keyLength
      match Json.parse? keyText with
      | some (.string key) =>
        match _atColon : ((first :: rest).drop keyLength).dropWhile Ascii.isSpace with
        | [] => .error (.expected "':'" size)
        | colon :: afterColon =>
          if colon ≠ Ascii.colon then
            .error (.expected "':'" (size - (afterColon.length + 1)))
          else
            let atValue := afterColon.dropWhile Ascii.isSpace
            let member : Member := ⟨key, keyText, atValue.take (valueLength atValue)⟩
            match _atEnd : (atValue.drop (valueLength atValue)).dropWhile Ascii.isSpace with
            | [] => .error (.expected "',' or '\x7d'" size)
            | mark :: more =>
              if mark = Ascii.comma then (scanMembers size more).map (member :: ·)
              else if mark = Ascii.closeBrace then .ok [member]
              else .error (.expected "',' or '\x7d'" (size - (more.length + 1)))
      | _ => .error .invalidKey
termination_by text.length
decreasing_by
  have keyBound := (List.dropWhile_suffix Ascii.isSpace (l := text)).length_le
  have colonBound := (List.dropWhile_suffix Ascii.isSpace
    (l := (first :: rest).drop keyLength)).length_le
  have valueBound := (List.dropWhile_suffix Ascii.isSpace (l := afterColon)).length_le
  have endBound := (List.dropWhile_suffix Ascii.isSpace
    (l := atValue.drop (valueLength atValue))).length_le
  rw [_atKey] at keyBound
  rw [_atColon] at colonBound
  rw [_atEnd] at endBound
  simp only [List.length_drop, List.length_cons] at keyBound colonBound valueBound endBound ⊢
  simp only [atValue] at endBound
  omega

/-- Cuts an object into its members. -/
def scan (text : Bytes) : Except ScanError (List Member) :=
  match text.dropWhile Ascii.isSpace with
  | [] => .error (.expected "'\x7b'" text.length)
  | first :: rest =>
    if first ≠ Ascii.openBrace then
      .error (.expected "'\x7b'" (text.length - (rest.length + 1)))
    else if (rest.dropWhile Ascii.isSpace).head? = some Ascii.closeBrace then .ok []
    else scanMembers text.length rest

/-- Writes members between commas. -/
def joinMembers : List Member → Bytes
  | [] => []
  | [member] => member.keyText ++ Ascii.colon :: member.value
  | member :: members =>
    member.keyText ++ Ascii.colon :: member.value ++ Ascii.comma :: joinMembers members

/-- Writes an object without blanks between its members. -/
def write (members : List Member) : Bytes :=
  Ascii.openBrace :: joinMembers members ++ [Ascii.closeBrace]

end FormatServer.Manifest
