import FormatServer.Path

namespace FormatServer

namespace Percent

/-- Whether a byte of a path is written as it is. -/
def isPlain (byte : UInt8) : Bool :=
  Ascii.isLetter byte || Ascii.isDigit byte || byte == Ascii.minus || byte == Ascii.underscore ||
    byte == Ascii.dot || byte == Ascii.tilde || byte == Ascii.slash || byte == Ascii.colon

/-- Writes every byte that is not plain as a percent sign and two hexadecimal digits. -/
def encode (text : Bytes) : Bytes :=
  text.flatMap fun byte =>
    if isPlain byte then [byte]
    else [Ascii.percent, Ascii.hexDigit (byte / 16), Ascii.hexDigit (byte % 16)]

/-- Replaces every percent sign with two hexadecimal digits after it by the byte they name; any
other percent sign stays. -/
def decode : Bytes → Bytes
  | [] => []
  | byte :: rest =>
    if byte = Ascii.percent then
      match rest with
      | high :: low :: after =>
        match Ascii.hexValue? high, Ascii.hexValue? low with
        | some first, some second => (first * 16 + second) :: decode after
        | _, _ => byte :: decode (high :: low :: after)
      | other => byte :: decode other
    else byte :: decode rest

end Percent

/-- The name of a document: the normalized absolute path of a file, or nothing. -/
structure FileUri where
  path : Bytes := []
  deriving DecidableEq, Repr

/-- Why a text names no file. The scheme must be `file`, the authority empty or `localhost`, and the
decoded path absolute. -/
inductive UriError where
  | missingScheme (uri : Bytes)
  | unsupportedScheme (scheme uri : Bytes)
  | unsupportedAuthority (authority uri : Bytes)
  | notAbsolute (uri : Bytes)
  deriving DecidableEq, Repr

/-- The text of a URI error. -/
def UriError.message : UriError → Bytes
  | missingScheme uri => Bytes.concat ["scheme is missing in URI: ", uri]
  | unsupportedScheme scheme uri =>
    Bytes.concat ["unsupported URI scheme `", scheme, "`: ", uri]
  | unsupportedAuthority authority uri =>
    Bytes.concat ["file URI with authority `", authority, "` is not supported: ", uri]
  | notAbsolute uri => Bytes.concat ["file URI does not name an absolute path: ", uri]

namespace FileUri

/-- The one scheme of document names. -/
def scheme : Bytes := "file"

/-- The document at an absolute path. -/
def ofPath (path : Bytes) : FileUri :=
  ⟨Path.normalize path⟩

/-- Splits what follows the scheme into an authority and the rest; without two slashes there is no
authority. -/
def splitAuthority (text : Bytes) : Bytes × Bytes :=
  match text.after? "//" with
  | some rest => (rest.takeWhile (· ≠ Ascii.slash), rest.dropWhile (· ≠ Ascii.slash))
  | none => ([], text)

/-- The document that a URI names. -/
def parse (uri : Bytes) : Except UriError FileUri :=
  if ¬uri.contains Ascii.colon then .error (.missingScheme uri)
  else
    let found := uri.takeWhile (· ≠ Ascii.colon)
    if found ≠ scheme then .error (.unsupportedScheme found uri)
    else
      let (authority, rest) := splitAuthority (uri.drop (found.length + 1))
      if authority ≠ [] ∧ authority ≠ Bytes.ofString "localhost" then
        .error (.unsupportedAuthority authority uri)
      else
        let path := Percent.decode rest
        if Path.isAbsolute path then .ok (ofPath path) else .error (.notAbsolute uri)

/-- The URI of a document. -/
def print (document : FileUri) : Bytes :=
  Bytes.concat [scheme, "://", Percent.encode document.path]

end FileUri

end FormatServer
