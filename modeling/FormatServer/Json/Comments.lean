import FormatServer.Json.Parser

/-!
JSON with comments and trailing commas, and how it becomes plain JSON.

Comments and trailing commas are overwritten by spaces, so every byte that stays keeps its offset
and every line its number. A first pass blanks the comments and a second the commas; both follow
string literals by the same rule.
-/

namespace FormatServer

/-- Where a reader stands with regard to string literals; it is `escaped` behind a backslash. -/
inductive Quoting where
  | outside
  | inside
  | escaped
  deriving DecidableEq, Repr

/-- Where a reader stands after one more byte. -/
def Quoting.after (quoting : Quoting) (byte : UInt8) : Quoting :=
  match quoting with
  | outside => if byte = Ascii.quote then inside else outside
  | inside =>
    if byte = Ascii.quote then outside else if byte = Ascii.backslash then escaped else inside
  | escaped => inside

namespace Jsonc

/-- Where a reader of a text with comments stands between two bytes. Between the slash and the star
that open a block comment it is at its `blockOpening`, and between those that close it at its
`blockClosing`. -/
inductive Place where
  | text (quoting : Quoting)
  | lineComment
  | blockOpening
  | blockComment
  | blockClosing
  deriving DecidableEq, Repr

/-- Whether a byte belongs to a comment, and where a reader stands after it. The byte that follows
decides whether a slash opens a comment and whether a star closes one. -/
def Place.read (place : Place) (byte : UInt8) (following : Bytes) : Bool × Place :=
  match place with
  | text quoting =>
    if quoting = .outside ∧ byte = Ascii.slash then
      if following.head? = some Ascii.slash then (true, lineComment)
      else if following.head? = some Ascii.star then (true, blockOpening)
      else (false, text .outside)
    else (false, text (quoting.after byte))
  | lineComment => if byte = Ascii.newline then (false, text .outside) else (true, lineComment)
  | blockOpening => (true, blockComment)
  | blockComment =>
    if byte = Ascii.star ∧ following.head? = some Ascii.slash then (true, blockClosing)
    else (true, blockComment)
  | blockClosing => (true, text .outside)

/-- A byte of a comment, blanked; line feeds stay. -/
def blank (byte : UInt8) : UInt8 :=
  if byte = Ascii.newline then byte else Ascii.space

/-- Blanks the comments of a text that is read from `place` on. -/
def blankCommentsFrom : Place → Bytes → Bytes
  | _, [] => []
  | place, byte :: rest =>
    let (inComment, next) := place.read byte rest
    (if inComment then blank byte else byte) :: blankCommentsFrom next rest

/-- Blanks the comments of a text. -/
def blankComments (text : Bytes) : Bytes :=
  blankCommentsFrom (.text .outside) text

/-- Whether the next byte that is not blank closes an array or an object. -/
def closesNext (following : Bytes) : Bool :=
  match following.dropWhile Ascii.isSpace with
  | [] => false
  | byte :: _ => byte == Ascii.closeBrace || byte == Ascii.closeBracket

/-- Blanks the trailing commas of a text without comments that is read from `quoting` on. -/
def blankTrailingCommasFrom : Quoting → Bytes → Bytes
  | _, [] => []
  | quoting, byte :: rest =>
    (if quoting = .outside ∧ byte = Ascii.comma ∧ closesNext rest then Ascii.space else byte) ::
      blankTrailingCommasFrom (quoting.after byte) rest

/-- Blanks the commas outside strings that stand before a closing bracket or brace. -/
def blankTrailingCommas (text : Bytes) : Bytes :=
  blankTrailingCommasFrom .outside text

/-- The plain JSON text underneath a text with comments and trailing commas. -/
def strip (text : Bytes) : Bytes :=
  blankTrailingCommas (blankComments text)

/-- The value of a text with comments and trailing commas. -/
def parse? (text : Bytes) : Option Json :=
  Json.parse? (strip text)

theorem length_blankCommentsFrom (place : Place) (text : Bytes) :
    (blankCommentsFrom place text).length = text.length := by
  induction text generalizing place with
  | nil => rfl
  | cons byte rest inductionHypothesis => simp [blankCommentsFrom, inductionHypothesis]

theorem length_blankTrailingCommasFrom (quoting : Quoting) (text : Bytes) :
    (blankTrailingCommasFrom quoting text).length = text.length := by
  induction text generalizing quoting with
  | nil => rfl
  | cons byte rest inductionHypothesis => simp [blankTrailingCommasFrom, inductionHypothesis]

/-- Stripping keeps the length of a text. -/
theorem length_strip (text : Bytes) : (strip text).length = text.length := by
  simp [strip, blankTrailingCommas, blankComments, length_blankTrailingCommasFrom,
    length_blankCommentsFrom]

end Jsonc

end FormatServer
