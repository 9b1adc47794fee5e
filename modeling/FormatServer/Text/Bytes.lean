/-!
Byte strings and the ASCII rules that the rest of the library shares.

Paths, file contents and messages are lists of bytes, so a text that is not well-formed UTF-8 is a
value like any other and nothing is lost by reading it.
-/

namespace FormatServer

/-- A byte string: a path, the content of a file or the text of a message. -/
abbrev Bytes := List UInt8

namespace Ascii

/-- A tab. -/
abbrev tab : UInt8 := 0x09
/-- A line feed, the end of a line. -/
abbrev newline : UInt8 := 0x0A
/-- A carriage return. -/
abbrev carriageReturn : UInt8 := 0x0D
/-- A space. -/
abbrev space : UInt8 := 0x20
/-- An exclamation mark. -/
abbrev bang : UInt8 := 0x21
/-- A quotation mark, which opens and closes a string. -/
abbrev quote : UInt8 := 0x22
/-- A hash sign. -/
abbrev hash : UInt8 := 0x23
/-- A percent sign. -/
abbrev percent : UInt8 := 0x25
/-- An asterisk. -/
abbrev star : UInt8 := 0x2A
/-- A plus sign. -/
abbrev plus : UInt8 := 0x2B
/-- A comma. -/
abbrev comma : UInt8 := 0x2C
/-- A minus sign. -/
abbrev minus : UInt8 := 0x2D
/-- A full stop. -/
abbrev dot : UInt8 := 0x2E
/-- A slash, the separator of path components. -/
abbrev slash : UInt8 := 0x2F
/-- The digit zero. -/
abbrev zero : UInt8 := 0x30
/-- A colon. -/
abbrev colon : UInt8 := 0x3A
/-- A question mark. -/
abbrev question : UInt8 := 0x3F
/-- An opening bracket. -/
abbrev openBracket : UInt8 := 0x5B
/-- A backslash, which escapes the byte after it. -/
abbrev backslash : UInt8 := 0x5C
/-- A closing bracket. -/
abbrev closeBracket : UInt8 := 0x5D
/-- A caret. -/
abbrev caret : UInt8 := 0x5E
/-- An underscore. -/
abbrev underscore : UInt8 := 0x5F
/-- A tilde. -/
abbrev tilde : UInt8 := 0x7E
/-- An opening brace. -/
abbrev openBrace : UInt8 := 0x7B
/-- A closing brace. -/
abbrev closeBrace : UInt8 := 0x7D

/-- The six blank bytes: space, tab, line feed, vertical tab, form feed and carriage return. -/
def isSpace (byte : UInt8) : Bool :=
  byte == space || (tab ≤ byte && byte ≤ carriageReturn)

/-- A decimal digit. -/
def isDigit (byte : UInt8) : Bool :=
  zero ≤ byte && byte ≤ 0x39

/-- A letter of the English alphabet in either case. -/
def isLetter (byte : UInt8) : Bool :=
  (0x41 ≤ byte && byte ≤ 0x5A) || (0x61 ≤ byte && byte ≤ 0x7A)

/-- The lower case of an upper-case letter; every other byte stays. -/
def toLower (byte : UInt8) : UInt8 :=
  if 0x41 ≤ byte ∧ byte ≤ 0x5A then byte + 0x20 else byte

/-- The upper-case hexadecimal digit of a value below sixteen. -/
def hexDigit (value : UInt8) : UInt8 :=
  if value < 10 then zero + value else 0x41 + (value - 10)

/-- The value of a hexadecimal digit in either case. -/
def hexValue? (byte : UInt8) : Option UInt8 :=
  if isDigit byte then some (byte - zero)
  else if 0x41 ≤ byte ∧ byte ≤ 0x46 then some (byte - 0x41 + 10)
  else if 0x61 ≤ byte ∧ byte ≤ 0x66 then some (byte - 0x61 + 10)
  else none

end Ascii

namespace Bytes

/-- The UTF-8 bytes of a text. -/
def ofString (text : String) : Bytes :=
  text.toByteArray.data.toList

instance : Coe String Bytes := ⟨ofString⟩

/-- The parts of a message, one after another. -/
def concat (parts : List Bytes) : Bytes :=
  parts.flatten

/-- A number in decimal. -/
def ofNat (number : Nat) : Bytes :=
  ofString (Nat.repr number)

/-- A number in decimal, with a minus sign if it is negative. -/
def ofInt (number : Int) : Bytes :=
  if number < 0 then Ascii.minus :: ofNat number.natAbs else ofNat number.natAbs

/-- Two upper-case hexadecimal digits for each byte. -/
def toHex (text : Bytes) : Bytes :=
  text.flatMap fun byte => [Ascii.hexDigit (byte / 16), Ascii.hexDigit (byte % 16)]

/-- Every ASCII letter in lower case. -/
def toLower (text : Bytes) : Bytes :=
  text.map Ascii.toLower

/-- The text without the longest suffix of bytes that satisfy the test. -/
def dropWhileEnd (test : UInt8 → Bool) (text : Bytes) : Bytes :=
  (text.reverse.dropWhile test).reverse

/-- The text without its trailing blank bytes. -/
def trimEnd (text : Bytes) : Bytes :=
  text.dropWhileEnd Ascii.isSpace

/-- What follows `front` in a text that begins with it. -/
def after? : (text front : Bytes) → Option Bytes
  | text, [] => some text
  | [], _ :: _ => none
  | byte :: text, expected :: front => if byte = expected then after? text front else none

/-- The pieces between occurrences of a separator; there is one more piece than separators. -/
def split (separator : UInt8) : Bytes → List Bytes
  | [] => [[]]
  | byte :: rest =>
    if byte = separator then [] :: split separator rest
    else match split separator rest with
      | [] => [[byte]]
      | piece :: pieces => (byte :: piece) :: pieces

/-- The non-empty pieces between slashes. -/
def components (path : Bytes) : List Bytes :=
  (path.split Ascii.slash).filter (· ≠ [])

theorem length_dropWhileEnd_le (test : UInt8 → Bool) (text : Bytes) :
    (text.dropWhileEnd test).length ≤ text.length := by
  have bound := (List.dropWhile_suffix test (l := text.reverse)).length_le
  simpa [dropWhileEnd] using bound

/-- A text whose last byte satisfies the test loses at least that byte. -/
theorem length_dropWhileEnd_lt {test : UInt8 → Bool} {text : Bytes} {last : UInt8}
    (isLast : text.getLast? = some last) (holds : test last = true) :
    (text.dropWhileEnd test).length < text.length := by
  rw [List.getLast?_eq_head?_reverse] at isLast
  unfold dropWhileEnd
  cases reversed : text.reverse with
  | nil => simp [reversed] at isLast
  | cons first rest =>
    simp only [reversed, List.head?_cons, Option.some.injEq] at isLast
    have bound := (List.dropWhile_suffix test (l := rest)).length_le
    have lengths := congrArg List.length reversed
    simp only [List.length_reverse, List.length_cons] at lengths
    simp only [isLast, holds, List.dropWhile_cons_of_pos, List.length_reverse]
    omega

@[simp] theorem concat_nil : concat [] = [] := rfl

@[simp] theorem concat_cons (part : Bytes) (parts : List Bytes) :
    concat (part :: parts) = part ++ concat parts := rfl

/-- Reading `front` off a text leaves exactly what was written after it. -/
theorem after?_eq_some_iff {text front rest : Bytes} :
    after? text front = some rest ↔ text = front ++ rest := by
  fun_induction after? text front with
  | case1 text => simp
  | case2 => simp
  | case3 text expected front inductionHypothesis => simp [inductionHypothesis]
  | case4 byte text expected front differ => simp [differ]

end Bytes

end FormatServer
