import FormatServer.Json.Value
import FormatServer.Text.Utf8

namespace FormatServer

/-- One element of a string literal: a byte, which stands for itself or is named by a short escape,
or a UTF-16 unit written as an escape with four hexadecimal digits. -/
inductive StringPiece where
  | byte (value : UInt8)
  | unit (value : Nat)
  deriving DecidableEq, Repr

namespace StringPiece

/-- A unit that must be followed by a low surrogate. -/
def isHighSurrogate (unit : Nat) : Bool := 0xD800 ≤ unit && unit < 0xDC00

/-- A unit that must follow a high surrogate. -/
def isLowSurrogate (unit : Nat) : Bool := 0xDC00 ≤ unit && unit < 0xE000

/-- The bytes of a unit that is not part of a pair; a surrogate becomes the replacement character.
-/
def encodeLone (unit : Nat) : Bytes :=
  if isHighSurrogate unit || isLowSurrogate unit then Utf8.replacement else Utf8.encode unit

/-- The code point of a surrogate pair. -/
def pairCode (high low : Nat) : Nat :=
  0x10000 + (high - 0xD800) * 0x400 + (low - 0xDC00)

/-- The bytes that the elements of a literal stand for. -/
def decode : List StringPiece → Bytes
  | [] => []
  | byte value :: rest => value :: decode rest
  | unit high :: unit low :: rest =>
    if isHighSurrogate high && isLowSurrogate low then
      Utf8.encode (pairCode high low) ++ decode rest
    else encodeLone high ++ decode (unit low :: rest)
  | unit lone :: rest => encodeLone lone ++ decode rest

/-- The byte that a short escape names. -/
def shortEscape? (letter : UInt8) : Option UInt8 :=
  if letter = Ascii.quote ∨ letter = Ascii.backslash ∨ letter = Ascii.slash then some letter
  else if letter = 0x62 then some 0x08
  else if letter = 0x66 then some 0x0C
  else if letter = 0x6E then some Ascii.newline
  else if letter = 0x72 then some Ascii.carriageReturn
  else if letter = 0x74 then some Ascii.tab
  else none

/-- The unit that four hexadecimal digits name. -/
def unit? (first second third fourth : UInt8) : Option Nat := do
  let first ← Ascii.hexValue? first
  let second ← Ascii.hexValue? second
  let third ← Ascii.hexValue? third
  let fourth ← Ascii.hexValue? fourth
  return ((first.toNat * 16 + second.toNat) * 16 + third.toNat) * 16 + fourth.toNat

/-- Puts an element in front of what was read after it. -/
def followedBy (piece : StringPiece) (read : Option (List StringPiece × Bytes)) :
    Option (List StringPiece × Bytes) :=
  read.map fun (pieces, rest) => (piece :: pieces, rest)

/-- Reads the elements of a literal up to its closing quote, from the byte after the opening one.
Control bytes must be escaped. -/
def read? : Bytes → Option (List StringPiece × Bytes)
  | [] => none
  | first :: rest =>
    if first = Ascii.quote then some ([], rest)
    else if first < 0x20 then none
    else if first = Ascii.backslash then
      match rest with
      | [] => none
      | letter :: rest =>
        if letter = 0x75 then
          match rest with
          | a :: b :: c :: d :: rest =>
            match unit? a b c d with
            | some value => followedBy (unit value) (read? rest)
            | none => none
          | _ => none
        else match shortEscape? letter with
          | some value => followedBy (byte value) (read? rest)
          | none => none
    else followedBy (byte first) (read? rest)

/-- What follows a literal is shorter than what it was read from. -/
theorem length_lt_of_read? {text rest : Bytes} {pieces : List StringPiece}
    (found : read? text = some (pieces, rest)) : rest.length < text.length := by
  fun_induction read? text generalizing pieces with
  | case1 => simp at found
  | case2 => simp_all
  | case3 => simp at found
  | case4 => simp at found
  | case5 _ _ a b c d tail value named inductionHypothesis =>
    simp only [followedBy, Option.map_eq_some_iff, Prod.mk.injEq, Prod.exists] at found
    obtain ⟨_, _, tailFound, _, rfl⟩ := found
    have shorter := inductionHypothesis tailFound
    simp only [List.length_cons]
    omega
  | case6 => simp at found
  | case7 => simp at found
  | case8 _ _ letter tail notUnit value named inductionHypothesis =>
    simp only [followedBy, Option.map_eq_some_iff, Prod.mk.injEq, Prod.exists] at found
    obtain ⟨_, _, tailFound, _, rfl⟩ := found
    have shorter := inductionHypothesis tailFound
    simp only [List.length_cons]
    omega
  | case9 => simp at found
  | case10 first tail notQuote notControl notEscape inductionHypothesis =>
    simp only [followedBy, Option.map_eq_some_iff, Prod.mk.injEq, Prod.exists] at found
    obtain ⟨_, _, tailFound, _, rfl⟩ := found
    have shorter := inductionHypothesis tailFound
    simp only [List.length_cons]
    omega

end StringPiece

/-- A number as it is written: whether it starts with a minus sign, the digits before the point and
those after it, and the sign and the digits of the exponent. -/
structure NumberLiteral where
  negative : Bool
  whole : Bytes
  fraction : Bytes
  exponent : Option (Bool × Bytes)

namespace NumberLiteral

/-- The number that decimal digits name. -/
def digitsValue (digits : Bytes) : Nat :=
  digits.foldl (fun value digit => value * 10 + (digit - Ascii.zero).toNat) 0

/-- The first digits of a text and what follows them. -/
def readDigits (text : Bytes) : Bytes × Bytes :=
  (text.takeWhile Ascii.isDigit, text.dropWhile Ascii.isDigit)

/-- Reads the digits before the point: a zero on its own, or digits that start with another. -/
def readWhole? (text : Bytes) : Option (Bytes × Bytes) :=
  match text with
  | [] => none
  | first :: rest =>
    if first = Ascii.zero then some ([first], rest)
    else if Ascii.isDigit first then some (readDigits text)
    else none

/-- Reads a point and at least one digit, if there is a point. -/
def readFraction? (text : Bytes) : Option (Bytes × Bytes) :=
  match text with
  | [] => some ([], text)
  | first :: rest =>
    if first = Ascii.dot then
      match readDigits rest with
      | ([], _) => none
      | (digits, rest) => some (digits, rest)
    else some ([], text)

/-- Reads an optional sign and at least one digit. -/
def readSignedDigits? (text : Bytes) : Option ((Bool × Bytes) × Bytes) :=
  let (negative, rest) :=
    match text with
    | [] => (false, text)
    | first :: rest =>
      if first = Ascii.minus then (true, rest)
      else if first = Ascii.plus then (false, rest)
      else (false, text)
  match readDigits rest with
  | ([], _) => none
  | (digits, rest) => some ((negative, digits), rest)

/-- Reads an exponent mark, a sign and at least one digit, if there is a mark. -/
def readExponent? (text : Bytes) : Option (Option (Bool × Bytes) × Bytes) :=
  match text with
  | [] => some (none, text)
  | first :: rest =>
    if first = 0x65 ∨ first = 0x45 then
      (readSignedDigits? rest).map fun (exponent, rest) => (some exponent, rest)
    else some (none, text)

/-- Reads a number. -/
def read? (text : Bytes) : Option (NumberLiteral × Bytes) := do
  let (negative, rest) :=
    match text with
    | [] => (false, text)
    | first :: rest => if first = Ascii.minus then (true, rest) else (false, text)
  let (whole, rest) ← readWhole? rest
  let (fraction, rest) ← readFraction? rest
  let (exponent, rest) ← readExponent? rest
  return ({ negative, whole, fraction, exponent }, rest)

/-- The number nearest to a literal. -/
def toBinary64 (literal : NumberLiteral) : Binary64 :=
  let exponent : Int :=
    match literal.exponent with
    | some (true, digits) => -(digitsValue digits : Int)
    | some (false, digits) => digitsValue digits
    | none => 0
  Binary64.ofDecimal literal.negative (digitsValue (literal.whole ++ literal.fraction))
    (exponent - literal.fraction.length)

/-- The value of a literal: a machine integer if it has neither point nor exponent and fits one. -/
def value (literal : NumberLiteral) : JsonNumber :=
  let magnitude : Int := digitsValue literal.whole
  let integer := if literal.negative then -magnitude else magnitude
  if literal.fraction = [] ∧ literal.exponent = none then
    if Int64.minValue.toInt ≤ integer ∧ integer ≤ Int64.maxValue.toInt then
      .signed (Int64.ofInt integer)
    else if 0 ≤ integer ∧ integer < UInt64.size then .unsigned (UInt64.ofNat integer.toNat)
    else .binary literal.toBinary64
  else .binary literal.toBinary64

theorem length_readDigits (text : Bytes) : (readDigits text).2.length ≤ text.length :=
  (List.dropWhile_suffix Ascii.isDigit).length_le

theorem length_of_readWhole? {text digits rest : Bytes}
    (found : readWhole? text = some (digits, rest)) : rest.length < text.length := by
  unfold readWhole? at found
  split at found
  · simp at found
  · next first tail =>
    split at found
    · simp_all
    · split at found
      · next isDigit =>
        simp only [readDigits, isDigit, List.dropWhile_cons_of_pos, Option.some.injEq,
          Prod.mk.injEq] at found
        rw [← found.2]
        exact Nat.lt_succ_of_le (length_readDigits tail)
      · simp at found

theorem length_of_readFraction? {text digits rest : Bytes}
    (found : readFraction? text = some (digits, rest)) : rest.length ≤ text.length := by
  unfold readFraction? at found
  split at found
  · simp_all
  · next first tail =>
    split at found
    · split at found
      · simp at found
      · next someDigits after _ equal =>
        simp only [Option.some.injEq, Prod.mk.injEq] at found
        have shorter := length_readDigits tail
        rw [equal, found.2] at shorter
        exact Nat.le_succ_of_le shorter
    · simp_all

theorem length_of_readSignedDigits? {text rest : Bytes} {exponent : Bool × Bytes}
    (found : readSignedDigits? text = some (exponent, rest)) : rest.length ≤ text.length := by
  unfold readSignedDigits? at found
  dsimp only at found
  split at found
  · simp at found
  · next someDigits after _ equal =>
    simp only [Option.some.injEq, Prod.mk.injEq] at found
    have shorter := congrArg (fun pair => pair.2.length) equal
    dsimp only at shorter
    rw [← found.2, ← shorter]
    refine Nat.le_trans (length_readDigits _) ?_
    split
    · simp
    · split
      · simp
      · split <;> simp

theorem length_of_readExponent? {text rest : Bytes} {exponent : Option (Bool × Bytes)}
    (found : readExponent? text = some (exponent, rest)) : rest.length ≤ text.length := by
  unfold readExponent? at found
  split at found
  · simp_all
  · split at found
    · simp only [Option.map_eq_some_iff, Prod.mk.injEq, Prod.exists] at found
      obtain ⟨_, _, _, digitsFound, _, rfl⟩ := found
      have shorter := length_of_readSignedDigits? digitsFound
      simp only [List.length_cons]
      omega
    · simp_all

/-- What follows a number is shorter than what it was read from. -/
theorem length_lt_of_read? {text rest : Bytes} {literal : NumberLiteral}
    (found : read? text = some (literal, rest)) : rest.length < text.length := by
  simp only [read?, Option.bind_eq_bind, Option.bind_eq_some_iff, Option.pure_def,
    Option.some.injEq, Prod.mk.injEq, Prod.exists] at found
  obtain ⟨whole, afterWhole, wholeFound, fraction, afterFraction, fractionFound, exponent,
    afterExponent, exponentFound, _, rfl⟩ := found
  have first := length_of_readWhole? wholeFound
  have second := length_of_readFraction? fractionFound
  have third := length_of_readExponent? exponentFound
  have sign : ∀ text : Bytes,
      (match text with
        | [] => (false, text)
        | first :: rest => if first = Ascii.minus then (true, rest) else (false, text)).2.length ≤
      text.length := by
    intro text
    split
    · simp
    · split <;> simp
  have fourth := sign text
  omega

end NumberLiteral

/-- A token of a JSON text. -/
inductive Token where
  | openBrace
  | closeBrace
  | openBracket
  | closeBracket
  | colon
  | comma
  | null
  | bool (value : Bool)
  | number (value : JsonNumber)
  | string (text : Bytes)
  deriving DecidableEq, Repr

namespace Token

/-- The bytes that may stand between tokens. -/
def isBlank (byte : UInt8) : Bool :=
  byte == Ascii.space || byte == Ascii.tab || byte == Ascii.newline ||
    byte == Ascii.carriageReturn

/-- The token that a byte is on its own. -/
def ofByte? (byte : UInt8) : Option Token :=
  if byte = Ascii.openBrace then some openBrace
  else if byte = Ascii.closeBrace then some closeBrace
  else if byte = Ascii.openBracket then some openBracket
  else if byte = Ascii.closeBracket then some closeBracket
  else if byte = Ascii.colon then some colon
  else if byte = Ascii.comma then some comma
  else none

/-- The tokens that are written as a name. -/
def names : List (Bytes × Token) :=
  [("null", null), ("true", bool true), ("false", bool false)]

/-- Reads a name. -/
def readName? (text : Bytes) : Option (Token × Bytes) :=
  names.findSome? fun (name, token) => (text.after? name).map fun rest => (token, rest)

/-- Reads a token off the front of a text that does not start with a blank. -/
def read? : Bytes → Option (Token × Bytes)
  | [] => none
  | first :: rest =>
    match ofByte? first with
    | some token => some (token, rest)
    | none =>
      if first = Ascii.quote then
        (StringPiece.read? rest).map fun (pieces, rest) =>
          (string (StringPiece.decode pieces), rest)
      else if Ascii.isLetter first then readName? (first :: rest)
      else (NumberLiteral.read? (first :: rest)).map fun (literal, rest) =>
        (number literal.value, rest)

/-- What follows a name is shorter than what it was read from. -/
theorem length_lt_of_readName? {text rest : Bytes} {token : Token}
    (found : readName? text = some (token, rest)) : rest.length < text.length := by
  obtain ⟨⟨name, other⟩, member, read⟩ := List.exists_of_findSome?_eq_some found
  simp only [Option.map_eq_some_iff, Prod.mk.injEq, Bytes.after?_eq_some_iff] at read
  obtain ⟨_, rfl, _, rfl⟩ := read
  have written : ∀ entry ∈ names, 0 < entry.1.length := by decide
  have positive : 0 < name.length := written _ member
  simp only [List.length_append]
  omega

/-- What follows a token is shorter than what it was read from. -/
theorem length_lt_of_read? {text rest : Bytes} {token : Token}
    (found : read? text = some (token, rest)) : rest.length < text.length := by
  unfold read? at found
  split at found
  · simp at found
  · split at found
    · simp_all
    · split at found
      · simp only [Option.map_eq_some_iff, Prod.mk.injEq, Prod.exists] at found
        obtain ⟨_, _, stringFound, _, rfl⟩ := found
        exact Nat.lt_succ_of_lt (StringPiece.length_lt_of_read? stringFound)
      · split at found
        · exact length_lt_of_readName? found
        · simp only [Option.map_eq_some_iff, Prod.mk.injEq, Prod.exists] at found
          obtain ⟨_, _, numberFound, _, rfl⟩ := found
          exact NumberLiteral.length_lt_of_read? numberFound

/-- The tokens of a text, if it consists of tokens and blanks. -/
def readAll? (text : Bytes) : Option (List Token) :=
  match text.dropWhile isBlank, (List.dropWhile_suffix isBlank (l := text)).length_le with
  | [], _ => some []
  | first :: tail, _bound =>
    match _found : read? (first :: tail) with
    | none => none
    | some (token, rest) => (readAll? rest).map (token :: ·)
termination_by text.length
decreasing_by exact Nat.lt_of_lt_of_le (length_lt_of_read? _found) _bound

end Token

end FormatServer
