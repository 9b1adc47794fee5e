import FormatServer.Text.Bytes

namespace FormatServer.Utf8

/-- A byte that continues a sequence, `10xxxxxx`. -/
def isContinuationByte (byte : UInt8) : Bool :=
  0x80 ≤ byte && byte < 0xC0

/-- The number of bytes that a first byte announces for its sequence; none for a continuation byte
and for a byte with more than four leading ones. -/
def announcedLength? (byte : UInt8) : Option Nat :=
  if byte < 0x80 then some 1
  else if byte < 0xC0 then none
  else if byte < 0xE0 then some 2
  else if byte < 0xF0 then some 3
  else if byte < 0xF8 then some 4
  else none

/-- The second bytes that may follow a first byte: the continuation bytes without those that would
start an overlong form, a surrogate or a value above the last code point. -/
def allowsSecond (first second : UInt8) : Bool :=
  if first = 0xE0 then 0xA0 ≤ second && second ≤ 0xBF
  else if first = 0xED then 0x80 ≤ second && second ≤ 0x9F
  else if first = 0xF0 then 0x90 ≤ second && second ≤ 0xBF
  else if first = 0xF4 then 0x80 ≤ second && second ≤ 0x8F
  else isContinuationByte second

/-- The length of the well-formed sequence at the start of a text, if one starts there. -/
def sequenceLength? : Bytes → Option Nat
  | [] => none
  | first :: rest =>
    if first < 0x80 then some 1
    else if 0xC2 ≤ first ∧ first ≤ 0xDF then
      match rest with
      | second :: _ => if isContinuationByte second then some 2 else none
      | [] => none
    else if 0xE0 ≤ first ∧ first ≤ 0xEF then
      match rest with
      | second :: third :: _ =>
        if allowsSecond first second && isContinuationByte third then some 3 else none
      | _ => none
    else if 0xF0 ≤ first ∧ first ≤ 0xF4 then
      match rest with
      | second :: third :: fourth :: _ =>
        if allowsSecond first second && isContinuationByte third && isContinuationByte fourth then
          some 4
        else none
      | _ => none
    else none

/-- Whether a text is well formed once `pending` bytes of the sequence before it are read. -/
def wellFormedAfter : (pending : Nat) → Bytes → Bool
  | pending, [] => pending == 0
  | pending + 1, _ :: rest => wellFormedAfter pending rest
  | 0, first :: rest =>
    match sequenceLength? (first :: rest) with
    | some length => wellFormedAfter (length - 1) rest
    | none => false

/-- Whether a text is a run of well-formed sequences. -/
def isWellFormed (text : Bytes) : Bool :=
  wellFormedAfter 0 text

/-- The sequence that encodes a code point. -/
def encode (code : Nat) : Bytes :=
  if code < 0x80 then [code.toUInt8]
  else if code < 0x800 then [(0xC0 + code / 64).toUInt8, (0x80 + code % 64).toUInt8]
  else if code < 0x10000 then
    [(0xE0 + code / 4096).toUInt8, (0x80 + code / 64 % 64).toUInt8, (0x80 + code % 64).toUInt8]
  else
    [(0xF0 + code / 262144).toUInt8, (0x80 + code / 4096 % 64).toUInt8,
      (0x80 + code / 64 % 64).toUInt8, (0x80 + code % 64).toUInt8]

/-- The sequence of the replacement character U+FFFD, which stands for what cannot be encoded. -/
def replacement : Bytes := encode 0xFFFD

/-- A first byte announces at least one byte and at most four. -/
theorem announcedLength?_bounds {byte : UInt8} {length : Nat}
    (found : announcedLength? byte = some length) : 1 ≤ length ∧ length ≤ 4 := by
  unfold announcedLength? at found
  repeat' split at found
  all_goals simp_all
  all_goals omega

/-- The text with `pending` bytes still to be skipped is well formed exactly when what follows them
is, as long as there are that many. -/
theorem wellFormedAfter_eq_drop (pending : Nat) (text : Bytes) (enough : pending ≤ text.length) :
    wellFormedAfter pending text = isWellFormed (text.drop pending) := by
  induction pending generalizing text with
  | zero => rfl
  | succ pending inductionHypothesis =>
    cases text with
    | nil => simp at enough
    | cons first rest =>
      simpa [wellFormedAfter] using inductionHypothesis rest (by simpa using enough)

end FormatServer.Utf8
