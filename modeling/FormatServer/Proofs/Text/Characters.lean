import FormatServer.Text.Position

namespace FormatServer

namespace Utf8

/-- The UTF-8 bytes of characters, one sequence after another. -/
def encodeAll (characters : List Char) : Bytes :=
  characters.flatMap String.utf8EncodeChar

@[simp] theorem encodeAll_nil : encodeAll [] = [] := rfl

@[simp] theorem encodeAll_cons (character : Char) (characters : List Char) :
    encodeAll (character :: characters) =
      String.utf8EncodeChar character ++ encodeAll characters := rfl

@[simp] theorem encodeAll_append (first second : List Char) :
    encodeAll (first ++ second) = encodeAll first ++ encodeAll second :=
  List.flatMap_append

/-- The characters in front of a split take no more bytes than all of them. -/
theorem length_encodeAll_le (before after : List Char) :
    (encodeAll before).length ≤ (encodeAll (before ++ after)).length := by
  rw [encodeAll_append, List.length_append]
  exact Nat.le_add_right _ _

/-- The bytes of the characters in front of a split stand in front. -/
theorem take_encodeAll (before after : List Char) :
    (encodeAll (before ++ after)).take (encodeAll before).length = encodeAll before := by
  rw [encodeAll_append, List.take_left]

/-- The bytes of the characters behind a split stand behind. -/
theorem drop_encodeAll (before after : List Char) :
    (encodeAll (before ++ after)).drop (encodeAll before).length = encodeAll after := by
  rw [encodeAll_append, List.drop_left]

end Utf8

namespace Utf16

/-- The UTF-16 units of a character: the code point itself, or a pair of surrogates above the
code points of sixteen bits. -/
def encode (character : Char) : List UInt16 :=
  let code := character.toNat
  if code < 0x10000 then [code.toUInt16]
  else [(0xD800 + (code - 0x10000) / 0x400).toUInt16, (0xDC00 + (code - 0x10000) % 0x400).toUInt16]

/-- The UTF-16 units of characters. -/
def encodeAll (characters : List Char) : List UInt16 :=
  characters.flatMap encode

@[simp] theorem encodeAll_nil : encodeAll [] = [] := rfl

@[simp] theorem encodeAll_cons (character : Char) (characters : List Char) :
    encodeAll (character :: characters) = encode character ++ encodeAll characters := rfl

end Utf16

namespace Utf8

/-- A scalar value is a code point outside the surrogates. -/
theorem scalar_bounds (character : Char) :
    character.toNat < 0xD800 ∨ 0xDFFF < character.toNat ∧ character.toNat < 0x110000 :=
  character.valid

/-- The sequence of a code point is the standard encoding of the character. -/
theorem utf8EncodeChar_eq_encode (character : Char) :
    String.utf8EncodeChar character = encode character.toNat := by
  have scalar := scalar_bounds character
  change _ = encode character.val.toNat
  change character.val.toNat < _ ∨ _ < character.val.toNat ∧ character.val.toNat < _ at scalar
  unfold String.utf8EncodeChar encode
  generalize character.val.toNat = code at scalar ⊢
  have first (one : code < 0x800) : code / 64 % 0x20 = code / 64 := by omega
  have second (two : code < 0x10000) : code / 4096 % 0x10 = code / 4096 := by omega
  have third : code / 262144 % 0x08 = code / 262144 := by omega
  by_cases one : code < 0x80
  · simp [one, show code ≤ 0x7f by omega]
  · by_cases two : code < 0x800
    · simp [one, two, show ¬code ≤ 0x7f by omega, show code ≤ 0x7ff by omega, first two,
        Nat.add_comm]
    · by_cases three : code < 0x10000
      · simp [one, two, three, show ¬code ≤ 0x7f by omega, show ¬code ≤ 0x7ff by omega,
          show code ≤ 0xffff by omega, second three, Nat.add_comm]
      · simp [one, two, three, show ¬code ≤ 0x7f by omega, show ¬code ≤ 0x7ff by omega,
          show ¬code ≤ 0xffff by omega, third, Nat.add_comm]

/-- The code point of every scalar value has a character. -/
theorem exists_character {code : Nat}
    (scalar : code < 0xD800 ∨ 0xDFFF < code ∧ code < 0x110000) :
    ∃ character : Char, character.toNat = code :=
  ⟨Char.ofNatAux code scalar, rfl⟩

theorem toNat_toUInt8 {value : Nat} (byte : value < 256) : value.toUInt8.toNat = value := by
  simp [Nat.mod_eq_of_lt byte]

/-- The continuation bytes as numbers. -/
theorem isContinuationByte_toUInt8 {value : Nat} (byte : value < 256) :
    isContinuationByte value.toUInt8 = decide (0x80 ≤ value ∧ value < 0xC0) := by
  have same := toNat_toUInt8 byte
  simp only [isContinuationByte, UInt8.le_iff_toNat_le, UInt8.lt_iff_toNat_lt, same]
  simp

/-- The announced lengths as a table of numbers. -/
theorem announcedLength?_toUInt8 {value : Nat} (byte : value < 256) :
    announcedLength? value.toUInt8 =
      if value < 0x80 then some 1
      else if value < 0xC0 then none
      else if value < 0xE0 then some 2
      else if value < 0xF0 then some 3
      else if value < 0xF8 then some 4
      else none := by
  have same := toNat_toUInt8 byte
  simp only [announcedLength?, UInt8.lt_iff_toNat_lt, same]
  rfl

/-- The allowed second bytes as numbers. -/
theorem allowsSecond_toUInt8 {first second : Nat} (firstByte : first < 256)
    (secondByte : second < 256) :
    allowsSecond first.toUInt8 second.toUInt8 =
      if first = 0xE0 then decide (0xA0 ≤ second ∧ second ≤ 0xBF)
      else if first = 0xED then decide (0x80 ≤ second ∧ second ≤ 0x9F)
      else if first = 0xF0 then decide (0x90 ≤ second ∧ second ≤ 0xBF)
      else if first = 0xF4 then decide (0x80 ≤ second ∧ second ≤ 0x8F)
      else decide (0x80 ≤ second ∧ second < 0xC0) := by
  have sameFirst := toNat_toUInt8 firstByte
  have sameSecond := toNat_toUInt8 secondByte
  simp only [allowsSecond, isContinuationByte_toUInt8 secondByte, ← UInt8.toNat_inj,
    UInt8.le_iff_toNat_le, sameFirst, sameSecond]
  simp

/-- An encoded code point is a first byte that announces its length and bytes that continue it. -/
theorem encode_shape {code : Nat} (range : code < 0x110000) :
    ∃ first rest, encode code = first :: rest ∧ isContinuationByte first = false ∧
      announcedLength? first = some (rest.length + 1) ∧
      ∀ byte ∈ rest, isContinuationByte byte = true := by
  unfold encode
  have last : 0x80 + code % 64 < 256 := by omega
  have third : 0x80 + code / 64 % 64 < 256 := by omega
  have second : 0x80 + code / 4096 % 64 < 256 := by omega
  by_cases one : code < 0x80
  · rw [if_pos one]
    refine ⟨_, _, rfl, ?_⟩
    rw [isContinuationByte_toUInt8 (by omega), announcedLength?_toUInt8 (by omega)]
    exact ⟨decide_eq_false (by omega), if_pos one, List.forall_mem_nil _⟩
  · rw [if_neg one]
    by_cases two : code < 0x800
    · rw [if_pos two]
      refine ⟨_, _, rfl, ?_⟩
      rw [isContinuationByte_toUInt8 (by omega), announcedLength?_toUInt8 (by omega)]
      simp only [List.forall_mem_singleton, isContinuationByte_toUInt8 last]
      grind
    · rw [if_neg two]
      by_cases three : code < 0x10000
      · rw [if_pos three]
        refine ⟨_, _, rfl, ?_⟩
        rw [isContinuationByte_toUInt8 (by omega), announcedLength?_toUInt8 (by omega)]
        simp only [List.forall_mem_cons, isContinuationByte_toUInt8 third,
          isContinuationByte_toUInt8 last]
        grind
      · rw [if_neg three]
        refine ⟨_, _, rfl, ?_⟩
        rw [isContinuationByte_toUInt8 (by omega), announcedLength?_toUInt8 (by omega)]
        simp only [List.forall_mem_cons, isContinuationByte_toUInt8 second,
          isContinuationByte_toUInt8 third, isContinuationByte_toUInt8 last]
        grind

/-- An encoded scalar value is the well-formed sequence at the start of a text. -/
theorem sequenceLength?_encode {code : Nat} (rest : Bytes)
    (scalar : code < 0xD800 ∨ 0xDFFF < code ∧ code < 0x110000) :
    sequenceLength? (encode code ++ rest) = some (encode code).length := by
  unfold encode
  have last : 0x80 + code % 64 < 256 := by omega
  have third : 0x80 + code / 64 % 64 < 256 := by omega
  have second : 0x80 + code / 4096 % 64 < 256 := by omega
  by_cases one : code < 0x80
  · rw [if_pos one]
    simp only [List.cons_append, sequenceLength?, UInt8.lt_iff_toNat_lt,
      toNat_toUInt8 (show code < 256 by omega)]
    simp [one]
  · rw [if_neg one]
    by_cases two : code < 0x800
    · rw [if_pos two]
      simp only [List.cons_append, sequenceLength?, UInt8.lt_iff_toNat_lt, UInt8.le_iff_toNat_le,
        toNat_toUInt8 (show 0xC0 + code / 64 < 256 by omega), isContinuationByte_toUInt8 last]
      simp
      grind
    · rw [if_neg two]
      by_cases three : code < 0x10000
      · rw [if_pos three]
        have first : 0xE0 + code / 4096 < 256 := by omega
        simp only [List.cons_append, sequenceLength?, UInt8.lt_iff_toNat_lt,
          UInt8.le_iff_toNat_le, toNat_toUInt8 first, allowsSecond_toUInt8 first third,
          isContinuationByte_toUInt8 last]
        simp
        grind
      · rw [if_neg three]
        have first : 0xF0 + code / 262144 < 256 := by omega
        simp only [List.cons_append, sequenceLength?, UInt8.lt_iff_toNat_lt,
          UInt8.le_iff_toNat_le, toNat_toUInt8 first, allowsSecond_toUInt8 first second,
          isContinuationByte_toUInt8 third, isContinuationByte_toUInt8 last]
        simp
        grind

/-- Two well-formed bytes encode a scalar value. -/
theorem exists_code_of_two {a b : Nat} (first : 0xC2 ≤ a ∧ a ≤ 0xDF)
    (second : 0x80 ≤ b ∧ b < 0xC0) :
    ∃ code, code < 0xD800 ∧ encode code = [a.toUInt8, b.toUInt8] := by
  refine ⟨(a - 0xC0) * 64 + (b - 0x80), by omega, ?_⟩
  unfold encode
  rw [if_neg (by omega), if_pos (by omega), show 0xC0 + ((a - 0xC0) * 64 + (b - 0x80)) / 64 = a by omega,
    show 0x80 + ((a - 0xC0) * 64 + (b - 0x80)) % 64 = b by omega]

/-- Three well-formed bytes encode a scalar value. -/
theorem exists_code_of_three {a b c : Nat} (first : 0xE0 ≤ a ∧ a ≤ 0xEF)
    (second : 0x80 ≤ b ∧ b < 0xC0) (above : a = 0xE0 → 0xA0 ≤ b) (noSurrogate : a = 0xED → b ≤ 0x9F)
    (third : 0x80 ≤ c ∧ c < 0xC0) :
    ∃ code, (code < 0xD800 ∨ 0xDFFF < code ∧ code < 0x110000) ∧
      encode code = [a.toUInt8, b.toUInt8, c.toUInt8] := by
  let code := (a - 0xE0) * 4096 + (b - 0x80) * 64 + (c - 0x80)
  have high : 0xE0 + code / 4096 = a := by omega
  have middle : 0x80 + code / 64 % 64 = b := by omega
  have low : 0x80 + code % 64 = c := by omega
  refine ⟨code, by omega, ?_⟩
  unfold encode
  rw [if_neg (by omega), if_neg (by omega), if_pos (by omega), high, middle, low]

/-- Four well-formed bytes encode a scalar value. -/
theorem exists_code_of_four {a b c d : Nat} (first : 0xF0 ≤ a ∧ a ≤ 0xF4)
    (second : 0x80 ≤ b ∧ b < 0xC0) (above : a = 0xF0 → 0x90 ≤ b) (below : a = 0xF4 → b ≤ 0x8F)
    (third : 0x80 ≤ c ∧ c < 0xC0) (fourth : 0x80 ≤ d ∧ d < 0xC0) :
    ∃ code, (code < 0xD800 ∨ 0xDFFF < code ∧ code < 0x110000) ∧
      encode code = [a.toUInt8, b.toUInt8, c.toUInt8, d.toUInt8] := by
  let code := (a - 0xF0) * 262144 + (b - 0x80) * 4096 + (c - 0x80) * 64 + (d - 0x80)
  have highest : 0xF0 + code / 262144 = a := by omega
  have high : 0x80 + code / 4096 % 64 = b := by omega
  have middle : 0x80 + code / 64 % 64 = c := by omega
  have low : 0x80 + code % 64 = d := by omega
  refine ⟨code, by omega, ?_⟩
  unfold encode
  rw [if_neg (by omega), if_neg (by omega), if_neg (by omega), highest, high, middle, low]

theorem exists_toUInt8 (byte : UInt8) : ∃ value, value < 256 ∧ byte = value.toUInt8 :=
  ⟨byte.toNat, byte.toNat_lt, by simp⟩

/-- A well-formed sequence encodes a scalar value. -/
theorem exists_code_of_sequenceLength? {text : Bytes} {length : Nat}
    (found : sequenceLength? text = some length) :
    ∃ code rest, (code < 0xD800 ∨ 0xDFFF < code ∧ code < 0x110000) ∧
      text = encode code ++ rest ∧ length = (encode code).length := by
  unfold sequenceLength? at found
  split at found
  · simp at found
  · next first rest =>
    obtain ⟨a, aByte, rfl⟩ := exists_toUInt8 first
    simp only [UInt8.lt_iff_toNat_lt, UInt8.le_iff_toNat_le, toNat_toUInt8 aByte] at found
    split at found
    · next one =>
      have single : encode a = [a.toUInt8] := if_pos one
      refine ⟨a, rest, Or.inl (Nat.lt_trans one (by decide)), by simp [single], ?_⟩
      simpa [single] using found.symm
    split at found
    · next two =>
      split at found
      · next second rest =>
        obtain ⟨b, bByte, rfl⟩ := exists_toUInt8 second
        simp only [isContinuationByte_toUInt8 bByte, Option.ite_none_right_eq_some,
          Option.some.injEq] at found
        obtain ⟨continues, rfl⟩ := found
        obtain ⟨code, range, equal⟩ := exists_code_of_two two (of_decide_eq_true continues)
        exact ⟨code, rest, Or.inl range, by simp [equal], by simp [equal]⟩
      · simp at found
    split at found
    · next three =>
      split at found
      · next second third rest =>
        obtain ⟨b, bByte, rfl⟩ := exists_toUInt8 second
        obtain ⟨c, cByte, rfl⟩ := exists_toUInt8 third
        simp only [allowsSecond_toUInt8 aByte bByte, isContinuationByte_toUInt8 cByte,
          Option.ite_none_right_eq_some,
          Option.some.injEq] at found
        obtain ⟨continues, rfl⟩ := found
        obtain ⟨code, range, equal⟩ := exists_code_of_three (a := a) (b := b) (c := c) three
          (by grind) (by grind) (by grind) (by grind)
        exact ⟨code, rest, range, by simp [equal], by simp [equal]⟩
      · simp at found
    split at found
    · next four =>
      split at found
      · next second third fourth rest =>
        obtain ⟨b, bByte, rfl⟩ := exists_toUInt8 second
        obtain ⟨c, cByte, rfl⟩ := exists_toUInt8 third
        obtain ⟨d, dByte, rfl⟩ := exists_toUInt8 fourth
        simp only [allowsSecond_toUInt8 aByte bByte, isContinuationByte_toUInt8 cByte,
          isContinuationByte_toUInt8 dByte, Option.ite_none_right_eq_some,
          Option.some.injEq] at found
        obtain ⟨continues, rfl⟩ := found
        obtain ⟨code, range, equal⟩ := exists_code_of_four (a := a) (b := b) (c := c) (d := d)
          four (by grind) (by grind) (by grind) (by grind) (by grind)
        exact ⟨code, rest, range, by simp [equal], by simp [equal]⟩
      · simp at found
    · simp at found

/-- The sequence of a character is a first byte that announces its length and bytes that continue
it. -/
theorem utf8EncodeChar_shape (character : Char) :
    ∃ first rest, String.utf8EncodeChar character = first :: rest ∧
      isContinuationByte first = false ∧ announcedLength? first = some (rest.length + 1) ∧
      ∀ byte ∈ rest, isContinuationByte byte = true := by
  have scalar := scalar_bounds character
  rw [utf8EncodeChar_eq_encode]
  exact encode_shape (by omega)

/-- Reading off a sequence leaves the text after it to be checked. -/
theorem isWellFormed_of_sequenceLength? {sequence rest : Bytes} (positive : sequence ≠ [])
    (found : sequenceLength? (sequence ++ rest) = some sequence.length) :
    isWellFormed (sequence ++ rest) = isWellFormed rest := by
  cases sequence with
  | nil => contradiction
  | cons first tail =>
      rw [List.cons_append] at found
      have skipped := wellFormedAfter_eq_drop tail.length (tail ++ rest) (by simp)
      rw [List.drop_left] at skipped
      simpa [isWellFormed, wellFormedAfter, found] using skipped

theorem encode_ne_nil (code : Nat) : encode code ≠ [] := by
  unfold encode
  split
  · simp
  · split
    · simp
    · split <;> simp

/-- Encoded characters are well formed. -/
theorem isWellFormed_encodeAll (characters : List Char) :
    isWellFormed (encodeAll characters) = true := by
  induction characters with
  | nil => rfl
  | cons character characters ih =>
      have found := sequenceLength?_encode (encodeAll characters) (scalar_bounds character)
      rw [encodeAll_cons, utf8EncodeChar_eq_encode,
        isWellFormed_of_sequenceLength? (encode_ne_nil _) found, ih]

/-- A well-formed text is the encoding of characters. -/
theorem exists_characters {text : Bytes} (wellFormed : isWellFormed text = true) :
    ∃ characters, text = encodeAll characters := by
  induction size : text.length using Nat.strongRecOn generalizing text with
  | ind size ih =>
      cases text with
      | nil => exact ⟨[], rfl⟩
      | cons first tail =>
          cases found : sequenceLength? (first :: tail) with
          | none => simp [isWellFormed, wellFormedAfter, found] at wellFormed
          | some length =>
              obtain ⟨code, rest, scalar, equal, rfl⟩ := exists_code_of_sequenceLength? found
              obtain ⟨character, rfl⟩ := exists_character scalar
              rw [equal] at found wellFormed size ⊢
              rw [isWellFormed_of_sequenceLength? (encode_ne_nil _) found] at wellFormed
              have shorter := List.length_pos_iff.mpr (encode_ne_nil character.toNat)
              rw [List.length_append] at size
              obtain ⟨characters, rfl⟩ := ih rest.length (by omega) wellFormed rfl
              exact ⟨character :: characters, by rw [encodeAll_cons, utf8EncodeChar_eq_encode]⟩

/-- The well-formed texts are the encodings of characters. -/
theorem isWellFormed_iff {text : Bytes} :
    isWellFormed text = true ↔ ∃ characters, text = encodeAll characters := by
  constructor
  · exact exists_characters
  · rintro ⟨characters, rfl⟩
    exact isWellFormed_encodeAll characters

/-- Characters whose encoding is cut in front of a byte that continues no sequence are cut between
two of them. -/
theorem exists_cut {characters : List Char} {front back : Bytes}
    (equal : encodeAll characters = front ++ back)
    (starts : ∀ byte, back.head? = some byte → isContinuationByte byte = false) :
    ∃ before after, front = encodeAll before ∧ back = encodeAll after := by
  induction characters generalizing front with
  | nil =>
      obtain ⟨rfl, rfl⟩ := List.append_eq_nil_iff.mp equal.symm
      exact ⟨[], [], rfl, rfl⟩
  | cons character characters ih =>
      cases front with
      | nil => exact ⟨[], character :: characters, rfl, equal.symm⟩
      | cons first front =>
          obtain ⟨lead, others, shape, _, _, continues⟩ := utf8EncodeChar_shape character
          rw [encodeAll_cons, shape, List.cons_append, List.cons_append,
            List.cons_eq_cons] at equal
          obtain ⟨rfl, equal⟩ := equal
          rcases List.append_eq_append_iff.mp equal with ⟨middle, rfl, same⟩ | ⟨middle, rfl, rfl⟩
          · obtain ⟨before, after, rfl, rfl⟩ := ih same
            exact ⟨character :: before, after, by simp [shape], rfl⟩
          · -- What is left of the sequence would have to start with a byte that continues it.
            cases middle with
            | nil => exact ⟨[character], characters, by simp [shape], rfl⟩
            | cons byte middle =>
                have inside := continues byte (by simp)
                rw [starts byte rfl] at inside
                contradiction

/-- A text that is cut in front of a byte that continues no sequence is well formed exactly when
both parts are. -/
theorem isWellFormed_append {front back : Bytes}
    (starts : ∀ byte, back.head? = some byte → isContinuationByte byte = false) :
    isWellFormed (front ++ back) = true ↔
      isWellFormed front = true ∧ isWellFormed back = true := by
  simp only [isWellFormed_iff]
  constructor
  · rintro ⟨characters, equal⟩
    obtain ⟨before, after, isFront, isBack⟩ := exists_cut equal.symm starts
    exact ⟨⟨before, isFront⟩, ⟨after, isBack⟩⟩
  · rintro ⟨⟨before, rfl⟩, ⟨after, rfl⟩⟩
    exact ⟨before ++ after, (encodeAll_append before after).symm⟩

end Utf8

end FormatServer
