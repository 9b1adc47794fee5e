import FormatServer.Json.Comments
import FormatServer.Proofs.Json.Numbers

namespace FormatServer

namespace StringPiece

/-- What stands in a string literal behind its opening quote, the closing one included. -/
inductive LiteralTail : Bytes → Prop where
  | close : LiteralTail [Ascii.quote]
  | escape (letter : UInt8) {rest : Bytes} (tail : LiteralTail rest) :
      LiteralTail (Ascii.backslash :: letter :: rest)
  | plain {byte : UInt8} {rest : Bytes} (notQuote : byte ≠ Ascii.quote)
      (notBackslash : byte ≠ Ascii.backslash) (tail : LiteralTail rest) : LiteralTail (byte :: rest)

/-- A hexadecimal digit neither closes a literal nor starts an escape. -/
theorem plain_of_hexValue? {byte value : UInt8} (found : Ascii.hexValue? byte = some value) :
    byte ≠ Ascii.quote ∧ byte ≠ Ascii.backslash := by
  have quote : Ascii.hexValue? Ascii.quote = none := by decide
  have backslash : Ascii.hexValue? Ascii.backslash = none := by decide
  constructor
  · rintro rfl
    simp [quote] at found
  · rintro rfl
    simp [backslash] at found

/-- Four hexadecimal digits stand for themselves in a literal. -/
theorem LiteralTail.digits {a b c d : UInt8} {value : Nat} {rest : Bytes}
    (named : unit? a b c d = some value) (tail : LiteralTail rest) :
    LiteralTail (a :: b :: c :: d :: rest) := by
  simp only [unit?, Option.bind_eq_bind, Option.bind_eq_some_iff] at named
  obtain ⟨_, first, _, second, _, third, _, fourth, _⟩ := named
  obtain ⟨aQuote, aBackslash⟩ := plain_of_hexValue? first
  obtain ⟨bQuote, bBackslash⟩ := plain_of_hexValue? second
  obtain ⟨cQuote, cBackslash⟩ := plain_of_hexValue? third
  obtain ⟨dQuote, dBackslash⟩ := plain_of_hexValue? fourth
  exact .plain aQuote aBackslash (.plain bQuote bBackslash
    (.plain cQuote cBackslash (.plain dQuote dBackslash tail)))

/-- What is read as the rest of a literal ends with its closing quote, and what follows does not
matter. -/
theorem exists_of_read? {text rest : Bytes} {pieces : List StringPiece}
    (found : read? text = some (pieces, rest)) :
    ∃ body, text = body ++ rest ∧ LiteralTail body ∧
      ∀ other, read? (body ++ other) = some (pieces, other) := by
  fun_induction read? text generalizing pieces with
  | case1 => simp at found
  | case2 =>
      cases found
      exact ⟨[Ascii.quote], by simp, .close, fun other => by unfold read?; simp⟩
  | case3 => simp at found
  | case4 => simp at found
  | case5 a b c d tail value named notQuote notControl ih =>
      simp only [followedBy, Option.map_eq_some_iff, Prod.mk.injEq, Prod.exists] at found
      obtain ⟨others, after, tailFound, rfl, rfl⟩ := found
      obtain ⟨body, rfl, isTail, reads⟩ := ih tailFound
      refine ⟨Ascii.backslash :: 0x75 :: a :: b :: c :: d :: body, rfl,
        .escape _ (.digits named isTail), fun other => ?_⟩
      unfold read?
      simp [notQuote, notControl, named, reads, followedBy]
  | case6 => simp at found
  | case7 => simp at found
  | case8 letter tail notUnit value named notQuote notControl ih =>
      simp only [followedBy, Option.map_eq_some_iff, Prod.mk.injEq, Prod.exists] at found
      obtain ⟨others, after, tailFound, rfl, rfl⟩ := found
      obtain ⟨body, rfl, isTail, reads⟩ := ih tailFound
      refine ⟨Ascii.backslash :: letter :: body, rfl, .escape _ isTail, fun other => ?_⟩
      unfold read?
      simp [notQuote, notControl, notUnit, named, reads, followedBy]
  | case9 => simp at found
  | case10 first tail notQuote notControl notEscape ih =>
      simp only [followedBy, Option.map_eq_some_iff, Prod.mk.injEq, Prod.exists] at found
      obtain ⟨others, after, tailFound, rfl, rfl⟩ := found
      obtain ⟨body, rfl, isTail, reads⟩ := ih tailFound
      refine ⟨first :: body, rfl, .plain notQuote notEscape isTail, fun other => ?_⟩
      unfold read?
      simp [notQuote, notControl, notEscape, reads, followedBy]

/-- A reader that follows literals byte by byte gets to the end of a literal. -/
theorem LiteralTail.foldr {α : Type} (read : Quoting → Bytes → α) (emit : UInt8 → α → α)
    (within : ∀ quoting, quoting ≠ .outside → ∀ byte rest,
      read quoting (byte :: rest) = emit byte (read (quoting.after byte) rest))
    {tail : Bytes} (isTail : LiteralTail tail) (rest : Bytes) :
    read .inside (tail ++ rest) = tail.foldr emit (read .outside rest) := by
  induction isTail with
  | close => exact within .inside (by simp) Ascii.quote rest
  | @escape letter tail _ ih =>
      have escaped : Quoting.inside.after Ascii.backslash = .escaped := rfl
      rw [List.cons_append, List.cons_append, within .inside (by simp), escaped,
        within .escaped (by simp), Quoting.after, ih, List.foldr_cons, List.foldr_cons]
  | @plain byte tail notQuote notBackslash _ ih =>
      have inside : Quoting.inside.after byte = .inside := by
        simp [Quoting.after, notQuote, notBackslash]
      rw [List.cons_append, within .inside (by simp), inside, ih, List.foldr_cons]

end StringPiece

namespace Token

/-- How a token is spelled. -/
inductive Spells : Token → Bytes → Prop where
  | mark {byte : UInt8} {token : Token} (named : ofByte? byte = some token) : Spells token [byte]
  | string {pieces : List StringPiece} {tail : Bytes} (isTail : StringPiece.LiteralTail tail)
      (reads : ∀ other, StringPiece.read? (tail ++ other) = some (pieces, other)) :
      Spells (string (StringPiece.decode pieces)) (Ascii.quote :: tail)
  | name {name : Bytes} {token : Token} (member : (name, token) ∈ names) : Spells token name
  | number {literal : NumberLiteral} {first : UInt8} {tail : Bytes}
      (notLetter : Ascii.isLetter first = false)
      (bytes : ∀ byte ∈ first :: tail, NumberLiteral.isNumberByte byte = true)
      (reads : ∀ other, NumberLiteral.Ends other →
        NumberLiteral.read? (first :: tail ++ other) = some (literal, other)) :
      Spells (number literal.value) (first :: tail)

/-- The names letter by letter. -/
theorem names_eq : names = [([0x6E, 0x75, 0x6C, 0x6C], null),
    ([0x74, 0x72, 0x75, 0x65], bool true), ([0x66, 0x61, 0x6C, 0x73, 0x65], bool false)] := by
  decide

/-- A name is read wherever it stands. -/
theorem readName?_append {name : Bytes} {token : Token} (member : (name, token) ∈ names)
    (other : Bytes) : readName? (name ++ other) = some (token, other) := by
  simp only [readName?, names_eq] at member ⊢
  simp only [List.mem_cons, Prod.mk.injEq, List.not_mem_nil, or_false] at member
  rcases member with ⟨rfl, rfl⟩ | ⟨rfl, rfl⟩ | ⟨rfl, rfl⟩
  · simp [Bytes.after?]
  · simp [Bytes.after?]
  · simp [Bytes.after?]

/-- The bytes of a name are letters. -/
theorem isLetter_of_mem_names {name : Bytes} {token : Token} (member : (name, token) ∈ names) :
    name ≠ [] ∧ ∀ byte ∈ name, Ascii.isLetter byte = true := by
  have all : ∀ entry ∈ names, entry.1 ≠ [] ∧ ∀ byte ∈ entry.1, Ascii.isLetter byte = true := by
    decide +kernel
  exact all _ member

/-- What holds of the 256 bytes holds of every byte. -/
theorem forall_byte {property : UInt8 → Prop} (all : ∀ value : Fin 256, property (UInt8.ofFin value))
    (byte : UInt8) : property byte :=
  all byte.toFin

/-- A letter and a byte of a number are no token on their own and open no literal. -/
theorem ofByte?_eq_none : ∀ byte : UInt8,
    Ascii.isLetter byte = true ∨ NumberLiteral.isNumberByte byte = true →
      ofByte? byte = none ∧ byte ≠ Ascii.quote := by
  apply forall_byte
  decide +kernel

/-- What follows a token does not matter, unless it goes on with a number. -/
theorem Spells.read {token : Token} {spelling : Bytes} (spells : Spells token spelling)
    {other : Bytes} (ends : ∀ value, token = .number value → NumberLiteral.Ends other) :
    read? (spelling ++ other) = some (token, other) := by
  cases spells with
  | mark named => simp [read?, named]
  | string isTail reads =>
      have notMark : ofByte? Ascii.quote = none := by decide
      simp [read?, notMark, reads]
  | name member =>
      obtain ⟨some, letters⟩ := isLetter_of_mem_names member
      have reads := readName?_append member other
      cases spelling with
      | nil => contradiction
      | cons first tail =>
          have isLetter := letters first (by simp)
          obtain ⟨notMark, notQuote⟩ := ofByte?_eq_none first (Or.inl isLetter)
          rw [List.cons_append] at reads ⊢
          simp [read?, notMark, notQuote, isLetter, reads]
  | number notLetter bytes reads =>
      obtain ⟨notMark, notQuote⟩ := ofByte?_eq_none _ (Or.inr (bytes _ List.mem_cons_self))
      have read := reads other (ends _ rfl)
      rw [List.cons_append] at read ⊢
      simp [read?, notMark, notQuote, notLetter, read]

/-- The bytes that a token other than a literal is spelled with. -/
def BareIn (token : Token) (byte : UInt8) : Prop :=
  ofByte? byte = some token ∨ Ascii.isLetter byte = true ∨ NumberLiteral.isNumberByte byte = true

/-- A reader that follows literals byte by byte and stays outside them at the other bytes of a token
gets to the end of the token. -/
theorem Spells.foldr {α : Type} (read : Quoting → Bytes → α) (emit : UInt8 → α → α)
    (within : ∀ quoting, quoting ≠ .outside → ∀ byte rest,
      read quoting (byte :: rest) = emit byte (read (quoting.after byte) rest))
    (opens : ∀ rest, read .outside (Ascii.quote :: rest) = emit Ascii.quote (read .inside rest))
    {token : Token} {spelling : Bytes} (spells : Spells token spelling)
    (bare : ∀ byte, BareIn token byte → ∀ rest,
      read .outside (byte :: rest) = emit byte (read .outside rest)) (rest : Bytes) :
    read .outside (spelling ++ rest) = spelling.foldr emit (read .outside rest) := by
  have stays (front : Bytes) (all : ∀ byte ∈ front, BareIn token byte) :
      read .outside (front ++ rest) = front.foldr emit (read .outside rest) := by
    induction front with
    | nil => rfl
    | cons byte front ih =>
        obtain ⟨isBare, others⟩ := List.forall_mem_cons.mp all
        rw [List.cons_append, bare byte isBare, ih others, List.foldr_cons]
  cases spells with
  | mark named => exact stays _ (List.forall_mem_singleton.mpr (Or.inl named))
  | @string pieces tail isTail _ =>
      rw [List.cons_append, opens, isTail.foldr read emit within, List.foldr_cons]
  | name member =>
      exact stays _ fun byte inName => Or.inr (Or.inl ((isLetter_of_mem_names member).2 byte inName))
  | number _ bytes => exact stays _ fun byte inNumber => Or.inr (Or.inr (bytes byte inNumber))

/-- What is read as a token is a spelling of it. -/
theorem exists_of_read? {text rest : Bytes} {token : Token}
    (found : read? text = some (token, rest)) :
    ∃ spelling, text = spelling ++ rest ∧ Spells token spelling := by
  unfold read? at found
  split at found
  · contradiction
  · next first tail =>
    split at found
    · next named =>
      cases found
      exact ⟨[first], rfl, .mark named⟩
    · split at found
      · next isQuote =>
        subst isQuote
        simp only [Option.map_eq_some_iff, Prod.mk.injEq, Prod.exists] at found
        obtain ⟨pieces, after, read, rfl, rfl⟩ := found
        obtain ⟨body, rfl, isTail, reads⟩ := StringPiece.exists_of_read? read
        exact ⟨Ascii.quote :: body, rfl, .string isTail reads⟩
      · split at found
        · obtain ⟨⟨name, other⟩, member, read⟩ := List.exists_of_findSome?_eq_some found
          simp only [Option.map_eq_some_iff, Prod.mk.injEq, Bytes.after?_eq_some_iff] at read
          obtain ⟨after, equal, rfl, rfl⟩ := read
          exact ⟨name, equal, .name member⟩
        · next notLetter =>
          simp only [Option.map_eq_some_iff, Prod.mk.injEq, Prod.exists] at found
          obtain ⟨literal, after, read, rfl, rfl⟩ := found
          have shorter := NumberLiteral.length_lt_of_read? read
          obtain ⟨spelling, equal, bytes, reads⟩ := NumberLiteral.readsLocally_read? _ _ _ read
          cases spelling with
          | nil =>
              rw [equal] at shorter
              simp at shorter
          | cons head spelling =>
              obtain ⟨rfl, rfl⟩ := List.cons_eq_cons.mp equal
              exact ⟨first :: spelling, rfl,
                .number (by simpa using notLetter) bytes fun other ends => reads other (Or.inr ends)⟩

end Token

end FormatServer
