import FormatServer.Proofs.Json.Grammar
import FormatServer.Proofs.Json.Spelling
import FormatServer.Proofs.Text.Characters
import Mathlib.Data.List.TakeWhile

namespace FormatServer

/-- A token with the bytes it is written with. -/
structure Lexeme where
  token : Token
  spelling : Bytes

namespace Lexeme

/-- Blanks as they may stand between lexemes. -/
def IsBlank (gap : Bytes) : Prop :=
  ∀ byte ∈ gap, Token.isBlank byte = true

theorem isBlank_nil : IsBlank [] :=
  List.forall_mem_nil _

theorem IsBlank.cons {byte : UInt8} {gap : Bytes} (isBlank : Token.isBlank byte = true)
    (blank : IsBlank gap) : IsBlank (byte :: gap) :=
  List.forall_mem_cons.mpr ⟨isBlank, blank⟩

theorem IsBlank.append {gap other : Bytes} (blank : IsBlank gap) (otherBlank : IsBlank other) :
    IsBlank (gap ++ other) :=
  List.forall_mem_append.mpr ⟨blank, otherBlank⟩

/-- Every blank is a space. -/
theorem IsBlank.isSpace {gap : Bytes} (blank : IsBlank gap) :
    ∀ byte ∈ gap, Ascii.isSpace byte = true := by
  have all : ∀ byte : UInt8, Token.isBlank byte = true → Ascii.isSpace byte = true := by
    apply Token.forall_byte
    decide +kernel
  exact fun byte member => all byte (blank byte member)

/-- Blanks in front of a text that starts with no space are passed over. -/
theorem IsBlank.dropWhile_isSpace {gap : Bytes} (blank : IsBlank gap) {first : UInt8}
    (notSpace : Ascii.isSpace first = false) (rest : Bytes) :
    (gap ++ first :: rest).dropWhile Ascii.isSpace = first :: rest := by
  rw [List.dropWhile_append_of_pos blank.isSpace, List.dropWhile_cons_of_neg (by simp [notSpace])]

/-- The lexemes that the reader of tokens finds in a text. -/
inductive Lexed : List Lexeme → Bytes → Prop where
  | done {gap : Bytes} (blank : IsBlank gap) : Lexed [] gap
  | lexeme {gap rest : Bytes} {lexeme : Lexeme} {others : List Lexeme} (blank : IsBlank gap)
      (read : Token.read? (lexeme.spelling ++ rest) = some (lexeme.token, rest))
      (behind : Lexed others rest) : Lexed (lexeme :: others) (gap ++ (lexeme.spelling ++ rest))

/-- Lexemes one after another, each behind a gap of blanks. -/
inductive Run : List Lexeme → Bytes → Prop where
  | nil : Run [] []
  | cons {gap rest : Bytes} {others : List Lexeme} (blank : IsBlank gap) (lexeme : Lexeme)
      (behind : Run others rest) : Run (lexeme :: others) (gap ++ (lexeme.spelling ++ rest))

/-- Whether a lexeme spells its token. -/
def Spelled (lexeme : Lexeme) : Prop :=
  lexeme.token.Spells lexeme.spelling

/-- A lexeme that spells its token in well-formed UTF-8. -/
structure Sound (lexeme : Lexeme) : Prop where
  spelled : lexeme.Spelled
  wellFormed : Utf8.isWellFormed lexeme.spelling = true

end Lexeme

namespace Token

/-- The bytes that a spelling may start with. -/
def startsSpelling (byte : UInt8) : Bool :=
  (ofByte? byte).isSome || byte == Ascii.quote || Ascii.isLetter byte ||
    NumberLiteral.isNumberByte byte

/-- A spelling starts with an ASCII byte that is no blank. -/
theorem startsSpelling_bounds : ∀ byte : UInt8, startsSpelling byte = true →
    Ascii.isSpace byte = false ∧ isBlank byte = false ∧ byte < 0x80 := by
  apply forall_byte
  decide +kernel

/-- A spelling is not empty. -/
theorem Spells.head {token : Token} {spelling : Bytes} (spells : Spells token spelling) :
    ∃ first rest, spelling = first :: rest ∧ startsSpelling first = true := by
  cases spells with
  | mark named => exact ⟨_, [], rfl, by simp [startsSpelling, named]⟩
  | string => exact ⟨_, _, rfl, rfl⟩
  | name member =>
      obtain ⟨some, letters⟩ := isLetter_of_mem_names member
      cases spelling with
      | nil => contradiction
      | cons first rest =>
          have isLetter := letters first List.mem_cons_self
          exact ⟨first, rest, rfl, by simp [startsSpelling, isLetter]⟩
  | number _ bytes =>
      have isNumberByte := bytes _ List.mem_cons_self
      exact ⟨_, _, rfl, by simp [startsSpelling, isNumberByte]⟩

/-- Whether a token is a single punctuation mark. -/
def isMark (token : Token) : Bool :=
  token.opens || token.closes || token == comma || token == colon

/-- A byte that is a token on its own is a mark. -/
theorem isMark_of_ofByte? {byte : UInt8} {token : Token} (named : ofByte? byte = some token) :
    token.isMark = true := by
  have marks : ∀ byte : UInt8, (ofByte? byte).all isMark = true := by
    apply forall_byte
    decide +kernel
  have isMark := marks byte
  rwa [named] at isMark

/-- A mark is spelled by one byte. -/
theorem Spells.eq_mark {token : Token} {spelling : Bytes} (spells : Spells token spelling)
    (mark : token.isMark = true) : ∃ byte, spelling = [byte] ∧ ofByte? byte = some token := by
  cases spells with
  | mark named => exact ⟨_, rfl, named⟩
  | string => contradiction
  | number => contradiction
  | name member =>
      have none : ∀ entry ∈ names, entry.2.isMark = false := by decide
      rw [none _ member] at mark
      contradiction

/-- A spelling that starts with a mark spells the mark. -/
theorem Spells.eq_of_head {token mark : Token} {first : UInt8} {tail : Bytes}
    (spells : Spells token (first :: tail)) (named : ofByte? first = some mark) : token = mark := by
  cases spells with
  | mark sameNamed => exact Option.some.inj (sameNamed.symm.trans named)
  | string =>
      have notMark : ofByte? Ascii.quote = none := by decide
      rw [notMark] at named
      contradiction
  | name member =>
      have isLetter := (isLetter_of_mem_names member).2 first List.mem_cons_self
      rw [(ofByte?_eq_none first (Or.inl isLetter)).1] at named
      contradiction
  | number _ bytes =>
      rw [(ofByte?_eq_none first (Or.inr (bytes first List.mem_cons_self))).1] at named
      contradiction

/-- The byte that a mark is written as. -/
def markByte : Token → UInt8
  | openBrace => Ascii.openBrace
  | closeBrace => Ascii.closeBrace
  | openBracket => Ascii.openBracket
  | closeBracket => Ascii.closeBracket
  | colon => Ascii.colon
  | _ => Ascii.comma

/-- A mark has one spelling. -/
theorem Spells.eq_markByte {token : Token} {spelling : Bytes} (spells : Spells token spelling)
    (mark : token.isMark = true) : spelling = [token.markByte] := by
  have back : ∀ byte : UInt8, (ofByte? byte).all (fun token => token.markByte == byte) = true := by
    apply forall_byte
    decide +kernel
  obtain ⟨byte, rfl, named⟩ := spells.eq_mark mark
  have same := back byte
  rw [named, Option.all_some, beq_iff_eq] at same
  rw [same]

/-- A token that is neither a mark nor a string is spelled by letters or by bytes of a number. -/
theorem Spells.bare {token : Token} {spelling : Bytes} (spells : Spells token spelling)
    (notMark : token.isMark = false) (notString : ∀ text, token ≠ .string text) :
    ∀ byte ∈ spelling, Ascii.isLetter byte = true ∨ NumberLiteral.isNumberByte byte = true := by
  cases spells with
  | mark named =>
      rw [isMark_of_ofByte? named] at notMark
      contradiction
  | string => exact absurd rfl (notString _)
  | name member => exact fun byte inName => Or.inl ((isLetter_of_mem_names member).2 byte inName)
  | number _ bytes => exact fun byte inNumber => Or.inr (bytes byte inNumber)

/-- A string is spelled as a literal. -/
theorem Spells.eq_literal {text spelling : Bytes} (spells : Spells (.string text) spelling) :
    ∃ tail, spelling = Ascii.quote :: tail ∧ StringPiece.LiteralTail tail := by
  cases spells with
  | mark named => exact absurd (isMark_of_ofByte? named) (by simp [isMark, opens, closes])
  | name member => simp [names_eq] at member
  | string isTail => exact ⟨_, rfl, isTail⟩

/-- What may end a phrase is a mark. -/
theorem isMark_of_ends {token : Token} (ends : token = comma ∨ token.closes = true) :
    token.isMark = true := by
  rcases ends with rfl | closes
  · rfl
  · simp [isMark, closes]

/-- The tokens of a text are its first token behind the blanks and the tokens that follow. -/
theorem readAll?_eq (text : Bytes) :
    readAll? text =
      match text.dropWhile isBlank with
      | [] => some []
      | first :: tail => (read? (first :: tail)).bind fun read =>
          (readAll? read.2).map (read.1 :: ·) := by
  rw [readAll?]
  split
  · next _ _ empty _ => rw [empty]
  · next first tail _ start _ =>
    rw [start]
    split
    · next none => simp [none]
    · next token rest found => simp [found]

end Token

namespace Lexeme

/-- Blanks in front of a text are dropped. -/
theorem dropWhile_isBlank {gap : Bytes} (blank : IsBlank gap) {first : UInt8} (rest : Bytes)
    (starts : Token.startsSpelling first = true) :
    (gap ++ first :: rest).dropWhile Token.isBlank = first :: rest := by
  have notBlank := (Token.startsSpelling_bounds first starts).2.1
  rw [List.dropWhile_append_of_pos blank, List.dropWhile_cons_of_neg (by simp [notBlank])]

/-- A text whose tokens are read has lexemes with those tokens. -/
theorem exists_lexed {text : Bytes} {tokens : List Token}
    (found : Token.readAll? text = some tokens) :
    ∃ lexemes, Lexed lexemes text ∧ lexemes.map Lexeme.token = tokens := by
  induction size : text.length using Nat.strongRecOn generalizing text tokens with
  | ind size ih =>
      rw [Token.readAll?_eq] at found
      have parts := List.takeWhile_append_dropWhile (p := Token.isBlank) (l := text)
      have blank : IsBlank (text.takeWhile Token.isBlank) :=
        fun byte => List.all_eq_true.mp List.all_takeWhile byte
      split at found
      · next empty =>
        cases found
        rw [empty, List.append_nil] at parts
        exact ⟨[], parts ▸ .done blank, rfl⟩
      · next first tail start =>
        simp only [Option.bind_eq_some_iff, Option.map_eq_some_iff, Prod.exists] at found
        obtain ⟨token, rest, read, others, behind, rfl⟩ := found
        obtain ⟨spelling, same, _⟩ := Token.exists_of_read? read
        have shorter := Token.length_lt_of_read? read
        have lengths := congrArg List.length parts
        rw [start, List.length_append] at lengths
        obtain ⟨lexemes, lexed, rfl⟩ := ih rest.length (by omega) behind rfl
        rw [start, same] at parts
        rw [same] at read
        rw [← parts]
        exact ⟨⟨token, spelling⟩ :: lexemes, .lexeme blank read lexed, rfl⟩

/-- The tokens of the lexemes of a text are read. -/
theorem Lexed.readAll? {lexemes : List Lexeme} {text : Bytes} (lexed : Lexed lexemes text) :
    Token.readAll? text = some (lexemes.map Lexeme.token) := by
  induction lexed with
  | done blank =>
      rw [Token.readAll?_eq, List.dropWhile_eq_nil_iff.mpr blank]
      rfl
  | lexeme blank read behind ih =>
      obtain ⟨spelling, same, spells⟩ := Token.exists_of_read? read
      obtain ⟨first, others, rfl, starts⟩ := spells.head
      rw [List.cons_append] at same
      rw [same] at read ⊢
      rw [Token.readAll?_eq, dropWhile_isBlank blank _ starts]
      simp [read, ih]

/-- Every lexeme that is read spells its token. -/
theorem Lexed.spelled {lexemes : List Lexeme} {text : Bytes} (lexed : Lexed lexemes text) :
    ∀ lexeme ∈ lexemes, lexeme.Spelled := by
  induction lexed with
  | done => simp
  | lexeme _ read _ ih =>
      refine List.forall_mem_cons.mpr ⟨?_, ih⟩
      obtain ⟨spelling, same, spells⟩ := Token.exists_of_read? read
      rw [← List.append_cancel_right same] at spells
      exact spells

/-- The lexemes of a text are a run, and blanks follow. -/
theorem Lexed.exists_run {lexemes : List Lexeme} {text : Bytes} (lexed : Lexed lexemes text) :
    ∃ run gap, text = run ++ gap ∧ Run lexemes run ∧ IsBlank gap := by
  induction lexed with
  | @done gap blank => exact ⟨[], gap, rfl, .nil, blank⟩
  | @lexeme gap rest lexeme others blank read behind ih =>
      obtain ⟨run, last, rfl, isRun, lastBlank⟩ := ih
      exact ⟨gap ++ (lexeme.spelling ++ run), last, by simp, .cons blank lexeme isRun, lastBlank⟩

/-- A lexeme that is a mark is written as its byte. -/
theorem Spelled.eq_markByte {lexeme : Lexeme} (spelled : lexeme.Spelled) {token : Token}
    (same : lexeme.token = token) (mark : token.isMark = true) :
    lexeme.spelling = [token.markByte] := by
  subst same
  exact Token.Spells.eq_markByte spelled mark

/-- A run of one lexeme is its spelling behind a gap. -/
theorem Run.exists_gap {lexeme : Lexeme} {run : Bytes} (isRun : Run [lexeme] run) :
    ∃ gap, IsBlank gap ∧ run = gap ++ lexeme.spelling := by
  cases isRun with
  | @cons gap _ _ blank _ behind =>
      cases behind
      exact ⟨gap, blank, by rw [List.append_nil]⟩

/-- A run of lexemes is cut where the lexemes are. -/
theorem Run.exists_append {first second : List Lexeme} {run : Bytes}
    (isRun : Run (first ++ second) run) :
    ∃ front back, run = front ++ back ∧ Run first front ∧ Run second back := by
  induction first generalizing run with
  | nil => exact ⟨[], run, rfl, .nil, isRun⟩
  | cons lexeme first ih =>
      cases isRun with
      | @cons gap rest _ blank _ behind =>
          obtain ⟨front, back, rfl, frontRun, backRun⟩ := ih behind
          exact ⟨gap ++ (lexeme.spelling ++ front), back, by simp, .cons blank lexeme frontRun,
            backRun⟩

/-- Two runs, one after the other, are a run. -/
theorem Run.append {first second : List Lexeme} {front back : Bytes} (frontRun : Run first front)
    (backRun : Run second back) : Run (first ++ second) (front ++ back) := by
  induction frontRun with
  | nil => exact backRun
  | cons blank lexeme _ ih =>
      rw [List.append_assoc, List.append_assoc]
      exact .cons blank lexeme ih

/-- A run with blanks behind it starts with a blank or with its first lexeme. -/
theorem Run.head {lexemes : List Lexeme} {run gap : Bytes} (isRun : Run lexemes run)
    (spelled : ∀ lexeme ∈ lexemes, lexeme.Spelled) (blank : IsBlank gap) {byte : UInt8}
    (isHead : (run ++ gap).head? = some byte) :
    Token.isBlank byte = true ∨
      ∃ lexeme others tail, lexemes = lexeme :: others ∧ lexeme.spelling = byte :: tail := by
  cases isRun with
  | nil => exact Or.inl (blank byte (List.mem_of_mem_head? isHead))
  | @cons front rest others frontBlank lexeme behind =>
      cases front with
      | nil =>
          obtain ⟨first, tail, spelling, _⟩ := (spelled lexeme List.mem_cons_self).head
          rw [spelling] at isHead
          cases isHead
          exact Or.inr ⟨lexeme, others, tail, rfl, spelling⟩
      | cons first front =>
          cases isHead
          exact Or.inl (frontBlank byte List.mem_cons_self)

/-- No byte of a number is a blank, a comma or a closing mark. -/
theorem isNumberByte_eq_false : ∀ byte : UInt8,
    Token.isBlank byte = true ∨ Token.ofByte? byte ≠ none →
      NumberLiteral.isNumberByte byte = false := by
  apply Token.forall_byte
  decide +kernel

/-- Fitting lexemes are read back from every text that they are laid out in. -/
theorem Run.lexed {lexemes : List Lexeme} {run gap : Bytes} (isRun : Run lexemes run)
    (spelled : ∀ lexeme ∈ lexemes, lexeme.Spelled) (blank : IsBlank gap)
    (chain : lexemes.IsChain fun first next => first.token.mayPrecede next.token = true) :
    Lexed lexemes (run ++ gap) := by
  induction isRun with
  | nil => exact .done blank
  | @cons front rest others frontBlank lexeme behind ih =>
      obtain ⟨spells, othersSpelled⟩ := List.forall_mem_cons.mp spelled
      obtain ⟨mayPrecede, othersChain⟩ := List.isChain_cons.mp chain
      -- Only a number depends on what follows, and the grammar lets only marks follow it.
      have ends : ∀ value, lexeme.token = .number value →
          NumberLiteral.Ends (rest ++ gap) := by
        intro value isNumber byte isHead
        apply isNumberByte_eq_false
        rcases behind.head othersSpelled blank isHead with isBlank | ⟨next, more, tail, rfl, spelling⟩
        · exact Or.inl isBlank
        · have may := mayPrecede next rfl
          rw [isNumber] at may
          have mark : next.token = .comma ∨ next.token.closes = true := by
            simpa [Token.mayPrecede] using may
          obtain ⟨other, single, named⟩ :=
            (othersSpelled next List.mem_cons_self).eq_mark (Token.isMark_of_ends mark)
          rw [spelling] at single
          cases single
          exact Or.inr (by simp [named])
      rw [List.append_assoc, List.append_assoc]
      exact .lexeme frontBlank (spells.read ends) (ih othersSpelled othersChain)

/-- A text that starts with an ASCII byte is well formed if what follows is. -/
theorem isWellFormed_cons {first : UInt8} (ascii : first < 0x80) (rest : Bytes) :
    Utf8.isWellFormed (first :: rest) = Utf8.isWellFormed rest := by
  simp [Utf8.isWellFormed, Utf8.wellFormedAfter, Utf8.sequenceLength?, ascii]

/-- Blanks do not matter for the well-formedness of a text. -/
theorem isWellFormed_append_of_isBlank {gap : Bytes} (blank : IsBlank gap) (rest : Bytes) :
    Utf8.isWellFormed (gap ++ rest) = Utf8.isWellFormed rest := by
  have ascii : ∀ byte : UInt8, Token.isBlank byte = true → byte < 0x80 := by
    apply Token.forall_byte
    decide +kernel
  induction gap with
  | nil => rfl
  | cons first gap ih =>
      obtain ⟨isBlank, others⟩ := List.forall_mem_cons.mp blank
      rw [List.cons_append, isWellFormed_cons (ascii first isBlank), ih others]

/-- A text of lexemes is well formed exactly when every spelling is. -/
theorem Run.isWellFormed_iff {lexemes : List Lexeme} {run gap : Bytes} (isRun : Run lexemes run)
    (spelled : ∀ lexeme ∈ lexemes, lexeme.Spelled) (blank : IsBlank gap) :
    Utf8.isWellFormed (run ++ gap) = true ↔
      ∀ lexeme ∈ lexemes, Utf8.isWellFormed lexeme.spelling = true := by
  have plain : ∀ byte : UInt8, Token.isBlank byte = true ∨ Token.startsSpelling byte = true →
      Utf8.isContinuationByte byte = false := by
    apply Token.forall_byte
    decide +kernel
  induction isRun with
  | nil =>
      rw [List.nil_append, ← List.append_nil gap, isWellFormed_append_of_isBlank blank]
      simp [Utf8.isWellFormed, Utf8.wellFormedAfter]
  | @cons front rest others frontBlank lexeme behind ih =>
      obtain ⟨spells, othersSpelled⟩ := List.forall_mem_cons.mp spelled
      have starts : ∀ byte, (rest ++ gap).head? = some byte →
          Utf8.isContinuationByte byte = false := by
        intro byte isHead
        apply plain
        rcases behind.head othersSpelled blank isHead with isBlank | ⟨next, more, tail, rfl, spelling⟩
        · exact Or.inl isBlank
        · obtain ⟨first, _, same, starts⟩ := (othersSpelled next List.mem_cons_self).head
          rw [spelling] at same
          cases same
          exact Or.inr starts
      rw [List.append_assoc, List.append_assoc, isWellFormed_append_of_isBlank frontBlank,
        Utf8.isWellFormed_append starts, List.forall_mem_cons]
      exact and_congr_right fun _ => ih othersSpelled

end Lexeme

namespace Json

open Lexeme

/-- The value of a text is the value of its lexemes. -/
theorem parse?_eq_some_iff_of_lexed {lexemes : List Lexeme} {text : Bytes} {value : Json}
    (lexed : Lexed lexemes text) :
    parse? text = some value ↔
      (∀ lexeme ∈ lexemes, lexeme.Sound) ∧
        Derives (.value value) (lexemes.map Lexeme.token) := by
  obtain ⟨run, gap, rfl, isRun, blank⟩ := lexed.exists_run
  have read := lexed.readAll?
  have sound : (∀ lexeme ∈ lexemes, lexeme.Sound) ↔ Utf8.isWellFormed (run ++ gap) = true := by
    rw [isRun.isWellFormed_iff lexed.spelled blank]
    exact ⟨fun sound each member => (sound each member).wellFormed,
      fun wellFormed each member => ⟨lexed.spelled each member, wellFormed each member⟩⟩
  rw [sound, ← ofTokens?_eq_some_iff, parse?, read]
  simp

/-- A text has a value exactly when it consists of lexemes that the grammar derives. -/
theorem parse?_eq_some_iff {text : Bytes} {value : Json} :
    parse? text = some value ↔
      ∃ lexemes, Lexed lexemes text ∧ (∀ lexeme ∈ lexemes, lexeme.Sound) ∧
        Derives (.value value) (lexemes.map Lexeme.token) := by
  constructor
  · intro found
    have tokens : ∃ tokens, Token.readAll? text = some tokens := by
      unfold parse? at found
      split at found
      · exact (Option.bind_eq_some_iff.mp found).imp fun _ read => read.1
      · contradiction
    obtain ⟨_, read⟩ := tokens
    obtain ⟨lexemes, lexed, rfl⟩ := exists_lexed read
    exact ⟨lexemes, lexed, (parse?_eq_some_iff_of_lexed lexed).mp found⟩
  · rintro ⟨lexemes, lexed, sound, derived⟩
    exact (parse?_eq_some_iff_of_lexed lexed).mpr ⟨sound, derived⟩

/-- Lexemes that the grammar derives may follow each other. -/
theorem isChain_of_derives {lexemes : List Lexeme} {phrase : Phrase}
    (derived : Derives phrase (lexemes.map Lexeme.token)) :
    lexemes.IsChain fun first next => first.token.mayPrecede next.token = true :=
  (List.isChain_map Lexeme.token).mp derived.fits.1

end Json

end FormatServer
