import FormatServer.Manifest.Member
import FormatServer.Proofs.Json.Lexemes

namespace FormatServer.Manifest

open Lexeme

/-- The number of arrays and objects that are open behind tokens, if the outermost stays open. -/
def levelAfter : (level : Nat) → List Token → Option Nat
  | level, [] => some level
  | level, token :: rest =>
    if token.opens then levelAfter (level + 1) rest
    else if token.closes then if level ≤ 1 then none else levelAfter (level - 1) rest
    else levelAfter level rest

/-- What a phrase opens it closes. -/
theorem levelAfter_of_derives {phrase : Json.Phrase} {tokens : List Token}
    (derived : Json.Derives phrase tokens) (level : Nat) (rest : List Token) :
    levelAfter (level + 1) (tokens ++ rest) = levelAfter (level + 1) rest := by
  induction derived generalizing level rest with
  | null | bool | number | string => rfl
  | emptyArray | emptyObject => simp [levelAfter, Token.opens, Token.closes]
  | array _ ih | object _ ih =>
      simp [levelAfter, Token.opens, ih (level + 1), Token.closes]
  | element _ ih => exact ih level rest
  | elements _ _ headKeeps tailKeeps =>
      simp [headKeeps level, levelAfter, Token.opens, Token.closes, tailKeeps level]
  | member _ _ ih => simp [levelAfter, Token.opens, Token.closes, ih level]
  | members _ _ _ headKeeps tailKeeps =>
      simp [levelAfter, Token.opens, Token.closes, headKeeps level, tailKeeps level]

/-- The brackets and braces token by token. -/
theorem bracket_of_ofByte? : ∀ byte : UInt8, ∀ token, Token.ofByte? byte = some token →
    token.opens = (byte == Ascii.openBrace || byte == Ascii.openBracket) ∧
      token.closes = (byte == Ascii.closeBrace || byte == Ascii.closeBracket) ∧
      byte ≠ Ascii.quote := by
  have all : ∀ byte : UInt8, (Token.ofByte? byte).all (fun token =>
      (token.opens == (byte == Ascii.openBrace || byte == Ascii.openBracket)) &&
      (token.closes == (byte == Ascii.closeBrace || byte == Ascii.closeBracket)) &&
      byte != Ascii.quote) = true := by
    apply Token.forall_byte
    decide +kernel
  intro byte token named
  have facts := all byte
  rw [named] at facts
  simpa [and_assoc] using facts

/-- A letter and a byte of a number are no bracket and no quote, and they end no value. -/
theorem not_bracket_of_bare : ∀ byte : UInt8,
    Ascii.isLetter byte = true ∨ NumberLiteral.isNumberByte byte = true →
      ¬(byte = Ascii.openBrace ∨ byte = Ascii.openBracket) ∧
        ¬(byte = Ascii.closeBrace ∨ byte = Ascii.closeBracket) ∧ byte ≠ Ascii.quote ∧
          isTerminator byte = false := by
  apply Token.forall_byte
  decide +kernel

/-- A byte that is no bracket and opens no literal leaves the level. -/
theorem nestedLength_cons {byte : UInt8} (notOpen : ¬(byte = Ascii.openBrace ∨ byte = Ascii.openBracket))
    (notClose : ¬(byte = Ascii.closeBrace ∨ byte = Ascii.closeBracket))
    (notQuote : byte ≠ Ascii.quote) (level : Nat) (rest : Bytes) :
    nestedLength .outside level (byte :: rest) = 1 + nestedLength .outside level rest := by
  rw [nestedLength, if_neg notOpen, if_neg notClose, Quoting.after, if_neg notQuote]

theorem foldr_length (front : Bytes) (length : Nat) :
    front.foldr (fun _ length => 1 + length) length = front.length + length := by
  induction front with
  | nil => simp
  | cons byte front ih =>
      rw [List.foldr_cons, ih, List.length_cons]
      omega

/-- A token that opens and closes nothing leaves the level. -/
theorem nestedLength_spelling {token : Token} {spelling : Bytes} (spells : token.Spells spelling)
    (notOpens : token.opens = false) (notCloses : token.closes = false) (level : Nat)
    (rest : Bytes) :
    nestedLength .outside level (spelling ++ rest) =
      spelling.length + nestedLength .outside level rest := by
  rw [← foldr_length]
  apply spells.foldr (fun quoting => nestedLength quoting level) (fun _ length => 1 + length)
  · intro quoting within byte rest
    cases quoting with
    | outside => contradiction
    | inside | escaped => rfl
  · exact fun rest => rfl
  · intro byte bare
    rcases bare with named | bare
    · obtain ⟨opens, closes, notQuote⟩ := bracket_of_ofByte? byte token named
      rw [notOpens] at opens
      rw [notCloses] at closes
      exact nestedLength_cons (by simpa using opens.symm) (by simpa using closes.symm) notQuote level
    · obtain ⟨notOpen, notClose, notQuote, _⟩ := not_bracket_of_bare byte bare
      exact nestedLength_cons notOpen notClose notQuote level

/-- Blanks leave the level. -/
theorem nestedLength_blank {gap : Bytes} (blank : IsBlank gap) (level : Nat) (rest : Bytes) :
    nestedLength .outside level (gap ++ rest) = gap.length + nestedLength .outside level rest := by
  have plain : ∀ byte : UInt8, Token.isBlank byte = true →
      ¬(byte = Ascii.openBrace ∨ byte = Ascii.openBracket) ∧
        ¬(byte = Ascii.closeBrace ∨ byte = Ascii.closeBracket) ∧ byte ≠ Ascii.quote := by
    apply Token.forall_byte
    decide +kernel
  induction gap with
  | nil => simp
  | cons byte gap ih =>
      obtain ⟨isBlank, others⟩ := List.forall_mem_cons.mp blank
      obtain ⟨notOpen, notClose, notQuote⟩ := plain byte isBlank
      rw [List.cons_append, nestedLength_cons notOpen notClose notQuote, ih others,
        List.length_cons]
      omega

/-- An opening mark raises the level. -/
theorem nestedLength_opens {token : Token} {spelling : Bytes} (spells : token.Spells spelling)
    (opens : token.opens = true) (level : Nat) (rest : Bytes) :
    nestedLength .outside level (spelling ++ rest) =
      spelling.length + nestedLength .outside (level + 1) rest := by
  obtain ⟨byte, rfl, named⟩ := spells.eq_mark (by simp [Token.isMark, opens])
  have isOpen := (bracket_of_ofByte? byte token named).1
  rw [opens] at isOpen
  rw [List.singleton_append, nestedLength, if_pos (by simpa using isOpen.symm),
    List.length_singleton]

/-- No token opens and closes. -/
theorem opens_eq_false {token : Token} (closes : token.closes = true) : token.opens = false := by
  cases token with
  | closeBrace | closeBracket => rfl
  | _ => contradiction

/-- A closing mark lowers the level, or it is the end of the value. -/
theorem nestedLength_closes {token : Token} {spelling : Bytes} (spells : token.Spells spelling)
    (closes : token.closes = true) (level : Nat) (rest : Bytes) :
    nestedLength .outside level (spelling ++ rest) =
      if level ≤ 1 then spelling.length
      else spelling.length + nestedLength .outside (level - 1) rest := by
  obtain ⟨byte, rfl, named⟩ := spells.eq_mark (by simp [Token.isMark, closes])
  obtain ⟨opens, isClose, _⟩ := bracket_of_ofByte? byte token named
  rw [opens_eq_false closes] at opens
  rw [closes] at isClose
  rw [List.singleton_append, nestedLength, if_neg (by simpa using opens.symm),
    if_pos (by simpa using isClose.symm), List.length_singleton]

/-- A run of lexemes is passed over as its tokens change the level. -/
theorem nestedLength_run {lexemes : List Lexeme} {run : Bytes} (isRun : Run lexemes run)
    (spelled : ∀ lexeme ∈ lexemes, lexeme.Spelled) {level after : Nat}
    (reaches : levelAfter level (lexemes.map Lexeme.token) = some after) (rest : Bytes) :
    nestedLength .outside level (run ++ rest) = run.length + nestedLength .outside after rest := by
  induction isRun generalizing level with
  | nil =>
      cases reaches
      simp
  | @cons gap back others blank lexeme behind ih =>
      obtain ⟨spells, othersSpelled⟩ := List.forall_mem_cons.mp spelled
      rw [List.map_cons, levelAfter] at reaches
      rw [List.append_assoc, List.append_assoc, nestedLength_blank blank, List.length_append,
        List.length_append]
      split at reaches
      · next opens =>
        rw [nestedLength_opens spells opens, ih othersSpelled reaches]
        omega
      · next notOpens =>
        split at reaches
        · next closes =>
          split at reaches
          · contradiction
          · next deep =>
            rw [nestedLength_closes spells closes, if_neg deep, ih othersSpelled reaches]
            omega
        · next notCloses =>
          rw [nestedLength_spelling spells (by simpa using notOpens) (by simpa using notCloses),
            ih othersSpelled reaches]
          omega

/-- A literal ends with its closing quote. -/
theorem literalLength_tail {tail : Bytes} (isTail : StringPiece.LiteralTail tail) (rest : Bytes) :
    literalLength .inside (tail ++ rest) = tail.length := by
  induction isTail with
  | close => rfl
  | @escape letter tail _ ih =>
      have escaped : Quoting.inside.after Ascii.backslash = .escaped := rfl
      have inside : Quoting.escaped.after letter = .inside := rfl
      simp only [List.cons_append, literalLength, escaped, inside, ih, List.length_cons]
      simp
      omega
  | @plain byte tail notQuote notBackslash _ ih =>
      have inside : Quoting.inside.after byte = .inside := by
        simp [Quoting.after, notQuote, notBackslash]
      simp only [List.cons_append, literalLength, inside, ih, List.length_cons]
      simp
      omega

/-- The literal that a text starts with is cut off exactly. -/
theorem literalLength_spelling {text spelling : Bytes} (spells : (Token.string text).Spells spelling)
    (rest : Bytes) : literalLength .outside (spelling ++ rest) = spelling.length := by
  obtain ⟨tail, rfl, isTail⟩ := spells.eq_literal
  have inside : Quoting.outside.after Ascii.quote = .inside := rfl
  rw [List.cons_append, literalLength, inside, if_neg (by simp), literalLength_tail isTail,
    List.length_cons]
  omega

/-- Whether a text spells a value without blanks around it. -/
def Writes (value : Json) (text : Bytes) : Prop :=
  ∃ lexeme others run, text = lexeme.spelling ++ run ∧ Run others run ∧
    (∀ each ∈ lexeme :: others, each.Sound) ∧
    Json.Derives (.value value) ((lexeme :: others).map Lexeme.token)

/-- A text is JSON with any blanks around it. -/
theorem Writes.parse?_padded {value : Json} {text front back : Bytes} (writes : Writes value text)
    (frontBlank : IsBlank front) (backBlank : IsBlank back) :
    Json.parse? (front ++ (text ++ back)) = some value := by
  obtain ⟨lexeme, others, run, rfl, isRun, sound, derived⟩ := writes
  have lexed := (Run.cons frontBlank lexeme isRun).lexed
    (fun each member => (sound each member).spelled) backBlank (Json.isChain_of_derives derived)
  rw [List.append_assoc] at lexed
  exact (Json.parse?_eq_some_iff_of_lexed lexed).mpr ⟨sound, derived⟩

/-- A text that is written without blanks around it is JSON. -/
theorem Writes.parse? {value : Json} {text : Bytes} (writes : Writes value text) :
    Json.parse? text = some value := by
  have padded := writes.parse?_padded isBlank_nil isBlank_nil
  rwa [List.nil_append, List.append_nil] at padded

/-- A value is one token that is no mark, or it stands between an opening and a closing mark. -/
theorem value_shape {value : Json} {tokens : List Token}
    (derived : Json.Derives (.value value) tokens) :
    (∃ token, tokens = [token] ∧ token.isMark = false) ∨
      ∃ first inside last, tokens = first :: (inside ++ [last]) ∧ first.opens = true ∧
        last.closes = true ∧ levelAfter 1 inside = some 1 := by
  cases derived with
  | null | bool | number | string => exact Or.inl ⟨_, rfl, rfl⟩
  | emptyArray | emptyObject => exact Or.inr ⟨_, [], _, rfl, rfl, rfl, rfl⟩
  | array inside | object inside =>
      have balanced := levelAfter_of_derives inside 0 []
      rw [List.append_nil] at balanced
      exact Or.inr ⟨_, _, _, rfl, rfl, rfl, balanced⟩

/-- A number or a name ends before the first terminator. -/
theorem valueLength_bare {spelling rest : Bytes} (notEmpty : spelling ≠ [])
    (bare : ∀ byte ∈ spelling, Ascii.isLetter byte = true ∨ NumberLiteral.isNumberByte byte = true)
    (ends : ∀ byte, rest.head? = some byte → isTerminator byte = true) :
    valueLength (spelling ++ rest) = spelling.length := by
  have goesOn : ∀ byte ∈ spelling, (!isTerminator byte) = true := by
    intro byte member
    simp [(not_bracket_of_bare byte (bare byte member)).2.2.2]
  have stops : rest.takeWhile (fun byte => !isTerminator byte) = [] := by
    cases rest with
    | nil => rfl
    | cons byte rest => simp [ends byte rfl]
  cases spelling with
  | nil => contradiction
  | cons first tail =>
      obtain ⟨notOpen, _, notQuote, _⟩ := not_bracket_of_bare first (bare first List.mem_cons_self)
      rw [List.cons_append, valueLength, if_neg notQuote, if_neg notOpen, ← List.cons_append,
        List.takeWhile_append_of_pos goesOn, stops, List.append_nil]

/-- A literal ends with its closing quote. -/
theorem valueLength_literal {text spelling : Bytes} (spells : (Token.string text).Spells spelling)
    (rest : Bytes) : valueLength (spelling ++ rest) = spelling.length := by
  have length := literalLength_spelling spells rest
  obtain ⟨tail, rfl, _⟩ := spells.eq_literal
  rw [List.cons_append] at length ⊢
  rw [valueLength, if_pos rfl, length]

/-- Behind an opening mark the brackets are counted. -/
theorem valueLength_opens {token : Token} {spelling : Bytes} (spells : token.Spells spelling)
    (opens : token.opens = true) (rest : Bytes) :
    valueLength (spelling ++ rest) = nestedLength .outside 0 (spelling ++ rest) := by
  obtain ⟨byte, rfl, named⟩ := spells.eq_mark (by simp [Token.isMark, opens])
  obtain ⟨isOpen, _, notQuote⟩ := bracket_of_ofByte? byte token named
  rw [opens] at isOpen
  rw [List.singleton_append, valueLength, if_neg notQuote, if_pos (by simpa using isOpen.symm)]

/-- An array or an object ends with its closing mark. -/
theorem valueLength_nested {lexeme last : Lexeme} {inside : List Lexeme} {run : Bytes}
    (isRun : Run (inside ++ [last]) run)
    (spelled : ∀ each ∈ lexeme :: (inside ++ [last]), each.Spelled)
    (opens : lexeme.token.opens = true) (closes : last.token.closes = true)
    (balanced : levelAfter 1 (inside.map Lexeme.token) = some 1) (rest : Bytes) :
    valueLength (lexeme.spelling ++ (run ++ rest)) = (lexeme.spelling ++ run).length := by
  obtain ⟨spells, othersSpelled⟩ := List.forall_mem_cons.mp spelled
  obtain ⟨insideSpelled, lastSpelled⟩ := List.forall_mem_append.mp othersSpelled
  obtain ⟨front, back, rfl, frontRun, backRun⟩ := isRun.exists_append
  rw [valueLength_opens spells opens, nestedLength_opens spells opens, List.append_assoc,
    nestedLength_run frontRun insideSpelled balanced]
  cases backRun with
  | @cons gap _ _ blank _ behind =>
      cases behind
      rw [List.append_nil, List.append_assoc, nestedLength_blank blank,
        nestedLength_closes (lastSpelled last List.mem_cons_self) closes, if_pos (Nat.le_refl 1)]
      simp only [List.length_append]

/-- The value that a text starts with is cut off exactly, if a terminator follows. -/
theorem Writes.valueLength {value : Json} {text rest : Bytes} (writes : Writes value text)
    (ends : ∀ byte, rest.head? = some byte → isTerminator byte = true) :
    valueLength (text ++ rest) = text.length := by
  obtain ⟨lexeme, others, run, rfl, isRun, sound, derived⟩ := writes
  have spelled : ∀ each ∈ lexeme :: others, each.Spelled :=
    fun each member => (sound each member).spelled
  have spells := spelled lexeme List.mem_cons_self
  rcases value_shape derived with ⟨token, single, notMark⟩ | ⟨first, inside, last, nested, opens,
    closes, balanced⟩
  · obtain ⟨rfl, none⟩ := List.cons_eq_cons.mp single
    obtain rfl := List.map_eq_nil_iff.mp none
    cases isRun
    rw [List.append_nil]
    by_cases isString : ∃ text, lexeme.token = .string text
    · obtain ⟨text, isString⟩ := isString
      rw [Spelled, isString] at spells
      exact valueLength_literal spells rest
    · obtain ⟨first, tail, notEmpty, _⟩ := spells.head
      exact valueLength_bare (by simp [notEmpty])
        (spells.bare notMark fun text same => isString ⟨text, same⟩) ends
  · obtain ⟨rfl, tokens⟩ := List.cons_eq_cons.mp nested
    obtain ⟨front, back, rfl, rfl, single⟩ := List.map_eq_append_iff.mp tokens
    obtain ⟨end_, rfl, rfl⟩ := List.map_eq_singleton_iff.mp single
    rw [List.append_assoc]
    exact valueLength_nested isRun spelled opens closes balanced rest

end FormatServer.Manifest
