import FormatServer.Json.Comments
import FormatServer.Proofs.Json.Lexemes

namespace FormatServer.Jsonc

open Lexeme

/-- Blanks and closed comments, one after another. -/
inductive Trivia : Bytes → Prop where
  | nil : Trivia []
  | blank {byte : UInt8} {rest : Bytes} (isBlank : Token.isBlank byte = true)
      (behind : Trivia rest) : Trivia (byte :: rest)
  | line {body rest : Bytes} (sameLine : Ascii.newline ∉ body) (behind : Trivia rest) :
      Trivia (Ascii.slash :: Ascii.slash :: (body ++ Ascii.newline :: rest))
  | block {body rest : Bytes} (open_ : ¬[Ascii.star, Ascii.slash] <:+: body)
      (behind : Trivia rest) :
      Trivia (Ascii.slash :: Ascii.star :: (body ++ Ascii.star :: Ascii.slash :: rest))

/-- Trivia at the end of a text: the last line comment need not be closed. -/
def EndsText (ending : Bytes) : Prop :=
  Trivia ending ∨ ∃ trivia body, Trivia trivia ∧ Ascii.newline ∉ body ∧
    ending = trivia ++ Ascii.slash :: Ascii.slash :: body

/-- A text that lays lexemes out with a gap before each and an ending behind the last, and that may
have one comma of its own before a closing mark. The comma is `allowed` behind every lexeme that
opens nothing, so never in an empty array or object. -/
inductive Dressed (Gap Ending : Bytes → Prop) : (allowed : Bool) → List Lexeme → Bytes → Prop where
  | done {allowed : Bool} {ending : Bytes} (isEnding : Ending ending) :
      Dressed Gap Ending allowed [] ending
  | lexeme {allowed : Bool} {gap rest : Bytes} {others : List Lexeme} (isGap : Gap gap)
      (lexeme : Lexeme) (behind : Dressed Gap Ending (!lexeme.token.opens) others rest) :
      Dressed Gap Ending allowed (lexeme :: others) (gap ++ (lexeme.spelling ++ rest))
  | comma {gap rest : Bytes} {lexeme : Lexeme} {others : List Lexeme} (isGap : Gap gap)
      (closes : lexeme.token.closes = true)
      (behind : Dressed Gap Ending false (lexeme :: others) rest) :
      Dressed Gap Ending true (lexeme :: others) (gap ++ Ascii.comma :: rest)

/-- Whether a text is another one with comments, blanks and trailing commas added. -/
def Dresses (text dressed : Bytes) : Prop :=
  ∃ lexemes, Lexed lexemes text ∧ Dressed Trivia EndsText false lexemes dressed

section Comments

/-- A blanked byte is a blank. -/
theorem isBlank_map_blank (body : Bytes) : IsBlank (body.map blank) := by
  intro byte member
  obtain ⟨original, _, rfl⟩ := List.mem_map.mp member
  unfold blank
  split
  · next isNewline => rw [isNewline]; rfl
  · rfl

/-- The rest of a line comment is blanked up to the end of the line. -/
theorem blankCommentsFrom_lineComment {body : Bytes} (sameLine : Ascii.newline ∉ body)
    (rest : Bytes) :
    blankCommentsFrom .lineComment (body ++ Ascii.newline :: rest) =
      body.map blank ++ Ascii.newline :: blankCommentsFrom (.text .outside) rest := by
  induction body with
  | nil => rfl
  | cons byte body ih =>
      obtain ⟨notNewline, others⟩ := not_or.mp (List.mem_cons.not.mp sameLine)
      simp [blankCommentsFrom, Place.read, Ne.symm notNewline, ih others]

/-- A line comment at the end of a text is blanked to the end. -/
theorem blankCommentsFrom_lastLine {body : Bytes} (sameLine : Ascii.newline ∉ body) :
    blankCommentsFrom .lineComment body = body.map blank := by
  induction body with
  | nil => rfl
  | cons byte body ih =>
      obtain ⟨notNewline, others⟩ := not_or.mp (List.mem_cons.not.mp sameLine)
      simp [blankCommentsFrom, Place.read, Ne.symm notNewline, ih others]

/-- The rest of a block comment is blanked up to its closing mark. -/
theorem blankCommentsFrom_blockComment {body : Bytes}
    (open_ : ¬[Ascii.star, Ascii.slash] <:+: body) (rest : Bytes) :
    blankCommentsFrom .blockComment (body ++ Ascii.star :: Ascii.slash :: rest) =
      body.map blank ++ Ascii.space :: Ascii.space :: blankCommentsFrom (.text .outside) rest := by
  induction body with
  | nil => rfl
  | cons byte body ih =>
      have others : ¬[Ascii.star, Ascii.slash] <:+: body :=
        fun inside => open_ (inside.trans (List.suffix_cons byte body).isInfix)
      have goesOn : ¬(byte = Ascii.star ∧
          (body ++ Ascii.star :: Ascii.slash :: rest).head? = some Ascii.slash) := by
        rintro ⟨rfl, isSlash⟩
        cases body with
        | nil => exact absurd (Option.some.inj isSlash) (by decide)
        | cons second body =>
            cases isSlash
            exact open_ ⟨[], body, rfl⟩
      rw [List.cons_append, blankCommentsFrom, Place.read, if_neg goesOn]
      simp [ih others]

/-- Two slashes open a line comment. -/
theorem blankCommentsFrom_openLine (rest : Bytes) :
    blankCommentsFrom (.text .outside) (Ascii.slash :: Ascii.slash :: rest) =
      Ascii.space :: Ascii.space :: blankCommentsFrom .lineComment rest := rfl

/-- A slash and a star open a block comment. -/
theorem blankCommentsFrom_openBlock (rest : Bytes) :
    blankCommentsFrom (.text .outside) (Ascii.slash :: Ascii.star :: rest) =
      Ascii.space :: Ascii.space :: blankCommentsFrom .blockComment rest := rfl

/-- A byte that opens neither a literal nor a comment stays. -/
theorem blankCommentsFrom_cons {byte : UInt8} (notQuote : byte ≠ Ascii.quote)
    (notSlash : byte ≠ Ascii.slash) (rest : Bytes) :
    blankCommentsFrom (.text .outside) (byte :: rest) =
      byte :: blankCommentsFrom (.text .outside) rest := by
  simp [blankCommentsFrom, Place.read, Quoting.after, notQuote, notSlash]

/-- A blank opens neither a literal nor a comment. -/
theorem ne_of_isBlank : ∀ byte : UInt8, Token.isBlank byte = true →
    byte ≠ Ascii.quote ∧ byte ≠ Ascii.slash ∧ byte ≠ Ascii.comma := by
  apply Token.forall_byte
  decide +kernel

/-- Trivia become blanks. -/
theorem Trivia.exists_blanked {trivia : Bytes} (isTrivia : Trivia trivia) :
    ∃ gap, IsBlank gap ∧ ∀ rest, blankCommentsFrom (.text .outside) (trivia ++ rest) =
      gap ++ blankCommentsFrom (.text .outside) rest := by
  induction isTrivia with
  | nil => exact ⟨[], isBlank_nil, fun rest => rfl⟩
  | @blank byte trivia isBlank _ ih =>
      obtain ⟨gap, blank, same⟩ := ih
      obtain ⟨notQuote, notSlash, _⟩ := ne_of_isBlank byte isBlank
      refine ⟨byte :: gap, .cons isBlank blank, fun rest => ?_⟩
      rw [List.cons_append, blankCommentsFrom_cons notQuote notSlash, same, List.cons_append]
  | @line body trivia sameLine _ ih =>
      obtain ⟨gap, blank, same⟩ := ih
      refine ⟨Ascii.space :: Ascii.space :: (body.map Jsonc.blank ++ Ascii.newline :: gap), ?_, ?_⟩
      · exact .cons rfl (.cons rfl ((isBlank_map_blank body).append (.cons rfl blank)))
      · intro rest
        simp [blankCommentsFrom_openLine, blankCommentsFrom_lineComment sameLine, same]
  | @block body trivia open_ _ ih =>
      obtain ⟨gap, blank, same⟩ := ih
      refine ⟨Ascii.space :: Ascii.space ::
        (body.map Jsonc.blank ++ Ascii.space :: Ascii.space :: gap), ?_, ?_⟩
      · exact .cons rfl (.cons rfl ((isBlank_map_blank body).append (.cons rfl (.cons rfl blank))))
      · intro rest
        simp [blankCommentsFrom_openBlock, blankCommentsFrom_blockComment open_, same]

/-- What follows the last token becomes blanks. -/
theorem EndsText.isBlank_blanked {ending : Bytes} (ends : EndsText ending) :
    IsBlank (blankComments ending) := by
  rcases ends with isTrivia | ⟨trivia, body, isTrivia, sameLine, rfl⟩
  · obtain ⟨gap, blank, same⟩ := isTrivia.exists_blanked
    have all := same []
    rw [List.append_nil, blankCommentsFrom, List.append_nil] at all
    rw [blankComments, all]
    exact blank
  · obtain ⟨gap, blank, same⟩ := isTrivia.exists_blanked
    rw [blankComments, same, blankCommentsFrom_openLine, blankCommentsFrom_lastLine sameLine]
    exact blank.append (.cons rfl (.cons rfl (isBlank_map_blank body)))

/-- The bytes of spellings other than literals open neither a literal nor a comment. -/
theorem ne_of_bareIn {token : Token} : ∀ byte : UInt8, token.BareIn byte →
    byte ≠ Ascii.quote ∧ byte ≠ Ascii.slash := by
  have all : ∀ byte : UInt8, (Token.ofByte? byte).isSome = true ∨ Ascii.isLetter byte = true ∨
      NumberLiteral.isNumberByte byte = true → byte ≠ Ascii.quote ∧ byte ≠ Ascii.slash := by
    apply Token.forall_byte
    decide +kernel
  intro byte bare
  exact all byte (bare.imp_left fun named => by simp [named])

/-- Spellings stay. -/
theorem blankCommentsFrom_spelling {token : Token} {spelling : Bytes}
    (spells : token.Spells spelling) (rest : Bytes) :
    blankCommentsFrom (.text .outside) (spelling ++ rest) =
      spelling ++ blankCommentsFrom (.text .outside) rest := by
  refine Eq.trans ?_ List.foldr_cons_eq_append'
  apply spells.foldr (fun quoting => blankCommentsFrom (.text quoting)) List.cons
  · intro quoting within byte rest
    simp [blankCommentsFrom, Place.read, within]
  · exact fun rest => rfl
  · intro byte bare
    obtain ⟨notQuote, notSlash⟩ := ne_of_bareIn byte bare
    exact blankCommentsFrom_cons notQuote notSlash

/-- Blanking the comments leaves the lexemes and the trailing commas, with blanks between them. -/
theorem Dressed.blankComments {allowed : Bool} {lexemes : List Lexeme} {text : Bytes}
    (dressed : Dressed Trivia EndsText allowed lexemes text)
    (spelled : ∀ lexeme ∈ lexemes, lexeme.Spelled) :
    Dressed IsBlank IsBlank allowed lexemes (blankComments text) := by
  induction dressed with
  | done ends => exact .done ends.isBlank_blanked
  | lexeme isGap lexeme _ ih =>
      obtain ⟨spells, others⟩ := List.forall_mem_cons.mp spelled
      obtain ⟨gap, blank, same⟩ := isGap.exists_blanked
      rw [Jsonc.blankComments, same, blankCommentsFrom_spelling spells]
      exact .lexeme blank lexeme (ih others)
  | comma isGap closes _ ih =>
      obtain ⟨gap, blank, same⟩ := isGap.exists_blanked
      rw [Jsonc.blankComments, same, blankCommentsFrom_cons (by decide) (by decide)]
      exact .comma blank closes (ih spelled)

end Comments

section TrailingCommas

/-- A byte that neither opens a literal nor is a comma stays. -/
theorem blankTrailingCommasFrom_cons {byte : UInt8} (notQuote : byte ≠ Ascii.quote)
    (notComma : byte ≠ Ascii.comma) (rest : Bytes) :
    blankTrailingCommasFrom .outside (byte :: rest) =
      byte :: blankTrailingCommasFrom .outside rest := by
  simp [blankTrailingCommasFrom, Quoting.after, notQuote, notComma]

/-- A comma stays unless a closing mark is next. -/
theorem blankTrailingCommasFrom_comma (rest : Bytes) :
    blankTrailingCommasFrom .outside (Ascii.comma :: rest) =
      (if closesNext rest then Ascii.space else Ascii.comma) ::
        blankTrailingCommasFrom .outside rest := by
  have outside : Quoting.outside.after Ascii.comma = .outside := rfl
  simp [blankTrailingCommasFrom, outside]

/-- Blanks stay. -/
theorem blankTrailingCommasFrom_append {gap : Bytes} (blank : IsBlank gap) (rest : Bytes) :
    blankTrailingCommasFrom .outside (gap ++ rest) =
      gap ++ blankTrailingCommasFrom .outside rest := by
  induction gap with
  | nil => rfl
  | cons byte gap ih =>
      obtain ⟨isBlank, others⟩ := List.forall_mem_cons.mp blank
      obtain ⟨notQuote, _, notComma⟩ := ne_of_isBlank byte isBlank
      rw [List.cons_append, blankTrailingCommasFrom_cons notQuote notComma, ih others,
        List.cons_append]

/-- The bytes of spellings other than literals and the comma neither open a literal nor are commas.
-/
theorem ne_comma_of_bareIn {token : Token} (notComma : token ≠ .comma) :
    ∀ byte : UInt8, token.BareIn byte → byte ≠ Ascii.quote ∧ byte ≠ Ascii.comma := by
  have all : ∀ byte : UInt8, (Token.ofByte? byte).any (· ≠ .comma) = true ∨
      Ascii.isLetter byte = true ∨ NumberLiteral.isNumberByte byte = true →
      byte ≠ Ascii.quote ∧ byte ≠ Ascii.comma := by
    apply Token.forall_byte
    decide +kernel
  intro byte bare
  exact all byte (bare.imp_left fun named => by simp [named, notComma])

/-- Spellings of other tokens than the comma stay. -/
theorem blankTrailingCommasFrom_spelling {token : Token} {spelling : Bytes}
    (spells : token.Spells spelling) (notComma : token ≠ .comma) (rest : Bytes) :
    blankTrailingCommasFrom .outside (spelling ++ rest) =
      spelling ++ blankTrailingCommasFrom .outside rest := by
  refine Eq.trans ?_ List.foldr_cons_eq_append'
  apply spells.foldr blankTrailingCommasFrom List.cons
  · intro quoting within byte rest
    simp [blankTrailingCommasFrom, within]
  · exact fun rest => rfl
  · intro byte bare
    obtain ⟨notQuote, differs⟩ := ne_comma_of_bareIn notComma byte bare
    exact blankTrailingCommasFrom_cons notQuote differs

/-- Blanks are skipped in the search for a closing mark. -/
theorem closesNext_append {gap : Bytes} (blank : IsBlank gap) {first : UInt8}
    (notSpace : Ascii.isSpace first = false) (rest : Bytes) :
    closesNext (gap ++ first :: rest) =
      (first == Ascii.closeBrace || first == Ascii.closeBracket) := by
  rw [closesNext, blank.dropWhile_isSpace notSpace]

/-- Whether a token closes is seen from the first byte of its spelling. -/
theorem closes_eq {token : Token} {first : UInt8} {tail : Bytes}
    (spells : token.Spells (first :: tail)) :
    token.closes = (first == Ascii.closeBrace || first == Ascii.closeBracket) := by
  have other : ∀ byte : UInt8, Ascii.isLetter byte = true ∨ NumberLiteral.isNumberByte byte = true →
      (byte == Ascii.closeBrace || byte == Ascii.closeBracket) = false := by
    apply Token.forall_byte
    decide +kernel
  cases spells with
  | mark named =>
      have marks : ∀ byte : UInt8, (Token.ofByte? byte).all (fun token => token.closes ==
          (byte == Ascii.closeBrace || byte == Ascii.closeBracket)) = true := by
        apply Token.forall_byte
        decide +kernel
      have mark := marks first
      rw [named] at mark
      simpa using mark
  | string => rfl
  | name member =>
      have none : ∀ entry ∈ Token.names, entry.2.closes = false := by decide
      rw [none _ member, other first
        (Or.inl ((Token.isLetter_of_mem_names member).2 first List.mem_cons_self))]
  | number _ bytes => rw [other first (Or.inr (bytes first List.mem_cons_self))]; rfl

/-- A closing mark is next exactly when the next lexeme closes and no trailing comma stands before
it. -/
theorem Dressed.closesNext_eq {allowed : Bool} {lexemes : List Lexeme} {text : Bytes}
    (dressed : Dressed IsBlank IsBlank allowed lexemes text)
    (spelled : ∀ lexeme ∈ lexemes, lexeme.Spelled)
    (sure : allowed = false ∨ ∀ next ∈ lexemes.head?, next.token.closes = false) :
    closesNext text = lexemes.head?.any (·.token.closes) := by
  cases dressed with
  | done blank =>
      rw [closesNext, List.dropWhile_eq_nil_iff.mpr blank.isSpace]
      rfl
  | lexeme blank lexeme _ =>
      obtain ⟨first, tail, spelling, starts⟩ := (spelled lexeme List.mem_cons_self).head
      have spells := spelled lexeme List.mem_cons_self
      rw [Spelled, spelling] at spells
      rw [spelling, List.cons_append,
        closesNext_append blank (Token.startsSpelling_bounds first starts).1]
      simp [closes_eq spells]
  | comma blank closes _ =>
      rcases sure with notAllowed | opens
      · contradiction
      · rw [opens _ rfl] at closes
        contradiction

/-- A lexeme stays where the lexemes behind it may follow it. -/
theorem Dressed.blankTrailingCommasFrom_lexeme {allowed : Bool} {others : List Lexeme}
    {rest : Bytes} (behind : Dressed IsBlank IsBlank allowed others rest)
    (spelled : ∀ other ∈ others, other.Spelled) {lexeme : Lexeme} (spells : lexeme.Spelled)
    (mayPrecede : ∀ next ∈ others.head?, lexeme.token.mayPrecede next.token = true) :
    blankTrailingCommasFrom .outside (lexeme.spelling ++ rest) =
      lexeme.spelling ++ blankTrailingCommasFrom .outside rest := by
  by_cases isComma : lexeme.token = .comma
  · have opens : ∀ next ∈ others.head?, next.token.closes = false := by
      intro next isNext
      have may := mayPrecede next isNext
      rw [isComma] at may
      simpa [Token.mayPrecede] using may
    have notNext : closesNext rest = false := by
      rw [behind.closesNext_eq spelled (Or.inr opens)]
      cases head : others.head? with
      | none => rfl
      | some next => exact opens next head
    have single : lexeme.spelling = [Ascii.comma] := spells.eq_markByte isComma rfl
    rw [single, List.singleton_append, blankTrailingCommasFrom_comma, notNext]
    rfl
  · exact blankTrailingCommasFrom_spelling spells isComma rest

/-- Blanking the trailing commas leaves the lexemes with blanks between them. -/
theorem Dressed.exists_run {allowed : Bool} {lexemes : List Lexeme} {text : Bytes}
    (dressed : Dressed IsBlank IsBlank allowed lexemes text)
    (spelled : ∀ lexeme ∈ lexemes, lexeme.Spelled)
    (chain : lexemes.IsChain fun first next => first.token.mayPrecede next.token = true) :
    ∃ run gap, blankTrailingCommas text = run ++ gap ∧ Run lexemes run ∧ IsBlank gap := by
  induction dressed with
  | @done _ ending blank =>
      have stays := blankTrailingCommasFrom_append blank []
      rw [List.append_nil, blankTrailingCommasFrom, List.append_nil] at stays
      exact ⟨[], ending, stays, .nil, blank⟩
  | @lexeme _ gap rest others blank lexeme behind ih =>
      obtain ⟨spells, othersSpelled⟩ := List.forall_mem_cons.mp spelled
      obtain ⟨mayPrecede, othersChain⟩ := List.isChain_cons.mp chain
      obtain ⟨run, last, same, isRun, lastBlank⟩ := ih othersSpelled othersChain
      refine ⟨gap ++ (lexeme.spelling ++ run), last, ?_, .cons blank lexeme isRun, lastBlank⟩
      have stays := behind.blankTrailingCommasFrom_lexeme othersSpelled spells mayPrecede
      rw [blankTrailingCommas, blankTrailingCommasFrom_append blank, stays]
      rw [blankTrailingCommas] at same
      simp [same]
  | @comma gap rest lexeme others blank closes behind ih =>
      obtain ⟨run, last, same, isRun, lastBlank⟩ := ih spelled chain
      have next := behind.closesNext_eq spelled (Or.inl rfl)
      cases isRun with
      | @cons front after _ frontBlank _ afterRun =>
          refine ⟨(gap ++ Ascii.space :: front) ++ (lexeme.spelling ++ after), last, ?_,
            .cons (blank.append (.cons rfl frontBlank)) lexeme afterRun, lastBlank⟩
          rw [blankTrailingCommas, blankTrailingCommasFrom_append blank,
            blankTrailingCommasFrom_comma]
          rw [blankTrailingCommas] at same
          simp [same, next, closes]

end TrailingCommas

/-- Blanks are trivia. -/
theorem trivia_of_isBlank {gap : Bytes} (blank : IsBlank gap) : Trivia gap := by
  induction gap with
  | nil => exact .nil
  | cons byte gap ih =>
      obtain ⟨isBlank, others⟩ := List.forall_mem_cons.mp blank
      exact .blank isBlank (ih others)

/-- A text dresses itself. -/
theorem dresses_self {text : Bytes} {lexemes : List Lexeme} (lexed : Lexed lexemes text) :
    Dresses text text := by
  have dressed (allowed : Bool) : Dressed Trivia EndsText allowed lexemes text := by
    induction lexed generalizing allowed with
    | done blank => exact .done (Or.inl (trivia_of_isBlank blank))
    | lexeme blank _ _ ih => exact .lexeme (trivia_of_isBlank blank) _ (ih _)
  exact ⟨lexemes, lexed, dressed false⟩

/-- The plain text underneath has the value that its lexemes spell. -/
theorem parse?_of_dresses {text dressed : Bytes} {value : Json}
    (accepted : Json.parse? text = some value) (dresses : Dresses text dressed) :
    parse? dressed = some value := by
  obtain ⟨lexemes, lexed, isDressed⟩ := dresses
  obtain ⟨sound, derived⟩ := (Json.parse?_eq_some_iff_of_lexed lexed).mp accepted
  have chain := Json.isChain_of_derives derived
  obtain ⟨run, gap, stripped, isRun, blank⟩ :=
    (isDressed.blankComments lexed.spelled).exists_run lexed.spelled chain
  rw [parse?, strip, stripped]
  exact (Json.parse?_eq_some_iff_of_lexed (isRun.lexed lexed.spelled blank chain)).mpr
    ⟨sound, derived⟩

/-- A text with comments, blanks and trailing commas of its own has the value of the JSON underneath,
and so has the JSON itself. -/
theorem comments_and_trailing_commas_keep_value {text : Bytes} {value : Json}
    (accepted : Json.parse? text = some value) :
    parse? text = some value ∧ ∀ dressed, Dresses text dressed → parse? dressed = some value := by
  obtain ⟨lexemes, lexed, _⟩ := Json.parse?_eq_some_iff.mp accepted
  exact ⟨parse?_of_dresses accepted (dresses_self lexed),
    fun dressed dresses => parse?_of_dresses accepted dresses⟩

/-- A comment mark in a string is no comment, and neither the comment nor the comma behind the string
counts. -/
theorem comments_and_trailing_commas_keep_value_string :
    Json.parse? "[\"/*\"]" = some (.array [.string "/*"]) ∧
      parse? "[\"/*\", // one\n]" = some (.array [.string "/*"]) := by
  let lexemes : List Lexeme := [⟨.openBracket, "["⟩, ⟨.string "/*", "\"/*\""⟩, ⟨.closeBracket, "]"⟩]
  have lexed : Lexed lexemes "[\"/*\"]" :=
    .lexeme isBlank_nil rfl (.lexeme isBlank_nil rfl (.lexeme isBlank_nil rfl (.done isBlank_nil)))
  have wellFormed : ∀ lexeme ∈ lexemes, Utf8.isWellFormed lexeme.spelling = true := by
    decide
  have accepted : Json.parse? "[\"/*\"]" = some (.array [.string "/*"]) :=
    (Json.parse?_eq_some_iff_of_lexed lexed).mpr
      ⟨fun lexeme member => ⟨lexed.spelled lexeme member, wellFormed lexeme member⟩,
        .array (.element (.string _))⟩
  have comment : Trivia " // one\n" :=
    .blank rfl (@Trivia.line " one" [] (by decide) .nil)
  have dressed : Dressed Trivia EndsText false lexemes "[\"/*\", // one\n]" :=
    .lexeme Trivia.nil _ (.lexeme Trivia.nil _ (.comma Trivia.nil rfl
      (.lexeme comment _ (.done (Or.inl Trivia.nil)))))
  exact ⟨accepted, (comments_and_trailing_commas_keep_value accepted).2 _ ⟨_, lexed, dressed⟩⟩

end FormatServer.Jsonc
