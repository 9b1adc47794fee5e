import FormatServer.Proofs.Json.Pieces

namespace FormatServer.Jsonc

section Positions

/-- The bytes of pieces. -/
def textOf (pieces : List Piece) : Bytes :=
  pieces.flatMap Piece.text

/-- Whether the byte at an index belongs to a piece with others behind it. -/
def StandsIn (pieces : List Piece) (index : Nat) (piece : Piece) (behind : List Piece) : Prop :=
  ∃ front, pieces = front ++ piece :: behind ∧ (textOf front).length ≤ index ∧
    index < (textOf front).length + piece.text.length

/-- Whether the byte at an index belongs to a string literal. -/
def InLiteral (pieces : List Piece) (index : Nat) : Prop :=
  ∃ literal behind, StandsIn pieces index (.literal literal) behind

/-- Whether the byte at an index belongs to a comment. -/
def InComment (pieces : List Piece) (index : Nat) : Prop :=
  ∃ comment behind, StandsIn pieces index (.comment comment) behind

/-- Whether the byte at an index is a comma outside literals and comments, behind which an array or an
object closes. -/
def IsTrailingComma (pieces : List Piece) (index : Nat) : Prop :=
  ∃ behind, StandsIn pieces index (.plain Ascii.comma) behind ∧ closesBehind behind = true

theorem Cut.text_eq {pieces : List Piece} {text : Bytes} (cut : Cut pieces text) :
    text = textOf pieces := by
  induction cut with
  | nil => rfl
  | cons _ _ ih => rw [ih, textOf, textOf, List.flatMap_cons]

/-- Every byte belongs to a piece. -/
theorem exists_standsIn {pieces : List Piece} {index : Nat}
    (inside : index < (textOf pieces).length) :
    ∃ piece behind, StandsIn pieces index piece behind := by
  induction pieces generalizing index with
  | nil => exact absurd inside (Nat.not_lt_zero index)
  | cons piece pieces ih =>
      by_cases here : index < piece.text.length
      · exact ⟨piece, pieces, [], rfl, Nat.zero_le _, by simpa [textOf] using here⟩
      · simp only [textOf, List.flatMap_cons, List.length_append] at inside
        have insideOthers : index - piece.text.length < (textOf pieces).length := by
          simp only [textOf]
          omega
        obtain ⟨other, behind, front, rfl, starts, ends⟩ := ih insideOthers
        refine ⟨other, behind, piece :: front, rfl, ?_, ?_⟩
        · simp only [textOf, List.flatMap_cons, List.length_append] at starts ⊢
          omega
        · simp only [textOf, List.flatMap_cons, List.length_append] at ends ⊢
          omega

theorem Piece.length_stripped (piece : Piece) (behind : List Piece) :
    (piece.stripped behind).length = piece.text.length := by
  cases piece with
  | plain | literal => rfl
  | comment => exact List.length_map _

/-- In front of a piece stripping takes nothing out. -/
theorem exists_strippedPieces_append (front back : List Piece) :
    ∃ start, strippedPieces (front ++ back) = start ++ strippedPieces back ∧
      start.length = (textOf front).length := by
  induction front with
  | nil => exact ⟨[], rfl, rfl⟩
  | cons piece front ih =>
      obtain ⟨start, same, length⟩ := ih
      refine ⟨piece.stripped (front ++ back) ++ start, ?_, ?_⟩
      · rw [List.cons_append, strippedPieces, same, List.append_assoc]
      · rw [List.length_append, piece.length_stripped, length, textOf, textOf, List.flatMap_cons,
          List.length_append]

/-- The bytes of a piece are found in the text, and what is left of them in the stripped text. -/
theorem StandsIn.exists_place {pieces : List Piece} {index : Nat} {piece : Piece}
    {behind : List Piece} (standsIn : StandsIn pieces index piece behind) :
    ∃ place < piece.text.length, (textOf pieces)[index]? = piece.text[place]? ∧
      (strippedPieces pieces)[index]? = (piece.stripped behind)[place]? := by
  obtain ⟨front, rfl, starts, ends⟩ := standsIn
  obtain ⟨start, same, length⟩ := exists_strippedPieces_append front (piece :: behind)
  refine ⟨index - (textOf front).length, by omega, ?_, ?_⟩
  · rw [textOf, List.flatMap_append, ← textOf, List.getElem?_append_right starts, List.flatMap_cons,
      List.getElem?_append_left (by omega)]
  · rw [same, List.getElem?_append_right (length ▸ starts), length, strippedPieces,
      List.getElem?_append_left (by rw [piece.length_stripped]; omega)]

end Positions

section States

/-- Where the second pass stands with regard to literals in front of the byte at an index. -/
def quotingAt (text : Bytes) (index : Nat) : Quoting :=
  (text.take index).foldl Quoting.after .outside

/-- Where the first pass stands behind `count` bytes of a text that it reads from a place on. -/
def Place.reach : Place → Bytes → (count : Nat) → Place
  | place, [], _ => place
  | place, _, 0 => place
  | place, byte :: rest, count + 1 => reach (place.read byte rest).2 rest count

/-- Where a place is with regard to literals. -/
def Place.quoting : Place → Quoting
  | text quoting => quoting
  | _ => .outside

/-- A byte takes the second pass behind the first one where it takes the first pass. -/
theorem Place.quoting_read (place : Place) (byte : UInt8) (rest : Bytes) :
    (place.read byte rest).2.quoting =
      place.quoting.after (if (place.read byte rest).1 then blank byte else byte) := by
  have blanked : Quoting.outside.after (blank byte) = .outside := by
    unfold blank
    split
    · next isNewline => rw [isNewline]; rfl
    · rfl
  cases place with
  | text quoting =>
      by_cases isSlash : quoting = .outside ∧ byte = Ascii.slash
      · obtain ⟨rfl, rfl⟩ := isSlash
        rw [Place.read, if_pos ⟨rfl, rfl⟩]
        split
        · rfl
        · split <;> rfl
      · rw [Place.read, if_neg isSlash]
        rfl
  | lineComment =>
      rw [Place.read]
      split
      · next isNewline => rw [isNewline]; rfl
      · exact blanked.symm
  | blockOpening => exact blanked.symm
  | blockComment =>
      rw [Place.read]
      split <;> exact blanked.symm
  | blockClosing => exact blanked.symm

/-- Both passes stand at the same place with regard to literals, byte by byte. -/
theorem Place.quoting_reach (place : Place) (text : Bytes) (count : Nat) :
    (place.reach text count).quoting =
      ((blankCommentsFrom place text).take count).foldl Quoting.after place.quoting := by
  induction text generalizing place count with
  | nil => simp [reach, blankCommentsFrom]
  | cons byte rest ih =>
      cases count with
      | zero => rfl
      | succ count =>
          rw [reach, ih, blankCommentsFrom, List.take_succ_cons, List.foldl_cons, quoting_read]

/-- Outside literals only a quote matters. -/
theorem foldl_after_outside {text : Bytes} (noQuote : Ascii.quote ∉ text) :
    text.foldl Quoting.after .outside = .outside := by
  induction text with
  | nil => rfl
  | cons byte text ih =>
      obtain ⟨notQuote, others⟩ := not_or.mp (List.mem_cons.not.mp noQuote)
      rw [List.foldl_cons, Quoting.after, if_neg (Ne.symm notQuote), ih others]

/-- A literal is left behind its closing quote. -/
theorem foldl_after_literalTail {tail : Bytes} (isTail : StringPiece.LiteralTail tail) :
    tail.foldl Quoting.after .inside = .outside ∧
      ∀ count < tail.length, (tail.take count).foldl Quoting.after .inside ≠ .outside := by
  induction isTail with
  | close =>
      refine ⟨rfl, fun count inside => ?_⟩
      obtain rfl : count = 0 := Nat.lt_one_iff.mp inside
      simp
  | @escape letter rest _ ih =>
      refine ⟨ih.1, fun count inside => ?_⟩
      match count with
      | 0 => simp
      | 1 => exact nofun
      | count + 2 => exact ih.2 count (by simpa using inside)
  | @plain byte rest notQuote notBackslash _ ih =>
      have stays : Quoting.inside.after byte = .inside := by
        simp [Quoting.after, notQuote, notBackslash]
      rw [List.foldl_cons, stays]
      refine ⟨ih.1, fun count inside => ?_⟩
      cases count with
      | zero => simp
      | succ count =>
          rw [List.take_succ_cons, List.foldl_cons, stays]
          exact ih.2 count (by simpa using inside)

/-- A literal that is not closed is never left. -/
theorem foldl_after_unclosedTail {tail : Bytes} (isTail : UnclosedTail tail) (count : Nat) :
    (tail.take count).foldl Quoting.after .inside ≠ .outside := by
  induction isTail generalizing count with
  | nil => simp
  | backslash =>
      cases count with
      | zero => simp
      | succ count => rw [List.take_succ_cons, List.take_nil]; exact nofun
  | escape letter _ ih =>
      match count with
      | 0 => simp
      | 1 => exact nofun
      | count + 2 => exact ih count
  | @plain byte rest notQuote notBackslash _ ih =>
      have stays : Quoting.inside.after byte = .inside := by
        simp [Quoting.after, notQuote, notBackslash]
      cases count with
      | zero => simp
      | succ count =>
          rw [List.take_succ_cons, List.foldl_cons, stays]
          exact ih count

/-- No blanked byte is a quote. -/
theorem quote_not_mem_map_blank (body : Bytes) : Ascii.quote ∉ body.map blank := by
  intro member
  obtain ⟨byte, _, same⟩ := List.mem_map.mp member
  unfold blank at same
  split at same
  · next isNewline => rw [isNewline] at same; contradiction
  · contradiction

/-- The second pass is outside literals behind every piece that is not the last one. -/
theorem Piece.Stands.foldl_blanked {piece : Piece} {rest : Bytes} (stands : piece.Stands rest)
    (more : rest ≠ []) : piece.blanked.foldl Quoting.after .outside = .outside := by
  cases piece with
  | plain byte =>
      cases stands with
      | plain notQuote => simp [blanked, Quoting.after, notQuote]
  | literal =>
      cases stands with
      | closed isTail => exact (foldl_after_literalTail isTail).1
      | unclosed => contradiction
  | comment body => exact foldl_after_outside (quote_not_mem_map_blank body)

/-- Inside a literal the second pass stands behind its opening quote, and in front of its end. -/
theorem foldl_after_literal {literal rest : Bytes} (stands : (Piece.literal literal).Stands rest)
    {place : Nat} (inside : place < literal.length) :
    (literal.take place).foldl Quoting.after .outside ≠ .outside ∨
      (literal.take (place + 1)).foldl Quoting.after .outside ≠ .outside := by
  cases place with
  | zero =>
      cases stands with
      | closed | unclosed => exact Or.inr nofun
  | succ place =>
      cases stands with
      | closed isTail =>
          exact Or.inl ((foldl_after_literalTail isTail).2 place (by simpa using inside))
      | unclosed isTail => exact Or.inl (foldl_after_unclosedTail isTail place)

/-- The second pass is inside a literal in front of a byte or behind it exactly in literals. -/
theorem Piece.Stands.within_iff {piece : Piece} {rest : Bytes} (stands : piece.Stands rest)
    {place : Nat} (inside : place < piece.text.length) :
    ((piece.blanked.take place).foldl Quoting.after .outside ≠ .outside ∨
        (piece.blanked.take (place + 1)).foldl Quoting.after .outside ≠ .outside) ↔
      ∃ literal, piece = .literal literal := by
  have noQuote {text : Bytes} (none : Ascii.quote ∉ text) (count : Nat) :
      (text.take count).foldl Quoting.after .outside = .outside :=
    foldl_after_outside fun member => none (List.mem_of_mem_take member)
  cases piece with
  | plain byte =>
      cases stands with
      | plain notQuote =>
          have none : Ascii.quote ∉ (Piece.plain byte).blanked := by simpa [blanked] using Ne.symm notQuote
          rw [noQuote none, noQuote none]
          simp
  | literal literal => exact iff_of_true (foldl_after_literal stands inside) ⟨literal, rfl⟩
  | comment body =>
      have none : Ascii.quote ∉ (comment body).blanked := quote_not_mem_map_blank body
      rw [noQuote none, noQuote none]
      simp

/-- The second pass is outside literals in front of every piece. -/
theorem Cut.foldl_blanked {front : List Piece} {piece : Piece} {behind : List Piece} {text : Bytes}
    (cut : Cut (front ++ piece :: behind) text) :
    (front.flatMap Piece.blanked).foldl Quoting.after .outside = .outside ∧
      ∃ rest, piece.Stands rest := by
  induction front generalizing text with
  | nil =>
      cases cut with
      | cons stands => exact ⟨rfl, _, stands⟩
  | cons first front ih =>
      cases cut with
      | @cons _ _ rest stands cut =>
          obtain ⟨outside, isPiece⟩ := ih cut
          refine ⟨?_, isPiece⟩
          have more : rest ≠ [] := by
            obtain ⟨_, isPiece⟩ := isPiece
            have parts : rest = textOf (front ++ piece :: behind) := cut.text_eq
            rw [parts, textOf, List.flatMap_append, List.flatMap_cons]
            simp [isPiece.text_ne_nil]
          rw [List.flatMap_cons, List.foldl_append, stands.foldl_blanked more, outside]

theorem Piece.length_blanked (piece : Piece) : piece.blanked.length = piece.text.length := by
  cases piece with
  | plain | literal => rfl
  | comment => exact List.length_map _

theorem length_flatMap_blanked (pieces : List Piece) :
    (pieces.flatMap Piece.blanked).length = (textOf pieces).length := by
  induction pieces with
  | nil => rfl
  | cons piece pieces ih =>
      rw [List.flatMap_cons, List.length_append, piece.length_blanked, ih, textOf, textOf,
        List.flatMap_cons, List.length_append]

/-- Where the second pass stands depends only on the piece, since it is outside literals in front of
it. -/
theorem Cut.quotingAt_add {front behind : List Piece} {piece : Piece} {text : Bytes}
    (cut : Cut (front ++ piece :: behind) text) {place : Nat} (inside : place ≤ piece.text.length) :
    quotingAt (Jsonc.blankComments text) ((textOf front).length + place) =
      (piece.blanked.take place).foldl Quoting.after .outside := by
  rw [← piece.length_blanked] at inside
  rw [quotingAt, cut.blankComments, List.flatMap_append, List.flatMap_cons,
    ← length_flatMap_blanked, List.take_length_add_append, List.foldl_append, cut.foldl_blanked.1,
    List.take_append_of_le_length inside]

/-- In a piece the second pass is inside a literal in front of a byte or behind it exactly if the piece
is a literal. -/
theorem Cut.quotingAt_iff {pieces behind : List Piece} {piece : Piece} {text : Bytes}
    (cut : Cut pieces text) {index : Nat} (standsIn : StandsIn pieces index piece behind) :
    (quotingAt (Jsonc.blankComments text) index ≠ .outside ∨
        quotingAt (Jsonc.blankComments text) (index + 1) ≠ .outside) ↔
      ∃ literal, piece = .literal literal := by
  obtain ⟨front, rfl, starts, ends⟩ := standsIn
  obtain ⟨place, rfl⟩ := Nat.exists_eq_add_of_le starts
  have inside : place < piece.text.length := by omega
  obtain ⟨_, rest, stands⟩ := cut.foldl_blanked
  rw [Nat.add_assoc, cut.quotingAt_add (Nat.le_of_lt inside), cut.quotingAt_add inside]
  exact stands.within_iff inside

/-- Exactly in the literals of a text the second pass is inside a literal in front of a byte or behind
it. -/
theorem Cut.inLiteral_iff {pieces : List Piece} {text : Bytes} (cut : Cut pieces text) {index : Nat}
    (inside : index < text.length) :
    InLiteral pieces index ↔ quotingAt (Jsonc.blankComments text) index ≠ .outside ∨
      quotingAt (Jsonc.blankComments text) (index + 1) ≠ .outside := by
  constructor
  · rintro ⟨literal, behind, standsIn⟩
    exact (cut.quotingAt_iff standsIn).mpr ⟨literal, rfl⟩
  · intro within
    rw [cut.text_eq] at inside
    obtain ⟨piece, behind, standsIn⟩ := exists_standsIn inside
    obtain ⟨literal, rfl⟩ := (cut.quotingAt_iff standsIn).mp within
    exact ⟨literal, behind, standsIn⟩

end States

section Main

/-- What may tell a stripped text from the text with the given pieces. -/
structure TouchesOnly (pieces : List Piece) (text stripped : Bytes) : Prop where
  length : stripped.length = text.length
  newline : ∀ index : Nat,
    text[index]? = some Ascii.newline → stripped[index]? = some Ascii.newline
  changed : ∀ index : Nat, stripped[index]? ≠ text[index]? →
    stripped[index]? = some Ascii.space ∧ (InComment pieces index ∨ IsTrailingComma pieces index)
  comment : ∀ index, InComment pieces index → stripped[index]? = text[index]?.map blank
  comma : ∀ index, IsTrailingComma pieces index → stripped[index]? = some Ascii.space
  literal : ∀ index, InLiteral pieces index → stripped[index]? = text[index]?

/-- Whether both passes find the literals of a text with the given pieces: the second one, which reads
what the first one leaves, stands where the first one stands, and exactly at the bytes of literals a
literal is entered, gone on with or left. -/
structure FindsLiterals (pieces : List Piece) (text : Bytes) : Prop where
  sameState : ∀ index, ((Place.text .outside).reach text index).quoting =
    quotingAt (blankComments text) index
  inLiteral : ∀ index < text.length, InLiteral pieces index ↔
    quotingAt (blankComments text) index ≠ .outside ∨
      quotingAt (blankComments text) (index + 1) ≠ .outside

variable {pieces : List Piece} {text : Bytes} {index : Nat}

/-- Literals stay. -/
theorem Cut.getElem?_literal (cut : Cut pieces text) (inLiteral : InLiteral pieces index) :
    (Jsonc.strip text)[index]? = text[index]? := by
  obtain ⟨literal, behind, standsIn⟩ := inLiteral
  obtain ⟨place, _, original, stripped⟩ := standsIn.exists_place
  rw [cut.strip, stripped, cut.text_eq, original]
  rfl

/-- Comments are blanked. -/
theorem Cut.getElem?_comment (cut : Cut pieces text) (inComment : InComment pieces index) :
    (Jsonc.strip text)[index]? = text[index]?.map blank := by
  obtain ⟨comment, behind, standsIn⟩ := inComment
  obtain ⟨place, _, original, stripped⟩ := standsIn.exists_place
  rw [cut.strip, stripped, cut.text_eq, original]
  exact List.getElem?_map

/-- A byte outside literals and comments stays, unless it is a trailing comma. -/
theorem Cut.getElem?_plain (cut : Cut pieces text) {byte : UInt8} {behind : List Piece}
    (standsIn : StandsIn pieces index (.plain byte) behind) :
    text[index]? = some byte ∧ (Jsonc.strip text)[index]? =
      some (if byte = Ascii.comma ∧ closesBehind behind then Ascii.space else byte) := by
  obtain ⟨place, inside, original, stripped⟩ := standsIn.exists_place
  obtain rfl : place = 0 := Nat.lt_one_iff.mp inside
  rw [cut.strip, stripped, cut.text_eq, original]
  exact ⟨rfl, rfl⟩

/-- A byte that stripping changes becomes a space. -/
theorem blank_eq_space {byte : UInt8} (changes : blank byte ≠ byte) : blank byte = Ascii.space := by
  unfold blank at changes ⊢
  split
  · next isNewline => simp [isNewline] at changes
  · rfl

/-- What stripping changes is a comment or a trailing comma. -/
theorem Cut.changed (cut : Cut pieces text)
    (changes : (Jsonc.strip text)[index]? ≠ text[index]?) :
    (Jsonc.strip text)[index]? = some Ascii.space ∧
      (InComment pieces index ∨ IsTrailingComma pieces index) := by
  have inside : index < text.length := by
    by_contra outside
    have ends : text.length ≤ index := Nat.not_lt.mp outside
    rw [List.getElem?_eq_none ends, List.getElem?_eq_none (length_strip text ▸ ends)] at changes
    contradiction
  obtain ⟨piece, behind, standsIn⟩ := exists_standsIn (cut.text_eq ▸ inside)
  cases piece with
  | literal => exact absurd (cut.getElem?_literal ⟨_, _, standsIn⟩) changes
  | comment =>
      have blanked := cut.getElem?_comment ⟨_, _, standsIn⟩
      rw [blanked, List.getElem?_eq_getElem inside, Option.map_some] at changes
      rw [blanked, List.getElem?_eq_getElem inside, Option.map_some,
        blank_eq_space fun same => changes (congrArg some same)]
      exact ⟨rfl, Or.inl ⟨_, _, standsIn⟩⟩
  | plain byte =>
      obtain ⟨original, stripped⟩ := cut.getElem?_plain standsIn
      by_cases trailing : byte = Ascii.comma ∧ closesBehind behind = true
      · rw [if_pos trailing] at stripped
        obtain ⟨rfl, closes⟩ := trailing
        exact ⟨stripped, Or.inr ⟨behind, standsIn, closes⟩⟩
      · rw [if_neg trailing, ← original] at stripped
        contradiction

/-- A trailing comma becomes a space. -/
theorem Cut.getElem?_comma (cut : Cut pieces text) (trailing : IsTrailingComma pieces index) :
    text[index]? = some Ascii.comma ∧ (Jsonc.strip text)[index]? = some Ascii.space := by
  obtain ⟨behind, standsIn, closes⟩ := trailing
  have plain := cut.getElem?_plain standsIn
  rwa [if_pos ⟨rfl, closes⟩] at plain

/-- Line feeds stay. -/
theorem Cut.getElem?_newline (cut : Cut pieces text) (found : text[index]? = some Ascii.newline) :
    (Jsonc.strip text)[index]? = some Ascii.newline := by
  by_cases same : (Jsonc.strip text)[index]? = text[index]?
  · rw [same, found]
  · rcases (cut.changed same).2 with inComment | trailing
    · rw [cut.getElem?_comment inComment, found]
      rfl
    · rw [(cut.getElem?_comma trailing).1] at found
      contradiction

/-- Stripping changes nothing but comments and trailing commas. -/
theorem Cut.touchesOnly (cut : Cut pieces text) : TouchesOnly pieces text (Jsonc.strip text) where
  length := length_strip text
  newline _ := cut.getElem?_newline
  changed _ := cut.changed
  comment _ := cut.getElem?_comment
  comma _ trailing := (cut.getElem?_comma trailing).2
  literal _ := cut.getElem?_literal

/-- Every text is cut into literals, comments and other bytes, and however it is cut, stripping keeps
all bytes but those of comments and the commas behind which an array or an object closes, and both
passes find the same literals. -/
theorem strip_touches_only_comments_and_trailing_commas (text : Bytes) :
    (∃ pieces, Cut pieces text) ∧ ∀ pieces, Cut pieces text →
      TouchesOnly pieces text (strip text) ∧ FindsLiterals pieces text := by
  refine ⟨exists_cut text, fun pieces cut => ⟨cut.touchesOnly, ?_, ?_⟩⟩
  · exact (Place.text .outside).quoting_reach text
  · exact fun index inside => cut.inLiteral_iff inside

/-- Comment marks in a literal and quotes in comments count for nothing, also if the text ends in a
comment. -/
theorem strip_touches_only_comments_and_trailing_commas_quoted :
    ∃ pieces, Cut pieces "[\"/*\",//\"\n ]/*\"" ∧ InLiteral pieces 2 ∧ IsTrailingComma pieces 5 ∧
      InComment pieces 8 ∧ TouchesOnly pieces "[\"/*\",//\"\n ]/*\"" "[\"/*\"    \n ]   " ∧
      FindsLiterals pieces "[\"/*\",//\"\n ]/*\"" := by
  let literal : Piece := .literal "\"/*\""
  let behind : List Piece := [.comment "//\"", .plain Ascii.newline, .plain Ascii.space,
    .plain Ascii.closeBracket, .comment "/*\""]
  let pieces : List Piece := .plain Ascii.openBracket :: literal :: .plain Ascii.comma :: behind
  have cut : Cut pieces "[\"/*\",//\"\n ]/*\"" :=
    .cons (.plain (by decide) (by decide)) <|
    .cons (.closed (.plain (by decide) (by decide) (.plain (by decide) (by decide) .close))) <|
    .cons (.plain (by decide) (by decide)) <|
    .cons (@Piece.Stands.line "\"" _ (by decide) fun _ isHead => (Option.some.inj isHead).symm) <|
    .cons (.plain (by decide) (by decide)) <|
    .cons (.plain (by decide) (by decide)) <|
    .cons (.plain (by decide) (by decide)) <|
    .cons (@Piece.Stands.openBlock "\"" (by decide)) .nil
  have stripped : strip "[\"/*\",//\"\n ]/*\"" = "[\"/*\"    \n ]   " := by decide
  obtain ⟨_, all⟩ := strip_touches_only_comments_and_trailing_commas "[\"/*\",//\"\n ]/*\""
  obtain ⟨touches, finds⟩ := all pieces cut
  rw [stripped] at touches
  refine ⟨pieces, cut, ⟨_, _, [.plain Ascii.openBracket], rfl, by decide, by decide⟩,
    ⟨behind, ⟨[.plain Ascii.openBracket, literal], rfl, by decide, by decide⟩, rfl⟩,
    ⟨_, _, [.plain Ascii.openBracket, literal, .plain Ascii.comma], rfl, by decide, by decide⟩,
    touches, finds⟩

end Main

end FormatServer.Jsonc
