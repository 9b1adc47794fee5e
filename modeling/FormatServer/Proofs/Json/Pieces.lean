import FormatServer.Proofs.Json.Comments

namespace FormatServer.Jsonc

open Lexeme

/-- A piece of a text with comments. A literal that is not closed goes on to the end of the text,
and a comment stops in front of the line feed behind it. -/
inductive Piece where
  | plain (byte : UInt8)
  | literal (text : Bytes)
  | comment (text : Bytes)

/-- What stands behind the opening quote of a literal that is not closed. -/
inductive UnclosedTail : Bytes → Prop where
  | nil : UnclosedTail []
  | backslash : UnclosedTail [Ascii.backslash]
  | escape (letter : UInt8) {rest : Bytes} (tail : UnclosedTail rest) :
      UnclosedTail (Ascii.backslash :: letter :: rest)
  | plain {byte : UInt8} {rest : Bytes} (notQuote : byte ≠ Ascii.quote)
      (notBackslash : byte ≠ Ascii.backslash) (tail : UnclosedTail rest) :
      UnclosedTail (byte :: rest)

namespace Piece

/-- The bytes of a piece. -/
def text : Piece → Bytes
  | plain byte => [byte]
  | literal text => text
  | comment text => text

/-- Whether a piece stands in front of the rest of a text: a literal ends with its first closing quote,
a line comment in front of the next line feed, a block comment with its first closing mark, and what
is not closed with the text. -/
inductive Stands : Piece → (rest : Bytes) → Prop where
  | plain {byte : UInt8} {rest : Bytes} (notQuote : byte ≠ Ascii.quote)
      (noComment : byte = Ascii.slash →
        rest.head? ≠ some Ascii.slash ∧ rest.head? ≠ some Ascii.star) : Stands (plain byte) rest
  | closed {tail rest : Bytes} (isTail : StringPiece.LiteralTail tail) :
      Stands (literal (Ascii.quote :: tail)) rest
  | unclosed {tail : Bytes} (isTail : UnclosedTail tail) : Stands (literal (Ascii.quote :: tail)) []
  | line {body rest : Bytes} (sameLine : Ascii.newline ∉ body)
      (ends : ∀ byte ∈ rest.head?, byte = Ascii.newline) :
      Stands (comment (Ascii.slash :: Ascii.slash :: body)) rest
  | block {body rest : Bytes} (open_ : ¬[Ascii.star, Ascii.slash] <:+: body) :
      Stands (comment (Ascii.slash :: Ascii.star :: (body ++ [Ascii.star, Ascii.slash]))) rest
  | openBlock {body : Bytes} (open_ : ¬[Ascii.star, Ascii.slash] <:+: body) :
      Stands (comment (Ascii.slash :: Ascii.star :: body)) []

end Piece

/-- How a text is cut into pieces. -/
inductive Cut : List Piece → Bytes → Prop where
  | nil : Cut [] []
  | cons {piece : Piece} {pieces : List Piece} {rest : Bytes} (stands : piece.Stands rest)
      (behind : Cut pieces rest) : Cut (piece :: pieces) (piece.text ++ rest)

section Existence

/-- Behind an opening quote a literal is closed somewhere, or nowhere. -/
theorem exists_literalTail : (text : Bytes) →
    (∃ tail rest, text = tail ++ rest ∧ StringPiece.LiteralTail tail) ∨ UnclosedTail text
  | [] => Or.inr .nil
  | byte :: rest => by
      by_cases isQuote : byte = Ascii.quote
      · exact Or.inl ⟨[byte], rest, rfl, isQuote ▸ .close⟩
      · by_cases isBackslash : byte = Ascii.backslash
        · subst isBackslash
          cases rest with
          | nil => exact Or.inr .backslash
          | cons letter rest =>
              rcases exists_literalTail rest with ⟨tail, behind, rfl, isTail⟩ | isTail
              · exact Or.inl ⟨_, behind, rfl, .escape letter isTail⟩
              · exact Or.inr (.escape letter isTail)
        · rcases exists_literalTail rest with ⟨tail, behind, rfl, isTail⟩ | isTail
          · exact Or.inl ⟨byte :: tail, behind, rfl, .plain isQuote isBackslash isTail⟩
          · exact Or.inr (.plain isQuote isBackslash isTail)

/-- A block comment is closed somewhere, or nowhere. -/
theorem exists_blockBody (text : Bytes) :
    (∃ body rest, text = body ++ Ascii.star :: Ascii.slash :: rest ∧
      ¬[Ascii.star, Ascii.slash] <:+: body) ∨ ¬[Ascii.star, Ascii.slash] <:+: text := by
  induction text with
  | nil => exact Or.inr (by simp)
  | cons byte text ih =>
      by_cases closes : [Ascii.star, Ascii.slash] <+: byte :: text
      · obtain ⟨rest, same⟩ := closes
        exact Or.inl ⟨[], rest, same.symm, by simp⟩
      · rcases ih with ⟨body, rest, rfl, open_⟩ | open_
        · refine Or.inl ⟨byte :: body, rest, rfl, ?_⟩
          rw [List.infix_cons_iff]
          rintro (atStart | inside)
          · exact closes (atStart.trans (List.prefix_append (byte :: body) _))
          · exact open_ inside
        · rw [List.infix_cons_iff]
          exact Or.inr (by simp [closes, open_])

/-- A literal stands where a quote does. -/
theorem exists_literal (text : Bytes) : ∃ literal rest,
    Ascii.quote :: text = literal ++ rest ∧ (Piece.literal literal).Stands rest := by
  rcases exists_literalTail text with ⟨tail, rest, rfl, isTail⟩ | isTail
  · exact ⟨Ascii.quote :: tail, rest, rfl, .closed isTail⟩
  · exact ⟨Ascii.quote :: text, [], (List.append_nil _).symm, .unclosed isTail⟩

/-- A line comment stands where two slashes do. -/
theorem exists_lineComment (text : Bytes) : ∃ comment rest,
    Ascii.slash :: Ascii.slash :: text = comment ++ rest ∧
      (Piece.comment comment).Stands rest := by
  have sameLine : Ascii.newline ∉ text.takeWhile (· ≠ Ascii.newline) :=
    fun member => by simpa using List.mem_takeWhile_imp member
  refine ⟨_, text.dropWhile (· ≠ Ascii.newline), ?_, .line sameLine fun byte isHead => ?_⟩
  · simp [List.takeWhile_append_dropWhile]
  · have stops := List.head?_dropWhile_not (· ≠ Ascii.newline) text
    rw [Option.mem_def.mp isHead] at stops
    simpa using stops

/-- A block comment stands where a slash and a star do. -/
theorem exists_blockComment (text : Bytes) : ∃ comment rest,
    Ascii.slash :: Ascii.star :: text = comment ++ rest ∧
      (Piece.comment comment).Stands rest := by
  rcases exists_blockBody text with ⟨body, rest, rfl, open_⟩ | open_
  · exact ⟨_, rest, by simp, .block open_⟩
  · exact ⟨_, [], (List.append_nil _).symm, .openBlock open_⟩

/-- Some piece stands at the start of a text. -/
theorem exists_stands (byte : UInt8) (text : Bytes) :
    ∃ piece rest, byte :: text = Piece.text piece ++ rest ∧ piece.Stands rest := by
  by_cases isQuote : byte = Ascii.quote
  · subst isQuote
    obtain ⟨literal, rest, same, stands⟩ := exists_literal text
    exact ⟨.literal literal, rest, same, stands⟩
  · by_cases opens : byte = Ascii.slash ∧
        (text.head? = some Ascii.slash ∨ text.head? = some Ascii.star)
    · obtain ⟨rfl, isLine | isBlock⟩ := opens
      · obtain ⟨text, rfl⟩ := List.head?_eq_some_iff.mp isLine
        obtain ⟨comment, rest, same, stands⟩ := exists_lineComment text
        exact ⟨.comment comment, rest, same, stands⟩
      · obtain ⟨text, rfl⟩ := List.head?_eq_some_iff.mp isBlock
        obtain ⟨comment, rest, same, stands⟩ := exists_blockComment text
        exact ⟨.comment comment, rest, same, stands⟩
    · exact ⟨.plain byte, text, rfl, .plain isQuote fun isSlash =>
        not_or.mp fun either => opens ⟨isSlash, either⟩⟩

theorem Piece.Stands.text_ne_nil {piece : Piece} {rest : Bytes} (stands : piece.Stands rest) :
    piece.text ≠ [] := by
  cases stands <;> simp [text]

/-- Every text is cut into pieces. -/
theorem exists_cut (text : Bytes) : ∃ pieces, Cut pieces text := by
  induction size : text.length using Nat.strongRecOn generalizing text with
  | ind size ih =>
      cases text with
      | nil => exact ⟨[], .nil⟩
      | cons byte text =>
          obtain ⟨piece, rest, same, stands⟩ := exists_stands byte text
          have some := List.length_pos_iff.mpr stands.text_ne_nil
          have lengths := congrArg List.length same
          rw [List.length_append] at lengths
          obtain ⟨pieces, cut⟩ := ih rest.length (by omega) rest rfl
          exact ⟨piece :: pieces, same ▸ .cons stands cut⟩

end Existence

section Passes

/-- The bytes of a piece behind the first pass. -/
def Piece.blanked : Piece → Bytes
  | plain byte => [byte]
  | literal text => text
  | comment text => text.map blank

/-- Whether the next byte behind blanks and comments closes an array or an object. -/
def closesBehind : List Piece → Bool
  | [] => false
  | .comment _ :: others => closesBehind others
  | .plain byte :: others =>
    if Ascii.isSpace byte then closesBehind others
    else byte == Ascii.closeBrace || byte == Ascii.closeBracket
  | .literal _ :: _ => false

/-- The bytes of a piece behind both passes. -/
def Piece.stripped (piece : Piece) (behind : List Piece) : Bytes :=
  match piece with
  | plain byte => [if byte = Ascii.comma ∧ closesBehind behind then Ascii.space else byte]
  | literal text => text
  | comment text => text.map blank

/-- The bytes of pieces behind both passes. -/
def strippedPieces : List Piece → Bytes
  | [] => []
  | piece :: behind => piece.stripped behind ++ strippedPieces behind

/-- A reader that follows literals byte by byte gets to the end of the text in one that is not
closed. -/
theorem UnclosedTail.foldr {α : Type} (read : Quoting → Bytes → α) (emit : UInt8 → α → α)
    (within : ∀ quoting, quoting ≠ .outside → ∀ byte rest,
      read quoting (byte :: rest) = emit byte (read (quoting.after byte) rest))
    {tail : Bytes} (isTail : UnclosedTail tail) :
    ∃ quoting, quoting ≠ .outside ∧ read .inside tail = tail.foldr emit (read quoting []) := by
  induction isTail with
  | nil => exact ⟨.inside, by simp, rfl⟩
  | backslash => exact ⟨.escaped, by simp, within .inside (by simp) Ascii.backslash []⟩
  | @escape letter rest _ ih =>
      obtain ⟨quoting, isWithin, same⟩ := ih
      refine ⟨quoting, isWithin, ?_⟩
      have escaped : Quoting.inside.after Ascii.backslash = .escaped := rfl
      rw [within .inside (by simp), escaped, within .escaped (by simp), Quoting.after, same,
        List.foldr_cons, List.foldr_cons]
  | @plain byte rest notQuote notBackslash _ ih =>
      obtain ⟨quoting, isWithin, same⟩ := ih
      refine ⟨quoting, isWithin, ?_⟩
      have inside : Quoting.inside.after byte = .inside := by
        simp [Quoting.after, notQuote, notBackslash]
      rw [within .inside (by simp), inside, same, List.foldr_cons]

/-- A reader that follows literals byte by byte passes a literal over. -/
theorem Piece.Stands.foldr {α : Type} (read : Quoting → Bytes → α) (emit : UInt8 → α → α)
    (within : ∀ quoting, quoting ≠ .outside → ∀ byte rest,
      read quoting (byte :: rest) = emit byte (read (quoting.after byte) rest))
    (opens : ∀ rest, read .outside (Ascii.quote :: rest) = emit Ascii.quote (read .inside rest))
    (ends : ∀ quoting, read quoting [] = read .outside [])
    {literal rest : Bytes} (stands : (Piece.literal literal).Stands rest) :
    read .outside (literal ++ rest) = literal.foldr emit (read .outside rest) := by
  cases stands with
  | closed isTail =>
      rw [List.cons_append, opens, isTail.foldr read emit within, List.foldr_cons]
  | unclosed isTail =>
      obtain ⟨quoting, _, same⟩ := isTail.foldr read emit within
      rw [List.append_nil, opens, same, ends, List.foldr_cons]

/-- The first pass leaves literals. -/
theorem blankComments_literal {literal rest : Bytes}
    (stands : (Piece.literal literal).Stands rest) :
    blankComments (literal ++ rest) = literal ++ blankComments rest := by
  refine Eq.trans ?_ List.foldr_cons_eq_append'
  apply stands.foldr (fun quoting => blankCommentsFrom (.text quoting)) List.cons
  · intro quoting within byte rest
    simp [blankCommentsFrom, Place.read, within]
  · exact fun rest => rfl
  · exact fun quoting => rfl

/-- A block comment that is not closed is blanked to the end. -/
theorem blankCommentsFrom_openBlockComment {body : Bytes}
    (open_ : ¬[Ascii.star, Ascii.slash] <:+: body) :
    blankCommentsFrom .blockComment body = body.map blank := by
  induction body with
  | nil => rfl
  | cons byte body ih =>
      have others : ¬[Ascii.star, Ascii.slash] <:+: body :=
        fun inside => open_ (inside.trans (List.suffix_cons byte body).isInfix)
      have goesOn : ¬(byte = Ascii.star ∧ body.head? = some Ascii.slash) := by
        rintro ⟨rfl, isSlash⟩
        obtain ⟨body, rfl⟩ := List.head?_eq_some_iff.mp isSlash
        exact open_ ⟨[], body, rfl⟩
      rw [blankCommentsFrom, Place.read, if_neg goesOn]
      simp [ih others]

/-- The first pass blanks comments. -/
theorem blankComments_comment {comment rest : Bytes}
    (stands : (Piece.comment comment).Stands rest) :
    blankComments (comment ++ rest) = comment.map blank ++ blankComments rest := by
  cases stands with
  | @line body _ sameLine ends =>
      cases rest with
      | nil =>
          rw [List.append_nil, blankComments, blankCommentsFrom_openLine,
            blankCommentsFrom_lastLine sameLine]
          exact (List.append_nil _).symm
      | cons byte rest =>
          obtain rfl := ends byte rfl
          rw [List.cons_append, List.cons_append, blankComments, blankCommentsFrom_openLine,
            blankCommentsFrom_lineComment sameLine]
          rfl
  | @block body _ open_ =>
      rw [List.cons_append, List.cons_append, List.append_assoc, blankComments,
        blankCommentsFrom_openBlock, List.cons_append, List.singleton_append,
        blankCommentsFrom_blockComment open_]
      have slash : blank Ascii.slash = Ascii.space := rfl
      have star : blank Ascii.star = Ascii.space := rfl
      simp [blankComments, slash, star]
  | openBlock open_ =>
      rw [List.append_nil, blankComments, blankCommentsFrom_openBlock,
        blankCommentsFrom_openBlockComment open_]
      exact (List.append_nil _).symm

/-- The first pass goes from piece to piece. -/
theorem Piece.Stands.blankComments {piece : Piece} {rest : Bytes} (stands : piece.Stands rest) :
    blankComments (piece.text ++ rest) = piece.blanked ++ blankComments rest := by
  cases piece with
  | literal => exact blankComments_literal stands
  | comment => exact blankComments_comment stands
  | plain byte =>
      cases stands with
      | plain notQuote noComment =>
      by_cases isSlash : byte = Ascii.slash
      · obtain ⟨noLine, noBlock⟩ := noComment isSlash
        simp [text, blanked, Jsonc.blankComments, blankCommentsFrom, Place.read, isSlash, noLine,
          noBlock]
      · exact blankCommentsFrom_cons notQuote isSlash rest

/-- The text behind the first pass, piece by piece. -/
theorem Cut.blankComments {pieces : List Piece} {text : Bytes} (cut : Cut pieces text) :
    blankComments text = pieces.flatMap Piece.blanked := by
  induction cut with
  | nil => rfl
  | cons stands _ ih => rw [stands.blankComments, ih, List.flatMap_cons]

/-- Whether a closing mark is next is seen behind the first pass. -/
theorem Cut.closesNext {pieces : List Piece} {text : Bytes} (cut : Cut pieces text) :
    closesNext (Jsonc.blankComments text) = closesBehind pieces := by
  induction cut with
  | nil => rfl
  | @cons piece pieces rest stands _ ih =>
      rw [stands.blankComments]
      cases piece with
      | literal =>
          cases stands with
          | closed | unclosed => rfl
      | comment body =>
          rw [closesBehind, ← ih, Jsonc.closesNext, Piece.blanked,
            List.dropWhile_append_of_pos (isBlank_map_blank body).isSpace]
          rfl
      | plain byte =>
          rw [closesBehind, ← ih, Piece.blanked, List.singleton_append]
          by_cases isSpace : Ascii.isSpace byte = true
          · rw [if_pos isSpace, Jsonc.closesNext, List.dropWhile_cons_of_pos isSpace, Jsonc.closesNext]
          · rw [if_neg isSpace, Jsonc.closesNext, List.dropWhile_cons_of_neg isSpace]

/-- The second pass leaves literals. -/
theorem blankTrailingCommas_literal {literal rest : Bytes}
    (stands : (Piece.literal literal).Stands rest) :
    blankTrailingCommas (literal ++ rest) = literal ++ blankTrailingCommas rest := by
  refine Eq.trans ?_ List.foldr_cons_eq_append'
  apply stands.foldr blankTrailingCommasFrom List.cons
  · intro quoting within byte rest
    simp [blankTrailingCommasFrom, within]
  · exact fun rest => rfl
  · exact fun quoting => rfl

/-- The first pass leaves open literals open. -/
theorem Piece.Stands.literal_blankComments {literal rest : Bytes}
    (stands : (Piece.literal literal).Stands rest) :
    (Piece.literal literal).Stands (Jsonc.blankComments rest) := by
  cases stands with
  | closed isTail => exact .closed isTail
  | unclosed isTail => exact .unclosed isTail

/-- The text behind both passes, piece by piece. -/
theorem Cut.strip {pieces : List Piece} {text : Bytes} (cut : Cut pieces text) :
    strip text = strippedPieces pieces := by
  induction cut with
  | nil => rfl
  | @cons piece pieces rest stands behind ih =>
      rw [Jsonc.strip] at ih
      rw [Jsonc.strip, stands.blankComments, strippedPieces, ← ih]
      cases piece with
      | literal => exact blankTrailingCommas_literal stands.literal_blankComments
      | comment body => exact blankTrailingCommasFrom_append (isBlank_map_blank body) _
      | plain byte =>
          cases stands with
          | plain notQuote =>
          by_cases isComma : byte = Ascii.comma
          · subst isComma
            rw [Piece.stripped, ← behind.closesNext]
            refine (blankTrailingCommasFrom_comma (Jsonc.blankComments rest)).trans ?_
            simp [blankTrailingCommas]
          · rw [Piece.stripped, if_neg (by simp [isComma])]
            exact blankTrailingCommasFrom_cons notQuote isComma _

end Passes

end FormatServer.Jsonc
