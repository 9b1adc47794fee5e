import FormatServer.Json.Parser
import Mathlib.Data.List.Chain

namespace FormatServer

namespace Token

/-- Whether a token closes an array or an object. -/
def closes (token : Token) : Bool :=
  token == closeBracket || token == closeBrace

/-- Whether a token opens an array or an object. -/
def opens (token : Token) : Bool :=
  token == openBracket || token == openBrace

/-- Whether the grammar lets a token stand before another, as far as blanks and commas depend on it:
a number ends before a comma or a closing mark, and no comma stands before a closing mark. -/
def mayPrecede (first next : Token) : Bool :=
  match first with
  | number _ => next == comma || next.closes
  | comma => !next.closes
  | _ => true

/-- What ends a phrase may stand before a comma and before a closing mark. -/
theorem mayPrecede_end {last next : Token} (notComma : last ≠ comma)
    (ends : next = comma ∨ next.closes = true) : last.mayPrecede next = true := by
  cases last with
  | comma => contradiction
  | number value =>
      rcases ends with rfl | closes
      · rfl
      · simp [mayPrecede, closes]
  | _ => rfl

end Token

namespace Json

/-- What a run of tokens can stand for: a value, or what stands between the brackets of an array or
the braces of an object, where it is not empty. The members are those that are written. -/
inductive Phrase where
  | value (value : Json)
  | elements (elements : List Json)
  | members (members : List (Bytes × Json))

/-- The grammar of JSON: which tokens spell a phrase. -/
inductive Derives : Phrase → List Token → Prop where
  | null : Derives (.value null) [.null]
  | bool (value : Bool) : Derives (.value (bool value)) [.bool value]
  | number (value : JsonNumber) : Derives (.value (number value)) [.number value]
  | string (text : Bytes) : Derives (.value (string text)) [.string text]
  | emptyArray : Derives (.value (array [])) [.openBracket, .closeBracket]
  | array {elements : List Json} {tokens : List Token} (inside : Derives (.elements elements) tokens) :
      Derives (.value (array elements)) (.openBracket :: (tokens ++ [.closeBracket]))
  | emptyObject : Derives (.value (object [])) [.openBrace, .closeBrace]
  | object {members : List (Bytes × Json)} {tokens : List Token}
      (inside : Derives (.members members) tokens) :
      Derives (.value (object (JsonObject.ofMembers members)))
        (.openBrace :: (tokens ++ [.closeBrace]))
  | element {value : Json} {tokens : List Token} (only : Derives (.value value) tokens) :
      Derives (.elements [value]) tokens
  | elements {value : Json} {values : List Json} {first rest : List Token}
      (head : Derives (.value value) first) (tail : Derives (.elements values) rest) :
      Derives (.elements (value :: values)) (first ++ .comma :: rest)
  | member (key : Bytes) {value : Json} {tokens : List Token} (only : Derives (.value value) tokens) :
      Derives (.members [(key, value)]) (.string key :: .colon :: tokens)
  | members (key : Bytes) {value : Json} {members : List (Bytes × Json)} {first rest : List Token}
      (head : Derives (.value value) first) (tail : Derives (.members members) rest) :
      Derives (.members ((key, value) :: members))
        (.string key :: .colon :: (first ++ .comma :: rest))

/-- Whether the grammar derives the values that are read within a bound. -/
def DerivesValues (bound : Nat) : Prop :=
  ∀ tokens value rest, readValue? bound tokens = some (value, rest) →
    ∃ front, tokens = front ++ rest ∧ Derives (.value value) front

/-- Whether the grammar derives the elements that are read within a bound. -/
def DerivesElements (bound : Nat) : Prop :=
  ∀ tokens values rest, readElements? bound tokens = some (values, rest) →
    ∃ front, tokens = front ++ .closeBracket :: rest ∧ Derives (.elements values) front

/-- Whether the grammar derives the members that are read within a bound. -/
def DerivesMembers (bound : Nat) : Prop :=
  ∀ tokens members rest, readMembers? bound tokens = some (members, rest) →
    ∃ front, tokens = front ++ .closeBrace :: rest ∧ Derives (.members members) front

/-- A value is derived if the elements or members in it are. -/
theorem derivesValues_succ {bound : Nat} (readsElements : DerivesElements bound)
    (readsMembers : DerivesMembers bound) : DerivesValues (bound + 1) := by
  intro tokens value rest found
  unfold readValue? at found
  split at found
  · obtain ⟨rfl, rfl⟩ := found
    exact ⟨[.null], rfl, .null⟩
  · obtain ⟨rfl, rfl⟩ := found
    exact ⟨[.bool _], rfl, .bool _⟩
  · obtain ⟨rfl, rfl⟩ := found
    exact ⟨[.number _], rfl, .number _⟩
  · obtain ⟨rfl, rfl⟩ := found
    exact ⟨[.string _], rfl, .string _⟩
  · obtain ⟨rfl, rfl⟩ := found
    exact ⟨[.openBracket, .closeBracket], rfl, .emptyArray⟩
  · simp only [Option.map_eq_some_iff, Prod.mk.injEq, Prod.exists] at found
    obtain ⟨elements, after, inside, rfl, rfl⟩ := found
    obtain ⟨front, rfl, derived⟩ := readsElements _ _ _ inside
    exact ⟨.openBracket :: (front ++ [.closeBracket]), by simp, .array derived⟩
  · obtain ⟨rfl, rfl⟩ := found
    exact ⟨[.openBrace, .closeBrace], rfl, .emptyObject⟩
  · simp only [Option.map_eq_some_iff, Prod.mk.injEq, Prod.exists] at found
    obtain ⟨members, after, inside, rfl, rfl⟩ := found
    obtain ⟨front, rfl, derived⟩ := readsMembers _ _ _ inside
    exact ⟨.openBrace :: (front ++ [.closeBrace]), by simp, .object derived⟩
  · contradiction

/-- Elements are derived if the first value and the elements behind it are. -/
theorem derivesElements_succ {bound : Nat} (readsValue : DerivesValues bound)
    (readsElements : DerivesElements bound) : DerivesElements (bound + 1) := by
  intro tokens values rest found
  unfold readElements? at found
  split at found
  · next value after head =>
    obtain ⟨rfl, rfl⟩ := found
    obtain ⟨front, rfl, derived⟩ := readsValue _ _ _ head
    exact ⟨front, rfl, .element derived⟩
  · next value after head =>
    simp only [Option.map_eq_some_iff, Prod.mk.injEq, Prod.exists] at found
    obtain ⟨others, end_, tail, rfl, rfl⟩ := found
    obtain ⟨first, rfl, headDerived⟩ := readsValue _ _ _ head
    obtain ⟨others, rfl, tailDerived⟩ := readsElements _ _ _ tail
    exact ⟨first ++ .comma :: others, by simp, .elements headDerived tailDerived⟩
  · contradiction

/-- Members are derived if the first value and the members behind it are. -/
theorem derivesMembers_succ {bound : Nat} (readsValue : DerivesValues bound)
    (readsMembers : DerivesMembers bound) : DerivesMembers (bound + 1) := by
  intro tokens members rest found
  unfold readMembers? at found
  split at found
  · next key afterColon =>
    split at found
    · next value after head =>
      obtain ⟨rfl, rfl⟩ := found
      obtain ⟨front, rfl, derived⟩ := readsValue _ _ _ head
      exact ⟨.string key :: .colon :: front, rfl, .member key derived⟩
    · next value after head =>
      simp only [Option.map_eq_some_iff, Prod.mk.injEq, Prod.exists] at found
      obtain ⟨others, end_, tail, rfl, rfl⟩ := found
      obtain ⟨first, rfl, headDerived⟩ := readsValue _ _ _ head
      obtain ⟨others, rfl, tailDerived⟩ := readsMembers _ _ _ tail
      exact ⟨.string key :: .colon :: (first ++ .comma :: others), by simp,
        .members key headDerived tailDerived⟩
    · contradiction
  · contradiction

/-- What a reader takes off the front of a list of tokens is derived by the grammar. -/
theorem derives_of_read (bound : Nat) :
    DerivesValues bound ∧ DerivesElements bound ∧ DerivesMembers bound := by
  induction bound with
  | zero =>
      simp [DerivesValues, DerivesElements, DerivesMembers, readValue?, readElements?, readMembers?]
  | succ bound ih =>
      obtain ⟨readsValue, readsElements, readsMembers⟩ := ih
      exact ⟨derivesValues_succ readsElements readsMembers,
        derivesElements_succ readsValue readsElements, derivesMembers_succ readsValue readsMembers⟩

/-- Whether the reader of a phrase takes its tokens off the front of any list, given a bound of
twice their number. -/
def Phrase.IsRead : Phrase → List Token → Prop
  | .value json, tokens => ∀ bound rest, 2 * tokens.length ≤ bound →
      readValue? bound (tokens ++ rest) = some (json, rest)
  | .elements values, tokens => ∀ bound rest, 2 * tokens.length < bound →
      readElements? bound (tokens ++ .closeBracket :: rest) = some (values, rest)
  | .members pairs, tokens => ∀ bound rest, 2 * tokens.length < bound →
      readMembers? bound (tokens ++ .closeBrace :: rest) = some (pairs, rest)

/-- No phrase starts with a closing bracket or brace. -/
theorem Derives.head_ne_close {phrase : Phrase} {tokens : List Token}
    (derived : Derives phrase tokens) :
    ∃ first rest, tokens = first :: rest ∧ first ≠ .closeBracket ∧ first ≠ .closeBrace := by
  induction derived with
  | element _ ih => exact ih
  | elements _ _ ih _ =>
      obtain ⟨first, rest, rfl, notBracket, notBrace⟩ := ih
      exact ⟨first, _, rfl, notBracket, notBrace⟩
  | _ => exact ⟨_, _, rfl, by simp, by simp⟩

/-- A bracket that is not closed at once opens elements. -/
theorem readValue?_openBracket {first : Token} (bound : Nat) (rest : List Token)
    (notClose : first ≠ .closeBracket) :
    readValue? (bound + 1) (.openBracket :: first :: rest) =
      (readElements? bound (first :: rest)).map fun (elements, rest) => (array elements, rest) := by
  cases first <;> simp_all [readValue?]

/-- A brace that is not closed at once opens members. -/
theorem readValue?_openBrace {first : Token} (bound : Nat) (rest : List Token)
    (notClose : first ≠ .closeBrace) :
    readValue? (bound + 1) (.openBrace :: first :: rest) =
      (readMembers? bound (first :: rest)).map fun (members, rest) =>
        (object (JsonObject.ofMembers members), rest) := by
  cases first <;> simp_all [readValue?]

/-- A bound that is not zero is one more than another. -/
theorem exists_bound {least bound : Nat} (enough : least < bound) : ∃ inner, bound = inner + 1 :=
  ⟨bound - 1, by omega⟩

/-- The readers accept what the grammar derives. -/
theorem Derives.isRead {phrase : Phrase} {tokens : List Token} (derived : Derives phrase tokens) :
    phrase.IsRead tokens := by
  induction derived with
  | null | bool | number | string | emptyArray | emptyObject =>
      intro bound rest enough
      obtain ⟨bound, rfl⟩ := exists_bound enough
      rfl
  | array inside ih =>
      intro bound rest enough
      simp only [List.length_cons, List.length_append, List.length_nil] at enough
      obtain ⟨bound, rfl⟩ := exists_bound (show 0 < bound by omega)
      obtain ⟨first, others, rfl, notBracket, _⟩ := inside.head_ne_close
      have read := ih bound rest (by omega)
      rw [List.cons_append] at read
      simp [readValue?_openBracket _ _ notBracket, read]
  | object inside ih =>
      intro bound rest enough
      simp only [List.length_cons, List.length_append, List.length_nil] at enough
      obtain ⟨bound, rfl⟩ := exists_bound (show 0 < bound by omega)
      obtain ⟨first, others, rfl, _, notBrace⟩ := inside.head_ne_close
      have read := ih bound rest (by omega)
      rw [List.cons_append] at read
      simp [readValue?_openBrace _ _ notBrace, read]
  | element only ih =>
      intro bound rest enough
      obtain ⟨bound, rfl⟩ := exists_bound enough
      have read := ih bound (.closeBracket :: rest) (by omega)
      simp [readElements?, read]
  | @elements value values first others head tail headRead tailRead =>
      intro bound rest enough
      simp only [List.length_cons, List.length_append] at enough
      obtain ⟨bound, rfl⟩ := exists_bound enough
      have readHead := headRead bound (.comma :: (others ++ .closeBracket :: rest)) (by omega)
      have readTail := tailRead bound rest (by omega)
      simp [readElements?, readHead, readTail]
  | member key only ih =>
      intro bound rest enough
      simp only [List.length_cons] at enough
      obtain ⟨bound, rfl⟩ := exists_bound enough
      have read := ih bound (.closeBrace :: rest) (by omega)
      simp [readMembers?, read]
  | @members key value pairs first others head tail headRead tailRead =>
      intro bound rest enough
      simp only [List.length_cons, List.length_append] at enough
      obtain ⟨bound, rfl⟩ := exists_bound enough
      have readHead := headRead bound (.comma :: (others ++ .closeBrace :: rest)) (by omega)
      have readTail := tailRead bound rest (by omega)
      simp [readMembers?, readHead, readTail]

/-- The tokens of a value are those that the grammar derives. -/
theorem ofTokens?_eq_some_iff {tokens : List Token} {value : Json} :
    ofTokens? tokens = some value ↔ Derives (.value value) tokens := by
  constructor
  · intro found
    unfold ofTokens? at found
    split at found
    · next spelled read =>
      cases found
      obtain ⟨front, rfl, derived⟩ := (derives_of_read _).1 _ _ _ read
      simpa using derived
    · contradiction
  · intro derived
    have read := derived.isRead (2 * tokens.length) [] (Nat.le_refl _)
    rw [List.append_nil] at read
    rw [ofTokens?, read]

/-- Tokens that may stand next to each other, the last of which is no comma. -/
def Fits (tokens : List Token) : Prop :=
  tokens.IsChain (fun first next => first.mayPrecede next = true) ∧ tokens.getLast? ≠ some .comma

/-- Fitting tokens go on with a comma or a closing mark. -/
theorem Fits.append {front back : List Token} {next : Token} (frontFits : Fits front)
    (ends : next = .comma ∨ next.closes = true) (backFits : Fits (next :: back)) :
    Fits (front ++ next :: back) := by
  refine ⟨List.isChain_append.mpr ⟨frontFits.1, backFits.1, ?_⟩, ?_⟩
  · intro last isLast other isNext
    cases isNext
    exact Token.mayPrecede_end (fun same => frontFits.2 (same ▸ isLast)) ends
  · rw [List.getLast?_append_of_ne_nil _ (List.cons_ne_nil next back)]
    exact backFits.2

/-- A token before fitting tokens that may stand before the first of them. -/
theorem Fits.cons {first next : Token} {rest : List Token} (fits : Fits (next :: rest))
    (may : first.mayPrecede next = true) : Fits (first :: next :: rest) :=
  ⟨List.isChain_cons_cons.mpr ⟨may, fits.1⟩, by rw [List.getLast?_cons_cons]; exact fits.2⟩

/-- The tokens of a phrase fit. -/
theorem Derives.fits {phrase : Phrase} {tokens : List Token} (derived : Derives phrase tokens) :
    Fits tokens := by
  have closing (token : Token) (closes : token.closes = true) : Fits [token] :=
    ⟨List.isChain_singleton token, by rintro ⟨⟩; contradiction⟩
  induction derived with
  | null | bool | number | string => exact ⟨List.isChain_singleton _, by simp⟩
  | emptyArray | emptyObject => exact (closing _ rfl).cons rfl
  | array inside ih | object inside ih =>
      obtain ⟨first, others, rfl, _⟩ := inside.head_ne_close
      exact (ih.append (Or.inr rfl) (closing _ rfl)).cons rfl
  | element only ih => exact ih
  | elements head tail headFits tailFits =>
      obtain ⟨next, others, rfl, notBracket, notBrace⟩ := tail.head_ne_close
      exact headFits.append (Or.inl rfl)
        (tailFits.cons (by simp [Token.mayPrecede, Token.closes, notBracket, notBrace]))
  | member key only ih =>
      obtain ⟨first, others, rfl, _⟩ := only.head_ne_close
      exact (ih.cons rfl).cons rfl
  | members key head tail headFits tailFits =>
      obtain ⟨first, before, rfl, _⟩ := head.head_ne_close
      obtain ⟨next, others, rfl, notBracket, notBrace⟩ := tail.head_ne_close
      have rest := headFits.append (Or.inl rfl)
        (tailFits.cons (by simp [Token.mayPrecede, Token.closes, notBracket, notBrace]))
      exact (Fits.cons rest rfl).cons rfl

end Json

end FormatServer
