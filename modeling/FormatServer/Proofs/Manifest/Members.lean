import FormatServer.Proofs.Json.Objects
import FormatServer.Proofs.Manifest.Values

namespace FormatServer.Manifest

open Lexeme

/-- The key and the value that a member stands for. -/
def Member.pair (member : Member) : Bytes × Json :=
  (member.key, (Json.parse? member.value).getD .null)

/-- A member whose texts spell its key and a value. -/
structure Member.Sound (member : Member) : Prop where
  key : (Lexeme.mk (.string member.key) member.keyText).Sound
  value : Writes member.pair.2 member.value

/-- A member with the texts of a key and of a value stands for them. -/
theorem sound_of_writes {key keyText text : Bytes} {value : Json}
    (sound : (Lexeme.mk (.string key) keyText).Sound) (writes : Writes value text) :
    (Member.mk key keyText text).Sound ∧ (Member.mk key keyText text).pair = (key, value) := by
  have same : (Member.mk key keyText text).pair = (key, value) := by
    rw [Member.pair, writes.parse?, Option.getD_some]
  exact ⟨⟨sound, by rwa [same]⟩, same⟩

/-- A text that is read as one token spells it. -/
theorem lexeme_sound_of_read? {token : Token} {text : Bytes} (read : Token.read? text = some (token, []))
    (wellFormed : Utf8.isWellFormed text = true) : (Lexeme.mk token text).Sound := by
  have lexed : Lexed [⟨token, text⟩] ([] ++ (text ++ [])) :=
    .lexeme isBlank_nil (by rwa [List.append_nil]) (.done isBlank_nil)
  exact ⟨lexed.spelled _ List.mem_cons_self, wellFormed⟩

/-- A member with a literal and a value of one token stands for them. -/
theorem Member.sound_of_read? {member : Member} {token : Token} {value : Json}
    (keyRead : Token.read? member.keyText = some (.string member.key, []))
    (keyWellFormed : Utf8.isWellFormed member.keyText = true)
    (valueRead : Token.read? member.value = some (token, []))
    (valueWellFormed : Utf8.isWellFormed member.value = true)
    (derived : Json.Derives (.value value) [token]) : member.Sound := by
  have writes : Writes value member.value :=
    ⟨⟨token, member.value⟩, [], [], (List.append_nil _).symm, .nil,
      List.forall_mem_singleton.mpr (lexeme_sound_of_read? valueRead valueWellFormed), derived⟩
  exact (sound_of_writes (lexeme_sound_of_read? keyRead keyWellFormed) writes).1

/-- The value of a literal is the text that it spells. -/
theorem Member.Sound.parse?_keyText {member : Member} (sound : member.Sound) :
    Json.parse? member.keyText = some (.string member.key) := by
  have writes : Writes (.string member.key) member.keyText :=
    ⟨⟨.string member.key, member.keyText⟩, [], [], (List.append_nil _).symm, .nil,
      List.forall_mem_singleton.mpr sound.key, .string member.key⟩
  exact writes.parse?

/-- Whether a text is a member with blanks around its parts. -/
def Member.Padded (member : Member) (text : Bytes) : Prop :=
  ∃ front beforeColon afterColon back, IsBlank front ∧ IsBlank beforeColon ∧ IsBlank afterColon ∧
    IsBlank back ∧ text = front ++ (member.keyText ++ (beforeColon ++ Ascii.colon ::
      (afterColon ++ (member.value ++ back))))

/-- Whether a text is what stands between the braces of an object with some members. -/
inductive Inside : List Member → Bytes → Prop where
  | none {gap : Bytes} (blank : IsBlank gap) : Inside [] gap
  | last {member : Member} {text : Bytes} (padded : member.Padded text) : Inside [member] text
  | next {member : Member} {members : List Member} {text rest : Bytes} (padded : member.Padded text)
      (more : members ≠ []) (behind : Inside members rest) :
      Inside (member :: members) (text ++ Ascii.comma :: rest)

/-- Whether a text is an object with some members, written with any blanks around their parts. -/
structure SpellsObject (members : List Member) (text : Bytes) : Prop where
  sound : ∀ member ∈ members, member.Sound
  spread : ∃ front inside back, IsBlank front ∧ IsBlank back ∧ Inside members inside ∧
    text = front ++ Ascii.openBrace :: (inside ++ Ascii.closeBrace :: back)

section Scanning

/-- A written value starts with no space. -/
theorem Writes.head {value : Json} {text : Bytes} (writes : Writes value text) :
    ∃ first tail, text = first :: tail ∧ Ascii.isSpace first = false := by
  obtain ⟨lexeme, others, run, rfl, _, sound, _⟩ := writes
  obtain ⟨first, tail, spelling, starts⟩ := (sound lexeme List.mem_cons_self).spelled.head
  exact ⟨first, tail ++ run, by simp [spelling], (Token.startsSpelling_bounds first starts).1⟩

/-- What follows a value in an object ends it. -/
theorem isTerminator_of_mark {gap : Bytes} (blank : IsBlank gap) {mark : UInt8}
    (isMark : mark = Ascii.comma ∨ mark = Ascii.closeBrace) (more : Bytes) :
    ∀ byte, (gap ++ mark :: more).head? = some byte → isTerminator byte = true := by
  intro byte isHead
  cases gap with
  | nil =>
      cases isHead
      rcases isMark with rfl | rfl <;> rfl
  | cons first gap =>
      cases isHead
      simp [isTerminator, blank byte List.mem_cons_self]

/-- Where a key, a colon, a value and a mark are found one behind the other, a member is cut off. -/
theorem scanMembers_cut {text keyText fromKey fromColon value fromValue more key : Bytes}
    {mark : UInt8} (isMark : mark = Ascii.comma ∨ mark = Ascii.closeBrace)
    (atKey : text.dropWhile Ascii.isSpace = keyText ++ fromKey)
    (keyStarts : ∃ tail, keyText = Ascii.quote :: tail)
    (keyEnds : literalLength .outside (keyText ++ fromKey) = keyText.length)
    (keyRead : Json.parse? keyText = some (.string key))
    (atColon : fromKey.dropWhile Ascii.isSpace = Ascii.colon :: fromColon)
    (atValue : fromColon.dropWhile Ascii.isSpace = value ++ fromValue)
    (valueEnds : valueLength (value ++ fromValue) = value.length)
    (atMark : fromValue.dropWhile Ascii.isSpace = mark :: more) (size : Nat) :
    scanMembers size text =
      if mark = Ascii.comma then (scanMembers size more).map (⟨key, keyText, value⟩ :: ·)
      else .ok [⟨key, keyText, value⟩] := by
  obtain ⟨keyTail, keyStarts⟩ := keyStarts
  rw [scanMembers]
  split
  · next empty =>
    rw [atKey, keyStarts] at empty
    contradiction
  · next first rest start =>
    rw [atKey] at start
    have isQuote : first = Ascii.quote := by
      rw [keyStarts] at start
      exact (List.cons_eq_cons.mp start).1.symm
    rw [if_neg (by simp [isQuote])]
    have keyCut : (first :: rest).drop (literalLength .outside (first :: rest)) = fromKey := by
      rw [← start, keyEnds, List.drop_left]
    simp only [← start, keyEnds, List.take_left, keyRead]
    split
    · next empty =>
      rw [keyCut, atColon] at empty
      contradiction
    · next colon behind start =>
      rw [keyCut, atColon] at start
      obtain ⟨rfl, rfl⟩ := List.cons_eq_cons.mp start
      rw [if_neg (by simp)]
      simp only [atValue, valueEnds, List.take_left]
      split
      · next empty =>
        rw [atValue, valueEnds, List.drop_left, atMark] at empty
        contradiction
      · next last behind start =>
        rw [atValue, valueEnds, List.drop_left, atMark] at start
        obtain ⟨rfl, rfl⟩ := List.cons_eq_cons.mp start
        rcases isMark with rfl | rfl
        · rfl
        · rfl

/-- A member in front of a comma or of the closing brace is cut off. -/
theorem scanMembers_padded {member : Member} (sound : member.Sound) {text : Bytes}
    (padded : member.Padded text) {mark : UInt8}
    (isMark : mark = Ascii.comma ∨ mark = Ascii.closeBrace) (size : Nat) (more : Bytes) :
    scanMembers size (text ++ mark :: more) =
      if mark = Ascii.comma then (scanMembers size more).map (member :: ·) else .ok [member] := by
  obtain ⟨front, beforeColon, afterColon, back, frontBlank, beforeBlank, afterBlank, backBlank, rfl⟩ :=
    padded
  obtain ⟨keyTail, keyStarts, _⟩ := sound.key.spelled.eq_literal
  obtain ⟨valueFirst, valueTail, valueStarts, valueNotSpace⟩ := sound.value.head
  dsimp only at keyStarts
  have markNotSpace : Ascii.isSpace mark = false := by
    rcases isMark with rfl | rfl <;> rfl
  have atKey (rest : Bytes) :
      (front ++ (member.keyText ++ rest)).dropWhile Ascii.isSpace = member.keyText ++ rest := by
    rw [keyStarts, List.cons_append, frontBlank.dropWhile_isSpace (by rfl)]
  have atValue (rest : Bytes) :
      (afterColon ++ (member.value ++ rest)).dropWhile Ascii.isSpace = member.value ++ rest := by
    rw [valueStarts, List.cons_append, afterBlank.dropWhile_isSpace valueNotSpace]
  simp only [List.append_assoc, List.cons_append]
  apply scanMembers_cut isMark (atKey _) ⟨keyTail, keyStarts⟩
  · exact literalLength_spelling sound.key.spelled _
  · exact sound.parse?_keyText
  · exact beforeBlank.dropWhile_isSpace (by rfl) _
  · exact atValue _
  · exact sound.value.valueLength (isTerminator_of_mark backBlank isMark more)
  · exact backBlank.dropWhile_isSpace markNotSpace _

/-- The members between the braces of an object are cut out one by one. -/
theorem Inside.scanMembers {members : List Member} {text : Bytes} (inside : Inside members text)
    (notEmpty : members ≠ []) (sound : ∀ member ∈ members, member.Sound) (size : Nat) (rest : Bytes) :
    scanMembers size (text ++ Ascii.closeBrace :: rest) = .ok members := by
  induction inside with
  | none => contradiction
  | last padded =>
      rw [scanMembers_padded (sound _ List.mem_cons_self) padded (Or.inr rfl), if_neg (by decide)]
  | next padded more _ ih =>
      obtain ⟨memberSound, othersSound⟩ := List.forall_mem_cons.mp sound
      rw [List.append_assoc, List.cons_append, scanMembers_padded memberSound padded (Or.inl rfl),
        if_pos rfl, ih more othersSound]
      rfl

/-- The members of an object start with a key. -/
theorem Inside.head?_dropWhile {members : List Member} {text : Bytes} (inside : Inside members text)
    (notEmpty : members ≠ []) (sound : ∀ member ∈ members, member.Sound) (rest : Bytes) :
    ((text ++ rest).dropWhile Ascii.isSpace).head? = some Ascii.quote := by
  have first {member : Member} (sound : member.Sound) {text : Bytes} (padded : member.Padded text)
      (rest : Bytes) : ((text ++ rest).dropWhile Ascii.isSpace).head? = some Ascii.quote := by
    obtain ⟨front, _, _, _, frontBlank, _, _, _, rfl⟩ := padded
    obtain ⟨tail, literal, _⟩ := sound.key.spelled.eq_literal
    dsimp only at literal
    rw [literal, List.append_assoc, List.cons_append, List.cons_append,
      frontBlank.dropWhile_isSpace (by rfl)]
    rfl
  cases inside with
  | none => contradiction
  | last padded => exact first (sound _ List.mem_cons_self) padded rest
  | next padded =>
      rw [List.append_assoc]
      exact first (sound _ List.mem_cons_self) padded _

/-- Braces with nothing but blanks between them hold no members. -/
theorem scan_empty {text rest : Bytes}
    (atOpen : text.dropWhile Ascii.isSpace = Ascii.openBrace :: rest)
    (atClose : (rest.dropWhile Ascii.isSpace).head? = some Ascii.closeBrace) :
    scan text = .ok [] := by
  rw [scan, atOpen]
  simp [atClose]

/-- Behind an opening brace and in front of a key the members are cut out. -/
theorem scan_members {text rest : Bytes}
    (atOpen : text.dropWhile Ascii.isSpace = Ascii.openBrace :: rest)
    (atKey : (rest.dropWhile Ascii.isSpace).head? = some Ascii.quote) :
    scan text = scanMembers text.length rest := by
  have notClose : ¬some Ascii.quote = some Ascii.closeBrace := by decide
  rw [scan, atOpen]
  simp only [atKey, if_neg notClose]
  rfl

/-- An object is cut into its members, wherever blanks stand. -/
theorem SpellsObject.scan {members : List Member} {text : Bytes}
    (spells : SpellsObject members text) : scan text = .ok members := by
  obtain ⟨front, inside, back, frontBlank, _, isInside, rfl⟩ := spells.spread
  have atOpen : (front ++ Ascii.openBrace :: (inside ++ Ascii.closeBrace :: back)).dropWhile
      Ascii.isSpace = Ascii.openBrace :: (inside ++ Ascii.closeBrace :: back) :=
    frontBlank.dropWhile_isSpace (by rfl) _
  by_cases empty : members = []
  · subst empty
    cases isInside with
    | none blank =>
        refine scan_empty atOpen ?_
        rw [blank.dropWhile_isSpace (by rfl)]
        rfl
  · rw [scan_members atOpen (isInside.head?_dropWhile empty spells.sound _),
      isInside.scanMembers empty spells.sound]

/-- An object has one list of members. -/
theorem SpellsObject.unique {members others : List Member} {text : Bytes}
    (spells : SpellsObject members text) (otherSpells : SpellsObject others text) :
    others = members := by
  have same := otherSpells.scan.symm.trans spells.scan
  exact Except.ok.inj same

theorem SpellsObject.iff_eq {members : List Member} {text : Bytes}
    (spells : SpellsObject members text) (others : List Member) :
    SpellsObject others text ↔ others = members := by
  constructor
  · exact spells.unique
  · rintro rfl
    exact spells

end Scanning

section Reading

/-- The lexemes of a key, a colon and a value are the text of a member. -/
theorem exists_member {key : Bytes} {value : Json} {tokens : List Token} {lexemes : List Lexeme}
    {run : Bytes} (derived : Json.Derives (.value value) tokens)
    (shape : lexemes.map Lexeme.token = .string key :: .colon :: tokens) (isRun : Run lexemes run)
    (sound : ∀ each ∈ lexemes, each.Sound) :
    ∃ member : Member, member.Sound ∧ member.pair = (key, value) ∧
      ∀ gap, IsBlank gap → member.Padded (run ++ gap) := by
  obtain ⟨keyLexeme, behindKey, rfl, isKey, shape⟩ := List.map_eq_cons_iff.mp shape
  obtain ⟨colon, behindColon, rfl, isColon, shape⟩ := List.map_eq_cons_iff.mp shape
  obtain ⟨firstToken, otherTokens, rfl, _⟩ := derived.head_ne_close
  obtain ⟨first, others, rfl, rfl, rfl⟩ := List.map_eq_cons_iff.mp shape
  obtain ⟨keySound, sound⟩ := List.forall_mem_cons.mp sound
  obtain ⟨colonSound, sound⟩ := List.forall_mem_cons.mp sound
  have colonText : colon.spelling = [Ascii.colon] := colonSound.spelled.eq_markByte isColon rfl
  have keyLiteral : (Lexeme.mk (.string key) keyLexeme.spelling).Sound := by
    rw [← isKey]
    exact keySound
  cases isRun with
  | @cons front _ _ frontBlank _ afterKey =>
  cases afterKey with
  | @cons beforeColon _ _ beforeBlank _ afterColonRun =>
  cases afterColonRun with
  | @cons afterColon behind _ afterBlank _ isBehind =>
      obtain ⟨memberSound, pair⟩ := sound_of_writes keyLiteral
        ⟨first, others, behind, rfl, isBehind, sound, derived⟩
      refine ⟨_, memberSound, pair, fun gap blank => ?_⟩
      exact ⟨front, beforeColon, afterColon, gap, frontBlank, beforeBlank, afterBlank, blank,
        by simp [colonText]⟩

/-- The lexemes of members are the text between the braces of an object. -/
theorem inside_of_derives {phrase : Json.Phrase} {tokens : List Token}
    (derived : Json.Derives phrase tokens) {pairs : List (Bytes × Json)}
    (isMembers : phrase = .members pairs) {lexemes : List Lexeme} {run gap : Bytes}
    (shape : lexemes.map Lexeme.token = tokens) (isRun : Run lexemes run)
    (sound : ∀ each ∈ lexemes, each.Sound) (blank : IsBlank gap) :
    ∃ members, Inside members (run ++ gap) ∧ members ≠ [] ∧ (∀ member ∈ members, member.Sound) ∧
      members.map Member.pair = pairs := by
  induction derived generalizing pairs lexemes run with
  | member key only _ =>
      cases isMembers
      obtain ⟨member, memberSound, pair, padded⟩ := exists_member only shape isRun sound
      exact ⟨[member], .last (padded gap blank), by simp, List.forall_mem_singleton.mpr memberSound,
        by simp [pair]⟩
  | @members key value others first back head tail _ ih =>
      cases isMembers
      rw [← List.cons_append, ← List.cons_append] at shape
      obtain ⟨frontLexemes, backLexemes, rfl, frontShape, backShape⟩ :=
        List.map_eq_append_iff.mp shape
      obtain ⟨comma, otherLexemes, rfl, isComma, otherShape⟩ := List.map_eq_cons_iff.mp backShape
      obtain ⟨frontRun, backRun, rfl, frontIsRun, backIsRun⟩ := isRun.exists_append
      obtain ⟨frontSound, backSound⟩ := List.forall_mem_append.mp sound
      obtain ⟨commaSound, otherSound⟩ := List.forall_mem_cons.mp backSound
      have commaText : comma.spelling = [Ascii.comma] :=
        commaSound.spelled.eq_markByte isComma rfl
      obtain ⟨member, memberSound, pair, padded⟩ :=
        exists_member head frontShape frontIsRun frontSound
      cases backIsRun with
      | @cons beforeComma otherRun _ commaBlank _ otherIsRun =>
          obtain ⟨members, inside, notEmpty, othersSound, othersPairs⟩ :=
            ih rfl otherShape otherIsRun otherSound
          refine ⟨member :: members, ?_, by simp,
            List.forall_mem_cons.mpr ⟨memberSound, othersSound⟩, by simp [pair, othersPairs]⟩
          have text : frontRun ++ (beforeComma ++ (comma.spelling ++ otherRun)) ++ gap =
              (frontRun ++ beforeComma) ++ Ascii.comma :: (otherRun ++ gap) := by
            simp [commaText]
          rw [text]
          exact .next (padded beforeComma commaBlank) notEmpty inside
  | _ => contradiction

/-- The lexemes of an object are its members between braces. -/
theorem spellsObject_of_derives {object : JsonObject} {lexemes : List Lexeme} {run gap : Bytes}
    (derived : Json.Derives (.value (.object object)) (lexemes.map Lexeme.token))
    (isRun : Run lexemes run) (sound : ∀ each ∈ lexemes, each.Sound) (blank : IsBlank gap) :
    ∃ members, SpellsObject members (run ++ gap) ∧
      object = JsonObject.ofMembers (members.map Member.pair) := by
  generalize shape : lexemes.map Lexeme.token = tokens at derived
  have openBrace : ∃ others, tokens = .openBrace :: others := by
    cases derived with
    | emptyObject | object => exact ⟨_, rfl⟩
  obtain ⟨_, rfl⟩ := openBrace
  obtain ⟨first, others, rfl, isOpen, shape⟩ := List.map_eq_cons_iff.mp shape
  obtain ⟨openSound, sound⟩ := List.forall_mem_cons.mp sound
  have openText : first.spelling = [Ascii.openBrace] := openSound.spelled.eq_markByte isOpen rfl
  cases isRun with
  | @cons front _ _ frontBlank _ insideRun =>
  cases derived with
  | emptyObject =>
      obtain ⟨close, rfl, isClose⟩ := List.map_eq_singleton_iff.mp shape
      have closeText : close.spelling = [Ascii.closeBrace] :=
        (sound close List.mem_cons_self).spelled.eq_markByte isClose rfl
      obtain ⟨between, betweenBlank, rfl⟩ := insideRun.exists_gap
      exact ⟨[], ⟨by simp, front, between, gap, frontBlank, blank, .none betweenBlank,
        by simp [openText, closeText]⟩, rfl⟩
  | object derived =>
      obtain ⟨memberLexemes, closing, rfl, rfl, closeShape⟩ := List.map_eq_append_iff.mp shape
      obtain ⟨close, rfl, isClose⟩ := List.map_eq_singleton_iff.mp closeShape
      obtain ⟨membersSound, closeSound⟩ := List.forall_mem_append.mp sound
      have closeText : close.spelling = [Ascii.closeBrace] :=
        (closeSound close List.mem_cons_self).spelled.eq_markByte isClose rfl
      obtain ⟨membersText, closeRun, rfl, membersRun, closeIsRun⟩ := insideRun.exists_append
      obtain ⟨between, betweenBlank, rfl⟩ := closeIsRun.exists_gap
      obtain ⟨members, inside, _, allSound, isPairs⟩ :=
        inside_of_derives derived rfl rfl membersRun membersSound betweenBlank
      exact ⟨members, ⟨allSound, front, membersText ++ between, gap, frontBlank, blank, inside,
        by simp [openText, closeText]⟩, by rw [isPairs]⟩

/-- A text with the value of an object is the object of some members. -/
theorem exists_spellsObject {object : JsonObject} {text : Bytes}
    (accepted : Json.parse? text = some (.object object)) :
    ∃ members, SpellsObject members text ∧
      object = JsonObject.ofMembers (members.map Member.pair) := by
  obtain ⟨lexemes, lexed, sound, derived⟩ := Json.parse?_eq_some_iff.mp accepted
  obtain ⟨run, gap, rfl, isRun, blank⟩ := lexed.exists_run
  exact spellsObject_of_derives derived isRun sound blank

/-- A value that is written with an opening brace is an object. -/
theorem Writes.exists_object {value : Json} {text : Bytes} (writes : Writes value text)
    (isOpen : text.head? = some Ascii.openBrace) : ∃ object, value = .object object := by
  obtain ⟨lexeme, others, run, rfl, _, sound, derived⟩ := writes
  have spells := (sound lexeme List.mem_cons_self).spelled
  obtain ⟨first, tail, spelling, _⟩ := spells.head
  rw [spelling] at isOpen
  cases isOpen
  rw [Spelled, spelling] at spells
  rw [List.map_cons, spells.eq_of_head rfl] at derived
  generalize others.map Lexeme.token = tokens at derived
  cases derived with
  | emptyObject | object => exact ⟨_, rfl⟩

end Reading

section Writing

/-- A mark, as it is written. -/
def markLexeme (token : Token) : Lexeme :=
  ⟨token, [token.markByte]⟩

theorem sound_markLexeme {token : Token} (mark : token.isMark = true) :
    (markLexeme token).Sound := by
  cases token with
  | null | bool | number | string => contradiction
  | _ => exact ⟨.mark rfl, rfl⟩

/-- A member with blanks around its parts is a key, a colon and a value. -/
theorem Member.Padded.exists_lexemes {member : Member} {text : Bytes} (padded : member.Padded text)
    (sound : member.Sound) :
    ∃ lexemes run gap tokens, text = run ++ gap ∧ Run lexemes run ∧ IsBlank gap ∧
      (∀ each ∈ lexemes, each.Sound) ∧
      lexemes.map Lexeme.token = .string member.key :: .colon :: tokens ∧
      Json.Derives (.value member.pair.2) tokens := by
  obtain ⟨front, beforeColon, afterColon, back, frontBlank, beforeBlank, afterBlank, backBlank, rfl⟩ :=
    padded
  obtain ⟨first, others, run, isValue, isRun, valueSound, derived⟩ := sound.value
  have key : Run (⟨.string member.key, member.keyText⟩ :: markLexeme .colon :: first :: others) _ :=
    .cons frontBlank _ (.cons beforeBlank (markLexeme .colon) (.cons afterBlank first isRun))
  refine ⟨_, _, back, _, ?_, key, backBlank, ?_, rfl, derived⟩
  · simp [isValue, markLexeme, Token.markByte]
  · exact List.forall_mem_cons.mpr
      ⟨sound.key, List.forall_mem_cons.mpr ⟨sound_markLexeme rfl, valueSound⟩⟩

/-- Members between commas spell their keys and values. -/
theorem Inside.exists_lexemes {members : List Member} {text : Bytes} (inside : Inside members text)
    (notEmpty : members ≠ []) (sound : ∀ member ∈ members, member.Sound) :
    ∃ lexemes run gap, text = run ++ gap ∧ Run lexemes run ∧ IsBlank gap ∧
      (∀ each ∈ lexemes, each.Sound) ∧
      Json.Derives (.members (members.map Member.pair)) (lexemes.map Lexeme.token) := by
  induction inside with
  | none => contradiction
  | @last member text padded =>
      obtain ⟨lexemes, run, gap, tokens, same, isRun, blank, lexemesSound, shape, derived⟩ :=
        padded.exists_lexemes (sound _ List.mem_cons_self)
      refine ⟨lexemes, run, gap, same, isRun, blank, lexemesSound, ?_⟩
      rw [shape]
      exact .member member.key derived
  | @next member members text rest padded more _ ih =>
      obtain ⟨memberSound, othersSound⟩ := List.forall_mem_cons.mp sound
      obtain ⟨lexemes, run, gap, tokens, same, isRun, blank, lexemesSound, shape, derived⟩ :=
        padded.exists_lexemes memberSound
      obtain ⟨others, othersRun, last, othersSame, othersIsRun, lastBlank, othersLexemesSound,
        othersDerived⟩ := ih more othersSound
      -- Blanks behind a member are the gap in front of its comma.
      refine ⟨lexemes ++ markLexeme .comma :: others, _, last, ?_,
        isRun.append (.cons blank (markLexeme .comma) othersIsRun), lastBlank, ?_, ?_⟩
      · simp [same, othersSame, markLexeme, Token.markByte]
      · exact List.forall_mem_append.mpr
          ⟨lexemesSound, List.forall_mem_cons.mpr ⟨sound_markLexeme rfl, othersLexemesSound⟩⟩
      · rw [List.map_append, shape, List.map_cons]
        exact .members member.key derived othersDerived

/-- Members between braces spell the object of their keys and values. -/
theorem Inside.writes {members : List Member} {text : Bytes} (inside : Inside members text)
    (sound : ∀ member ∈ members, member.Sound) :
    Writes (.object (JsonObject.ofMembers (members.map Member.pair)))
      (Ascii.openBrace :: (text ++ [Ascii.closeBrace])) := by
  by_cases empty : members = []
  · subst empty
    cases inside with
    | none blank =>
        refine ⟨markLexeme .openBrace, [markLexeme .closeBrace], _, rfl,
          .cons blank (markLexeme .closeBrace) .nil, ?_, .emptyObject⟩
        exact List.forall_mem_cons.mpr ⟨sound_markLexeme rfl,
          List.forall_mem_singleton.mpr (sound_markLexeme rfl)⟩
  · obtain ⟨lexemes, run, gap, rfl, isRun, blank, lexemesSound, derived⟩ :=
      inside.exists_lexemes empty sound
    refine ⟨markLexeme .openBrace, lexemes ++ [markLexeme .closeBrace], _, ?_,
      isRun.append (.cons blank (markLexeme .closeBrace) .nil), ?_, ?_⟩
    · simp [markLexeme, Token.markByte]
    · exact List.forall_mem_cons.mpr ⟨sound_markLexeme rfl, List.forall_mem_append.mpr
        ⟨lexemesSound, List.forall_mem_singleton.mpr (sound_markLexeme rfl)⟩⟩
    · have tokens : (markLexeme .openBrace :: (lexemes ++ [markLexeme .closeBrace])).map
          Lexeme.token = .openBrace :: (lexemes.map Lexeme.token ++ [.closeBrace]) := by
        simp [markLexeme]
      rw [tokens]
      exact .object derived

/-- The value of an object is that of its members, wherever blanks stand. -/
theorem SpellsObject.parse? {members : List Member} {text : Bytes}
    (spells : SpellsObject members text) :
    Json.parse? text = some (.object (JsonObject.ofMembers (members.map Member.pair))) := by
  obtain ⟨front, inside, back, frontBlank, backBlank, isInside, rfl⟩ := spells.spread
  have accepted := (isInside.writes spells.sound).parse?_padded frontBlank backBlank
  rwa [List.cons_append, List.append_assoc, List.singleton_append] at accepted

/-- A member with nothing but a colon between its key and its value. -/
def Member.text (member : Member) : Bytes :=
  member.keyText ++ Ascii.colon :: member.value

theorem Member.padded_text (member : Member) : member.Padded member.text :=
  ⟨[], [], [], [], isBlank_nil, isBlank_nil, isBlank_nil, isBlank_nil, by simp [Member.text]⟩

theorem joinMembers_cons_cons (member next : Member) (members : List Member) :
    joinMembers (member :: next :: members) =
      member.text ++ Ascii.comma :: joinMembers (next :: members) := by
  simp [joinMembers, Member.text]

/-- An object with nothing but the marks between the keys and the values of its members. -/
def compactText (members : List Member) : Bytes :=
  Ascii.openBrace :: ([Ascii.comma].intercalate (members.map Member.text) ++ [Ascii.closeBrace])

theorem write_eq_compactText (members : List Member) : write members = compactText members := by
  have joined : joinMembers members = [Ascii.comma].intercalate (members.map Member.text) := by
    induction members with
    | nil => rfl
    | cons member members ih =>
        cases members with
        | nil => simp [joinMembers, Member.text]
        | cons next members =>
            rw [joinMembers_cons_cons, ih]
            simp [List.intercalate]
  rw [write, joined]
  rfl

/-- Members between commas are what stands between the braces of an object. -/
theorem inside_joinMembers (members : List Member) : Inside members (joinMembers members) := by
  cases members with
  | nil => exact .none isBlank_nil
  | cons member members =>
      induction members generalizing member with
      | nil => exact .last member.padded_text
      | cons next members ih =>
          rw [joinMembers_cons_cons]
          exact .next member.padded_text (by simp) (ih next)

/-- A written object is cut into the members that were written. -/
theorem spellsObject_write {members : List Member} (sound : ∀ each ∈ members, each.Sound) :
    SpellsObject members (write members) :=
  ⟨sound, [], joinMembers members, [], isBlank_nil, isBlank_nil, inside_joinMembers members,
    by simp [write]⟩

/-- A written object spells the object of its members. -/
theorem writes_write {members : List Member} (sound : ∀ each ∈ members, each.Sound) :
    Writes (.object (JsonObject.ofMembers (members.map Member.pair))) (write members) :=
  (inside_joinMembers members).writes sound

end Writing

end FormatServer.Manifest
