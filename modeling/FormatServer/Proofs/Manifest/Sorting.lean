import FormatServer.Proofs.Manifest.Members
import FormatServer.Proofs.Manifest.Orders

namespace FormatServer.Manifest

open Lexeme

/-- Sorted members stand for the same object. -/
theorem ofMembers_sortBy {before : Bytes → Bytes → Bool} (order : IsKeyOrder before)
    (members : List Member) :
    JsonObject.ofMembers ((sortBy before members).map Member.pair) =
      JsonObject.ofMembers (members.map Member.pair) := by
  apply JsonObject.ofMembers_congr
  intro key
  rw [List.filter_map, List.filter_map]
  exact congrArg (List.map Member.pair) (filter_sortBy order members key)

/-- The members of an object are the same when they are sorted. -/
theorem SpellsObject.sound_sortBy {members : List Member} {text : Bytes}
    (spells : SpellsObject members text) (before : Bytes → Bytes → Bool) :
    ∀ each ∈ sortBy before members, each.Sound :=
  fun each inside => spells.sound each (mem_sortBy.mp inside)

section Values

variable {order : List Member → Bytes → Bytes → Bool} {value : Json} {text : Bytes}

/-- An object without blanks around it starts with its brace. -/
theorem SpellsObject.head?_of_writes {members : List Member} (spells : SpellsObject members text)
    (writes : Writes value text) : text.head? = some Ascii.openBrace := by
  obtain ⟨first, tail, rfl, notSpace⟩ := writes.head
  obtain ⟨front, inside, back, frontBlank, _, _, spread⟩ := spells.spread
  cases front with
  | nil => rw [spread]; rfl
  | cons blank front =>
      obtain ⟨rfl, _⟩ := List.cons_eq_cons.mp spread
      have isSpace := frontBlank.isSpace first List.mem_cons_self
      rw [isSpace] at notSpace
      contradiction

/-- The value of an object is that of its members. -/
theorem SpellsObject.value_eq {members : List Member} (spells : SpellsObject members text)
    (writes : Writes value text) :
    value = .object (JsonObject.ofMembers (members.map Member.pair)) := by
  obtain ⟨object, rfl⟩ := writes.exists_object (spells.head?_of_writes writes)
  obtain ⟨others, otherSpells, rfl⟩ := exists_spellsObject writes.parse?
  rw [spells.unique otherSpells]

/-- The members of an object are sorted. -/
theorem sortValue_of_spellsObject {members : List Member} (writes : Writes value text)
    (spells : SpellsObject members text) :
    sortValue order text = .ok (write (sortBy (order members) members)) := by
  rw [sortValue, if_pos (spells.head?_of_writes writes), spells.scan]
  rfl

/-- A value that is no object stays. -/
theorem sortValue_of_not_object (writes : Writes value text)
    (notObject : ∀ members, ¬SpellsObject members text) : sortValue order text = .ok text := by
  unfold sortValue
  split
  · next isOpen =>
    obtain ⟨object, rfl⟩ := writes.exists_object isOpen
    obtain ⟨members, spells, _⟩ := exists_spellsObject writes.parse?
    exact absurd spells (notObject members)
  · rfl

end Values

section Fields

variable {withScripts : Bool} {member : Member} {order : List Member → Bytes → Bytes → Bool}
  {members : List Member}

/-- Whether the value of a field is an object whose members are put in an order. -/
structure Reorders (withScripts : Bool) (field : Member) (order : List Member → Bytes → Bytes → Bool)
    (members : List Member) : Prop where
  isSorted : memberOrder? withScripts field.key = some order
  spells : SpellsObject members field.value

/-- A field as sorting writes it. -/
def settle (withScripts : Bool) (field : Member) : Member :=
  (sortField withScripts field).toOption.getD field

theorem sortField_of_reorders (sound : member.Sound)
    (reorders : Reorders withScripts member order members) :
    sortField withScripts member =
      .ok { member with value := write (sortBy (order members) members) } :=
  sortField_of_eq_some reorders.isSorted (sortValue_of_spellsObject sound.value reorders.spells)

theorem sortField_of_not_reorders (sound : member.Sound)
    (plain : ¬∃ order members, Reorders withScripts member order members) :
    sortField withScripts member = .ok member := by
  cases isSorted : memberOrder? withScripts member.key with
  | none => exact sortField_of_eq_none isSorted
  | some order =>
      apply sortField_of_eq_some isSorted
      exact sortValue_of_not_object sound.value fun members spells =>
        plain ⟨order, members, isSorted, spells⟩

theorem settle_of_reorders (sound : member.Sound)
    (reorders : Reorders withScripts member order members) :
    settle withScripts member =
      { member with value := write (sortBy (order members) members) } := by
  rw [settle, sortField_of_reorders sound reorders]
  rfl

theorem settle_of_not_reorders (sound : member.Sound)
    (plain : ¬∃ order members, Reorders withScripts member order members) :
    settle withScripts member = member := by
  rw [settle, sortField_of_not_reorders sound plain]
  rfl

/-- No field is refused. -/
theorem sortField_eq_settle (sound : member.Sound) (withScripts : Bool) :
    sortField withScripts member = .ok (settle withScripts member) := by
  by_cases reorders : ∃ order members, Reorders withScripts member order members
  · obtain ⟨order, members, reorders⟩ := reorders
    rw [settle_of_reorders sound reorders, sortField_of_reorders sound reorders]
  · rw [settle_of_not_reorders sound reorders, sortField_of_not_reorders sound reorders]

/-- Sorting a field keeps what it stands for. -/
theorem settle_sound (sound : member.Sound) (withScripts : Bool) :
    (settle withScripts member).Sound ∧ (settle withScripts member).pair = member.pair := by
  by_cases reorders : ∃ order members, Reorders withScripts member order members
  · obtain ⟨order, members, reorders⟩ := reorders
    have isOrder := isKeyOrder_memberOrder? reorders.isSorted members
    have writes : Writes member.pair.2 (write (sortBy (order members) members)) := by
      rw [reorders.spells.value_eq sound.value, ← ofMembers_sortBy isOrder]
      exact writes_write (reorders.spells.sound_sortBy _)
    rw [settle_of_reorders sound reorders]
    exact sound_of_writes sound.key writes
  · rw [settle_of_not_reorders sound reorders]
    exact ⟨sound, rfl⟩

/-- Sorting a field keeps its key and the literal of its key. -/
theorem settle_key (sound : member.Sound) (withScripts : Bool) :
    (settle withScripts member).key = member.key ∧
      (settle withScripts member).keyText = member.keyText := by
  by_cases reorders : ∃ order members, Reorders withScripts member order members
  · obtain ⟨order, members, reorders⟩ := reorders
    rw [settle_of_reorders sound reorders]
    exact ⟨rfl, rfl⟩
  · rw [settle_of_not_reorders sound reorders]
    exact ⟨rfl, rfl⟩

/-- Sorting field after field succeeds. -/
theorem mapM_sortField (sound : ∀ each ∈ members, each.Sound) (withScripts : Bool) :
    members.mapM (sortField withScripts) = .ok (members.map (settle withScripts)) := by
  induction members with
  | nil => rfl
  | cons member members ih =>
      obtain ⟨memberSound, othersSound⟩ := List.forall_mem_cons.mp sound
      rw [List.mapM_cons, sortField_eq_settle memberSound, ih othersSound]
      rfl

end Fields

/-- A manifest is sorted field by field. -/
theorem SpellsObject.sort_eq {source : Bytes} {members : List Member}
    (spells : SpellsObject members source) (withScripts : Bool) :
    sort source withScripts = .ok (write ((sortBy precedes members).map (settle withScripts))) := by
  rw [sort, spells.parse?]
  simp only [spells.scan, mapM_sortField (spells.sound_sortBy precedes)]
  rfl

/-- A text that is no JSON object is refused as such. -/
theorem sort_eq_error {source : Bytes}
    (refused : ¬∃ object, Json.parse? source = some (.object object)) (withScripts : Bool) :
    ∃ error, sort source withScripts = .error error ∧
      (error = .notJson ∨ error = .notAnObject) := by
  unfold sort
  split
  · exact ⟨_, rfl, Or.inl rfl⟩
  · next object accepted => exact absurd ⟨object, accepted⟩ refused
  · exact ⟨_, rfl, Or.inr rfl⟩

/-- A manifest that is sorted is an object, and its fields are sorted one by one. -/
theorem exists_of_sort_eq_ok {source sorted : Bytes} {withScripts : Bool}
    (isSorted : sort source withScripts = .ok sorted) :
    ∃ members, SpellsObject members source ∧
      sorted = write ((sortBy precedes members).map (settle withScripts)) := by
  have isObject : ∃ object, Json.parse? source = some (.object object) := by
    by_contra refused
    obtain ⟨error, isError, _⟩ := sort_eq_error refused withScripts
    rw [isSorted] at isError
    contradiction
  obtain ⟨object, accepted⟩ := isObject
  obtain ⟨members, spells, _⟩ := exists_spellsObject accepted
  exact ⟨members, spells, Except.ok.inj (isSorted.symm.trans (spells.sort_eq withScripts))⟩

/-- The fields of a sorted manifest are the members that it is cut into. -/
theorem SpellsObject.settled {members : List Member} {source : Bytes}
    (spells : SpellsObject members source) (withScripts : Bool) :
    SpellsObject ((sortBy precedes members).map (settle withScripts))
      (write ((sortBy precedes members).map (settle withScripts))) :=
  spellsObject_write (List.forall_mem_map.mpr fun each inside =>
    (settle_sound (spells.sound_sortBy precedes each inside) withScripts).1)

/-- A manifest that is an object is sorted, and its value stays. -/
theorem exists_sorted_of_object {source : Bytes} {object : JsonObject}
    (accepted : Json.parse? source = some (.object object)) (withScripts : Bool) :
    ∃ sorted, sort source withScripts = .ok sorted ∧
      Json.parse? sorted = some (.object object) := by
  obtain ⟨members, spells, rfl⟩ := exists_spellsObject accepted
  have settled : ∀ each ∈ sortBy precedes members, (settle withScripts each).Sound ∧
      (settle withScripts each).pair = each.pair :=
    fun each inside => settle_sound (spells.sound_sortBy precedes each inside) withScripts
  have pairs : ((sortBy precedes members).map (settle withScripts)).map Member.pair =
      (sortBy precedes members).map Member.pair := by
    rw [List.map_map]
    exact List.map_congr_left fun each inside => (settled each inside).2
  have writes := writes_write (List.forall_mem_map.mpr fun each inside => (settled each inside).1)
  rw [pairs, ofMembers_sortBy isKeyOrder_precedes] at writes
  exact ⟨_, spells.sort_eq withScripts, writes.parse?⟩

/-- Exactly the manifests that are JSON objects are sorted, their value stays, and the others are
refused for what they are. -/
theorem sort_succeeds_exactly_on_objects_and_keeps_value (source : Bytes) (withScripts : Bool) :
    ((∃ sorted, sort source withScripts = .ok sorted) ↔
      ∃ object, Json.parse? source = some (.object object)) ∧
    (∀ sorted, sort source withScripts = .ok sorted → Json.parse? sorted = Json.parse? source) ∧
    ∀ error, sort source withScripts = .error error → error = .notJson ∨ error = .notAnObject := by
  by_cases accepted : ∃ object, Json.parse? source = some (.object object)
  · obtain ⟨object, isObject⟩ := accepted
    obtain ⟨sorted, isSorted, value⟩ := exists_sorted_of_object isObject withScripts
    rw [isSorted, isObject]
    refine ⟨⟨fun _ => ⟨object, rfl⟩, fun _ => ⟨sorted, rfl⟩⟩, ?_, ?_⟩
    · intro other same
      cases same
      exact value
    · intro error same
      contradiction
  · obtain ⟨error, isError, reason⟩ := sort_eq_error accepted withScripts
    rw [isError]
    refine ⟨⟨?_, fun isObject => absurd isObject accepted⟩, ?_, ?_⟩
    · rintro ⟨sorted, same⟩
      contradiction
    · intro sorted same
      contradiction
    · intro other same
      cases same
      exact reason

/-- Of a field written twice the value that stands last stays. -/
theorem sort_succeeds_exactly_on_objects_and_keeps_value_duplicate :
    ∃ sorted, sort "\x7b\"main\":1,\"bugs\":2,\"main\":3\x7d" true = .ok sorted ∧
      Json.parse? sorted = some (.object [("bugs", .ofInt 2), ("main", .ofInt 3)]) := by
  let lexemes : List Lexeme :=
    [⟨.openBrace, "\x7b"⟩,
      ⟨.string "main", "\"main\""⟩, ⟨.colon, ":"⟩, ⟨.number (.signed 1), "1"⟩, ⟨.comma, ","⟩,
      ⟨.string "bugs", "\"bugs\""⟩, ⟨.colon, ":"⟩, ⟨.number (.signed 2), "2"⟩, ⟨.comma, ","⟩,
      ⟨.string "main", "\"main\""⟩, ⟨.colon, ":"⟩, ⟨.number (.signed 3), "3"⟩,
      ⟨.closeBrace, "\x7d"⟩]
  have lexed : Lexed lexemes "\x7b\"main\":1,\"bugs\":2,\"main\":3\x7d" := by
    repeat' first | exact .done isBlank_nil | refine .lexeme isBlank_nil rfl ?_
  have wellFormed : ∀ lexeme ∈ lexemes, Utf8.isWellFormed lexeme.spelling = true := by
    decide
  have object : ([("bugs", .ofInt 2), ("main", .ofInt 3)] : JsonObject) =
      JsonObject.ofMembers [("main", .ofInt 1), ("bugs", .ofInt 2), ("main", .ofInt 3)] := rfl
  have accepted : Json.parse? "\x7b\"main\":1,\"bugs\":2,\"main\":3\x7d" =
      some (.object [("bugs", .ofInt 2), ("main", .ofInt 3)]) := by
    rw [object]
    exact (Json.parse?_eq_some_iff_of_lexed lexed).mpr
      ⟨fun lexeme member => ⟨lexed.spelled lexeme member, wellFormed lexeme member⟩,
        .object (.members _ (.number _) (.members _ (.number _) (.member _ (.number _))))⟩
  obtain ⟨succeeds, keeps, _⟩ := sort_succeeds_exactly_on_objects_and_keeps_value
    "\x7b\"main\":1,\"bugs\":2,\"main\":3\x7d" true
  obtain ⟨sorted, isSorted⟩ := succeeds.mpr ⟨_, accepted⟩
  exact ⟨sorted, isSorted, (keeps sorted isSorted).trans accepted⟩

end FormatServer.Manifest
