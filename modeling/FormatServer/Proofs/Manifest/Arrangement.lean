import FormatServer.Proofs.Manifest.Sorting

namespace FormatServer.Manifest

/-- The groups that the fields of a sorted manifest stand in: those with a place of their own by
their places, the others and those that start with an underscore by their bytes. -/
structure FieldGroups (ranked others marked : List Bytes) : Prop where
  areRanked : ∀ name ∈ ranked, name ∈ rankedFields
  rankedByPlace : ranked.Pairwise fun left right =>
    rankedFields.idxOf left ≤ rankedFields.idxOf right
  areOthers : ∀ name ∈ others, name ∉ rankedFields ∧ name.head? ≠ some Ascii.underscore
  othersByBytes : others.Pairwise (· ≤ ·)
  areMarked : ∀ name ∈ marked, name ∉ rankedFields ∧ name.head? = some Ascii.underscore
  markedByBytes : marked.Pairwise (· ≤ ·)

/-- Whether a member is written as a field of a sorted manifest: with its bytes, unless its value is
an object that is sorted. -/
structure WrittenAs (withScripts : Bool) (member field : Member) : Prop where
  key : field.key = member.key
  keyText : field.keyText = member.keyText
  unsorted : member.key ∉ orderedMaps → ¬(withScripts = true ∧ member.key = scriptsField) →
    field.value = member.value
  notObject : (∀ members, ¬SpellsObject members member.value) → field.value = member.value
  map : member.key ∈ orderedMaps → ∀ members, SpellsObject members member.value →
    ∃ moved, Rearranged members moved ∧ (moved.map (·.key)).Pairwise (· ≤ ·) ∧
      field.value = compactText moved
  scripts : withScripts = true → member.key = scriptsField →
    ∀ members, SpellsObject members member.value →
      ∃ moved, Rearranged members moved ∧ field.value = compactText moved

/-- Whether a text is a manifest sorted, where the members of the manifest are moved and then written
as the fields of the text. -/
structure ArrangedFrom (withScripts : Bool) (source sorted : Bytes)
    (members moved fields : List Member) : Prop where
  membersOf : ∀ others, SpellsObject others source ↔ others = members
  rearranged : Rearranged members moved
  groups : ∃ ranked others marked, moved.map (·.key) = ranked ++ others ++ marked ∧
    FieldGroups ranked others marked
  written : List.Forall₂ (WrittenAs withScripts) moved fields
  fieldsOf : ∀ others, SpellsObject others sorted ↔ others = fields
  compact : sorted = compactText fields

section Groups

/-- In front of a field with a place of its own stand fields with places of their own. -/
theorem ranked_of_not_precedes {left right : Bytes} (notBehind : precedes right left = false)
    (ranked : right ∈ rankedFields) : left ∈ rankedFields := by
  rw [mem_rankedFields_iff] at ranked ⊢
  exact Nat.lt_of_le_of_lt (place_of_not_precedes notBehind).1 ranked

/-- Fields with places of their own stand by their places. -/
theorem idxOf_le_of_not_precedes {left right : Bytes} (notBehind : precedes right left = false)
    (leftRanked : left ∈ rankedFields) (rightRanked : right ∈ rankedFields) :
    rankedFields.idxOf left ≤ rankedFields.idxOf right := by
  rw [← fieldPlace_of_mem leftRanked, ← fieldPlace_of_mem rightRanked]
  exact (place_of_not_precedes notBehind).1

/-- Fields that start with an underscore stand behind the others. -/
theorem unmarked_of_not_precedes {left right : Bytes} (notBehind : precedes right left = false)
    (leftUnranked : left ∉ rankedFields) (rightUnranked : right ∉ rankedFields)
    (unmarked : right.head? ≠ some Ascii.underscore) : left.head? ≠ some Ascii.underscore := by
  intro marked
  have places := (place_of_not_precedes notBehind).1
  rw [fieldPlace_of_notMem leftUnranked, fieldPlace_of_notMem rightUnranked, if_pos marked,
    if_neg unmarked] at places
  exact absurd places (Nat.not_succ_le_self _)

/-- Other fields stand by their bytes, and so do those that start with an underscore. -/
theorem le_of_not_precedes {left right : Bytes} (notBehind : precedes right left = false)
    (leftUnranked : left ∉ rankedFields) (rightUnranked : right ∉ rankedFields)
    (sameMark : left.head? = some Ascii.underscore ↔ right.head? = some Ascii.underscore) :
    left ≤ right := by
  have samePlace : fieldPlace left = fieldPlace right := by
    rw [fieldPlace_of_notMem leftUnranked, fieldPlace_of_notMem rightUnranked]
    simp only [sameMark]
  have tie := (place_of_not_precedes notBehind).2 samePlace
  rwa [fieldTie_of_notMem leftUnranked, fieldTie_of_notMem rightUnranked] at tie

/-- Where a property passes to what stands in front, what has it stands in front of the rest. -/
theorem exists_split_of_passes {property : Bytes → Prop} {names : List Bytes}
    (passes : names.Pairwise fun left right => property right → property left) :
    ∃ front back, names = front ++ back ∧ (∀ name ∈ front, property name) ∧
      ∀ name ∈ back, ¬property name := by
  induction names with
  | nil => exact ⟨[], [], rfl, by simp, by simp⟩
  | cons first names ih =>
      obtain ⟨toFirst, passes⟩ := List.pairwise_cons.mp passes
      by_cases has : property first
      · obtain ⟨front, back, rfl, frontHas, backLacks⟩ := ih passes
        exact ⟨first :: front, back, rfl, List.forall_mem_cons.mpr ⟨has, frontHas⟩, backLacks⟩
      · exact ⟨[], first :: names, rfl, by simp, List.forall_mem_cons.mpr
          ⟨has, fun name later hasLater => has (toFirst name later hasLater)⟩⟩

/-- Names none of which precedes one in front of it stand in their groups. -/
theorem exists_fieldGroups {names : List Bytes}
    (sorted : names.Pairwise fun left right => precedes right left = false) :
    ∃ ranked others marked, names = ranked ++ others ++ marked ∧
      FieldGroups ranked others marked := by
  obtain ⟨ranked, unranked, rfl, areRanked, areUnranked⟩ :=
    exists_split_of_passes (sorted.imp ranked_of_not_precedes)
  obtain ⟨rankedSorted, unrankedSorted, _⟩ := List.pairwise_append.mp sorted
  -- Only among fields without a rank does the underscore count.
  have unmarkedPass : unranked.Pairwise fun left right =>
      right.head? ≠ some Ascii.underscore → left.head? ≠ some Ascii.underscore :=
    unrankedSorted.imp_of_mem fun isLeft isRight notBehind =>
      unmarked_of_not_precedes notBehind (areUnranked _ isLeft) (areUnranked _ isRight)
  obtain ⟨others, marked, rfl, unmarked, areMarked⟩ := exists_split_of_passes unmarkedPass
  obtain ⟨othersSorted, markedSorted, _⟩ := List.pairwise_append.mp unrankedSorted
  obtain ⟨othersUnranked, markedUnranked⟩ := List.forall_mem_append.mp areUnranked
  simp only [not_not] at areMarked
  refine ⟨ranked, others, marked, by rw [List.append_assoc], areRanked, ?_,
    fun name inside => ⟨othersUnranked name inside, unmarked name inside⟩, ?_,
    fun name inside => ⟨markedUnranked name inside, areMarked name inside⟩, ?_⟩
  · exact rankedSorted.imp_of_mem fun isLeft isRight notBehind =>
      idxOf_le_of_not_precedes notBehind (areRanked _ isLeft) (areRanked _ isRight)
  · exact othersSorted.imp_of_mem fun isLeft isRight notBehind =>
      le_of_not_precedes notBehind (othersUnranked _ isLeft) (othersUnranked _ isRight)
        (iff_of_false (unmarked _ isLeft) (unmarked _ isRight))
  · exact markedSorted.imp_of_mem fun isLeft isRight notBehind =>
      le_of_not_precedes notBehind (markedUnranked _ isLeft) (markedUnranked _ isRight)
        (iff_of_true (areMarked _ isLeft) (areMarked _ isRight))

end Groups

section Fields

variable {withScripts : Bool} {member : Member}

/-- The members of an object are written between the marks. -/
theorem value_settle_of_spellsObject (sound : member.Sound) {members : List Member}
    {order : List Member → Bytes → Bytes → Bool}
    (isSorted : memberOrder? withScripts member.key = some order)
    (spells : SpellsObject members member.value) :
    (settle withScripts member).value = compactText (sortBy (order members) members) := by
  rw [settle_of_reorders sound ⟨isSorted, spells⟩, write_eq_compactText]

/-- A field is written with the bytes that it was written with. -/
theorem writtenAs_settle (sound : member.Sound) :
    WrittenAs withScripts member (settle withScripts member) where
  key := (settle_key sound withScripts).1
  keyText := (settle_key sound withScripts).2
  unsorted notMap notScripts := by
    rw [settle_of_not_reorders sound]
    rintro ⟨order, members, isSorted, _⟩
    rcases exists_memberOrder?_iff.mp ⟨order, isSorted⟩ with isMap | isScripts
    · exact notMap isMap
    · exact notScripts isScripts
  notObject notObject := by
    rw [settle_of_not_reorders sound]
    rintro ⟨order, members, _, spells⟩
    exact notObject members spells
  map isMap members spells := by
    refine ⟨_, rearranged_sortBy isKeyOrder_bytes members, ?_,
      value_settle_of_spellsObject sound (memberOrder?_of_mem isMap) spells⟩
    rw [List.pairwise_map]
    exact (pairwise_sortBy isKeyOrder_bytes members).imp fun notBehind =>
      Std.not_lt.mp (of_decide_eq_false notBehind)
  scripts asked isScripts members spells := by
    obtain ⟨order, isSorted⟩ := exists_memberOrder?_iff.mpr (Or.inr ⟨asked, isScripts⟩)
    exact ⟨_, rearranged_sortBy (isKeyOrder_memberOrder? isSorted members) members,
      value_settle_of_spellsObject sound isSorted spells⟩

end Fields

/-- A sorted manifest is the compact object of the members of the manifest, with the bytes that they
were written with but for the objects that are sorted. Conventional fields come first, then the
others, then those that start with an underscore, and members with one key keep their order. -/
theorem sorted_manifest_moves_members_verbatim {source sorted : Bytes} {withScripts : Bool}
    (isSorted : sort source withScripts = .ok sorted) :
    ∃ members moved fields, ArrangedFrom withScripts source sorted members moved fields := by
  obtain ⟨members, spells, rfl⟩ := exists_of_sort_eq_ok isSorted
  refine ⟨members, sortBy precedes members, (sortBy precedes members).map (settle withScripts), ?_⟩
  have inOrder := pairwise_sortBy isKeyOrder_precedes members
  exact {
    membersOf := spells.iff_eq
    rearranged := rearranged_sortBy isKeyOrder_precedes members
    groups := exists_fieldGroups (List.pairwise_map.mpr inOrder)
    written := by
      rw [List.forall₂_map_right_iff, List.forall₂_same]
      exact fun each inside => writtenAs_settle (spells.sound_sortBy precedes each inside)
    fieldsOf := (spells.settled withScripts).iff_eq
    compact := write_eq_compactText _ }

/-- The name moves to the front, and the engines are put in order. -/
theorem sorted_manifest_moves_members_verbatim_engines :
    sort "\x7b\"engines\":\x7b\"b\":1,\"a\":2\x7d,\"name\":3\x7d" false =
        .ok "\x7b\"name\":3,\"engines\":\x7b\"a\":2,\"b\":1\x7d\x7d" ∧
      ∃ members moved fields, ArrangedFrom false
        "\x7b\"engines\":\x7b\"b\":1,\"a\":2\x7d,\"name\":3\x7d"
        "\x7b\"name\":3,\"engines\":\x7b\"a\":2,\"b\":1\x7d\x7d" members moved fields := by
  let first : Member := ⟨"b", "\"b\"", "1"⟩
  let second : Member := ⟨"a", "\"a\"", "2"⟩
  let engines : Member := ⟨"engines", "\"engines\"", "\x7b\"b\":1,\"a\":2\x7d"⟩
  let name : Member := ⟨"name", "\"name\"", "3"⟩
  have firstSound : first.Sound :=
    Member.sound_of_read? rfl (by decide) rfl (by decide) (.number (.signed 1))
  have secondSound : second.Sound :=
    Member.sound_of_read? rfl (by decide) rfl (by decide) (.number (.signed 2))
  have nameSound : name.Sound :=
    Member.sound_of_read? rfl (by decide) rfl (by decide) (.number (.signed 3))
  have innerSound : ∀ each ∈ [first, second], each.Sound := by simp [firstSound, secondSound]
  have enginesSound : engines.Sound :=
    (sound_of_writes (lexeme_sound_of_read? rfl (by decide)) (writes_write innerSound)).1
  have sound : ∀ each ∈ [engines, name], each.Sound := by simp [enginesSound, nameSound]
  have moved : sortBy precedes [engines, name] = [name, engines] :=
    sortBy_eq isKeyOrder_precedes tellsApart_precedes
      (rearranged_of_nodup (List.Perm.swap engines name []) (by decide)) (by decide +kernel)
  have inner : sortBy (fun left right => decide (left < right)) [first, second] = [second, first] :=
    sortBy_eq isKeyOrder_bytes tellsApart_bytes
      (rearranged_of_nodup (List.Perm.swap first second []) (by decide)) (by decide)
  have namePlain : ¬∃ order members, Reorders false name order members := by
    rintro ⟨order, members, isSorted, _⟩
    rcases exists_memberOrder?_iff.mp ⟨order, isSorted⟩ with isMap | ⟨asked, _⟩
    · exact absurd isMap (by decide)
    · contradiction
  have isSorted := (spellsObject_write sound).sort_eq false
  rw [moved, List.map_cons, List.map_singleton, settle_of_not_reorders nameSound namePlain,
    settle_of_reorders enginesSound ⟨memberOrder?_of_mem (by decide), spellsObject_write innerSound⟩,
    inner] at isSorted
  exact ⟨isSorted, sorted_manifest_moves_members_verbatim isSorted⟩

end FormatServer.Manifest
