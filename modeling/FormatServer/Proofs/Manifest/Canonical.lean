import FormatServer.Proofs.Manifest.Sorting

namespace FormatServer.Manifest

open Lexeme

/-- Whether two fields differ in nothing but the order of the members of a value that is sorted, whose
keys are distinct, and the blanks between them. -/
inductive SameField (withScripts : Bool) : Member → Member → Prop where
  | kept (member : Member) : SameField withScripts member member
  | reordered {member other : Member} {members others : List Member}
      (key : other.key = member.key) (keyText : other.keyText = member.keyText)
      (isSorted : member.key ∈ orderedMaps ∨ (withScripts = true ∧ member.key = scriptsField))
      (spells : SpellsObject members member.value) (otherSpells : SpellsObject others other.value)
      (perm : others.Perm members) (distinct : (members.map (·.key)).Nodup) :
      SameField withScripts member other

/-- Whether manifests with some members, whose keys are distinct, have the same fields in any order. -/
structure SameFields (withScripts : Bool) (members others : List Member) : Prop where
  distinct : (members.map (·.key)).Nodup
  matched : ∃ moved, moved.Perm members ∧ List.Forall₂ (SameField withScripts) moved others

section Settling

variable {withScripts : Bool} {member other : Member}

/-- A field that is sorted is sorted already. -/
theorem settle_settle (sound : member.Sound) :
    settle withScripts (settle withScripts member) = settle withScripts member := by
  have settledSound := (settle_sound sound withScripts).1
  by_cases reorders : ∃ order members, Reorders withScripts member order members
  · obtain ⟨order, members, reorders⟩ := reorders
    have isOrder := isKeyOrder_memberOrder? reorders.isSorted members
    rw [settle_of_reorders sound reorders] at settledSound ⊢
    have again : Reorders withScripts
        { member with value := write (sortBy (order members) members) } order
        (sortBy (order members) members) :=
      ⟨reorders.isSorted, spellsObject_write (reorders.spells.sound_sortBy _)⟩
    rw [settle_of_reorders settledSound again,
      memberOrder?_congr reorders.isSorted (perm_sortBy (order members) members),
      sortBy_of_pairwise (pairwise_sortBy isOrder members)]
  · rw [settle_of_not_reorders sound reorders, settle_of_not_reorders sound reorders]

/-- Fields that differ in nothing but the order of members are sorted into the same field. -/
theorem SameField.settle_eq (same : SameField withScripts member other) (sound : member.Sound)
    (otherSound : other.Sound) : settle withScripts other = settle withScripts member := by
  cases same with
  | kept => rfl
  | @reordered _ members others key keyText isSorted spells otherSpells perm distinct =>
      obtain ⟨order, isSorted⟩ := exists_memberOrder?_iff.mpr isSorted
      have sorted : sortBy (order others) others = sortBy (order members) members := by
        rw [memberOrder?_congr isSorted perm]
        exact sortBy_eq_of_rearranged (isKeyOrder_memberOrder? isSorted members)
          (tellsApart_memberOrder? isSorted members) (rearranged_of_nodup perm distinct)
      rw [settle_of_reorders sound ⟨isSorted, spells⟩,
        settle_of_reorders otherSound ⟨by rwa [key], otherSpells⟩, key, keyText, sorted]

/-- Fields may be sorted one by one before they are moved. -/
theorem map_settle_sortBy {before : Bytes → Bytes → Bool} {members : List Member}
    (sound : ∀ each ∈ members, each.Sound) :
    (sortBy before members).map (settle withScripts) =
      sortBy before (members.map (settle withScripts)) := by
  apply List.map_mergeSort
  intro left isLeft right isRight
  rw [(settle_key (sound left isLeft) withScripts).1, (settle_key (sound right isRight) withScripts).1]

end Settling

/-- The fields of a manifest, as sorting writes them. -/
def canonicalFields (withScripts : Bool) (members : List Member) : List Member :=
  sortBy precedes (members.map (settle withScripts))

section Fields

variable {withScripts : Bool} {members others : List Member}

theorem sound_canonicalFields (sound : ∀ each ∈ members, each.Sound) :
    ∀ each ∈ canonicalFields withScripts members, each.Sound := by
  intro each inside
  obtain ⟨member, isMember, rfl⟩ := List.mem_map.mp (mem_sortBy.mp inside)
  exact (settle_sound (sound member isMember) withScripts).1

/-- Fields that are sorted are sorted already. -/
theorem canonicalFields_canonicalFields (sound : ∀ each ∈ members, each.Sound) :
    canonicalFields withScripts (canonicalFields withScripts members) =
      canonicalFields withScripts members := by
  have settled : (canonicalFields withScripts members).map (settle withScripts) =
      canonicalFields withScripts members := by
    rw [canonicalFields, ← map_settle_sortBy sound, List.map_map]
    refine List.map_congr_left fun each inside => ?_
    exact settle_settle (sound each (mem_sortBy.mp inside))
  have inOrder := pairwise_sortBy isKeyOrder_precedes (members.map (settle withScripts))
  rw [canonicalFields, settled]
  exact sortBy_of_pairwise inOrder

/-- Alike fields are sorted into the same fields. -/
theorem map_settle_eq {moved : List Member}
    (matched : List.Forall₂ (SameField withScripts) moved others)
    (sound : ∀ each ∈ moved, each.Sound) (otherSound : ∀ each ∈ others, each.Sound) :
    others.map (settle withScripts) = moved.map (settle withScripts) := by
  induction matched with
  | nil => rfl
  | cons first _ ih =>
      obtain ⟨memberSound, sound⟩ := List.forall_mem_cons.mp sound
      obtain ⟨otherMemberSound, otherSound⟩ := List.forall_mem_cons.mp otherSound
      rw [List.map_cons, List.map_cons, first.settle_eq memberSound otherMemberSound,
        ih sound otherSound]

/-- The same fields are sorted into the same fields, wherever they stood. -/
theorem SameFields.canonicalFields_eq (alike : SameFields withScripts members others)
    (sound : ∀ each ∈ members, each.Sound) (otherSound : ∀ each ∈ others, each.Sound) :
    canonicalFields withScripts others = canonicalFields withScripts members := by
  obtain ⟨moved, perm, matched⟩ := alike.matched
  have movedSound : ∀ each ∈ moved, each.Sound := fun each inside =>
    sound each (perm.mem_iff.mp inside)
  have keys : (members.map (settle withScripts)).map (·.key) = members.map (·.key) := by
    rw [List.map_map]
    exact List.map_congr_left fun each inside => (settle_key (sound each inside) withScripts).1
  have rearranged : Rearranged (members.map (settle withScripts)) (moved.map (settle withScripts)) :=
    rearranged_of_nodup (perm.map _) (keys ▸ alike.distinct)
  rw [canonicalFields, map_settle_eq matched movedSound otherSound]
  exact sortBy_eq_of_rearranged isKeyOrder_precedes tellsApart_precedes rearranged

/-- A manifest is sorted into the canonical form of its fields. -/
theorem SpellsObject.sort_eq_canonical {source : Bytes} (spells : SpellsObject members source)
    (withScripts : Bool) :
    sort source withScripts = .ok (write (canonicalFields withScripts members)) := by
  rw [spells.sort_eq, map_settle_sortBy spells.sound, canonicalFields]

end Fields

/-- Exactly the objects are sorted, a sorted manifest is its own sorted form, and manifests with the
same fields, in any order and with any blanks between them, have one sorted form. -/
theorem sorting_is_canonical (withScripts : Bool) :
    (∀ source, (∃ sorted, sort source withScripts = .ok sorted) ↔
      ∃ members, SpellsObject members source) ∧
    (∀ source sorted, sort source withScripts = .ok sorted →
      sort sorted withScripts = .ok sorted) ∧
    ∀ source other members others, SpellsObject members source → SpellsObject others other →
      SameFields withScripts members others → sort other withScripts = sort source withScripts := by
  refine ⟨fun source => ⟨?_, ?_⟩, ?_, ?_⟩
  · rintro ⟨sorted, isSorted⟩
    obtain ⟨members, spells, _⟩ := exists_of_sort_eq_ok isSorted
    exact ⟨members, spells⟩
  · rintro ⟨members, spells⟩
    exact ⟨_, spells.sort_eq withScripts⟩
  · intro source sorted isSorted
    obtain ⟨members, spells, _⟩ := exists_of_sort_eq_ok isSorted
    have isCanonical := Except.ok.inj (isSorted.symm.trans (spells.sort_eq_canonical withScripts))
    have spellsSorted : SpellsObject (canonicalFields withScripts members) sorted :=
      isCanonical ▸ spellsObject_write (sound_canonicalFields spells.sound)
    rw [spellsSorted.sort_eq_canonical, canonicalFields_canonicalFields spells.sound, isCanonical]
  · intro source other members others spells otherSpells alike
    rw [spells.sort_eq_canonical, otherSpells.sort_eq_canonical,
      alike.canonicalFields_eq spells.sound otherSpells.sound]

/-- A script and its hook are put in order wherever they stand. -/
theorem sorting_is_canonical_scripts :
    ∃ sorted,
      sort "\x7b\"scripts\":\x7b\"test\":1,\"pretest\":2\x7d,\"name\":3\x7d" true = .ok sorted ∧
      sort "\x7b \"name\" :3,\n\"scripts\":\x7b\"pretest\":2,\"test\":1\x7d\x7d" true =
        .ok sorted ∧
      sort sorted true = .ok sorted := by
  let test : Member := ⟨"test", "\"test\"", "1"⟩
  let hook : Member := ⟨"pretest", "\"pretest\"", "2"⟩
  let name : Member := ⟨"name", "\"name\"", "3"⟩
  let scripts (members : List Member) : Member := ⟨"scripts", "\"scripts\"", write members⟩
  have testSound : test.Sound :=
    Member.sound_of_read? rfl (by decide) rfl (by decide) (.number (.signed 1))
  have hookSound : hook.Sound :=
    Member.sound_of_read? rfl (by decide) rfl (by decide) (.number (.signed 2))
  have nameSound : name.Sound :=
    Member.sound_of_read? rfl (by decide) rfl (by decide) (.number (.signed 3))
  have sound : ∀ each ∈ [test, hook], each.Sound := by simp [testSound, hookSound]
  have otherSound : ∀ each ∈ [hook, test], each.Sound := by simp [testSound, hookSound]
  have scriptsSound {members : List Member} (sound : ∀ each ∈ members, each.Sound) :
      (scripts members).Sound :=
    (sound_of_writes (lexeme_sound_of_read? rfl (by decide)) (writes_write sound)).1
  have spells : SpellsObject [scripts [test, hook], name] _ :=
    spellsObject_write (by simp [scriptsSound sound, nameSound])
  have otherSpells : SpellsObject [name, scripts [hook, test]]
      "\x7b \"name\" :3,\n\"scripts\":\x7b\"pretest\":2,\"test\":1\x7d\x7d" := by
    refine ⟨by simp [scriptsSound otherSound, nameSound], [], _, [], isBlank_nil, isBlank_nil,
      .next ⟨" ", " ", [], [], .cons rfl isBlank_nil, .cons rfl isBlank_nil, isBlank_nil, isBlank_nil,
        rfl⟩ (by simp) (.last ⟨"\n", [], [], [], .cons rfl isBlank_nil, isBlank_nil, isBlank_nil,
          isBlank_nil, rfl⟩), rfl⟩
  have same : SameField true (scripts [test, hook]) (scripts [hook, test]) :=
    .reordered rfl rfl (Or.inr ⟨rfl, rfl⟩) (spellsObject_write sound) (spellsObject_write otherSound)
      (List.Perm.swap test hook []) (by decide)
  obtain ⟨succeeds, again, alike⟩ := sorting_is_canonical true
  obtain ⟨sorted, isSorted⟩ := (succeeds _).mpr ⟨_, spells⟩
  have otherSorted := alike _ _ _ _ spells otherSpells ⟨by decide, [name, scripts [test, hook]],
    List.Perm.swap _ _ [], .cons (.kept name) (.cons same .nil)⟩
  exact ⟨sorted, isSorted, otherSorted.trans isSorted, again _ _ isSorted⟩

end FormatServer.Manifest
