import FormatServer.Manifest.Sort
import Mathlib.Data.List.Nodup

namespace FormatServer.Manifest

/-- An order of keys in which every two can be compared: none stands before one that stands before
it, and what does not stand behind can be passed on. -/
structure IsKeyOrder (before : Bytes → Bytes → Bool) : Prop where
  asymm : ∀ left right, before left right = true → before right left = false
  trans : ∀ left middle right, before middle left = false → before right middle = false →
    before right left = false

section Orders

/-- No key stands before itself. -/
theorem IsKeyOrder.irrefl {before : Bytes → Bytes → Bool} (order : IsKeyOrder before)
    (key : Bytes) : before key key = false := by
  cases same : before key key with
  | false => rfl
  | true => rw [order.asymm key key same] at same; contradiction

/-- Keys may be ordered by what is read off them. -/
theorem isKeyOrder_lt {α : Type} [LT α] [LE α] [Std.IsLinearOrder α] [Std.LawfulOrderLT α]
    [DecidableLT α] (read : Bytes → α) :
    IsKeyOrder fun left right => decide (read left < read right) where
  asymm left right before := by
    have less := of_decide_eq_true before
    exact decide_eq_false (Std.not_lt.mpr (Std.le_of_lt less))
  trans left middle right first second := by
    have low := Std.not_lt.mp (of_decide_eq_false first)
    have high := Std.not_lt.mp (of_decide_eq_false second)
    exact decide_eq_false (Std.not_lt.mpr (Std.le_trans low high))

/-- Keys may be ordered by their bytes. -/
theorem isKeyOrder_bytes : IsKeyOrder fun left right => decide (left < right) :=
  isKeyOrder_lt id

/-- Keys that one order does not tell apart may be ordered by another. -/
theorem IsKeyOrder.lex {first second : Bytes → Bytes → Bool} (firstOrder : IsKeyOrder first)
    (secondOrder : IsKeyOrder second) :
    IsKeyOrder fun left right => first left right || (!first right left && second left right) where
  asymm left right before := by
    have asymm := firstOrder.asymm left right
    have secondAsymm := secondOrder.asymm left right
    simp only [Bool.or_eq_true, Bool.and_eq_true, Bool.not_eq_true'] at before
    rcases before with before | ⟨notBehind, before⟩
    · simp [asymm before, before]
    · simp [notBehind, secondAsymm before]
  trans left middle right firstNot secondNot := by
    simp only [Bool.or_eq_false_iff, Bool.and_eq_false_iff, Bool.not_eq_false'] at firstNot secondNot ⊢
    obtain ⟨firstFirst, firstRest⟩ := firstNot
    obtain ⟨secondFirst, secondRest⟩ := secondNot
    refine ⟨firstOrder.trans left middle right firstFirst secondFirst, ?_⟩
    cases apart : first left right with
    | true => exact Or.inl rfl
    | false =>
        -- The first order tells none of the three apart.
        have lower := firstOrder.trans middle right left secondFirst apart
        have upper := firstOrder.trans right left middle apart firstFirst
        exact Or.inr (secondOrder.trans left middle right
          (firstRest.resolve_left (by simp [lower])) (secondRest.resolve_left (by simp [upper])))

/-- The place of a field: conventional fields by their rank, then the others, then those that start
with an underscore. -/
def fieldPlace (name : Bytes) : Nat :=
  match rankedFields.idxOf? name with
  | some place => place
  | none =>
    if name.head? == some Ascii.underscore then rankedFields.length + 1 else rankedFields.length

/-- What tells fields of one place apart. -/
def fieldTie (name : Bytes) : Bytes :=
  match rankedFields.idxOf? name with
  | some _ => []
  | none => name

theorem fieldPlace_lt {name : Bytes} {place : Nat} (found : rankedFields.idxOf? name = some place) :
    place < rankedFields.length := by
  rw [List.idxOf?_eq_some_iff] at found
  obtain ⟨inside, _⟩ := found
  exact inside

/-- The order of fields compares places first. -/
theorem precedes_eq (left right : Bytes) :
    precedes left right = (decide (fieldPlace left < fieldPlace right) ||
      (!decide (fieldPlace right < fieldPlace left) && decide (fieldTie left < fieldTie right))) := by
  unfold precedes fieldPlace fieldTie
  cases foundLeft : rankedFields.idxOf? left with
  | none =>
      cases foundRight : rankedFields.idxOf? right with
      | none =>
          cases leftMarked : left.head? == some Ascii.underscore with
          | false =>
              cases rightMarked : right.head? == some Ascii.underscore with
              | false => simp
              | true => simp
          | true =>
              cases rightMarked : right.head? == some Ascii.underscore with
              | false => simp
              | true => simp
      | some place =>
          have bound := fieldPlace_lt foundRight
          cases leftMarked : left.head? == some Ascii.underscore with
          | false => simp [bound, Nat.le_of_lt bound]
          | true => simp [Nat.lt_succ_of_lt bound, Nat.le_succ_of_le (Nat.le_of_lt bound)]
  | some place =>
      cases foundRight : rankedFields.idxOf? right with
      | none =>
          have bound := fieldPlace_lt foundLeft
          cases rightMarked : right.head? == some Ascii.underscore with
          | false => simp [bound]
          | true => simp [Nat.lt_succ_of_lt bound]
      | some other => simp

/-- The order of fields is an order of keys. -/
theorem isKeyOrder_precedes : IsKeyOrder precedes := by
  have same : precedes = fun left right => (decide (fieldPlace left < fieldPlace right) ||
      (!decide (fieldPlace right < fieldPlace left) && decide (fieldTie left < fieldTie right))) :=
    funext fun left => funext fun right => precedes_eq left right
  rw [same]
  exact (isKeyOrder_lt fieldPlace).lex (isKeyOrder_lt fieldTie)

/-- The order of scripts compares the scripts that they belong to first. -/
theorem scriptPrecedes_eq (names : List Bytes) (left right : Bytes) :
    scriptPrecedes names left right =
      (decide ((hookOf names left).1 < (hookOf names right).1) ||
        (!decide ((hookOf names right).1 < (hookOf names left).1) &&
          decide ((hookOf names left).2.rank < (hookOf names right).2.rank))) := by
  unfold scriptPrecedes
  obtain ⟨base, kind⟩ := hookOf names left
  obtain ⟨otherBase, otherKind⟩ := hookOf names right
  rcases Std.lt_trichotomy base otherBase with before | rfl | after
  · simp [before]
  · simp [List.lt_irrefl base]
  · have notBefore : ¬base < otherBase := Std.not_lt.mpr (Std.le_of_lt after)
    have differ : base ≠ otherBase := fun same => List.lt_irrefl base (same ▸ after)
    simp [after, notBefore, differ]

/-- The order of scripts is an order of keys. -/
theorem isKeyOrder_scriptPrecedes (names : List Bytes) : IsKeyOrder (scriptPrecedes names) := by
  have same : scriptPrecedes names = fun left right =>
      (decide ((hookOf names left).1 < (hookOf names right).1) ||
        (!decide ((hookOf names right).1 < (hookOf names left).1) &&
          decide ((hookOf names left).2.rank < (hookOf names right).2.rank))) :=
    funext fun left => funext fun right => scriptPrecedes_eq names left right
  rw [same]
  exact (isKeyOrder_lt fun name => (hookOf names name).1).lex
    (isKeyOrder_lt fun name => (hookOf names name).2.rank)

theorem fieldPlace_of_mem {name : Bytes} (ranked : name ∈ rankedFields) :
    fieldPlace name = rankedFields.idxOf name := by
  unfold fieldPlace
  cases found : rankedFields.idxOf? name with
  | none => exact absurd ranked (List.idxOf?_eq_none_iff.mp found)
  | some place => rw [List.idxOf_eq_getD_idxOf?, found]; rfl

theorem fieldPlace_of_notMem {name : Bytes} (unranked : name ∉ rankedFields) :
    fieldPlace name = if name.head? = some Ascii.underscore then rankedFields.length + 1
      else rankedFields.length := by
  rw [fieldPlace, List.idxOf?_eq_none_iff.mpr unranked]
  simp

theorem fieldTie_of_notMem {name : Bytes} (unranked : name ∉ rankedFields) :
    fieldTie name = name := by
  rw [fieldTie, List.idxOf?_eq_none_iff.mpr unranked]

theorem mem_rankedFields_iff {name : Bytes} :
    name ∈ rankedFields ↔ fieldPlace name < rankedFields.length := by
  by_cases ranked : name ∈ rankedFields
  · rw [fieldPlace_of_mem ranked, List.idxOf_lt_length_iff]
  · rw [fieldPlace_of_notMem ranked]
    refine iff_of_false ranked ?_
    split
    · omega
    · omega

/-- A field that does not stand behind another has no place behind it, and in one place its bytes
are not behind either. -/
theorem place_of_not_precedes {left right : Bytes} (notBehind : precedes right left = false) :
    fieldPlace left ≤ fieldPlace right ∧
      (fieldPlace left = fieldPlace right → fieldTie left ≤ fieldTie right) := by
  rw [precedes_eq] at notBehind
  simp only [Bool.or_eq_false_iff, Bool.and_eq_false_iff, Bool.not_eq_false', decide_eq_true_eq,
    decide_eq_false_iff_not] at notBehind
  obtain ⟨notBefore, tie⟩ := notBehind
  refine ⟨Nat.le_of_not_lt notBefore, fun same => ?_⟩
  exact Std.not_lt.mp (tie.resolve_left (by omega))

/-- Whether an order tells any two keys apart. -/
def TellsApart (before : Bytes → Bytes → Bool) : Prop :=
  ∀ left right, before left right = false → before right left = false → left = right

theorem tellsApart_bytes : TellsApart fun left right => decide (left < right) := by
  intro left right notBefore notBehind
  exact Std.le_antisymm (Std.not_lt.mp (of_decide_eq_false notBehind))
    (Std.not_lt.mp (of_decide_eq_false notBefore))

/-- The order of fields tells any two of them apart. -/
theorem tellsApart_precedes : TellsApart precedes := by
  intro left right notBefore notBehind
  obtain ⟨low, lowTie⟩ := place_of_not_precedes notBehind
  obtain ⟨high, highTie⟩ := place_of_not_precedes notBefore
  have samePlace := Nat.le_antisymm low high
  have sameTie := Std.le_antisymm (lowTie samePlace) (highTie samePlace.symm)
  by_cases ranked : left ∈ rankedFields
  · have otherRanked : right ∈ rankedFields := by
      rwa [mem_rankedFields_iff, ← samePlace, ← mem_rankedFields_iff]
    rw [fieldPlace_of_mem ranked, fieldPlace_of_mem otherRanked] at samePlace
    exact (List.idxOf_inj ranked).mp samePlace
  · have otherUnranked : right ∉ rankedFields := by
      rwa [mem_rankedFields_iff, ← samePlace, ← mem_rankedFields_iff]
    rwa [fieldTie_of_notMem ranked, fieldTie_of_notMem otherUnranked] at sameTie

/-- What a hook of a kind has in front of the name of its script. -/
def HookKind.mark : HookKind → Bytes
  | .pre => "pre"
  | .script => []
  | .post => "post"

/-- The script that a name is a hook of, if it is one of a kind. -/
def hookWith? (names : List Bytes) (name : Bytes) (kind : HookKind) : Option (Bytes × HookKind) :=
  match name.after? kind.mark with
  | some base => if names.contains base then some (base, kind) else none
  | none => none

theorem hookOf_eq (names : List Bytes) (name : Bytes) :
    hookOf names name = ((hookWith? names name .pre).orElse fun _ =>
      hookWith? names name .post).getD (name, .script) :=
  rfl

/-- A hook is found by its mark if its script is there. -/
theorem hookWith?_eq_some_iff {names : List Bytes} {name script : Bytes} {kind found : HookKind} :
    hookWith? names name kind = some (script, found) ↔
      found = kind ∧ script ∈ names ∧ name = kind.mark ++ script := by
  rw [← Bytes.after?_eq_some_iff]
  unfold hookWith?
  cases name.after? kind.mark with
  | none => simp
  | some base =>
      by_cases isScript : base ∈ names
      · simp only [List.contains_iff_mem, isScript, if_true, Option.some.injEq, Prod.mk.injEq]
        grind
      · simp only [List.contains_iff_mem, isScript, if_false, Option.some.injEq]
        grind

/-- A script is named for its kind and for the script that it belongs to. -/
theorem eq_mark_append_hookOf (names : List Bytes) (name : Bytes) :
    name = (hookOf names name).2.mark ++ (hookOf names name).1 := by
  rw [hookOf_eq]
  cases before : hookWith? names name .pre with
  | some found =>
      obtain ⟨isPre, _, named⟩ := hookWith?_eq_some_iff.mp before
      rwa [← isPre] at named
  | none =>
      cases behind : hookWith? names name .post with
      | some found =>
          obtain ⟨isPost, _, named⟩ := hookWith?_eq_some_iff.mp behind
          rwa [← isPost] at named
      | none => rfl

theorem HookKind.eq_of_rank {kind other : HookKind} (same : kind.rank = other.rank) :
    kind = other := by
  cases kind <;> cases other <;> simp_all [HookKind.rank]

/-- The order of scripts tells any two of them apart. -/
theorem tellsApart_scriptPrecedes (names : List Bytes) : TellsApart (scriptPrecedes names) := by
  intro left right notBefore notBehind
  rw [scriptPrecedes_eq] at notBefore notBehind
  simp only [Bool.or_eq_false_iff, Bool.and_eq_false_iff, Bool.not_eq_false', decide_eq_true_eq,
    decide_eq_false_iff_not] at notBefore notBehind
  have sameBase := Std.le_antisymm (Std.not_lt.mp notBehind.1) (Std.not_lt.mp notBefore.1)
  have low := Nat.le_of_not_lt (notBehind.2.resolve_left notBefore.1)
  have high := Nat.le_of_not_lt (notBefore.2.resolve_left notBehind.1)
  have sameKind := HookKind.eq_of_rank (Nat.le_antisymm low high)
  rw [eq_mark_append_hookOf names left, eq_mark_append_hookOf names right, sameBase, sameKind]

end Orders

/-- Whether members are others in an order that leaves those with one key in theirs. -/
structure Rearranged (members others : List Member) : Prop where
  perm : others.Perm members
  stable : ∀ key, others.filter (·.key = key) = members.filter (·.key = key)

section Rearranging

theorem Rearranged.symm {members others : List Member} (rearranged : Rearranged members others) :
    Rearranged others members :=
  ⟨rearranged.perm.symm, fun key => (rearranged.stable key).symm⟩

theorem Rearranged.trans {members others more : List Member} (first : Rearranged members others)
    (second : Rearranged others more) : Rearranged members more :=
  ⟨second.perm.trans first.perm, fun key => (second.stable key).trans (first.stable key)⟩

/-- Members with distinct keys may stand in any order. -/
theorem rearranged_of_nodup {members others : List Member} (perm : others.Perm members)
    (distinct : (members.map (·.key)).Nodup) : Rearranged members others := by
  refine ⟨perm, fun key => ?_⟩
  have once : (members.filter (·.key = key)).length ≤ 1 := by
    have counted := List.nodup_iff_count_le_one.mp distinct key
    rw [List.count_eq_countP, List.countP_map, List.countP_eq_length_filter] at counted
    simpa [Function.comp_def, beq_eq_decide] using counted
  have filtered := perm.filter (·.key = key)
  cases alone : members.filter (·.key = key) with
  | nil => rw [alone] at filtered; exact filtered.eq_nil
  | cons member rest =>
      rw [alone] at once filtered
      obtain rfl := List.eq_nil_of_length_eq_zero (Nat.le_zero.mp (Nat.le_of_succ_le_succ once))
      exact List.perm_singleton.mp filtered

/-- Members in an order that tells keys apart can be rearranged in no other way into that order. -/
theorem Rearranged.eq_of_pairwise {before : Bytes → Bytes → Bool} (apart : TellsApart before)
    {members others : List Member} (rearranged : Rearranged members others)
    (sorted : members.Pairwise fun left right => before right.key left.key = false)
    (othersSorted : others.Pairwise fun left right => before right.key left.key = false) :
    others = members := by
  induction members generalizing others with
  | nil => exact rearranged.perm.eq_nil
  | cons member members ih =>
      cases others with
      | nil => exact absurd rearranged.perm.symm.eq_nil (by simp)
      | cons other others =>
          obtain ⟨first, restSorted⟩ := List.pairwise_cons.mp sorted
          obtain ⟨otherFirst, otherRestSorted⟩ := List.pairwise_cons.mp othersSorted
          -- Were the keys distinct, each would stand behind the other one.
          have sameKey : other.key = member.key := by
            by_contra differ
            have isBehind : other ∈ members :=
              (List.mem_cons.mp (rearranged.perm.mem_iff.mp List.mem_cons_self)).resolve_left
                fun same => differ (congrArg Member.key same)
            have otherIsBehind : member ∈ others :=
              (List.mem_cons.mp (rearranged.perm.mem_iff.mpr List.mem_cons_self)).resolve_left
                fun same => differ (congrArg Member.key same).symm
            exact differ (apart _ _ (first other isBehind) (otherFirst member otherIsBehind))
          have same : other = member := by
            have heads := rearranged.stable member.key
            rw [List.filter_cons_of_pos (by simp [sameKey]), List.filter_cons_of_pos (by simp)]
              at heads
            exact (List.cons_eq_cons.mp heads).1
          subst same
          have rest : Rearranged members others := by
            refine ⟨rearranged.perm.cons_inv, fun key => ?_⟩
            have whole := rearranged.stable key
            rw [List.filter_cons, List.filter_cons] at whole
            split at whole
            · exact (List.cons_eq_cons.mp whole).2
            · exact whole
          rw [ih rest restSorted otherRestSorted]

end Rearranging

section Sorting

variable {before : Bytes → Bytes → Bool}

/-- What does not stand behind can be passed on. -/
theorem IsKeyOrder.trans_members (order : IsKeyOrder before) (left middle right : Member)
    (first : (!before middle.key left.key) = true) (second : (!before right.key middle.key) = true) :
    (!before right.key left.key) = true := by
  simp only [Bool.not_eq_true'] at first second ⊢
  exact order.trans _ _ _ first second

/-- Of two members one does not stand behind the other. -/
theorem IsKeyOrder.total_members (order : IsKeyOrder before) (left right : Member) :
    (!before right.key left.key || !before left.key right.key) = true := by
  cases apart : before right.key left.key with
  | false => rfl
  | true => rw [order.asymm _ _ apart]; rfl

theorem perm_sortBy (before : Bytes → Bytes → Bool) (members : List Member) :
    (sortBy before members).Perm members :=
  List.mergeSort_perm members _

/-- Sorting adds no member. -/
theorem mem_sortBy {members : List Member} {member : Member} :
    member ∈ sortBy before members ↔ member ∈ members :=
  List.mem_mergeSort

/-- Of sorted members none stands before one whose key precedes its own. -/
theorem pairwise_sortBy (order : IsKeyOrder before) (members : List Member) :
    (sortBy before members).Pairwise fun left right => before right.key left.key = false := by
  have sorted := List.pairwise_mergeSort order.trans_members order.total_members members
  exact sorted.imp fun notBehind => by simpa using notBehind

/-- Members that are sorted already stay as they are. -/
theorem sortBy_of_pairwise {members : List Member}
    (sorted : members.Pairwise fun left right => before right.key left.key = false) :
    sortBy before members = members :=
  List.mergeSort_of_pairwise (sorted.imp fun notBehind => by simpa using notBehind)

/-- Members with the same key keep their order. -/
theorem filter_sortBy (order : IsKeyOrder before) (members : List Member) (key : Bytes) :
    (sortBy before members).filter (·.key = key) = members.filter (·.key = key) := by
  have sortedAlready : (members.filter (·.key = key)).Pairwise
      fun left right => (!before right.key left.key) = true := by
    apply List.pairwise_of_forall_mem_list
    intro left isLeft right isRight
    have leftKey : left.key = key := by simpa using (List.mem_filter.mp isLeft).2
    have rightKey : right.key = key := by simpa using (List.mem_filter.mp isRight).2
    rw [leftKey, rightKey, order.irrefl key]
    rfl
  have kept : (members.filter (·.key = key)).Sublist (sortBy before members) :=
    List.sublist_mergeSort order.trans_members order.total_members sortedAlready
      List.filter_sublist
  have inside := kept.filter (·.key = key)
  rw [List.filter_filter] at inside
  simp only [Bool.and_self] at inside
  exact (inside.eq_of_length ((perm_sortBy before members).filter _).length_eq.symm).symm

/-- Sorting moves members around. -/
theorem rearranged_sortBy (order : IsKeyOrder before) (members : List Member) :
    Rearranged members (sortBy before members) :=
  ⟨perm_sortBy before members, filter_sortBy order members⟩

/-- Where members stood makes no difference when they are sorted. -/
theorem sortBy_eq_of_rearranged (order : IsKeyOrder before) (apart : TellsApart before)
    {members others : List Member} (rearranged : Rearranged members others) :
    sortBy before others = sortBy before members := by
  have moved : Rearranged (sortBy before members) (sortBy before others) :=
    (rearranged_sortBy order members).symm.trans
      (rearranged.trans (rearranged_sortBy order others))
  exact moved.eq_of_pairwise apart (pairwise_sortBy order members) (pairwise_sortBy order others)

/-- There is one way to sort members. -/
theorem sortBy_eq (order : IsKeyOrder before) (apart : TellsApart before)
    {members others : List Member} (rearranged : Rearranged members others)
    (sorted : others.Pairwise fun left right => before right.key left.key = false) :
    sortBy before members = others := by
  rw [← sortBy_eq_of_rearranged order apart rearranged, sortBy_of_pairwise sorted]

end Sorting

section Fields

variable {withScripts : Bool}

/-- The order in which the members of the value of a field stand, if they are sorted. It may depend
on the members. -/
def memberOrder? (withScripts : Bool) (field : Bytes) : Option (List Member → Bytes → Bytes → Bool) :=
  if field ∈ orderedMaps then some fun _ left right => left < right
  else if withScripts ∧ field = scriptsField then
    some fun members => scriptPrecedes (members.map (·.key))
  else none

/-- Maps are sorted by the bytes of their keys, and scripts by the scripts that they belong to. -/
theorem memberOrder?_eq_some {field : Bytes} {order : List Member → Bytes → Bytes → Bool}
    (isSorted : memberOrder? withScripts field = some order) :
    (field ∈ orderedMaps ∧ order = fun _ left right => decide (left < right)) ∨
      (field ∉ orderedMaps ∧ (withScripts = true ∧ field = scriptsField) ∧
        order = fun members => scriptPrecedes (members.map (·.key))) := by
  unfold memberOrder? at isSorted
  split at isSorted
  · next isMap => exact Or.inl ⟨isMap, (Option.some.inj isSorted).symm⟩
  · next notMap =>
    split at isSorted
    · next isScripts => exact Or.inr ⟨notMap, isScripts, (Option.some.inj isSorted).symm⟩
    · contradiction

theorem memberOrder?_of_mem {field : Bytes} (isMap : field ∈ orderedMaps) :
    memberOrder? withScripts field = some fun _ left right => decide (left < right) :=
  if_pos isMap

/-- Nothing but maps and scripts is sorted, and scripts only if that is asked for. -/
theorem exists_memberOrder?_iff {field : Bytes} :
    (∃ order, memberOrder? withScripts field = some order) ↔
      field ∈ orderedMaps ∨ (withScripts = true ∧ field = scriptsField) := by
  constructor
  · rintro ⟨order, isSorted⟩
    exact (memberOrder?_eq_some isSorted).imp And.left fun isScripts => isScripts.2.1
  · intro isSorted
    by_cases isMap : field ∈ orderedMaps
    · exact ⟨_, memberOrder?_of_mem isMap⟩
    · exact ⟨_, (if_neg isMap).trans (if_pos (isSorted.resolve_left isMap))⟩

theorem isKeyOrder_memberOrder? {field : Bytes} {order : List Member → Bytes → Bytes → Bool}
    (isSorted : memberOrder? withScripts field = some order) (members : List Member) :
    IsKeyOrder (order members) := by
  rcases memberOrder?_eq_some isSorted with ⟨_, rfl⟩ | ⟨_, _, rfl⟩
  · exact isKeyOrder_bytes
  · exact isKeyOrder_scriptPrecedes _

theorem tellsApart_memberOrder? {field : Bytes} {order : List Member → Bytes → Bytes → Bool}
    (isSorted : memberOrder? withScripts field = some order) (members : List Member) :
    TellsApart (order members) := by
  rcases memberOrder?_eq_some isSorted with ⟨_, rfl⟩ | ⟨_, _, rfl⟩
  · exact tellsApart_bytes
  · exact tellsApart_scriptPrecedes _

/-- The order of scripts depends on which scripts there are, not on where they stand. -/
theorem scriptPrecedes_congr {names others : List Bytes} (perm : others.Perm names) :
    scriptPrecedes others = scriptPrecedes names := by
  funext left right
  have same (name : Bytes) : hookOf others name = hookOf names name := by
    simp only [hookOf, perm.contains_eq]
  simp only [scriptPrecedes, same]

/-- Members are sorted by one order wherever they stand. -/
theorem memberOrder?_congr {field : Bytes} {order : List Member → Bytes → Bytes → Bool}
    (isSorted : memberOrder? withScripts field = some order) {members others : List Member}
    (perm : others.Perm members) : order others = order members := by
  rcases memberOrder?_eq_some isSorted with ⟨_, rfl⟩ | ⟨_, _, rfl⟩
  · rfl
  · exact scriptPrecedes_congr (perm.map _)

/-- A field whose value is not sorted stays. -/
theorem sortField_of_eq_none {member : Member}
    (notSorted : memberOrder? withScripts member.key = none) :
    sortField withScripts member = .ok member := by
  have unsorted : ¬(member.key ∈ orderedMaps ∨ (withScripts = true ∧ member.key = scriptsField)) := by
    rw [← exists_memberOrder?_iff, notSorted]
    rintro ⟨order, isSorted⟩
    contradiction
  obtain ⟨notMap, notScripts⟩ := not_or.mp unsorted
  simp [sortField, notMap, notScripts]

/-- The value of a field is sorted by the order of its members. -/
theorem sortField_of_eq_some {member : Member} {order : List Member → Bytes → Bytes → Bool}
    (isSorted : memberOrder? withScripts member.key = some order) {value : Bytes}
    (sorted : sortValue order member.value = .ok value) :
    sortField withScripts member = .ok { member with value } := by
  rcases memberOrder?_eq_some isSorted with ⟨isMap, rfl⟩ | ⟨notMap, ⟨asked, isScripts⟩, rfl⟩
  · simp [sortField, isMap, sorted]
  · rw [isScripts] at notMap
    simp [sortField, notMap, asked, isScripts, sorted]

end Fields

end FormatServer.Manifest
