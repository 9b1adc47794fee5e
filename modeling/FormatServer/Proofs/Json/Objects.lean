import FormatServer.Json.Value
import Mathlib

namespace FormatServer.JsonObject

/-- The form of an object: the keys rise. -/
def Ordered (members : JsonObject) : Prop :=
  members.Pairwise fun first next => first.1 < next.1

@[simp] theorem get?_nil (key : Bytes) : get? [] key = none := rfl

theorem get?_cons (pair : Bytes × Json) (rest : JsonObject) (key : Bytes) :
    get? (pair :: rest) key = if pair.1 = key then some pair.2 else get? rest key := by
  by_cases same : pair.1 = key
  · simp [get?, same]
  · simp [get?, same]

/-- A key that all others follow is not there. -/
theorem get?_eq_none {members : JsonObject} {key : Bytes}
    (follow : ∀ pair ∈ members, key < pair.1) : get? members key = none := by
  induction members with
  | nil => rfl
  | cons pair rest ih =>
      obtain ⟨after, others⟩ := List.forall_mem_cons.mp follow
      have differ : pair.1 ≠ key := fun same => List.lt_irrefl key (same ▸ after)
      rw [get?_cons, if_neg differ, ih others]

/-- The first key of an object does not stand before the first key of one with the same values. -/
theorem Ordered.not_lt_head {pair other : Bytes × Json} {left right : JsonObject}
    (ordered : Ordered (other :: right))
    (same : ∀ key, get? (pair :: left) key = get? (other :: right) key) : ¬pair.1 < other.1 := by
  intro before
  obtain ⟨follow, _⟩ := List.pairwise_cons.mp ordered
  have missing : get? (other :: right) pair.1 = none := get?_eq_none
    (List.forall_mem_cons.mpr ⟨before, fun next member => Std.lt_trans before (follow next member)⟩)
  have found := same pair.1
  rw [missing, get?_cons, if_pos rfl] at found
  contradiction

/-- Objects with the same values are equal. -/
theorem Ordered.ext {left right : JsonObject} (leftOrdered : Ordered left)
    (rightOrdered : Ordered right) (same : ∀ key, get? left key = get? right key) :
    left = right := by
  induction left generalizing right with
  | nil =>
      cases right with
      | nil => rfl
      | cons pair rest => simpa [get?_cons] using same pair.1
  | cons pair left ih =>
      obtain ⟨leftFollow, leftRest⟩ := List.pairwise_cons.mp leftOrdered
      cases right with
      | nil => simpa [get?_cons] using same pair.1
      | cons other right =>
          obtain ⟨rightFollow, rightRest⟩ := List.pairwise_cons.mp rightOrdered
          -- The smaller of the two first keys would be missing on the other side.
          have keys : pair.1 = other.1 := by
            rcases Std.lt_trichotomy pair.1 other.1 with before | equal | after
            · exact absurd before (rightOrdered.not_lt_head same)
            · exact equal
            · exact absurd after (leftOrdered.not_lt_head fun key => (same key).symm)
          have values : pair.2 = other.2 := by
            simpa [get?_cons, keys] using same other.1
          have rests : left = right := by
            apply ih leftRest rightRest
            intro key
            by_cases isKey : pair.1 = key
            · rw [get?_eq_none (isKey ▸ leftFollow), get?_eq_none (isKey ▸ keys ▸ rightFollow)]
            · have entry := same key
              rwa [get?_cons, get?_cons, if_neg isKey, if_neg (keys ▸ isKey)] at entry
          rw [Prod.ext keys values, rests]

/-- Setting a key adds no other. -/
theorem mem_insert {members : JsonObject} {key : Bytes} {value : Json} {pair : Bytes × Json}
    (member : pair ∈ insert key value members) : pair.1 = key ∨ pair ∈ members := by
  fun_induction insert key value members with
  | case1 => exact Or.inl (congrArg Prod.fst (List.mem_singleton.mp member))
  | case2 held rest | case3 other held rest differ before =>
      rcases List.mem_cons.mp member with rfl | inRest
      · exact Or.inl rfl
      · simp [inRest]
  | case4 other held rest differ notBefore ih =>
      rcases List.mem_cons.mp member with rfl | inRest
      · simp
      · exact (ih inRest).imp_right (List.mem_cons_of_mem _)

/-- Setting a key keeps the form of an object. -/
theorem Ordered.insert {members : JsonObject} (ordered : Ordered members) (key : Bytes)
    (value : Json) : Ordered (insert key value members) := by
  fun_induction JsonObject.insert key value members with
  | case1 => exact List.pairwise_singleton _ _
  | case2 held rest =>
      obtain ⟨follow, others⟩ := List.pairwise_cons.mp ordered
      exact List.pairwise_cons.mpr ⟨follow, others⟩
  | case3 other held rest differ before =>
      obtain ⟨follow, _⟩ := List.pairwise_cons.mp ordered
      refine List.pairwise_cons.mpr ⟨?_, ordered⟩
      intro next member
      rcases List.mem_cons.mp member with rfl | inRest
      · exact before
      · exact Std.lt_trans before (follow next inRest)
  | case4 other held rest differ notBefore ih =>
      obtain ⟨follow, others⟩ := List.pairwise_cons.mp ordered
      refine List.pairwise_cons.mpr ⟨?_, ih others⟩
      intro next member
      rcases mem_insert member with same | inRest
      · rw [same]
        rcases Std.lt_trichotomy key other with before | equal | after
        · exact absurd before notBefore
        · exact absurd equal differ
        · exact after
      · exact follow next inRest

/-- Setting key after key keeps the form of an object. -/
theorem Ordered.foldl_insert {object : JsonObject} (ordered : Ordered object)
    (members : List (Bytes × Json)) :
    Ordered (members.foldl (fun object pair => JsonObject.insert pair.1 pair.2 object) object) := by
  induction members generalizing object with
  | nil => exact ordered
  | cons pair members ih => exact ih (ordered.insert pair.1 pair.2)

/-- After setting key after key the last value of each key counts. -/
theorem get?_foldl_insert (members : List (Bytes × Json)) (object : JsonObject) (key : Bytes) :
    get? (members.foldl (fun object pair => insert pair.1 pair.2 object) object) key =
      ((members.filter (·.1 = key)).getLast?.map (·.2)).or (get? object key) := by
  induction members generalizing object with
  | nil => rfl
  | cons pair members ih =>
      rw [List.foldl_cons, ih]
      by_cases same : pair.1 = key
      · subst same
        rw [get?_insert_self, List.filter_cons_of_pos (by simp), List.getLast?_cons]
        cases (members.filter (·.1 = pair.1)).getLast? <;> rfl
      · rw [get?_insert_of_ne _ _ (Ne.symm same), List.filter_cons_of_neg (by simpa using same)]

/-- The last of the members with a key counts. -/
theorem get?_ofMembers (members : List (Bytes × Json)) (key : Bytes) :
    get? (ofMembers members) key = (members.filter (·.1 = key)).getLast?.map (·.2) := by
  rw [ofMembers, get?_foldl_insert, get?_nil, Option.or_none]

/-- The object of members depends only on the order among those with the same key. -/
theorem ofMembers_congr {left right : List (Bytes × Json)}
    (same : ∀ key, left.filter (·.1 = key) = right.filter (·.1 = key)) :
    ofMembers left = ofMembers right := by
  have empty : Ordered [] := List.Pairwise.nil
  apply Ordered.ext (empty.foldl_insert left) (empty.foldl_insert right)
  intro key
  change get? (ofMembers left) key = get? (ofMembers right) key
  rw [get?_ofMembers, get?_ofMembers, same]

/-- Members with different keys are told apart by their keys. -/
theorem filter_key_of_mem {members : List (Bytes × Json)}
    (distinct : (members.map (·.1)).Nodup) {key : Bytes} {value : Json}
    (member : (key, value) ∈ members) : members.filter (·.1 = key) = [(key, value)] := by
  induction members with
  | nil => exact nomatch member
  | cons pair rest ih =>
      obtain ⟨notIn, distinctRest⟩ := List.nodup_cons.mp distinct
      rcases List.mem_cons.mp member with rfl | inRest
      · have none : rest.filter (·.1 = key) = [] := by
          refine List.filter_eq_nil_iff.mpr fun other inRest same => notIn ?_
          exact List.mem_map.mpr ⟨other, inRest, of_decide_eq_true same⟩
        rw [List.filter_cons_of_pos (by simp), none]
      · have differ : pair.1 ≠ key := fun same =>
          notIn (List.mem_map.mpr ⟨(key, value), inRest, same.symm⟩)
        rw [List.filter_cons_of_neg (by simpa using differ), ih distinctRest inRest]

/-- In the object of members with different keys every one is found. -/
theorem get?_ofMembers_of_mem {members : List (Bytes × Json)}
    (distinct : (members.map (·.1)).Nodup) {key : Bytes} {value : Json}
    (member : (key, value) ∈ members) : get? (ofMembers members) key = some value := by
  rw [get?_ofMembers, filter_key_of_mem distinct member]
  rfl

/-- Of members with different keys every one is found. -/
theorem get?_of_mem {members : List (Bytes × Json)}
    (distinct : (members.map (·.1)).Nodup) {key : Bytes} {value : Json}
    (member : (key, value) ∈ members) : get? members key = some value := by
  rw [get?, ← List.head?_filter, filter_key_of_mem distinct member]
  rfl

/-- Members whose keys rise have different keys. -/
theorem Ordered.nodup_keys {members : JsonObject} (ordered : Ordered members) :
    (members.map (·.1)).Nodup := by
  refine List.pairwise_map.mpr (ordered.imp ?_)
  intro first next before same
  exact List.lt_irrefl _ (same ▸ before)

/-- The members of an object are those that are found. -/
theorem Ordered.get?_eq_some_iff {members : JsonObject} (ordered : Ordered members) {key : Bytes}
    {value : Json} : get? members key = some value ↔ (key, value) ∈ members := by
  constructor
  · intro found
    obtain ⟨⟨other, _⟩, isFirst, rfl⟩ := Option.map_eq_some_iff.mp found
    have same : other = key := by simpa using List.find?_some isFirst
    exact same ▸ List.mem_of_find?_eq_some isFirst
  · exact get?_of_mem ordered.nodup_keys

/-- Dropping members by their keys leaves the other ones. -/
theorem get?_filter {members : JsonObject} {key : Bytes} {test : Bytes × Json → Bool}
    (stays : ∀ value, test (key, value) = true) : get? (members.filter test) key =
      get? members key := by
  rw [get?, get?, List.find?_filter]
  congr 2
  funext pair
  obtain ⟨other, value⟩ := pair
  by_cases same : other = key
  · simp [same, stays]
  · simp [same]

/-- Setting keys that differ gives each the one value that is set. -/
theorem get?_foldl_insert_of_nodup {members : List (Bytes × Json)}
    (distinct : (members.map (·.1)).Nodup) (object : JsonObject) (key : Bytes) :
    get? (members.foldl (fun object pair => insert pair.1 pair.2 object) object) key =
      (get? members key).or (get? object key) := by
  rw [get?_foldl_insert]
  congr 1
  cases found : members.find? (·.1 = key) with
  | none =>
    rw [get?, found, List.filter_eq_nil_iff.mpr (by simpa using found)]
    rfl
  | some pair =>
    have same : pair.1 = key := by simpa using List.find?_some found
    obtain ⟨_, value⟩ := pair
    cases same
    rw [get?, found, filter_key_of_mem distinct (List.mem_of_find?_eq_some found)]
    rfl

end FormatServer.JsonObject
