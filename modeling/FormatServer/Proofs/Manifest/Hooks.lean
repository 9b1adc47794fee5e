import FormatServer.Proofs.Manifest.Arrangement
import Mathlib.Data.List.Nodup

namespace FormatServer.Manifest

/-- Whether a name is that of a hook of a script that is there. -/
def IsHook (names : List Bytes) (script name : Bytes) : Prop :=
  script ∈ names ∧ (name = HookKind.pre.mark ++ script ∨ name = HookKind.post.mark ++ script)

instance (names : List Bytes) (script name : Bytes) : Decidable (IsHook names script name) :=
  inferInstanceAs (Decidable (_ ∧ _))

/-- The script that a name is a hook of. -/
def hooked? (names : List Bytes) (name : Bytes) : Option Bytes :=
  names.find? fun script => IsHook names script name

theorem IsHook.length_lt {names : List Bytes} {script name : Bytes}
    (isHook : IsHook names script name) : script.length < name.length := by
  rcases isHook.2 with rfl | rfl
  · have marked : HookKind.pre.mark.length = 3 := rfl
    rw [List.length_append, marked]
    omega
  · have marked : HookKind.post.mark.length = 4 := rfl
    rw [List.length_append, marked]
    omega

theorem IsHook.ne {names : List Bytes} {script name : Bytes}
    (isHook : IsHook names script name) : script ≠ name :=
  fun same => absurd isHook.length_lt (same ▸ Nat.lt_irrefl _)

theorem isHook_of_hooked? {names : List Bytes} {script name : Bytes}
    (found : hooked? names name = some script) : IsHook names script name := by
  have holds := List.find?_some found
  exact of_decide_eq_true holds

/-- What is left of a name when the marks of hooks are taken off as long as that leaves a script. -/
def rootOf (names : List Bytes) (name : Bytes) : Bytes :=
  match _found : hooked? names name with
  | some script => rootOf names script
  | none => name
termination_by name.length
decreasing_by exact (isHook_of_hooked? _found).length_lt

/-- Whether scripts stand beside their hooks: those with one root together and in the order of the
roots, and each script between its hooks. -/
structure KeepsHooks (names order : List Bytes) : Prop where
  together : ∀ front first middle last back,
    order = front ++ first :: (middle ++ last :: back) → rootOf names first = rootOf names last →
      ∀ name ∈ middle, rootOf names name = rootOf names first
  byRoot : order.Pairwise fun left right => rootOf names left ≤ rootOf names right
  preInFront : ∀ script ∈ names, HookKind.pre.mark ++ script ∈ names →
    [HookKind.pre.mark ++ script, script].Sublist order
  postBehind : ∀ script ∈ names, HookKind.post.mark ++ script ∈ names →
    [script, HookKind.post.mark ++ script].Sublist order

/-- The scripts that stand with a script: its hooks, and between them the script itself unless it is
a hook. -/
def hookGroup (names : List Bytes) (script : Bytes) : List Bytes :=
  [HookKind.pre.mark ++ script, script, HookKind.post.mark ++ script].filter fun name =>
    names.contains name && (name != script || (hooked? names script).isNone)

/-- Whether hooks of hooks happen to stand as they should: in front of their script if they stand
before it, behind it if not, and with no group of another root between them and their root. -/
structure NestedHooksFit (names : List Bytes) : Prop where
  preInFront : ∀ script ∈ names, HookKind.pre.mark ++ script ∈ names →
    ∀ other, IsHook names other script → script < other
  postBehind : ∀ script ∈ names, HookKind.post.mark ++ script ∈ names →
    ∀ other, IsHook names other script → other < script
  byRoot : ∀ first ∈ names, ∀ second ∈ names, hookGroup names first ≠ [] →
    hookGroup names second ≠ [] → first < second → rootOf names first ≤ rootOf names second

/-- How scripts stand in a sorted manifest. -/
structure StandsInGroups (names order : List Bytes) : Prop where
  groups : ∃ scripts : List Bytes, scripts.Perm names ∧ scripts.Pairwise (· < ·) ∧
    order = scripts.flatMap (hookGroup names)
  pre_iff : ∀ script ∈ names, HookKind.pre.mark ++ script ∈ names →
    ([HookKind.pre.mark ++ script, script].Sublist order ↔
      ∀ other, IsHook names other script → script < other)
  post_iff : ∀ script ∈ names, HookKind.post.mark ++ script ∈ names →
    ([script, HookKind.post.mark ++ script].Sublist order ↔
      ∀ other, IsHook names other script → other < script)
  keepsHooks_iff : KeepsHooks names order ↔ NestedHooksFit names
  keepsHooks : (∀ script ∈ names, ∀ hook ∈ names, IsHook names script hook →
    hooked? names script = none) → KeepsHooks names order

section Names

variable {names : List Bytes} {script other name : Bytes}

/-- No name has both marks. -/
theorem pre_append_ne_post_append (script other : Bytes) :
    HookKind.pre.mark ++ script ≠ HookKind.post.mark ++ other := by
  intro same
  have second : some (0x72 : UInt8) = some 0x6F := congrArg (·[1]?) same
  exact absurd second (by decide)

/-- A hook is a hook of one script. -/
theorem IsHook.unique (isHook : IsHook names script name) (isOther : IsHook names other name) :
    other = script := by
  rcases isHook.2 with rfl | rfl
  · rcases isOther.2 with same | same
    · exact (List.append_cancel_left same).symm
    · exact absurd same (pre_append_ne_post_append script other)
  · rcases isOther.2 with same | same
    · exact absurd same.symm (pre_append_ne_post_append other script)
    · exact (List.append_cancel_left same).symm

theorem hooked?_eq_some_iff : hooked? names name = some script ↔ IsHook names script name := by
  refine ⟨isHook_of_hooked?, fun isHook => ?_⟩
  cases found : hooked? names name with
  | none =>
      have none := List.find?_eq_none.mp found script isHook.1
      exact absurd (decide_eq_true isHook) none
  | some other => rw [isHook.unique (isHook_of_hooked? found)]

theorem hooked?_eq_none_iff : hooked? names name = none ↔ ∀ script, ¬IsHook names script name := by
  simp only [Option.eq_none_iff_forall_ne_some, ne_eq, hooked?_eq_some_iff]

/-- A hook has the root of its script. -/
theorem IsHook.rootOf_eq (isHook : IsHook names script name) :
    rootOf names name = rootOf names script := by
  rw [rootOf, hooked?_eq_some_iff.mpr isHook]

/-- A script that is no hook is its own root. -/
theorem rootOf_of_hooked?_eq_none (plain : hooked? names name = none) :
    rootOf names name = name := by
  rw [rootOf, plain]

theorem hookOf_pre (isScript : script ∈ names) :
    hookOf names (HookKind.pre.mark ++ script) = (script, .pre) := by
  rw [hookOf_eq, hookWith?_eq_some_iff.mpr ⟨rfl, isScript, rfl⟩]
  rfl

theorem hookOf_post (isScript : script ∈ names) :
    hookOf names (HookKind.post.mark ++ script) = (script, .post) := by
  have notPre : hookWith? names (HookKind.post.mark ++ script) .pre = none := by
    rw [Option.eq_none_iff_forall_ne_some]
    rintro ⟨other, found⟩ isPre
    exact pre_append_ne_post_append _ _ (hookWith?_eq_some_iff.mp isPre).2.2.symm
  rw [hookOf_eq, notPre, hookWith?_eq_some_iff.mpr ⟨rfl, isScript, rfl⟩]
  rfl

theorem hookOf_of_hooked?_eq_none (plain : hooked? names name = none) :
    hookOf names name = (name, .script) := by
  have notHook (kind : HookKind) (isKind : kind = .pre ∨ kind = .post) :
      hookWith? names name kind = none := by
    rw [Option.eq_none_iff_forall_ne_some]
    rintro ⟨script, found⟩ isFound
    obtain ⟨_, isScript, named⟩ := hookWith?_eq_some_iff.mp isFound
    refine hooked?_eq_none_iff.mp plain script ⟨isScript, ?_⟩
    rcases isKind with rfl | rfl
    · exact Or.inl named
    · exact Or.inr named
  rw [hookOf_eq, notHook .pre (Or.inl rfl), notHook .post (Or.inr rfl)]
  rfl

/-- A name is a script of its own, or it is a hook in front of a script or behind it. -/
theorem hookOf_cases (names : List Bytes) (name : Bytes) :
    (hooked? names name = none ∧ hookOf names name = (name, .script)) ∨
      ∃ script kind, IsHook names script name ∧ name = kind.mark ++ script ∧
        hookOf names name = (script, kind) := by
  cases found : hooked? names name with
  | none => exact Or.inl ⟨rfl, hookOf_of_hooked?_eq_none found⟩
  | some script =>
      obtain ⟨isScript, rfl | rfl⟩ := isHook_of_hooked? found
      · exact Or.inr ⟨script, .pre, ⟨isScript, Or.inl rfl⟩, rfl, hookOf_pre isScript⟩
      · exact Or.inr ⟨script, .post, ⟨isScript, Or.inr rfl⟩, rfl, hookOf_post isScript⟩

/-- The script that a script belongs to is there. -/
theorem hookOf_mem (inside : name ∈ names) : (hookOf names name).1 ∈ names := by
  rcases hookOf_cases names name with ⟨_, same⟩ | ⟨script, kind, isHook, _, same⟩
  · rwa [same]
  · rw [same]
    exact isHook.1

/-- A script has the root of the script that it belongs to. -/
theorem rootOf_hookOf (names : List Bytes) (name : Bytes) :
    rootOf names (hookOf names name).1 = rootOf names name := by
  rcases hookOf_cases names name with ⟨_, same⟩ | ⟨script, kind, isHook, _, same⟩
  · rw [same]
  · rw [same, isHook.rootOf_eq]

/-- In the group of a script stand those that belong to it. -/
theorem mem_hookGroup_iff (isScript : script ∈ names) :
    name ∈ hookGroup names script ↔ name ∈ names ∧ (hookOf names name).1 = script := by
  simp only [hookGroup, List.mem_filter, List.mem_cons, List.not_mem_nil, or_false,
    Bool.and_eq_true, Bool.or_eq_true, List.contains_iff_mem, bne_iff_ne, ne_eq,
    Option.isNone_iff_eq_none, ← imp_iff_not_or]
  constructor
  · rintro ⟨rfl | rfl | rfl, inside, plain⟩
    · exact ⟨inside, by rw [hookOf_pre isScript]⟩
    · exact ⟨inside, by rw [hookOf_of_hooked?_eq_none (plain rfl)]⟩
    · exact ⟨inside, by rw [hookOf_post isScript]⟩
  · rintro ⟨inside, belongs⟩
    rcases hookOf_cases names name with ⟨plain, same⟩ | ⟨other, kind, isHook, named, same⟩
    · rw [same] at belongs
      dsimp only at belongs
      subst belongs
      exact ⟨Or.inr (Or.inl rfl), inside, fun _ => plain⟩
    · rw [same] at belongs
      dsimp only at belongs
      subst belongs
      refine ⟨?_, inside, fun isSelf => absurd isSelf.symm isHook.ne⟩
      rcases isHook.2 with isPre | isPost
      · exact Or.inl isPre
      · exact Or.inr (Or.inr isPost)

end Names

section Order

variable {names : List Bytes} {left right : Bytes}

/-- Of scripts that belong to different ones those of the lesser one stand first, and of scripts
that belong to one the kind decides. -/
theorem scriptPrecedes_iff :
    scriptPrecedes names left right = true ↔
      (hookOf names left).1 < (hookOf names right).1 ∨
        ((hookOf names left).1 = (hookOf names right).1 ∧
          (hookOf names left).2.rank < (hookOf names right).2.rank) := by
  simp [scriptPrecedes]

/-- No two scripts stand before one another. -/
theorem scriptPrecedes_asymm (before : scriptPrecedes names left right = true) :
    ¬scriptPrecedes names right left = true := by
  rw [(isKeyOrder_scriptPrecedes names).asymm left right before]
  exact Bool.false_ne_true

/-- In an order one name stands before another if it is the lesser one. -/
theorem pair_sublist_iff {before : Bytes → Bytes → Prop}
    (asymm : ∀ left right, before left right → ¬before right left) {order : List Bytes}
    (sorted : order.Pairwise before) (isLeft : left ∈ order) (isRight : right ∈ order)
    (differ : left ≠ right) : [left, right].Sublist order ↔ before left right := by
  constructor
  · intro sublist
    simpa using sorted.sublist sublist
  · intro less
    obtain ⟨front, back, rfl⟩ := List.append_of_mem isLeft
    obtain ⟨_, _, across⟩ := List.pairwise_append.mp sorted
    rcases List.mem_append.mp isRight with inFront | behind
    · exact absurd (across right inFront left List.mem_cons_self) (asymm _ _ less)
    · have isBehind := (List.mem_cons.mp behind).resolve_left differ.symm
      exact List.Sublist.trans ((List.singleton_sublist.mpr isBehind).cons_cons left)
        (List.sublist_append_right front _)

/-- Within a group the scripts stand by their kinds. -/
theorem pairwise_hookGroup {script : Bytes} (isScript : script ∈ names) :
    (hookGroup names script).Pairwise fun left right => scriptPrecedes names left right = true := by
  have stands (left right : HookKind) (less : left.rank < right.rank)
      (isLeft : hookOf names (left.mark ++ script) = (script, left))
      (isRight : hookOf names (right.mark ++ script) = (script, right)) :
      scriptPrecedes names (left.mark ++ script) (right.mark ++ script) = true := by
    rw [scriptPrecedes_iff, isLeft, isRight]
    exact Or.inr ⟨rfl, less⟩
  have pre := hookOf_pre isScript
  have post := hookOf_post isScript
  have plain (here : True → hooked? names script = none) :
      hookOf names script = (script, .script) := hookOf_of_hooked?_eq_none (here trivial)
  rw [hookGroup, List.pairwise_filter, List.pairwise_cons, List.pairwise_pair]
  simp only [Bool.and_eq_true, Bool.or_eq_true, bne_iff_ne, ne_eq, Option.isNone_iff_eq_none,
    ← imp_iff_not_or, List.forall_mem_cons, eq_self]
  refine ⟨⟨fun _ here => ?_, fun _ _ => ?_, by simp⟩, fun here _ => ?_⟩
  · exact stands .pre .script (by decide) pre (plain here.2)
  · exact stands .pre .post (by decide) pre post
  · exact stands .script .post (by decide) (plain here.2) post

/-- Groups in the order of their scripts are in the order of scripts. -/
theorem pairwise_flatMap_hookGroup {scripts : List Bytes} (perm : scripts.Perm names)
    (sorted : scripts.Pairwise (· < ·)) :
    (scripts.flatMap (hookGroup names)).Pairwise
      fun left right => scriptPrecedes names left right = true := by
  rw [List.pairwise_flatMap]
  refine ⟨fun script inside => pairwise_hookGroup (perm.mem_iff.mp inside), ?_⟩
  refine sorted.imp_of_mem fun {first second} isFirst isSecond less left isLeft right isRight => ?_
  have leftOf := (mem_hookGroup_iff (perm.mem_iff.mp isFirst)).mp isLeft
  have rightOf := (mem_hookGroup_iff (perm.mem_iff.mp isSecond)).mp isRight
  exact scriptPrecedes_iff.mpr (Or.inl (by rw [leftOf.2, rightOf.2]; exact less))

/-- Every script stands in one group. -/
theorem mem_flatMap_hookGroup {scripts : List Bytes} (perm : scripts.Perm names) {name : Bytes} :
    name ∈ scripts.flatMap (hookGroup names) ↔ name ∈ names := by
  rw [List.mem_flatMap]
  constructor
  · rintro ⟨script, isScript, inside⟩
    exact ((mem_hookGroup_iff (perm.mem_iff.mp isScript)).mp inside).1
  · intro inside
    have isScript := hookOf_mem inside
    exact ⟨_, perm.mem_iff.mpr isScript, (mem_hookGroup_iff isScript).mpr ⟨inside, rfl⟩⟩

/-- Names can be put in the order of their bytes. -/
theorem exists_sorted_names (distinct : names.Nodup) :
    ∃ scripts : List Bytes, scripts.Perm names ∧ scripts.Pairwise (· < ·) := by
  have perm := List.mergeSort_perm names fun left right => decide (left ≤ right)
  have trans (left middle right : Bytes) (first : decide (left ≤ middle) = true)
      (second : decide (middle ≤ right) = true) : decide (left ≤ right) = true :=
    decide_eq_true (Std.le_trans (of_decide_eq_true first) (of_decide_eq_true second))
  have total (left right : Bytes) : (decide (left ≤ right) || decide (right ≤ left)) = true := by
    simpa using Std.le_total
  have sorted := List.pairwise_mergeSort trans total names
  refine ⟨_, perm, ?_⟩
  exact (sorted.and (perm.nodup_iff.mpr distinct)).imp fun {left right} both =>
    Std.lt_of_le_of_ne (of_decide_eq_true both.1) both.2

/-- Scripts in their order stand in groups, and the groups in the order of the scripts they are
named for. -/
theorem exists_groups {order : List Bytes} (distinct : names.Nodup) (perm : order.Perm names)
    (sorted : order.Pairwise fun left right => scriptPrecedes names left right = true) :
    ∃ scripts : List Bytes, scripts.Perm names ∧ scripts.Pairwise (· < ·) ∧
      order = scripts.flatMap (hookGroup names) := by
  obtain ⟨scripts, scriptsPerm, scriptsSorted⟩ := exists_sorted_names distinct
  have grouped := pairwise_flatMap_hookGroup scriptsPerm scriptsSorted
  have once : (scripts.flatMap (hookGroup names)).Nodup := by
    refine grouped.imp fun {left right} before same => ?_
    subst same
    exact scriptPrecedes_asymm before before
  have samePerm : order.Perm (scripts.flatMap (hookGroup names)) := by
    rw [List.perm_ext_iff_of_nodup (perm.nodup_iff.mpr distinct) once]
    exact fun name => perm.mem_iff.trans (mem_flatMap_hookGroup scriptsPerm).symm
  refine ⟨scripts, scriptsPerm, scriptsSorted, ?_⟩
  exact samePerm.eq_of_pairwise
    (fun _ _ _ _ before behind => absurd behind (scriptPrecedes_asymm before)) sorted grouped

end Order

section Hooks

variable {names order : List Bytes}

/-- A script that is no hook belongs to itself, and a hook to the script that it is a hook of. -/
theorem belongs_cases (names : List Bytes) (script : Bytes) :
    (hookOf names script = (script, .script) ∧ ∀ other, ¬IsHook names other script) ∨
      ∃ other kind, hookOf names script = (other, kind) ∧ script ≠ other ∧
        ∀ third, IsHook names third script ↔ third = other := by
  rcases hookOf_cases names script with ⟨plain, same⟩ | ⟨other, kind, isHook, _, same⟩
  · exact Or.inl ⟨same, hooked?_eq_none_iff.mp plain⟩
  · exact Or.inr ⟨other, kind, same, isHook.ne.symm, fun third =>
      ⟨isHook.unique, fun equal => equal ▸ isHook⟩⟩

/-- Where a hook stands depends on its script: beside it, unless the script stands as a hook with
another one. -/
theorem scriptPrecedes_pre_iff {script : Bytes} (isScript : script ∈ names) :
    scriptPrecedes names (HookKind.pre.mark ++ script) script = true ↔
      ∀ other, IsHook names other script → script < other := by
  rw [scriptPrecedes_iff, hookOf_pre isScript]
  rcases belongs_cases names script with ⟨same, plain⟩ | ⟨other, kind, same, differ, isHook_iff⟩
  · simp [same, plain, HookKind.rank]
  · simp [same, differ, isHook_iff]

theorem scriptPrecedes_post_iff {script : Bytes} (isScript : script ∈ names) :
    scriptPrecedes names script (HookKind.post.mark ++ script) = true ↔
      ∀ other, IsHook names other script → other < script := by
  rw [scriptPrecedes_iff, hookOf_post isScript]
  rcases belongs_cases names script with ⟨same, plain⟩ | ⟨other, kind, same, differ, isHook_iff⟩
  · simp [same, plain, HookKind.rank]
  · simp [same, differ.symm, isHook_iff]

/-- Names in the order of their roots stand together with those of their root. -/
theorem together_of_pairwise {front middle back : List Bytes} {first last : Bytes}
    (sorted : (front ++ first :: (middle ++ last :: back)).Pairwise fun left right =>
      rootOf names left ≤ rootOf names right)
    (same : rootOf names first = rootOf names last) :
    ∀ name ∈ middle, rootOf names name = rootOf names first := by
  intro name inside
  obtain ⟨_, fromFirst, _⟩ := List.pairwise_append.mp sorted
  obtain ⟨behindFirst, rest⟩ := List.pairwise_cons.mp fromFirst
  obtain ⟨_, _, toLast⟩ := List.pairwise_append.mp rest
  have low := behindFirst name (List.mem_append_left _ inside)
  have high := toLast name inside last List.mem_cons_self
  exact Std.le_antisymm (same ▸ high) low

/-- Without hooks of hooks nothing can go wrong. -/
theorem nestedHooksFit_of_flat (flat : ∀ script ∈ names, ∀ hook ∈ names,
    IsHook names script hook → hooked? names script = none) : NestedHooksFit names where
  preInFront script isScript isHook other isOther := by
    have plain := flat script isScript _ isHook ⟨isScript, Or.inl rfl⟩
    exact absurd isOther (hooked?_eq_none_iff.mp plain other)
  postBehind script isScript isHook other isOther := by
    have plain := flat script isScript _ isHook ⟨isScript, Or.inr rfl⟩
    exact absurd isOther (hooked?_eq_none_iff.mp plain other)
  byRoot first isFirst second isSecond firstStands secondStands less := by
    have isRoot {script : Bytes} (isScript : script ∈ names)
        (stands : hookGroup names script ≠ []) : rootOf names script = script := by
      obtain ⟨name, inGroup⟩ := List.exists_mem_of_ne_nil _ stands
      obtain ⟨inside, belongs⟩ := (mem_hookGroup_iff isScript).mp inGroup
      apply rootOf_of_hooked?_eq_none
      rcases hookOf_cases names name with ⟨plain, same⟩ | ⟨other, kind, isHook, _, same⟩
      · rw [same] at belongs
        exact belongs ▸ plain
      · rw [same] at belongs
        subst belongs
        exact flat other isScript name inside isHook
    rw [isRoot isFirst firstStands, isRoot isSecond secondStands]
    exact Std.le_of_lt less

/-- A hook stands in front of its script unless the script stands as a hook before it. -/
theorem pre_sublist_iff (perm : order.Perm names)
    (sorted : order.Pairwise fun left right => scriptPrecedes names left right = true)
    {script : Bytes} (isScript : script ∈ names) (isHook : HookKind.pre.mark ++ script ∈ names) :
    [HookKind.pre.mark ++ script, script].Sublist order ↔
      ∀ other, IsHook names other script → script < other := by
  have named : IsHook names script (HookKind.pre.mark ++ script) := ⟨isScript, Or.inl rfl⟩
  rw [← scriptPrecedes_pre_iff isScript]
  exact pair_sublist_iff (fun _ _ before => scriptPrecedes_asymm before) sorted
    (perm.mem_iff.mpr isHook) (perm.mem_iff.mpr isScript) named.ne.symm

theorem post_sublist_iff (perm : order.Perm names)
    (sorted : order.Pairwise fun left right => scriptPrecedes names left right = true)
    {script : Bytes} (isScript : script ∈ names) (isHook : HookKind.post.mark ++ script ∈ names) :
    [script, HookKind.post.mark ++ script].Sublist order ↔
      ∀ other, IsHook names other script → other < script := by
  have named : IsHook names script (HookKind.post.mark ++ script) := ⟨isScript, Or.inr rfl⟩
  rw [← scriptPrecedes_post_iff isScript]
  exact pair_sublist_iff (fun _ _ before => scriptPrecedes_asymm before) sorted
    (perm.mem_iff.mpr isScript) (perm.mem_iff.mpr isHook) named.ne

/-- Scripts in their order are in the order of their roots exactly if the groups are. -/
theorem pairwise_rootOf_iff (perm : order.Perm names)
    (sorted : order.Pairwise fun left right => scriptPrecedes names left right = true) :
    (order.Pairwise fun left right => rootOf names left ≤ rootOf names right) ↔
      ∀ first ∈ names, ∀ second ∈ names, hookGroup names first ≠ [] → hookGroup names second ≠ [] →
        first < second → rootOf names first ≤ rootOf names second := by
  constructor
  · intro byRoot first isFirst second isSecond firstStands secondStands less
    obtain ⟨left, inFirst⟩ := List.exists_mem_of_ne_nil _ firstStands
    obtain ⟨right, inSecond⟩ := List.exists_mem_of_ne_nil _ secondStands
    obtain ⟨isLeft, leftOf⟩ := (mem_hookGroup_iff isFirst).mp inFirst
    obtain ⟨isRight, rightOf⟩ := (mem_hookGroup_iff isSecond).mp inSecond
    have before : scriptPrecedes names left right = true :=
      scriptPrecedes_iff.mpr (Or.inl (by rwa [leftOf, rightOf]))
    have differ : left ≠ right := fun same => scriptPrecedes_asymm before (same ▸ before)
    have sublist := (pair_sublist_iff (fun _ _ before => scriptPrecedes_asymm before) sorted
      (perm.mem_iff.mpr isLeft) (perm.mem_iff.mpr isRight) differ).mpr before
    have roots := byRoot.sublist sublist
    rw [List.pairwise_pair, ← rootOf_hookOf names left, ← rootOf_hookOf names right, leftOf,
      rightOf] at roots
    exact roots
  · intro fits
    refine sorted.imp_of_mem fun {left right} isLeft isRight before => ?_
    have inGroup {name : Bytes} (inside : name ∈ order) :
        (hookOf names name).1 ∈ names ∧ hookGroup names (hookOf names name).1 ≠ [] := by
      have isName := perm.mem_iff.mp inside
      have isScript := hookOf_mem isName
      exact ⟨isScript, List.ne_nil_of_mem ((mem_hookGroup_iff isScript).mpr ⟨isName, rfl⟩)⟩
    obtain ⟨leftScript, leftStands⟩ := inGroup isLeft
    obtain ⟨rightScript, rightStands⟩ := inGroup isRight
    rw [← rootOf_hookOf names left, ← rootOf_hookOf names right]
    rcases scriptPrecedes_iff.mp before with less | ⟨same, _⟩
    · exact fits _ leftScript _ rightScript leftStands rightStands less
    · rw [same]
      exact Std.le_refl _

/-- Scripts in their order stand beside their hooks exactly if hooks of hooks happen to. -/
theorem keepsHooks_iff (perm : order.Perm names)
    (sorted : order.Pairwise fun left right => scriptPrecedes names left right = true) :
    KeepsHooks names order ↔ NestedHooksFit names := by
  constructor
  · intro keeps
    exact {
      preInFront := fun script isScript isHook =>
        (pre_sublist_iff perm sorted isScript isHook).mp (keeps.preInFront script isScript isHook)
      postBehind := fun script isScript isHook =>
        (post_sublist_iff perm sorted isScript isHook).mp (keeps.postBehind script isScript isHook)
      byRoot := (pairwise_rootOf_iff perm sorted).mp keeps.byRoot }
  · intro fits
    have byRoot := (pairwise_rootOf_iff perm sorted).mpr fits.byRoot
    exact {
      together := fun front first middle last back spread =>
        together_of_pairwise (spread ▸ byRoot)
      byRoot := byRoot
      preInFront := fun script isScript isHook =>
        (pre_sublist_iff perm sorted isScript isHook).mpr (fits.preInFront script isScript isHook)
      postBehind := fun script isScript isHook =>
        (post_sublist_iff perm sorted isScript isHook).mpr
          (fits.postBehind script isScript isHook) }

/-- Scripts in their order stand in groups. -/
theorem standsInGroups_of_pairwise (distinct : names.Nodup) (perm : order.Perm names)
    (sorted : order.Pairwise fun left right => scriptPrecedes names left right = true) :
    StandsInGroups names order where
  groups := exists_groups distinct perm sorted
  pre_iff _ isScript isHook := pre_sublist_iff perm sorted isScript isHook
  post_iff _ isScript isHook := post_sublist_iff perm sorted isScript isHook
  keepsHooks_iff := keepsHooks_iff perm sorted
  keepsHooks flat := (keepsHooks_iff perm sorted).mpr (nestedHooksFit_of_flat flat)

end Hooks

section Scripts

variable {scripts : List Member}

/-- Sorted scripts with distinct names are in the order of scripts, none beside another. -/
theorem pairwise_scriptPrecedes_sortBy (distinct : (scripts.map (·.key)).Nodup) :
    ((sortBy (scriptPrecedes (scripts.map (·.key))) scripts).map (·.key)).Pairwise
      fun left right => scriptPrecedes (scripts.map (·.key)) left right = true := by
  have perm := (perm_sortBy (scriptPrecedes (scripts.map (·.key))) scripts).map (·.key)
  have sorted := pairwise_sortBy (isKeyOrder_scriptPrecedes (scripts.map (·.key))) scripts
  have apart := List.pairwise_map.mp (perm.nodup_iff.mpr distinct)
  refine List.pairwise_map.mpr ((sorted.and apart).imp fun {left right} both => ?_)
  rw [← Bool.not_eq_false]
  exact fun notBefore => both.2 (tellsApart_scriptPrecedes _ left.key right.key notBefore both.1)

end Scripts

/-- The scripts of a sorted manifest are those of the manifest, with the bytes they were written
with, and they stand in groups: a script between its hooks, or the hooks of a hook, by the bytes of
the script. So a script stands between its hooks unless it is a hook itself. -/
theorem sorted_scripts_stand_in_groups {source : Bytes} {members : List Member}
    (spells : SpellsObject members source) {field : Member} (isField : field ∈ members)
    (isScripts : field.key = scriptsField) {scripts : List Member}
    (spellsScripts : SpellsObject scripts field.value) (distinct : (scripts.map (·.key)).Nodup) :
    ∃ sorted fields moved, sort source true = .ok sorted ∧ SpellsObject fields sorted ∧
      { field with value := compactText moved } ∈ fields ∧
      SpellsObject moved (compactText moved) ∧ moved.Perm scripts ∧
      StandsInGroups (scripts.map (·.key)) (moved.map (·.key)) := by
  have isSorted : memberOrder? true field.key =
      some fun members => scriptPrecedes (members.map (·.key)) := by
    rw [isScripts]
    rfl
  have sound := spells.sound field isField
  let moved := sortBy (scriptPrecedes (scripts.map (·.key))) scripts
  have settled : settle true field = { field with value := compactText moved } := by
    rw [settle_of_reorders sound ⟨isSorted, spellsScripts⟩, write_eq_compactText]
  have movedSound := spellsScripts.sound_sortBy (scriptPrecedes (scripts.map (·.key)))
  refine ⟨_, _, moved, spells.sort_eq true, spells.settled true, ?_, ?_, perm_sortBy _ _, ?_⟩
  · rw [← settled]
    exact List.mem_map_of_mem (mem_sortBy.mpr isField)
  · rw [← write_eq_compactText]
    exact spellsObject_write movedSound
  · exact standsInGroups_of_pairwise distinct ((perm_sortBy _ _).map _)
      (pairwise_scriptPrecedes_sortBy distinct)

/-- A script between its hooks, and a name that only looks like that of a hook. -/
theorem sorted_scripts_stand_in_groups_run :
    let source : Bytes :=
      "\x7b\"scripts\":\x7b\"prep\":\"a\",\"postrun\":\"q\",\"run\":\"r\",\"prerun\":\"p\"\x7d\x7d"
    ∃ sorted fields moved, sort source true = .ok sorted ∧ SpellsObject fields sorted ∧
      ⟨"scripts", "\"scripts\"", compactText moved⟩ ∈ fields ∧
      SpellsObject moved (compactText moved) ∧
      KeepsHooks ["prep", "postrun", "run", "prerun"] (moved.map (·.key)) := by
  let scripts : List Member := [⟨"prep", "\"prep\"", "\"a\""⟩,
    ⟨"postrun", "\"postrun\"", "\"q\""⟩, ⟨"run", "\"run\"", "\"r\""⟩,
    ⟨"prerun", "\"prerun\"", "\"p\""⟩]
  let field : Member := ⟨"scripts", "\"scripts\"", write scripts⟩
  have sound : ∀ each ∈ scripts, each.Sound := by
    simp only [scripts, List.forall_mem_cons]
    refine ⟨?_, ?_, ?_, ?_, by simp⟩
    · exact Member.sound_of_read? rfl (by decide) rfl (by decide) (.string "a")
    · exact Member.sound_of_read? rfl (by decide) rfl (by decide) (.string "q")
    · exact Member.sound_of_read? rfl (by decide) rfl (by decide) (.string "r")
    · exact Member.sound_of_read? rfl (by decide) rfl (by decide) (.string "p")
  have fieldSound : ∀ each ∈ [field], each.Sound := List.forall_mem_singleton.mpr
    (sound_of_writes (lexeme_sound_of_read? rfl (by decide)) (writes_write sound)).1
  obtain ⟨sorted, fields, moved, isSorted, spells, inside, spellsMoved, _, stands⟩ :=
    sorted_scripts_stand_in_groups (spellsObject_write fieldSound) List.mem_cons_self rfl
      (spellsObject_write sound) (by decide)
  exact ⟨sorted, fields, moved, isSorted, spells, inside, spellsMoved,
    stands.keepsHooks (by decide)⟩

/-- A hook of a hook stands behind its script, apart from it. -/
theorem exists_hook_behind_its_script :
    let source : Bytes :=
      "\x7b\"scripts\":\x7b\"build\":\"b\",\"prebuild\":\"p\",\"preprebuild\":\"q\"\x7d\x7d"
    let sorted : Bytes :=
      "\x7b\"scripts\":\x7b\"prebuild\":\"p\",\"build\":\"b\",\"preprebuild\":\"q\"\x7d\x7d"
    sort source true = .ok sorted ∧
    ∃ field scripts moved, SpellsObject [field] source ∧ field.key = scriptsField ∧
      SpellsObject scripts field.value ∧ (scripts.map (·.key)).Nodup ∧
      SpellsObject [{ field with value := compactText moved }] sorted ∧
      SpellsObject moved (compactText moved) ∧ moved.Perm scripts ∧
      ¬KeepsHooks (scripts.map (·.key)) (moved.map (·.key)) := by
  let build : Member := ⟨"build", "\"build\"", "\"b\""⟩
  let hook : Member := ⟨"prebuild", "\"prebuild\"", "\"p\""⟩
  let hookOfHook : Member := ⟨"preprebuild", "\"preprebuild\"", "\"q\""⟩
  let field (scripts : List Member) : Member := ⟨"scripts", "\"scripts\"", write scripts⟩
  have buildSound : build.Sound :=
    Member.sound_of_read? rfl (by decide) rfl (by decide) (.string "b")
  have hookSound : hook.Sound :=
    Member.sound_of_read? rfl (by decide) rfl (by decide) (.string "p")
  have hookOfHookSound : hookOfHook.Sound :=
    Member.sound_of_read? rfl (by decide) rfl (by decide) (.string "q")
  have sound : ∀ each ∈ [build, hook, hookOfHook], each.Sound := by
    simp [buildSound, hookSound, hookOfHookSound]
  have movedSound : ∀ each ∈ [hook, build, hookOfHook], each.Sound := by
    simp [buildSound, hookSound, hookOfHookSound]
  have fieldSound {scripts : List Member} (sound : ∀ each ∈ scripts, each.Sound) :
      ∀ each ∈ [field scripts], each.Sound :=
    List.forall_mem_singleton.mpr
      (sound_of_writes (lexeme_sound_of_read? rfl (by decide)) (writes_write sound)).1
  have perm : [hook, build, hookOfHook].Perm [build, hook, hookOfHook] := .swap _ _ _
  have inner : sortBy (scriptPrecedes ([build, hook, hookOfHook].map (·.key)))
      [build, hook, hookOfHook] = [hook, build, hookOfHook] :=
    sortBy_eq (isKeyOrder_scriptPrecedes _) (tellsApart_scriptPrecedes _)
      (rearranged_of_nodup perm (by decide)) (by decide)
  have isSorted := (spellsObject_write (fieldSound sound)).sort_eq true
  have alone : sortBy precedes [field [build, hook, hookOfHook]] =
      [field [build, hook, hookOfHook]] :=
    sortBy_of_pairwise (List.pairwise_singleton _ _)
  rw [alone, List.map_singleton, settle_of_reorders (fieldSound sound _ List.mem_cons_self)
    ⟨rfl, spellsObject_write sound⟩, inner] at isSorted
  refine ⟨isSorted, field [build, hook, hookOfHook], _, [hook, build, hookOfHook],
    spellsObject_write (fieldSound sound), rfl, spellsObject_write sound, by decide, ?_, ?_, perm,
    fun keeps => ?_⟩
  · rw [← write_eq_compactText]
    exact spellsObject_write (fieldSound movedSound)
  · rw [← write_eq_compactText]
    exact spellsObject_write movedSound
  · have stands := keeps.preInFront "prebuild" (by decide) (by decide)
    exact absurd stands (by decide)

end FormatServer.Manifest
