import FormatServer.Ignore.Rules
import FormatServer.Proofs.Path.Names
import Mathlib.Data.List.DropRight

namespace FormatServer

namespace Path

/-- Whether a path leads to something inside the directory of another, both given by their names. -/
def IsBelow (root path : List Bytes) : Prop :=
  root <+: path ∧ root ≠ path

/-- The entries from a path up to a root and without it: the path, its directory, and so on. -/
def upward (root path : List Bytes) : List (List Bytes) :=
  (List.range (path.length - root.length)).map path.rdrop

theorem isBelow_append (root : List Bytes) {names : List Bytes} (notEmpty : names ≠ []) :
    IsBelow root (root ++ names) :=
  ⟨List.prefix_append root names, fun same => notEmpty (List.self_eq_append_right.mp same)⟩

theorem IsBelow.trans {root directory path : List Bytes} (first : IsBelow root directory)
    (second : IsBelow directory path) : IsBelow root path := by
  refine ⟨first.1.trans second.1, ?_⟩
  rintro rfl
  exact first.2 (first.1.eq_of_length_le second.1.length_le)

theorem not_isBelow_of_concat {root names : List Bytes} {name : Bytes}
    (outside : ¬IsBelow root (names ++ [name])) : ¬IsBelow root names :=
  fun below => outside (below.trans (isBelow_append names (List.cons_ne_nil name [])))

theorem IsBelow.exists_append {root path : List Bytes} (below : IsBelow root path) :
    ∃ names name, path = root ++ names ++ [name] := by
  obtain ⟨⟨rest, rfl⟩, differ⟩ := below
  cases rest using List.reverseRecOn with
  | nil => exact absurd (List.append_nil root).symm differ
  | append_singleton names name => exact ⟨names, name, (List.append_assoc root names [name]).symm⟩

@[simp] theorem upward_self (root : List Bytes) : upward root root = [] := by
  simp [upward]

/-- The way up from an entry of a directory goes on as that from the directory. -/
theorem upward_concat (root names : List Bytes) (name : Bytes) :
    upward root (root ++ names ++ [name]) =
      (root ++ names ++ [name]) :: upward root (root ++ names) := by
  have steps : (root ++ names ++ [name]).length - root.length =
      (root ++ names).length - root.length + 1 := by
    simp only [List.length_append, List.length_singleton]
    omega
  rw [upward, upward, steps, List.range_succ_eq_map, List.map_cons, List.map_map, List.rdrop_zero]
  congr 2
  funext dropped
  exact List.rdrop_concat_succ _ dropped name

/-- The way up leads through the entries below the root that the path leads through. -/
theorem mem_upward {root names entry : List Bytes} :
    entry ∈ upward root (root ++ names) ↔ IsBelow root entry ∧ entry <+: root ++ names := by
  induction names using List.reverseRecOn with
  | nil =>
      rw [List.append_nil, upward_self]
      constructor
      · exact fun member => nomatch member
      · rintro ⟨⟨isPrefix, differ⟩, back⟩
        exact absurd (isPrefix.eq_of_length_le back.length_le) differ
  | append_singleton names name ih =>
      have whole : entry = root ++ (names ++ [name]) → IsBelow root entry := by
        rintro rfl
        exact isBelow_append root (by simp)
      rw [← List.append_assoc] at whole ⊢
      rw [upward_concat, List.mem_cons, ih, List.prefix_concat_iff]
      tauto

/-- The directories on the way up are those between the root and the path. -/
theorem mem_tail_upward {root path directory : List Bytes} (below : IsBelow root path) :
    directory ∈ (upward root path).tail ↔ IsBelow root directory ∧ IsBelow directory path := by
  obtain ⟨names, name, rfl⟩ := below.exists_append
  rw [upward_concat, List.tail_cons, mem_upward]
  refine and_congr_right fun _ => ?_
  rw [IsBelow, List.prefix_concat_iff]
  constructor
  · intro isPrefix
    refine ⟨Or.inr isPrefix, ?_⟩
    rintro rfl
    have lengths := isPrefix.length_le
    rw [List.length_append, List.length_singleton] at lengths
    exact absurd lengths (Nat.not_succ_le_self _)
  · rintro ⟨either, differ⟩
    exact either.resolve_left differ

theorem ofNames_append (root : List Bytes) {names : List Bytes}
    (areNames : ∀ name ∈ names, IsName name) :
    ∃ rest, ofNames (root ++ names) = ofNames root ++ rest ∧ Bytes.components rest = names ∧
      (rest = [] ∨ root = [] ∨ rest.head? = some Ascii.slash) := by
  by_cases atTop : root = []
  · exact ⟨join names, by simp [atTop, ofNames, join], components_join areNames,
      Or.inr (Or.inl atTop)⟩
  · cases names with
    | nil => exact ⟨[], by simp, rfl, Or.inl rfl⟩
    | cons name names =>
        refine ⟨ofNames (name :: names), ?_, components_ofNames areNames, Or.inr (Or.inr rfl)⟩
        rw [ofNames, join_append atTop (List.cons_ne_nil name names)]
        rfl

theorem eq_append_of_ofNames {root path : List Bytes} {rest : Bytes}
    (rootNames : ∀ name ∈ root, IsName name) (pathNames : ∀ name ∈ path, IsName name)
    (equal : ofNames path = ofNames root ++ rest)
    (continues : rest = [] ∨ root = [] ∨ rest.head? = some Ascii.slash) :
    path = root ++ Bytes.components rest := by
  have parts := congrArg Bytes.components equal
  rw [components_ofNames pathNames] at parts
  rcases continues with rfl | rfl | slash
  · rw [List.append_nil, components_ofNames rootNames] at parts
    rw [parts]
    exact (List.append_nil root).symm
  · rw [parts]
    exact Bytes.components_append_slash [] rest
  · obtain ⟨tail, rfl⟩ := List.head?_eq_some_iff.mp slash
    rw [parts, Bytes.components_append_slash, components_ofNames rootNames]
    rfl

/-- Names below a root make its path longer. -/
theorem length_ofNames_lt {root path : List Bytes} (pathNames : ∀ name ∈ path, IsName name)
    (below : IsBelow root path) : (ofNames root).length < (ofNames path).length := by
  obtain ⟨names, name, rfl⟩ := below.exists_append
  rw [List.append_assoc] at pathNames ⊢
  obtain ⟨rest, equal, components, _⟩ :=
    ofNames_append root (List.forall_mem_append.mp pathNames).2
  have notEmpty : rest ≠ [] := by
    rintro rfl
    exact absurd components.symm (by simp [Bytes.components, Bytes.split])
  rw [equal, List.length_append]
  exact Nat.lt_add_of_pos_right (List.length_pos_iff.mpr notEmpty)

/-- Only the path of the root itself ends with a slash. -/
theorem endsInSlash_ofNames {names : List Bytes} (areNames : ∀ name ∈ names, IsName name) :
    endsInSlash (ofNames names) = true ↔ names = [] := by
  refine ⟨fun ends => ?_, fun empty => empty ▸ rfl⟩
  rw [endsInSlash, beq_iff_eq, ofNames] at ends
  by_contra notEmpty
  have joined : join names ≠ [] := by
    intro empty
    have parts := components_join areNames
    rw [empty] at parts
    exact notEmpty parts.symm
  rw [List.getLast?_cons_of_ne_nil joined] at ends
  exact getLast?_join areNames _ ends rfl

end Path

namespace Verdict

/-- The first verdict of a list that decides. -/
def first (verdicts : List Verdict) : Verdict :=
  (verdicts.find? (· ≠ .undecided)).getD .undecided

@[simp] theorem first_nil : first [] = .undecided := rfl

theorem first_cons (verdict : Verdict) (verdicts : List Verdict) :
    first (verdict :: verdicts) = if verdict = .undecided then first verdicts else verdict := by
  cases verdict <;> rfl

/-- Where nothing is kept, one entry that is ignored decides. -/
theorem first_eq_ignored_iff {verdicts : List Verdict}
    (noneKept : ∀ verdict ∈ verdicts, verdict ≠ .kept) :
    first verdicts = .ignored ↔ Verdict.ignored ∈ verdicts := by
  induction verdicts with
  | nil => simp
  | cons verdict verdicts ih =>
      obtain ⟨notKept, others⟩ := List.forall_mem_cons.mp noneKept
      rw [first_cons, List.mem_cons]
      cases verdict with
      | undecided => simpa using ih others
      | ignored => simp
      | kept => exact absurd rfl notKept

end Verdict

namespace IgnoreRules

/-- The rules of a list for the directory with the given names. -/
def atRoot (root : List Bytes) (list : List IgnoreRule) : IgnoreRules :=
  { empty (Path.ofNames root) with list }

variable {root path : List Bytes} (list : List IgnoreRule)

theorem root_atRoot (rootNames : ∀ name ∈ root, Path.IsName name) :
    (atRoot root list).root = Path.ofNames root := by
  have noSlash : ∀ byte ∈ (Path.join root).getLast?, (byte == Ascii.slash) = false := by
    intro byte member
    simpa using Path.getLast?_join rootNames byte member
  have kept := Bytes.dropWhileEnd_append (List.forall_mem_nil _) noSlash
  rw [List.append_nil] at kept
  exact congrArg (Ascii.slash :: ·) kept

/-- The names below the root are what a path has after those of the root. -/
theorem relative?_eq_some_iff (rootNames : ∀ name ∈ root, Path.IsName name)
    (pathNames : ∀ name ∈ path, Path.IsName name) {names : List Bytes} :
    (atRoot root list).relative? (Path.ofNames path) = some names ↔ path = root ++ names := by
  have separated : ∀ rest : Bytes,
      (rest ≠ [] ∧ Path.ofNames root ≠ [] ∧ ¬Path.endsInSlash (Path.ofNames root) ∧
        rest.head? ≠ some Ascii.slash) ↔
      ¬(rest = [] ∨ root = [] ∨ rest.head? = some Ascii.slash) := by
    intro rest
    rw [Path.endsInSlash_ofNames rootNames]
    simp [Path.ofNames]
  rw [relative?, root_atRoot list rootNames]
  constructor
  · intro found
    split at found
    · contradiction
    · next rest after =>
      rw [Bytes.after?_eq_some_iff] at after
      split at found
      · contradiction
      · next continues =>
        rw [separated, not_not] at continues
        rw [← Option.some.inj found]
        exact Path.eq_append_of_ofNames rootNames pathNames after continues
  · rintro rfl
    have areNames := (List.forall_mem_append.mp pathNames).2
    obtain ⟨rest, equal, components, continues⟩ := Path.ofNames_append root areNames
    rw [Bytes.after?_eq_some_iff.mpr equal]
    simp only [separated, continues, not_true, if_false, components]

/-- Nothing is said about a path that is not below the root. -/
theorem verdict_of_not_isBelow (rootNames : ∀ name ∈ root, Path.IsName name)
    (pathNames : ∀ name ∈ path, Path.IsName name) (outside : ¬Path.IsBelow root path)
    (isDirectory : Bool) :
    (atRoot root list).verdict (Path.ofNames path) isDirectory = .undecided := by
  unfold verdict
  split
  · rfl
  · rfl
  · next names notEmpty found =>
    rw [relative?_eq_some_iff list rootNames pathNames] at found
    subst found
    exact absurd (Path.isBelow_append root fun empty => notEmpty empty) outside

/-- Nothing is found above a path that is not below the root, however long its directories are. -/
theorem verdictOfDirectories_of_not_isBelow (rootNames : ∀ name ∈ root, Path.IsName name)
    (pathNames : ∀ name ∈ path, Path.IsName name) (outside : ¬Path.IsBelow root path) :
    (atRoot root list).verdictOfDirectories (Path.ofNames path) = .undecided := by
  induction path using List.reverseRecOn with
  | nil =>
      rw [verdictOfDirectories, root_atRoot list rootNames, dif_neg]
      simp [Path.ofNames, Path.join]
  | append_singleton names name ih =>
      rw [verdictOfDirectories]
      split
      · rw [verdict_of_not_isBelow list rootNames pathNames outside, Path.parent_ofNames pathNames]
        exact ih (List.forall_mem_append.mp pathNames).1 (Path.not_isBelow_of_concat outside)
      · rfl

/-- The directories on the way up decide in their order. -/
theorem verdictOfDirectories_append (rootNames : ∀ name ∈ root, Path.IsName name)
    {names : List Bytes} (areNames : ∀ name ∈ names, Path.IsName name) :
    (atRoot root list).verdictOfDirectories (Path.ofNames (root ++ names)) =
      Verdict.first ((Path.upward root (root ++ names)).map fun directory =>
        (atRoot root list).verdict (Path.ofNames directory) true) := by
  induction names using List.reverseRecOn with
  | nil =>
      rw [List.append_nil, Path.upward_self]
      exact verdictOfDirectories_of_not_isBelow list rootNames rootNames fun below => below.2 rfl
  | append_singleton names name ih =>
      have allNames : ∀ other ∈ root ++ names ++ [name], Path.IsName other := by
        rw [List.append_assoc]
        exact List.forall_mem_append.mpr ⟨rootNames, areNames⟩
      have inside : Path.ofNames (root ++ names ++ [name]) ≠ [] ∧
          (atRoot root list).root.length < (Path.ofNames (root ++ names ++ [name])).length := by
        refine ⟨List.cons_ne_nil _ _, ?_⟩
        rw [root_atRoot list rootNames]
        refine Path.length_ofNames_lt allNames ?_
        rw [List.append_assoc]
        exact Path.isBelow_append root (by simp)
      rw [← List.append_assoc, Path.upward_concat, List.map_cons, Verdict.first_cons,
        verdictOfDirectories, dif_pos inside, Path.parent_ofNames allNames,
        ih (List.forall_mem_append.mp areNames).1]
      cases (atRoot root list).verdict (Path.ofNames (root ++ names ++ [name])) true <;> rfl

/-- Neither a path that is not below the root nor a directory above it has a verdict. -/
theorem verdictWithParents_of_not_isBelow (rootNames : ∀ name ∈ root, Path.IsName name)
    (pathNames : ∀ name ∈ path, Path.IsName name) (outside : ¬Path.IsBelow root path)
    (isDirectory : Bool) :
    (atRoot root list).verdictWithParents (Path.ofNames path) isDirectory = .undecided := by
  rw [verdictWithParents, verdict_of_not_isBelow list rootNames pathNames outside]
  cases path using List.reverseRecOn with
  | nil =>
      rw [Path.parent_ofNames_nil, verdictOfDirectories, dif_neg]
      exact fun inside => inside.1 rfl
  | append_singleton names name =>
      rw [Path.parent_ofNames pathNames]
      exact verdictOfDirectories_of_not_isBelow list rootNames
        (List.forall_mem_append.mp pathNames).1 (Path.not_isBelow_of_concat outside)

/-- The path itself decides first, then the directories on the way up. -/
theorem verdictWithParents_of_isBelow (rootNames : ∀ name ∈ root, Path.IsName name)
    (pathNames : ∀ name ∈ path, Path.IsName name) (below : Path.IsBelow root path)
    (isDirectory : Bool) :
    (atRoot root list).verdictWithParents (Path.ofNames path) isDirectory =
      Verdict.first ((atRoot root list).verdict (Path.ofNames path) isDirectory ::
        (Path.upward root path).tail.map fun directory =>
          (atRoot root list).verdict (Path.ofNames directory) true) := by
  obtain ⟨names, name, rfl⟩ := below.exists_append
  have beforeNames := (List.forall_mem_append.mp pathNames).1
  rw [verdictWithParents, Verdict.first_cons, Path.upward_concat, List.tail_cons,
    Path.parent_ofNames pathNames,
    verdictOfDirectories_append list rootNames (List.forall_mem_append.mp beforeNames).2]
  cases (atRoot root list).verdict (Path.ofNames (root ++ names ++ [name])) isDirectory <;> rfl

/-- Rules that keep nothing never say that a path is kept. -/
theorem verdict_ne_kept {list : List IgnoreRule} (noneKeeps : ∀ rule ∈ list, rule.keeps = false)
    (path : Bytes) (isDirectory : Bool) : (atRoot root list).verdict path isDirectory ≠ .kept := by
  unfold verdict
  split
  · exact Verdict.noConfusion
  · exact Verdict.noConfusion
  · simp only [verdictOf]
    split
    · next rule found =>
      have member := List.mem_reverse.mp (List.mem_of_find?_eq_some found)
      rw [noneKeeps rule member]
      exact Verdict.noConfusion
    · exact Verdict.noConfusion

/-- If no rule keeps anything, a path is ignored exactly if it or a directory on the way up is. -/
theorem verdictWithParents_eq_ignored_iff {list : List IgnoreRule}
    (noneKeeps : ∀ rule ∈ list, rule.keeps = false) (rootNames : ∀ name ∈ root, Path.IsName name)
    (pathNames : ∀ name ∈ path, Path.IsName name) (below : Path.IsBelow root path)
    (isDirectory : Bool) :
    (atRoot root list).verdictWithParents (Path.ofNames path) isDirectory = .ignored ↔
      (atRoot root list).verdict (Path.ofNames path) isDirectory = .ignored ∨
        ∃ directory, Path.IsBelow root directory ∧ Path.IsBelow directory path ∧
          (atRoot root list).verdict (Path.ofNames directory) true = .ignored := by
  rw [verdictWithParents_of_isBelow list rootNames pathNames below,
    Verdict.first_eq_ignored_iff, List.mem_cons, List.mem_map]
  · simp only [Path.mem_tail_upward below, and_assoc, eq_comm]
  · refine List.forall_mem_cons.mpr ⟨verdict_ne_kept noneKeeps _ _, ?_⟩
    intro verdict member
    obtain ⟨directory, _, rfl⟩ := List.mem_map.mp member
    exact verdict_ne_kept noneKeeps _ _

/-- Of a path that is not below the root the rules say nothing, also not by a directory above it.
Otherwise the first entry with a verdict on the way up to the root decides: the path itself as what
it is, and the entries above it as directories. If no rule keeps anything, whatever is below an
ignored directory is ignored. -/
theorem nearest_verdict_decides (list : List IgnoreRule) (root path : List Bytes)
    (isDirectory : Bool) (rootNames : ∀ name ∈ root, Path.IsName name)
    (pathNames : ∀ name ∈ path, Path.IsName name) :
    (¬Path.IsBelow root path →
      (atRoot root list).verdict (Path.ofNames path) isDirectory = .undecided ∧
        (atRoot root list).verdictWithParents (Path.ofNames path) isDirectory = .undecided) ∧
    (Path.IsBelow root path →
      (atRoot root list).verdictWithParents (Path.ofNames path) isDirectory =
        Verdict.first ((atRoot root list).verdict (Path.ofNames path) isDirectory ::
          (Path.upward root path).tail.map fun directory =>
            (atRoot root list).verdict (Path.ofNames directory) true)) ∧
    ((∀ rule ∈ list, rule.keeps = false) →
      ∀ directory, Path.IsBelow root directory → Path.IsBelow directory path →
        (atRoot root list).verdictWithParents (Path.ofNames directory) true = .ignored →
        (atRoot root list).verdictWithParents (Path.ofNames path) isDirectory = .ignored) := by
  refine ⟨fun outside => ?_, fun below => ?_, fun noneKeeps directory inRoot inside ignored => ?_⟩
  · exact ⟨verdict_of_not_isBelow list rootNames pathNames outside isDirectory,
      verdictWithParents_of_not_isBelow list rootNames pathNames outside isDirectory⟩
  · exact verdictWithParents_of_isBelow list rootNames pathNames below isDirectory
  · have directoryNames : ∀ name ∈ directory, Path.IsName name :=
      fun name member => pathNames name (inside.1.subset member)
    rw [verdictWithParents_eq_ignored_iff noneKeeps rootNames directoryNames inRoot] at ignored
    rw [verdictWithParents_eq_ignored_iff noneKeeps rootNames pathNames (inRoot.trans inside)]
    refine Or.inr ?_
    rcases ignored with itself | ⟨above, inRoot, insideAbove, ignored⟩
    · exact ⟨directory, inRoot, inside, itself⟩
    · exact ⟨above, inRoot, insideAbove.trans inside, ignored⟩

/-- A rule for directories of one name ignores a file in such a directory, and nothing in a
directory beside the root whose name goes on where that of the root ends. -/
theorem nearest_verdict_decides_directory :
    let list : List IgnoreRule :=
      [⟨[.anyDepth, .component ("out".toList.map fun letter => .literal letter.toUInt8)],
        false, true⟩]
    let root : List Bytes := ["w"]
    (∀ name ∈ root, Path.IsName name) ∧
      (∀ name ∈ ([Bytes.ofString "w", "out", "a", "b.ts"] : List Bytes), Path.IsName name) ∧
      (∀ rule ∈ list, rule.keeps = false) ∧
      (atRoot root list).verdictWithParents "/w/out" true = .ignored ∧
      (atRoot root list).verdictWithParents "/w/out/a/b.ts" false = .ignored ∧
      (∀ name ∈ ([Bytes.ofString "w2", "out"] : List Bytes), Path.IsName name) ∧
      (atRoot root list).verdictWithParents "/w2/out" true = .undecided := by
  intro list root
  have rootNames : ∀ name ∈ root, Path.IsName name := by decide
  have insideNames : ∀ name ∈ ([Bytes.ofString "w", "out", "a", "b.ts"] : List Bytes),
      Path.IsName name := by decide
  have outsideNames : ∀ name ∈ ([Bytes.ofString "w2", "out"] : List Bytes), Path.IsName name := by
    decide
  have noneKeeps : ∀ rule ∈ list, rule.keeps = false := by decide
  have ignored : (atRoot root list).verdictWithParents "/w/out" true = .ignored := by decide
  have inside := (nearest_verdict_decides list root _ false rootNames insideNames).2.2 noneKeeps
    ["w", "out"] ⟨by decide, by decide⟩ ⟨by decide, by decide⟩ ignored
  have outside := (nearest_verdict_decides list root _ true rootNames outsideNames).1 fun below =>
    absurd below.1 (by decide)
  exact ⟨rootNames, insideNames, noneKeeps, ignored, inside, outsideNames, outside.2⟩

end IgnoreRules

end FormatServer
