import FormatServer.Path
import Mathlib

namespace FormatServer

namespace Bytes

theorem split_ne_nil (separator : UInt8) (text : Bytes) : split separator text ≠ [] := by
  cases text with
  | nil => exact List.cons_ne_nil _ _
  | cons byte rest =>
      rw [split]
      split
      · exact List.cons_ne_nil _ _
      · split <;> exact List.cons_ne_nil _ _

/-- Two texts around a separator split into the pieces of the one and those of the other. -/
theorem split_append_separator (separator : UInt8) (front rest : Bytes) :
    split separator (front ++ separator :: rest) =
      split separator front ++ split separator rest := by
  induction front with
  | nil => simp [split]
  | cons byte front ih =>
      rw [List.cons_append, split, split, ih]
      split
      · rfl
      · obtain ⟨piece, pieces, equal⟩ := List.exists_cons_of_ne_nil (split_ne_nil separator front)
        rw [equal]
        rfl

/-- A text without the separator is one piece. -/
theorem split_of_not_mem {separator : UInt8} {text : Bytes} (absent : separator ∉ text) :
    split separator text = [text] := by
  induction text with
  | nil => rfl
  | cons byte rest ih =>
      have differ := List.ne_of_not_mem_cons absent
      rw [split, if_neg (Ne.symm differ), ih (List.not_mem_of_not_mem_cons absent)]

theorem not_mem_of_mem_split {separator : UInt8} {text piece : Bytes}
    (member : piece ∈ split separator text) : separator ∉ piece := by
  induction text generalizing piece with
  | nil =>
      rw [List.mem_singleton.mp member]
      exact List.not_mem_nil
  | cons byte rest ih =>
      obtain ⟨first, others, equal⟩ := List.exists_cons_of_ne_nil (split_ne_nil separator rest)
      rw [split, equal] at member
      rw [equal] at ih
      split at member
      · rcases List.mem_cons.mp member with rfl | inRest
        · exact List.not_mem_nil
        · exact ih inRest
      · next differ =>
        rcases List.mem_cons.mp member with rfl | inRest
        · exact List.not_mem_cons_of_ne_of_not_mem (Ne.symm differ) (ih List.mem_cons_self)
        · exact ih (List.mem_cons_of_mem _ inRest)

theorem components_append_slash (front rest : Bytes) :
    components (front ++ Ascii.slash :: rest) = components front ++ components rest := by
  rw [components, split_append_separator, List.filter_append]
  rfl

/-- A text without a slash is one component. -/
theorem components_of_not_mem {text : Bytes} (notEmpty : text ≠ [])
    (noSlash : Ascii.slash ∉ text) : components text = [text] := by
  rw [components, split_of_not_mem noSlash]
  simp [notEmpty]

/-- A text that ends without a byte of the test loses only what was put behind it. -/
theorem dropWhileEnd_append {test : UInt8 → Bool} {front back : Bytes}
    (dropped : ∀ byte ∈ back, test byte = true)
    (ends : ∀ byte ∈ front.getLast?, test byte = false) :
    dropWhileEnd test (front ++ back) = front := by
  have reversed : ∀ byte ∈ back.reverse, test byte = true :=
    fun byte member => dropped byte (List.mem_reverse.mp member)
  rw [dropWhileEnd, List.reverse_append, List.dropWhile_append_of_pos reversed]
  rw [← List.head?_reverse] at ends
  cases turned : front.reverse with
  | nil => rw [List.reverse_eq_nil_iff.mp turned]; rfl
  | cons last rest =>
      rw [turned] at ends
      rw [List.dropWhile_cons_of_neg (by simp [ends last rfl]), ← turned, List.reverse_reverse]

theorem mem_components {path component : Bytes} (member : component ∈ components path) :
    component ≠ [] ∧ Ascii.slash ∉ component := by
  obtain ⟨inSplit, notEmpty⟩ := List.mem_filter.mp member
  exact ⟨by simpa using notEmpty, not_mem_of_mem_split inSplit⟩

end Bytes

namespace Path

/-- The name of an entry of a directory: a component that is neither empty nor made of one or two
dots alone. -/
structure IsName (component : Bytes) : Prop where
  ne_nil : component ≠ []
  slash_not_mem : Ascii.slash ∉ component
  ne_dot : component ≠ [Ascii.dot]
  ne_dots : component ≠ [Ascii.dot, Ascii.dot]

instance (component : Bytes) : Decidable (IsName component) :=
  decidable_of_iff
    (component ≠ [] ∧ Ascii.slash ∉ component ∧ component ≠ [Ascii.dot] ∧
      component ≠ [Ascii.dot, Ascii.dot])
    ⟨fun ⟨notEmpty, noSlash, notDot, notDots⟩ => ⟨notEmpty, noSlash, notDot, notDots⟩,
      fun name => ⟨name.ne_nil, name.slash_not_mem, name.ne_dot, name.ne_dots⟩⟩

theorem join_cons_cons (name next : Bytes) (names : List Bytes) :
    join (name :: next :: names) = name ++ Ascii.slash :: join (next :: names) := rfl

/-- A slash joins two lists of names, unless one of them is empty. -/
theorem join_append {front back : List Bytes} (frontNotEmpty : front ≠ [])
    (backNotEmpty : back ≠ []) :
    join (front ++ back) = join front ++ Ascii.slash :: join back := by
  induction front with
  | nil => exact absurd rfl frontNotEmpty
  | cons first front ih =>
      cases front with
      | nil =>
          obtain ⟨name, names, rfl⟩ := List.exists_cons_of_ne_nil backNotEmpty
          rfl
      | cons second front =>
          rw [List.cons_append, List.cons_append, join_cons_cons, join_cons_cons,
            ← List.cons_append, ih (List.cons_ne_nil _ _), List.append_assoc, List.cons_append]

/-- One more name comes after a slash, unless it is the first. -/
theorem exists_separator (names : List Bytes) (name : Bytes) :
    ∃ separator, join (names ++ [name]) = join names ++ separator ++ name ∧
      (∀ byte ∈ separator, byte = Ascii.slash) ∧
      ∀ byte ∈ (join names ++ separator).getLast?, byte = Ascii.slash := by
  by_cases empty : names = []
  · exact ⟨[], by simp [empty, join], by simp, by simp [empty, join]⟩
  · have joined := join_append empty (List.cons_ne_nil name [])
    exact ⟨[Ascii.slash], joined.trans (List.append_cons _ _ name), by simp, by simp⟩

/-- Components that are joined are found again. -/
theorem components_join_of_forall {parts : List Bytes}
    (areParts : ∀ part ∈ parts, part ≠ [] ∧ Ascii.slash ∉ part) :
    Bytes.components (join parts) = parts := by
  induction parts with
  | nil => rfl
  | cons part parts ih =>
      obtain ⟨⟨notEmpty, noSlash⟩, others⟩ := List.forall_mem_cons.mp areParts
      have single := Bytes.components_of_not_mem notEmpty noSlash
      cases parts with
      | nil => exact single
      | cons next parts =>
          rw [join_cons_cons, Bytes.components_append_slash, single, ih others]
          rfl

theorem components_join {names : List Bytes} (areNames : ∀ name ∈ names, IsName name) :
    Bytes.components (join names) = names :=
  components_join_of_forall fun name member =>
    ⟨(areNames name member).ne_nil, (areNames name member).slash_not_mem⟩

/-- The components that are left are names. -/
theorem isName_of_mem_resolveDots {kept components : List Bytes}
    (keptNames : ∀ name ∈ kept, IsName name)
    (parts : ∀ component ∈ components, component ≠ [] ∧ Ascii.slash ∉ component) :
    ∀ name ∈ resolveDots kept components, IsName name := by
  fun_induction resolveDots kept components with
  | case1 kept => exact fun name member => keptNames name (List.mem_reverse.mp member)
  | case2 kept components ih => exact ih keptNames (List.forall_mem_cons.mp parts).2
  | case3 kept components notDot ih =>
      exact ih (fun name member => keptNames name (List.mem_of_mem_tail member))
        (List.forall_mem_cons.mp parts).2
  | case4 kept component components notDot notDots ih =>
      obtain ⟨⟨notEmpty, noSlash⟩, others⟩ := List.forall_mem_cons.mp parts
      exact ih (List.forall_mem_cons.mpr ⟨⟨notEmpty, noSlash, notDot, notDots⟩, keptNames⟩) others

/-- Names stay. -/
theorem resolveDots_of_isName (kept : List Bytes) {names : List Bytes}
    (areNames : ∀ name ∈ names, IsName name) : resolveDots kept names = kept.reverse ++ names := by
  induction names generalizing kept with
  | nil => rw [resolveDots, List.append_nil]
  | cons name names ih =>
      obtain ⟨isName, others⟩ := List.forall_mem_cons.mp areNames
      rw [resolveDots, if_neg isName.ne_dot, if_neg isName.ne_dots, ih _ others,
        List.reverse_cons, List.append_assoc]
      rfl

/-- Normalizing leaves the root and names. -/
theorem exists_names_of_normalize (path : Bytes) :
    ∃ names, (∀ name ∈ names, IsName name) ∧ normalize path = root path ++ join names :=
  ⟨resolveDots [] (Bytes.components (path.drop (root path).length)),
    isName_of_mem_resolveDots (by simp) fun _ => Bytes.mem_components, rfl⟩

theorem head?_join {names : List Bytes} (areNames : ∀ name ∈ names, IsName name) :
    (join names).head? ≠ some Ascii.slash := by
  cases names with
  | nil => simp [join]
  | cons name names =>
      have isName := areNames name List.mem_cons_self
      obtain ⟨first, rest, rfl⟩ := List.exists_cons_of_ne_nil isName.ne_nil
      have differ := List.ne_of_not_mem_cons isName.slash_not_mem
      cases names <;> simpa [join] using Ne.symm differ

theorem getLast?_join {names : List Bytes} (areNames : ∀ name ∈ names, IsName name) :
    ∀ byte ∈ (join names).getLast?, byte ≠ Ascii.slash := by
  intro byte isLast
  cases names using List.reverseRecOn with
  | nil => exact nomatch isLast
  | append_singleton names name =>
      have isName := areNames name (by simp)
      obtain ⟨separator, equal, _, _⟩ := exists_separator names name
      rw [equal, List.getLast?_append, List.getLast?_eq_some_getLast isName.ne_nil,
        Option.some_or] at isLast
      exact fun same => isName.slash_not_mem
        (same ▸ Option.some.inj isLast ▸ List.getLast_mem isName.ne_nil)

/-- A path with one slash in front has the plain root. -/
theorem root_slash {rest : Bytes} (plain : rest.head? ≠ some Ascii.slash) :
    root (Ascii.slash :: rest) = [Ascii.slash] := by
  match rest with
  | [] => rfl
  | [_] => rfl
  | second :: third :: rest =>
      have differ : second ≠ Ascii.slash := by simpa using plain
      simp [root, differ]

/-- A path with two slashes, a network name and another slash in front has all of that as its
root. -/
theorem root_network {first : UInt8} {network : Bytes} (notSlash : first ≠ Ascii.slash)
    (noSlash : Ascii.slash ∉ network) (rest : Bytes) :
    root (Ascii.slash :: Ascii.slash :: first :: (network ++ Ascii.slash :: rest)) =
      Ascii.slash :: Ascii.slash :: first :: (network ++ [Ascii.slash]) := by
  have plain : ∀ byte ∈ first :: network, decide (byte ≠ Ascii.slash) = true := by
    intro byte member
    refine decide_eq_true fun same => ?_
    rcases List.mem_cons.mp member with equal | inNetwork
    · exact notSlash (equal ▸ same)
    · exact noSlash (same ▸ inNetwork)
  rw [root, if_pos rfl, if_pos ⟨rfl, notSlash⟩, ← List.cons_append,
    List.takeWhile_append_of_pos plain, List.dropWhile_append_of_pos plain]
  simp

/-- An absolute path starts at the plain root or in a network. -/
theorem root_of_isAbsolute {path : Bytes} (absolute : isAbsolute path = true) :
    root path = [Ascii.slash] ∨
      ∃ first network, first ≠ Ascii.slash ∧ Ascii.slash ∉ network ∧
        root path = Ascii.slash :: Ascii.slash :: first :: (network ++ [Ascii.slash]) := by
  rw [isAbsolute] at absolute
  revert absolute
  fun_cases root path with
  | case1 second third rest inNetwork =>
      intro absolute
      obtain ⟨rfl, notSlash⟩ := inNetwork
      have noSlash : Ascii.slash ∉ rest.takeWhile (· ≠ Ascii.slash) := by
        intro member
        simpa using List.mem_takeWhile_imp member
      refine Or.inr ⟨third, rest.takeWhile (· ≠ Ascii.slash), notSlash, noSlash, ?_⟩
      rw [List.takeWhile_cons_of_pos (by simpa using notSlash),
        List.dropWhile_cons_of_pos (by simpa using notSlash)] at absolute ⊢
      have stop := List.head?_dropWhile_not (· ≠ Ascii.slash) rest
      cases after : rest.dropWhile (· ≠ Ascii.slash) with
      | nil =>
          -- Without a slash behind the name, the last byte is one of the name.
          have last : (third :: rest.takeWhile (· ≠ Ascii.slash)).getLast? = some Ascii.slash := by
            rw [after] at absolute
            simpa only [endsInSlash, List.take_nil, List.append_nil, List.getLast?_cons_cons,
              beq_iff_eq] using absolute
          rcases List.mem_cons.mp (List.mem_of_getLast? last) with equal | inName
          · exact absurd equal.symm notSlash
          · exact absurd inName noSlash
      | cons next tail =>
          rw [after] at stop
          have isSlash : next = Ascii.slash := by simpa using stop
          simp [isSlash]
  | case2 | case4 => exact fun _ => Or.inl rfl
  | case3 | case5 | case6 =>
      intro absolute
      contradiction

/-- Names after an absolute root do not lengthen the root. -/
theorem root_append_join {path : Bytes} (absolute : isAbsolute path = true) {names : List Bytes}
    (areNames : ∀ name ∈ names, IsName name) : root (root path ++ join names) = root path := by
  rcases root_of_isAbsolute absolute with plain | ⟨first, network, notSlash, noSlash, equal⟩
  · rw [plain]
    exact root_slash (head?_join areNames)
  · rw [equal, List.cons_append, List.cons_append, List.cons_append, List.append_assoc]
    exact root_network notSlash noSlash (join names)

theorem isAbsolute_append_join {path : Bytes} (absolute : isAbsolute path = true)
    {names : List Bytes} (areNames : ∀ name ∈ names, IsName name) :
    isAbsolute (root path ++ join names) = true := by
  rw [isAbsolute, root_append_join absolute areNames]
  exact absolute

/-- A path of an absolute root and names is normalized. -/
theorem normalize_append_join {path : Bytes} (absolute : isAbsolute path = true)
    {names : List Bytes} (areNames : ∀ name ∈ names, IsName name) :
    normalize (root path ++ join names) = root path ++ join names := by
  rw [normalize, root_append_join absolute areNames, List.drop_left, components_join areNames,
    resolveDots_of_isName [] areNames]
  rfl

/-- The path of names below the plain root. -/
def ofNames (names : List Bytes) : Bytes :=
  Ascii.slash :: join names

theorem components_ofNames {names : List Bytes} (areNames : ∀ name ∈ names, IsName name) :
    Bytes.components (ofNames names) = names := by
  have split := Bytes.components_append_slash [] (join names)
  rw [components_join areNames] at split
  exact split

theorem root_ofNames {names : List Bytes} (areNames : ∀ name ∈ names, IsName name) :
    root (ofNames names) = [Ascii.slash] :=
  root_slash (head?_join areNames)

/-- Nothing stands above the root. -/
theorem parent_ofNames_nil : parent (ofNames []) = [] := rfl

/-- The directory of a named entry is the path of the names before. -/
theorem parent_ofNames {names : List Bytes} {name : Bytes}
    (areNames : ∀ other ∈ names ++ [name], IsName other) :
    parent (ofNames (names ++ [name])) = ofNames names := by
  obtain ⟨beforeNames, single⟩ := List.forall_mem_append.mp areNames
  have isName := single name List.mem_cons_self
  obtain ⟨separator, equal, slashes, last⟩ := exists_separator names name
  have notSlashes : (join (names ++ [name])).all (· == Ascii.slash) = false := by
    obtain ⟨byte, member⟩ := List.exists_mem_of_ne_nil name isName.ne_nil
    refine List.all_eq_false.mpr ⟨byte, by simp [equal, member], ?_⟩
    rw [beq_iff_eq]
    exact fun same => isName.slash_not_mem (same ▸ member)
  have noSlashLast : endsInSlash (join (names ++ [name])) = false := by
    rw [endsInSlash, beq_eq_false_iff_ne]
    exact fun last => getLast?_join areNames _ last rfl
  have noSlash : ∀ byte ∈ name, decide (byte ≠ Ascii.slash) = true := by
    intro byte member
    exact decide_eq_true fun same => isName.slash_not_mem (same ▸ member)
  rw [parent, root_ofNames areNames]
  simp only [ofNames, List.length_singleton, List.drop_succ_cons, List.drop_zero, notSlashes,
    noSlashLast, Bool.false_eq_true, if_false]
  rw [equal, Bytes.dropWhileEnd_append noSlash fun byte member => by simpa using last byte member,
    Bytes.dropWhileEnd_append (fun byte member => by simpa using slashes byte member)
      fun byte member => by simpa using getLast?_join beforeNames byte member]
  rfl

end Path

end FormatServer
