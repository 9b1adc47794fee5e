import FormatServer.Proofs.Ignore.Decisions

namespace FormatServer

namespace RuleLine

/-- A segment of a pattern that stands for one name. -/
structure IsSegment (segment : Bytes) : Prop where
  ne_nil : segment ≠ []
  slash_not_mem : Ascii.slash ∉ segment
  ne_stars : segment ≠ [Ascii.star, Ascii.star]
  readable : ∃ pattern, Glob.parse? segment = some pattern

theorem IsSegment.isPart {segment : Bytes} (isSegment : IsSegment segment) :
    segment ≠ [] ∧ Ascii.slash ∉ segment :=
  ⟨isSegment.ne_nil, isSegment.slash_not_mem⟩

/-- Whether a path leads through names that fit the segments, one by one from the root. -/
def LeadsThrough (segments names : List Bytes) : Prop :=
  List.Forall₂ Fits segments (names.take segments.length)

/-- Segments and two stars divide the names that have first ones for the segments. -/
theorem divides_concat_stars {segments names : List Bytes}
    (areSegments : ∀ segment ∈ segments, IsSegment segment) :
    Divides (segments ++ [[Ascii.star, Ascii.star]]) names ↔ LeadsThrough segments names := by
  unfold LeadsThrough
  induction segments generalizing names with
  | nil => simp [divides_cons, divides_nil, covers_stars]
  | cons segment segments ih =>
      obtain ⟨isSegment, others⟩ := List.forall_mem_cons.mp areSegments
      simp only [List.cons_append, divides_cons, covers_iff_of_ne isSegment.ne_stars, ih others,
        List.length_cons]
      cases names with
      | nil => simp
      | cons name names =>
          rw [List.take_succ_cons, List.forall₂_cons]
          constructor
          · rintro ⟨_, rest, equal, ⟨first, rfl, fits⟩, divided⟩
            obtain ⟨rfl, rfl⟩ := List.cons.inj equal
            exact ⟨fits, divided⟩
          · rintro ⟨fits, divided⟩
            exact ⟨[name], names, rfl, ⟨name, rfl, fits⟩, divided⟩

/-- Components that can be read make a rule. -/
theorem exists_ofComponents? {components : List Bytes}
    (readable : ∀ component ∈ components, component = [Ascii.star, Ascii.star] ∨
      ∃ pattern, Glob.parse? component = some pattern) (read : List RuleSegment) :
    ∃ segments, RuleSegment.ofComponents? read components = some segments := by
  induction components generalizing read with
  | nil => exact ⟨read, rfl⟩
  | cons component components ih =>
      obtain ⟨first, others⟩ := List.forall_mem_cons.mp readable
      rw [RuleSegment.ofComponents?]
      split
      · exact ih others _
      · next notStars =>
        obtain ⟨pattern, parsed⟩ := first.resolve_left notStars
        rw [parsed]
        exact ih others _

/-- A text that ends with another byte has no tail. -/
theorem isTail_of_getLast? {text : Bytes} {last : UInt8} (isLast : text.getLast? = some last)
    (visible : last ∉ [Ascii.carriageReturn, Ascii.newline, Ascii.space]) :
    IsTail text [] [] := by
  simp only [List.mem_cons, List.not_mem_nil, or_false, not_or] at visible
  refine .none (fun byte isByte => ?_) fun front ends => ?_
  · rw [isLast] at isByte
    obtain rfl := Option.some.inj isByte
    exact ⟨visible.1, visible.2.1⟩
  · rw [ends, List.getLast?_concat] at isLast
    exact absurd (Option.some.inj isLast).symm visible.2.2

section

variable {segments : List Bytes} (notEmpty : segments ≠ [])
  (areSegments : ∀ segment ∈ segments, IsSegment segment)

include areSegments

theorem components_join_segments : Bytes.components (Path.join segments) = segments :=
  Path.components_join_of_forall fun part member => (areSegments part member).isPart

include notEmpty

/-- The components of the pattern are the segments and the two stars. -/
theorem components_stars :
    Bytes.components (Path.join segments ++ Bytes.ofString "/**") =
      segments ++ [[Ascii.star, Ascii.star]] := by
  have joined : Path.join (segments ++ [[Ascii.star, Ascii.star]]) =
      Path.join segments ++ Bytes.ofString "/**" :=
    Path.join_append notEmpty (List.cons_ne_nil _ [])
  rw [← joined]
  refine Path.components_join_of_forall (List.forall_mem_append.mpr ⟨fun part member => ?_, ?_⟩)
  · exact (areSegments part member).isPart
  · decide

theorem head?_stars :
    (Path.join segments ++ Bytes.ofString "/**").head? = (Path.join segments).head? := by
  refine List.head?_append_of_ne_nil _ fun empty => notEmpty ?_
  rw [← components_join_segments areSegments, empty]
  rfl

end

/-- What leads through segments has a name for each of them. -/
theorem LeadsThrough.length_le {segments names : List Bytes} (leads : LeadsThrough segments names) :
    segments.length ≤ names.length := by
  have lengths := leads.length_eq
  rw [List.length_take] at lengths
  omega

theorem not_leadsThrough_nil {segments : List Bytes} (notEmpty : segments ≠ []) :
    ¬LeadsThrough segments [] :=
  fun leads => notEmpty (List.length_eq_zero_iff.mp (Nat.le_zero.mp leads.length_le))

/-- What leads through a directory on the way leads through the segments of the directory. -/
theorem leadsThrough_append_iff {segments front back : List Bytes}
    (reaches : segments.length ≤ front.length) :
    LeadsThrough segments (front ++ back) ↔ LeadsThrough segments front := by
  rw [LeadsThrough, List.take_append_of_le_length reaches, LeadsThrough]

end RuleLine

namespace IgnoreRules

open RuleLine

section

variable {segments : List Bytes} {mark slash : Bytes} (notEmpty : segments ≠ [])
  (areSegments : ∀ segment ∈ segments, IsSegment segment)
  (isMark : mark = [Ascii.backslash] ∨ mark = [] ∧ ∀ byte ∈ (Path.join segments).head?,
    byte ≠ Ascii.hash ∧ byte ≠ Ascii.bang ∧ byte ≠ Ascii.backslash)

include notEmpty areSegments isMark

/-- A line of segments and two stars makes a rule, and matches what leads through the segments. -/
theorem exists_starsLine (isSlash : slash = [Ascii.slash] ∨ slash = []) :
    ∃ (line : RuleLine) (rule : IgnoreRule),
      line.bytes = mark ++ Path.join segments ++ Bytes.ofString "/**" ++ slash ∧
      line.mark ≠ [Ascii.bang] ∧ line.rule? = some rule ∧
      ∀ names isDirectory, line.Matches names isDirectory ↔
        (slash = [Ascii.slash] → isDirectory = true) ∧ LeadsThrough segments names := by
  let pattern : Bytes := Path.join segments ++ Bytes.ofString "/**"
  have components : pattern.components = segments ++ [[Ascii.star, Ascii.star]] :=
    components_stars notEmpty areSegments
  have head : pattern.head? = (Path.join segments).head? := head?_stars notEmpty areSegments
  have readable : ∀ part ∈ segments ++ [[Ascii.star, Ascii.star]],
      part = [Ascii.star, Ascii.star] ∨ ∃ read, Glob.parse? part = some read :=
    List.forall_mem_append.mpr ⟨fun part member => .inr (areSegments part member).readable,
      fun part member => .inl (List.mem_singleton.mp member)⟩
  have anchored : Ascii.slash ∈ pattern := List.mem_append_right _ (by decide)
  have last : pattern.getLast? = some Ascii.star := by
    rw [List.getLast?_append]
    rfl
  have isTail : IsTail (mark ++ pattern ++ slash) [] [] := by
    rcases isSlash with rfl | rfl
    · exact isTail_of_getLast? List.getLast?_concat (by decide)
    · rw [List.append_nil]
      exact isTail_of_getLast? (by rw [List.getLast?_append, last]; rfl) (by decide)
  let line : RuleLine := {
    mark, pattern, slash, spaces := [], ends := [], isMark := .inr (head ▸ isMark)
    pattern_ne_nil := List.ne_nil_of_mem anchored
    isSlash := isSlash.imp_right fun none => ⟨none, by rw [last]; decide⟩, isTail }
  have ignores : mark ≠ [Ascii.bang] := by
    rcases isMark with rfl | ⟨rfl, _⟩ <;> decide
  obtain ⟨read, found⟩ := exists_ofComponents? readable []
  have holds : line.rule? = some ⟨read, mark == [Ascii.bang], slash == [Ascii.slash]⟩ := by
    simp [line, rule?, anchored, components, found]
  refine ⟨line, _, by simp [line, bytes, pattern], ignores, holds, fun names isDirectory => ?_⟩
  simp [line, Matches, anchored, components, divides_concat_stars areSegments]

/-- Such a line makes a rule that ignores what leads through the segments, if it is a directory or
no slash stands behind the stars. -/
theorem exists_starsRule (isSlash : slash = [Ascii.slash] ∨ slash = []) {root : List Bytes}
    (rootNames : ∀ name ∈ root, Path.IsName name) :
    ∃ rule : IgnoreRule, rule.keeps = false ∧
      (empty (Path.ofNames root)).withLine
        (mark ++ Path.join segments ++ Bytes.ofString "/**" ++ slash) = .ok (atRoot root [rule]) ∧
      ∀ names, (∀ name ∈ names, Path.IsName name) → ∀ isDirectory,
        ((atRoot root [rule]).verdict (Path.ofNames (root ++ names)) isDirectory = .ignored ↔
          (slash = [Ascii.slash] → isDirectory = true) ∧ LeadsThrough segments names) := by
  obtain ⟨line, rule, bytes, ignores, holds, matched⟩ :=
    exists_starsLine notEmpty areSegments isMark isSlash
  refine ⟨rule, keeps_eq_false holds ignores, bytes ▸ withLine_empty holds root,
    fun names areNames isDirectory => ?_⟩
  by_cases none : names = []
  · rw [none, List.append_nil,
      verdict_of_not_isBelow [rule] rootNames rootNames fun below => below.2 rfl]
    exact iff_of_false Verdict.noConfusion fun both => not_leadsThrough_nil notEmpty both.2
  · rw [verdict_eq_ignored_iff holds ignores rootNames areNames none, matched]

end

/-- If directories are ignored exactly if they lead through segments, then an entry is in an ignored
directory exactly if it leads further. -/
theorem exists_ignored_directory_iff {rules : IgnoreRules} {root segments names : List Bytes}
    (notEmpty : segments ≠ []) (areNames : ∀ name ∈ names, Path.IsName name)
    (ignored : ∀ front, (∀ name ∈ front, Path.IsName name) →
      (rules.verdict (Path.ofNames (root ++ front)) true = .ignored ↔
        LeadsThrough segments front)) :
    (∃ directory, Path.IsBelow root directory ∧ Path.IsBelow directory (root ++ names) ∧
        rules.verdict (Path.ofNames directory) true = .ignored) ↔
      LeadsThrough segments names ∧ segments.length < names.length := by
  constructor
  · rintro ⟨_, ⟨⟨front, rfl⟩, _⟩, ⟨⟨back, equal⟩, differ⟩, isIgnored⟩
    rw [List.append_assoc, List.append_cancel_left_eq] at equal
    subst equal
    have leads := (ignored front (List.forall_mem_append.mp areNames).1).mp isIgnored
    have inside : back ≠ [] := by
      rintro rfl
      exact differ (by rw [List.append_nil])
    refine ⟨(leadsThrough_append_iff leads.length_le).mpr leads, ?_⟩
    rw [List.length_append]
    exact leads.length_le.trans_lt (Nat.lt_add_of_pos_right (List.length_pos_iff.mpr inside))
  · rintro ⟨leads, longer⟩
    -- The directory that the segments lead to, behind which the rest of the names goes on.
    obtain ⟨front, back, rfl, reaches⟩ : ∃ front back, names = front ++ back ∧
        front.length = segments.length :=
      ⟨_, _, (List.take_append_drop segments.length names).symm, List.length_take_of_le longer.le⟩
    have frontNotEmpty : front ≠ [] := by
      rintro rfl
      exact notEmpty (List.length_eq_zero_iff.mp reaches.symm)
    have backNotEmpty : back ≠ [] := by
      rintro rfl
      rw [List.append_nil, reaches] at longer
      exact lt_irrefl _ longer
    refine ⟨root ++ front, Path.isBelow_append root frontNotEmpty, ?_, ?_⟩
    · rw [← List.append_assoc]
      exact Path.isBelow_append (root ++ front) backNotEmpty
    · rw [ignored front (List.forall_mem_append.mp areNames).1]
      exact (leadsThrough_append_iff reaches.ge).mp leads

/-- A pattern that ends with two stars ignores the directories that the segments before lead to and
everything below them. With a slash behind the stars it ignores a file exactly if it is below such a
directory, also directly. -/
theorem trailing_stars_ignore_directory_and_contents {root segments : List Bytes} {mark : Bytes}
    (rootNames : ∀ name ∈ root, Path.IsName name) (notEmpty : segments ≠ [])
    (areSegments : ∀ segment ∈ segments, IsSegment segment)
    (isMark : mark = [Ascii.backslash] ∨ mark = [] ∧ ∀ byte ∈ (Path.join segments).head?,
      byte ≠ Ascii.hash ∧ byte ≠ Ascii.bang ∧ byte ≠ Ascii.backslash) :
    (∃ rules rule,
      (empty (Path.ofNames root)).withLine (mark ++ Path.join segments ++ Bytes.ofString "/**") =
        .ok rules ∧ rules.list = [rule] ∧
      ∀ names, (∀ name ∈ names, Path.IsName name) → ∀ isDirectory,
        (rules.verdict (Path.ofNames (root ++ names)) isDirectory = .ignored ↔
          LeadsThrough segments names)) ∧
    (∃ rules rule,
      (empty (Path.ofNames root)).withLine (mark ++ Path.join segments ++ Bytes.ofString "/**/") =
        .ok rules ∧ rules.list = [rule] ∧
      ∀ names, (∀ name ∈ names, Path.IsName name) → ∀ isDirectory,
        (rules.verdictWithParents (Path.ofNames (root ++ names)) isDirectory = .ignored ↔
          LeadsThrough segments names ∧
            (isDirectory = true ∨ segments.length < names.length))) := by
  constructor
  · obtain ⟨rule, _, added, ignored⟩ :=
      exists_starsRule notEmpty areSegments isMark (.inr rfl) rootNames
    rw [List.append_nil] at added
    refine ⟨_, rule, added, rfl, fun names areNames isDirectory => ?_⟩
    rw [ignored names areNames]
    exact and_iff_right fun slash => absurd slash.symm (List.cons_ne_nil _ _)
  · obtain ⟨rule, keeps, added, ignored⟩ :=
      exists_starsRule notEmpty areSegments isMark (.inl rfl) rootNames
    rw [List.append_assoc _ (Bytes.ofString "/**")] at added
    refine ⟨_, rule, added, rfl, fun names areNames isDirectory => ?_⟩
    have pathNames := List.forall_mem_append.mpr ⟨rootNames, areNames⟩
    have noneKeeps : ∀ other ∈ [rule], other.keeps = false := by simpa using keeps
    by_cases none : names = []
    · rw [none, List.append_nil,
        verdictWithParents_of_not_isBelow [rule] rootNames rootNames fun below => below.2 rfl]
      exact iff_of_false Verdict.noConfusion fun both => not_leadsThrough_nil notEmpty both.1
    have above := exists_ignored_directory_iff notEmpty areNames fun front frontNames =>
      (ignored front frontNames true).trans (and_iff_right fun _ => rfl)
    rw [verdictWithParents_eq_ignored_iff noneKeeps rootNames pathNames
      (Path.isBelow_append root none), ignored names areNames, above]
    simp only [true_implies]
    tauto

/-- Two stars behind a pattern ignore a directory whose name fits and, with a slash behind them, a
file in it. -/
theorem trailing_stars_ignore_directory_and_contents_logs :
    let root : List Bytes := ["p"]
    let segments : List Bytes := ["log*"]
    let directory : List Bytes := ["logs"]
    let entry : List Bytes := ["logs", "a"]
    (∀ name ∈ root, Path.IsName name) ∧ segments ≠ [] ∧
      (∀ segment ∈ segments, IsSegment segment) ∧
      (([] : Bytes) = [Ascii.backslash] ∨ ([] : Bytes) = [] ∧
        ∀ byte ∈ (Path.join segments).head?,
          byte ≠ Ascii.hash ∧ byte ≠ Ascii.bang ∧ byte ≠ Ascii.backslash) ∧
      LeadsThrough segments directory ∧ LeadsThrough segments entry ∧
      (∃ rules, (empty (Path.ofNames root)).withLine "log*/**" = .ok rules ∧
        rules.verdict (Path.ofNames (root ++ directory)) true = .ignored) ∧
      ∃ rules, (empty (Path.ofNames root)).withLine "log*/**/" = .ok rules ∧
        rules.verdictWithParents (Path.ofNames (root ++ entry)) false = .ignored := by
  intro root segments directory entry
  have parsed : ∃ pattern, Glob.parse? "log*" = some pattern ∧ pattern.isMatch "logs" = true :=
    ⟨("log".toList.map fun letter => .literal letter.toUInt8) ++ [.star], by cbv, by cbv⟩
  have rootNames : ∀ name ∈ root, Path.IsName name := by decide
  have areSegments : ∀ segment ∈ segments, IsSegment segment := by
    intro segment member
    obtain rfl := List.mem_singleton.mp member
    exact ⟨by decide, by decide, by decide, parsed.imp fun _ => And.left⟩
  have isMark : ([] : Bytes) = [Ascii.backslash] ∨ ([] : Bytes) = [] ∧
      ∀ byte ∈ (Path.join segments).head?,
        byte ≠ Ascii.hash ∧ byte ≠ Ascii.bang ∧ byte ≠ Ascii.backslash := by
    refine .inr ⟨rfl, ?_⟩
    rintro byte ⟨⟩
    decide
  have leads : LeadsThrough segments directory := .cons parsed .nil
  have leadsFurther : LeadsThrough segments entry := .cons parsed .nil
  obtain ⟨⟨rules, _, added, _, ignored⟩, behindSlash, _, addedBehindSlash, _, below⟩ :=
    trailing_stars_ignore_directory_and_contents rootNames (List.cons_ne_nil _ _) areSegments isMark
  exact ⟨rootNames, List.cons_ne_nil _ _, areSegments, isMark, leads, leadsFurther,
    ⟨rules, added, (ignored directory (by decide) true).mpr leads⟩,
    behindSlash, addedBehindSlash,
    (below entry (by decide) false).mpr ⟨leadsFurther, .inr (by decide)⟩⟩

/-- Two stars behind the name of a directory do not ignore only what is inside of it, and with a
slash behind them not only what is in the directories inside of it. -/
theorem exists_trailing_stars_ignoring_directory :
    let root : List Bytes := ["p"]
    let segments : List Bytes := ["logs"]
    (∃ rules, (empty (Path.ofNames root)).withLine "logs/**" = .ok rules ∧
      ¬∀ names, (∀ name ∈ names, Path.IsName name) → ∀ isDirectory,
        (rules.verdict (Path.ofNames (root ++ names)) isDirectory = .ignored ↔
          segments.length < names.length ∧ LeadsThrough segments names)) ∧
    ∃ rules, (empty (Path.ofNames root)).withLine "logs/**/" = .ok rules ∧
      rules.verdictWithParents "/p/logs/a" false = .ignored := by
  intro root segments
  let rule (directoryOnly : Bool) : IgnoreRule := {
    segments := [.component ("logs".toList.map fun letter => .literal letter.toUInt8), .anyDepth]
    keeps := false, directoryOnly }
  refine ⟨⟨⟨"/p", [rule false]⟩, by cbv, fun contents => ?_⟩, ⟨"/p", [rule true]⟩, by cbv, by cbv⟩
  have ignored : verdict ⟨"/p", [rule false]⟩ "/p/logs" false = .ignored := by cbv
  have path : "/p/logs" = Path.ofNames (root ++ segments) := by decide
  rw [path, contents _ (by decide)] at ignored
  exact lt_irrefl _ ignored.1

end IgnoreRules

end FormatServer
