import FormatServer.Proofs.Ignore.Lines
import FormatServer.Proofs.Ignore.Nearest

namespace FormatServer

namespace RuleSegment

theorem matchAll_nil {names : List Bytes} : matchAll [] names = true ↔ names = [] :=
  List.isEmpty_iff

theorem matchAll_anyDepth {segments : List RuleSegment} {names : List Bytes} :
    matchAll (.anyDepth :: segments) names = true ↔
      ∃ skipped rest, names = skipped ++ rest ∧ matchAll segments rest = true :=
  anySuffix_iff

theorem matchAll_component {pattern : Glob} {segments : List RuleSegment} {names : List Bytes} :
    matchAll (.component pattern :: segments) names = true ↔
      ∃ name rest, names = name :: rest ∧ pattern.isMatch name = true ∧
        matchAll segments rest = true := by
  cases names <;> simp [matchAll, and_assoc]

/-- Segments after others match what the others leave. -/
theorem matchAll_append {front back : List RuleSegment} {names : List Bytes} :
    matchAll (front ++ back) names = true ↔
      ∃ first rest, names = first ++ rest ∧ matchAll front first = true ∧
        matchAll back rest = true := by
  induction front generalizing names with
  | nil => simp [matchAll_nil]
  | cons segment front ih =>
      cases segment with
      | anyDepth =>
          simp only [List.cons_append, matchAll_anyDepth, ih]
          constructor
          · rintro ⟨skipped, _, rfl, first, rest, rfl, inFront, inBack⟩
            exact ⟨skipped ++ first, rest, (List.append_assoc ..).symm,
              ⟨skipped, first, rfl, inFront⟩, inBack⟩
          · rintro ⟨_, rest, rfl, ⟨skipped, first, rfl, inFront⟩, inBack⟩
            exact ⟨skipped, first ++ rest, List.append_assoc .., first, rest, rfl, inFront, inBack⟩
      | component pattern =>
          simp only [List.cons_append, matchAll_component, ih]
          constructor
          · rintro ⟨name, _, rfl, fits, first, rest, rfl, inFront, inBack⟩
            exact ⟨name :: first, rest, rfl, ⟨name, first, rfl, fits, inFront⟩, inBack⟩
          · rintro ⟨_, rest, rfl, ⟨name, first, rfl, fits, inFront⟩, inBack⟩
            exact ⟨name, first ++ rest, rfl, fits, first, rest, rfl, inFront, inBack⟩

/-- With another segment for any number of names, segments match every longer path as well. -/
theorem matchAll_pushAnyDepth {segments : List RuleSegment} {names : List Bytes} :
    matchAll (pushAnyDepth segments) names = true ↔
      ∃ first rest, names = first ++ rest ∧ matchAll segments first = true := by
  unfold pushAnyDepth
  split
  · next present =>
    obtain ⟨front, rfl⟩ := List.getLast?_eq_some_iff.mp present
    constructor
    · exact fun matched => ⟨names, [], (List.append_nil names).symm, matched⟩
    · rintro ⟨_, rest, rfl, matched⟩
      obtain ⟨first, skipped, rfl, inFront, _⟩ := matchAll_append.mp matched
      refine matchAll_append.mpr ⟨first, skipped ++ rest, List.append_assoc .., inFront, ?_⟩
      exact matchAll_anyDepth.mpr ⟨skipped ++ rest, [], (List.append_nil _).symm, rfl⟩
  · rw [matchAll_append]
    constructor
    · rintro ⟨first, rest, equal, matched, _⟩
      exact ⟨first, rest, equal, matched⟩
    · rintro ⟨first, rest, equal, matched⟩
      exact ⟨first, rest, equal, matched,
        matchAll_anyDepth.mpr ⟨rest, [], (List.append_nil _).symm, rfl⟩⟩

end RuleSegment

namespace IgnoreRule

/-- Whether a rule is about a path below the root. -/
def applies (rule : IgnoreRule) (names : List Bytes) (isDirectory : Bool) : Bool :=
  (!rule.directoryOnly || isDirectory) && RuleSegment.matchAll rule.segments names

/-- What a rule says about the paths that it is about. -/
def verdict (rule : IgnoreRule) : Verdict :=
  if rule.keeps then .kept else .ignored

theorem verdict_ne_undecided (rule : IgnoreRule) : rule.verdict ≠ .undecided := by
  unfold verdict
  split <;> exact Verdict.noConfusion

end IgnoreRule

namespace RuleLine

/-- Whether a name matches the pattern that a segment spells. -/
def Fits (segment name : Bytes) : Prop :=
  ∃ pattern, Glob.parse? segment = some pattern ∧ pattern.isMatch name = true

/-- The names that a segment covers: two stars any number of them, another segment one that fits. -/
inductive Covers : (segment : Bytes) → (names : List Bytes) → Prop where
  | anyDepth (names : List Bytes) : Covers [Ascii.star, Ascii.star] names
  | component {segment name : Bytes} (notStars : segment ≠ [Ascii.star, Ascii.star])
      (fits : Fits segment name) : Covers segment [name]

/-- Whether names can be divided among segments, so that each covers its part. -/
def Divides (segments names : List Bytes) : Prop :=
  ∃ parts, names = parts.flatten ∧ List.Forall₂ Covers segments parts

theorem divides_nil {names : List Bytes} : Divides [] names ↔ names = [] := by
  simp [Divides]

theorem divides_cons {segment : Bytes} {segments names : List Bytes} :
    Divides (segment :: segments) names ↔
      ∃ first rest, names = first ++ rest ∧ Covers segment first ∧ Divides segments rest := by
  constructor
  · rintro ⟨_, rfl, divided⟩
    obtain ⟨first, parts, covers, others, rfl⟩ := List.forall₂_cons_left_iff.mp divided
    exact ⟨first, parts.flatten, rfl, covers, parts, rfl, others⟩
  · rintro ⟨first, _, rfl, covers, parts, rfl, others⟩
    exact ⟨first :: parts, rfl, .cons covers others⟩

theorem covers_stars {names : List Bytes} : Covers [Ascii.star, Ascii.star] names :=
  .anyDepth names

theorem covers_iff_of_ne {segment : Bytes} (notStars : segment ≠ [Ascii.star, Ascii.star])
    {names : List Bytes} : Covers segment names ↔ ∃ name, names = [name] ∧ Fits segment name := by
  constructor
  · intro covers
    cases covers with
    | anyDepth names => exact absurd rfl notStars
    | component _ fits => exact ⟨_, rfl, fits⟩
  · rintro ⟨name, rfl, fits⟩
    exact .component notStars fits

/-- The segments that are read match what those before match, and then what the components of the
pattern divide. -/
theorem matchAll_ofComponents? {read segments : List RuleSegment} {components : List Bytes}
    (found : RuleSegment.ofComponents? read components = some segments) {names : List Bytes} :
    RuleSegment.matchAll segments names = true ↔
      ∃ first rest, names = first ++ rest ∧ RuleSegment.matchAll read first = true ∧
        Divides components rest := by
  fun_induction RuleSegment.ofComponents? read components generalizing names with
  | case1 read =>
      cases found
      simp [divides_nil]
  | case2 read components ih =>
      simp only [ih found, RuleSegment.matchAll_pushAnyDepth, divides_cons, covers_stars]
      constructor
      · rintro ⟨_, rest, rfl, ⟨first, skipped, rfl, matched⟩, divided⟩
        exact ⟨first, skipped ++ rest, List.append_assoc .., matched, skipped, rest, rfl, trivial,
          divided⟩
      · rintro ⟨first, _, rfl, matched, skipped, rest, rfl, _, divided⟩
        exact ⟨first ++ skipped, rest, (List.append_assoc ..).symm, ⟨first, skipped, rfl, matched⟩,
          divided⟩
  | case3 => exact nomatch found
  | case4 read segment components notStars pattern parsed ih =>
      have fits {name : Bytes} : Fits segment name ↔ pattern.isMatch name = true := by
        simp [Fits, parsed]
      simp only [ih found, RuleSegment.matchAll_append, RuleSegment.matchAll_component,
        RuleSegment.matchAll_nil, divides_cons, covers_iff_of_ne notStars, fits]
      constructor
      · rintro ⟨_, rest, rfl, ⟨first, _, rfl, matched, name, _, rfl, fits, rfl⟩, divided⟩
        exact ⟨first, name :: rest, by simp, matched, [name], rest, rfl, ⟨name, rfl, fits⟩, divided⟩
      · rintro ⟨first, _, rfl, matched, _, rest, rfl, ⟨name, rfl, fits⟩, divided⟩
        exact ⟨first ++ [name], rest, by simp,
          ⟨first, [name], rfl, matched, name, [], rfl, fits, rfl⟩, divided⟩

variable (line : RuleLine)

/-- Whether a line matches a path below the root: its names can be divided among the segments, with
any number of the first ones left out if there is no slash in the pattern, and it is a directory if
a slash stands behind the pattern. -/
def Matches (names : List Bytes) (isDirectory : Bool) : Prop :=
  (line.slash = [Ascii.slash] → isDirectory = true) ∧
    ∃ skipped rest, names = skipped ++ rest ∧ (Ascii.slash ∈ line.pattern → skipped = []) ∧
      Divides line.pattern.components rest

/-- A rule that is read from a line applies where the line matches. -/
theorem applies_iff {line : RuleLine} {rule : IgnoreRule} (holds : line.rule? = some rule)
    {names : List Bytes} {isDirectory : Bool} :
    rule.applies names isDirectory = true ↔ line.Matches names isDirectory := by
  obtain ⟨segments, found, rfl⟩ := Option.map_eq_some_iff.mp holds
  have started {first : List Bytes} :
      RuleSegment.matchAll (if line.pattern.contains Ascii.slash then [] else [.anyDepth]) first =
        true ↔ (Ascii.slash ∈ line.pattern → first = []) := by
    by_cases anchored : Ascii.slash ∈ line.pattern
    · simp [anchored, RuleSegment.matchAll_nil]
    · simp only [List.contains_eq_mem, anchored, decide_false, Bool.false_eq_true, if_false,
        false_implies, iff_true]
      exact RuleSegment.matchAll_anyDepth.mpr ⟨first, [], (List.append_nil first).symm, rfl⟩
  simp only [IgnoreRule.applies, Bool.and_eq_true, matchAll_ofComponents? found, started, Matches]
  refine and_congr_left fun _ => ?_
  by_cases directory : line.slash = [Ascii.slash] <;> simp [directory]

end RuleLine

namespace IgnoreRule

/-- Whether a line matches a path below the root. -/
def LineMatches (line : Bytes) (names : List Bytes) (isDirectory : Bool) : Prop :=
  ∃ parts : RuleLine, parts.bytes = line ∧ parts.Matches names isDirectory

theorem lineMatches_iff {line : Bytes} {rule : IgnoreRule} (holds : ofLine line = .ok (some rule))
    {names : List Bytes} {isDirectory : Bool} :
    LineMatches line names isDirectory ↔ rule.applies names isDirectory = true := by
  constructor
  · rintro ⟨parts, rfl, matched⟩
    exact (RuleLine.applies_iff (rule?_eq_some holds)).mpr matched
  · intro applies
    obtain ⟨parts, rfl⟩ := exists_ruleLine holds
    exact ⟨parts, rfl, (RuleLine.applies_iff (rule?_eq_some holds)).mp applies⟩

theorem not_lineMatches {line : Bytes} (holdsNone : ofLine line = .ok none) {names : List Bytes}
    {isDirectory : Bool} : ¬LineMatches line names isDirectory := by
  rintro ⟨parts, rfl, _⟩
  rw [RuleLine.ofLine_bytes] at holdsNone
  cases read : parts.rule? <;> simp [read] at holdsNone

/-- What a line says about the paths that it matches: an exclamation mark in front keeps them. -/
def lineVerdict (line : Bytes) : Verdict :=
  if line.head? = some Ascii.bang then .kept else .ignored

theorem verdict_eq_lineVerdict {line : Bytes} {rule : IgnoreRule}
    (holds : ofLine line = .ok (some rule)) : rule.verdict = lineVerdict line := by
  obtain ⟨parts, rfl⟩ := exists_ruleLine holds
  simp only [verdict, lineVerdict, RuleLine.keeps_iff (rule?_eq_some holds)]

end IgnoreRule

@[simp] theorem Verdict.first_singleton (verdict : Verdict) : first [verdict] = verdict := by
  cases verdict <;> rfl

/-- What several lines say about a path below the root: the last that matches decides. -/
inductive LastDecides (names : List Bytes) (isDirectory : Bool) :
    (lines : List Bytes) → Verdict → Prop where
  | undecided {lines : List Bytes}
      (unmatched : ∀ line ∈ lines, ¬IgnoreRule.LineMatches line names isDirectory) :
      LastDecides names isDirectory lines .undecided
  | last (before : List Bytes) {line : Bytes} {after : List Bytes}
      (matched : IgnoreRule.LineMatches line names isDirectory)
      (unmatched : ∀ later ∈ after, ¬IgnoreRule.LineMatches later names isDirectory) :
      LastDecides names isDirectory (before ++ line :: after) (IgnoreRule.lineVerdict line)

namespace LastDecides

variable {names lines : List Bytes} {isDirectory : Bool} {line : Bytes} {verdict : Verdict}

/-- A line that does not match changes nothing in front of others. -/
theorem cons_of_not (decides : LastDecides names isDirectory lines verdict)
    (unmatched : ¬IgnoreRule.LineMatches line names isDirectory) :
    LastDecides names isDirectory (line :: lines) verdict := by
  cases decides with
  | undecided others => exact .undecided (List.forall_mem_cons.mpr ⟨unmatched, others⟩)
  | last before matched others => exact .last (line :: before) matched others

/-- A line that matches decides in front of others that do not. -/
theorem cons_of_matches (decides : LastDecides names isDirectory lines verdict)
    (matched : IgnoreRule.LineMatches line names isDirectory) :
    LastDecides names isDirectory (line :: lines)
      (Verdict.first [verdict, IgnoreRule.lineVerdict line]) := by
  cases decides with
  | undecided others =>
      rw [Verdict.first_cons, if_pos rfl, Verdict.first_singleton]
      exact .last [] matched others
  | @last before other after matchedOther others =>
      have decided : IgnoreRule.lineVerdict other ≠ .undecided := by
        unfold IgnoreRule.lineVerdict
        split <;> exact Verdict.noConfusion
      rw [Verdict.first_cons, if_neg decided]
      exact .last (line :: before) matchedOther others

end LastDecides

namespace IgnoreRules

/-- The rules of lines that are added are those that the lines hold, in their order. -/
theorem exists_added {rules result : IgnoreRules} {number : Nat} {lines : List Bytes}
    (accepted : rules.withLines number lines = (result, none)) :
    ∃ read : List (Option IgnoreRule),
      List.Forall₂ (fun line rule => IgnoreRule.ofLine line = .ok rule) lines read ∧
        result = { rules with list := rules.list ++ read.reduceOption } := by
  induction lines generalizing rules number with
  | nil =>
      cases accepted
      exact ⟨[], .nil, by simp⟩
  | cons line lines ih =>
      cases holds : IgnoreRule.ofLine line with
      | error error => simp [withLines, withLine, holds] at accepted
      | ok read =>
          cases read with
          | none =>
              simp only [withLines, withLine, holds] at accepted
              obtain ⟨others, areRead, rfl⟩ := ih accepted
              exact ⟨none :: others, .cons holds areRead, rfl⟩
          | some rule =>
              simp only [withLines, withLine, holds] at accepted
              obtain ⟨others, areRead, rfl⟩ := ih accepted
              refine ⟨some rule :: others, .cons holds areRead, ?_⟩
              rw [List.reduceOption_cons_of_some]
              exact congrArg (IgnoreRules.mk rules.root) (List.append_cons ..).symm

/-- The last rule that applies decides. -/
theorem verdictOf_eq (rules : IgnoreRules) (names : List Bytes) (isDirectory : Bool) :
    rules.verdictOf names isDirectory =
      ((rules.list.reverse.find? (·.applies names isDirectory)).map
        IgnoreRule.verdict).getD .undecided := by
  simp only [verdictOf, IgnoreRule.applies]
  split
  · next rule found =>
    rw [found]
    rfl
  · next found =>
    rw [found]
    rfl

theorem verdictOf_singleton (root : Bytes) (rule : IgnoreRule) (names : List Bytes)
    (isDirectory : Bool) :
    verdictOf ⟨root, [rule]⟩ names isDirectory =
      if rule.applies names isDirectory then rule.verdict else .undecided := by
  simp only [verdictOf_eq, List.reverse_singleton, List.find?_singleton]
  split <;> rfl

/-- A rule in front of others decides where none of these does. -/
theorem verdictOf_cons (root : Bytes) (rule : IgnoreRule) (list : List IgnoreRule)
    (names : List Bytes) (isDirectory : Bool) :
    verdictOf ⟨root, rule :: list⟩ names isDirectory =
      Verdict.first [verdictOf ⟨root, list⟩ names isDirectory,
        verdictOf ⟨root, [rule]⟩ names isDirectory] := by
  simp only [verdictOf_eq, List.reverse_cons, List.find?_append, List.reverse_nil,
    List.nil_append, Verdict.first_cons]
  cases list.reverse.find? (·.applies names isDirectory) with
  | none => simp
  | some found => simp [found.verdict_ne_undecided]

/-- The rules that lines hold decide as the lines do. -/
theorem lastDecides_verdictOf {root : Bytes} {lines names : List Bytes}
    {read : List (Option IgnoreRule)} {isDirectory : Bool}
    (areRead : List.Forall₂ (fun line rule => IgnoreRule.ofLine line = .ok rule) lines read) :
    LastDecides names isDirectory lines
      (verdictOf ⟨root, read.reduceOption⟩ names isDirectory) := by
  induction areRead with
  | nil => exact .undecided (List.forall_mem_nil _)
  | @cons line rule lines read holds _ ih =>
      cases rule with
      | none =>
          rw [List.reduceOption_cons_of_none]
          exact ih.cons_of_not (IgnoreRule.not_lineMatches holds)
      | some rule =>
          rw [List.reduceOption_cons_of_some, verdictOf_cons, verdictOf_singleton]
          by_cases applies : rule.applies names isDirectory = true
          · rw [if_pos applies, IgnoreRule.verdict_eq_lineVerdict holds]
            exact ih.cons_of_matches ((IgnoreRule.lineMatches_iff holds).mpr applies)
          · have same : ∀ verdict, Verdict.first [verdict, .undecided] = verdict := by
              intro verdict
              cases verdict <;> rfl
            rw [if_neg applies, same]
            exact ih.cons_of_not (mt (IgnoreRule.lineMatches_iff holds).mp applies)

/-- Names below the root are judged by the rules as they are. -/
theorem verdict_append {root names : List Bytes} (list : List IgnoreRule)
    (rootNames : ∀ name ∈ root, Path.IsName name) (areNames : ∀ name ∈ names, Path.IsName name)
    (notEmpty : names ≠ []) (isDirectory : Bool) :
    (atRoot root list).verdict (Path.ofNames (root ++ names)) isDirectory =
      (atRoot root list).verdictOf names isDirectory := by
  have found := (relative?_eq_some_iff list rootNames
    (List.forall_mem_append.mpr ⟨rootNames, areNames⟩)).mpr (Eq.refl (root ++ names))
  unfold verdict
  rw [found]
  cases names with
  | nil => exact absurd rfl notEmpty
  | cons name names => rfl

/-- A line that holds a rule makes the only rule of its root. -/
theorem withLine_empty {line : RuleLine} {rule : IgnoreRule} (holds : line.rule? = some rule)
    (root : List Bytes) :
    (empty (Path.ofNames root)).withLine line.bytes = .ok (atRoot root [rule]) := by
  rw [withLine, line.ofLine_bytes, holds]
  rfl

/-- A single rule ignores the paths below the root that its line matches, if the line is not marked
to keep them. -/
theorem verdict_eq_ignored_iff {line : RuleLine} {rule : IgnoreRule}
    (holds : line.rule? = some rule) (ignores : line.mark ≠ [Ascii.bang]) {root names : List Bytes}
    (rootNames : ∀ name ∈ root, Path.IsName name) (areNames : ∀ name ∈ names, Path.IsName name)
    (notEmpty : names ≠ []) (isDirectory : Bool) :
    (atRoot root [rule]).verdict (Path.ofNames (root ++ names)) isDirectory = .ignored ↔
      line.Matches names isDirectory := by
  have verdict : rule.verdict = .ignored := by
    simp [IgnoreRule.verdict, RuleLine.keeps_eq_false holds ignores]
  rw [verdict_append [rule] rootNames areNames notEmpty, ← RuleLine.applies_iff holds]
  change verdictOf ⟨_, [rule]⟩ names isDirectory = _ ↔ _
  rw [verdictOf_singleton, verdict]
  by_cases applies : rule.applies names isDirectory = true <;> simp [applies]

/-- Among lines that are accepted, the last that matches a path below the root decides about it;
blank lines and comments add nothing. -/
theorem last_matching_line_decides {root names lines : List Bytes} {rules : IgnoreRules}
    (rootNames : ∀ name ∈ root, Path.IsName name) (areNames : ∀ name ∈ names, Path.IsName name)
    (notEmpty : names ≠ [])
    (accepted : (empty (Path.ofNames root)).withLines 1 lines = (rules, none))
    (isDirectory : Bool) :
    LastDecides names isDirectory lines
        (rules.verdict (Path.ofNames (root ++ names)) isDirectory) ∧
      ∀ line, IgnoreRule.IsBlank line → ∀ before : IgnoreRules, before.withLine line = .ok before := by
  constructor
  · obtain ⟨read, areRead, rfl⟩ := exists_added accepted
    change LastDecides names isDirectory lines
      ((atRoot root read.reduceOption).verdict (Path.ofNames (root ++ names)) isDirectory)
    rw [verdict_append read.reduceOption rootNames areNames notEmpty]
    exact lastDecides_verdictOf areRead
  · intro line blank before
    rw [withLine, IgnoreRule.ofLine_of_isBlank blank]

/-- A file that is ignored by one line is kept by a later one; a comment between them changes
nothing. -/
theorem last_matching_line_decides_kept :
    let lines : List Bytes := ["*.json", "# settings", "!/src/**/keep.json "]
    let names : List Bytes := ["src", "a", "keep.json"]
    ∃ rules, (empty (Path.ofNames ["w"])).withLines 1 lines = (rules, none) ∧
      rules.verdict "/w/src/a/keep.json" false = .kept ∧ LastDecides names false lines .kept := by
  intro lines names
  obtain ⟨rules, equal⟩ : ∃ rules, rules = ((empty (Path.ofNames ["w"])).withLines 1 lines).1 :=
    ⟨_, rfl⟩
  have accepted : (empty (Path.ofNames ["w"])).withLines 1 lines = (rules, none) := by
    have read : ((empty (Path.ofNames ["w"])).withLines 1 lines).2 = none := by cbv
    rw [equal, ← read]
  have kept : rules.verdict "/w/src/a/keep.json" false = .kept := by
    rw [equal]
    cbv
  have rootNames : ∀ name ∈ [Bytes.ofString "w"], Path.IsName name := by decide
  have decides := (last_matching_line_decides rootNames (by decide : ∀ name ∈ names, _)
    (by decide) accepted false).1
  have path : Path.ofNames ([Bytes.ofString "w"] ++ names) = "/w/src/a/keep.json" := by decide
  rw [path, kept] at decides
  exact ⟨rules, accepted, kept, decides⟩

end IgnoreRules

end FormatServer
