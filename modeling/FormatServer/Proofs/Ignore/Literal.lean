import FormatServer.Proofs.Ignore.Decisions

namespace FormatServer

namespace Glob

/-- A pattern of literal bytes matches these bytes alone. -/
theorem isMatch_map_literal {name text : Bytes} :
    isMatch (name.map .literal) text = true ↔ text = name := by
  induction name generalizing text with
  | nil => exact List.isEmpty_iff
  | cons byte name ih => cases text <;> simp [isMatch, ih]

theorem parse?_cons {byte : UInt8} (rest : Bytes)
    (plain : byte ∉ [Ascii.star, Ascii.question, Ascii.openBracket, Ascii.backslash]) :
    parse? (byte :: rest) = (parse? rest).map (.literal byte :: ·) := by
  simp only [List.mem_cons, List.not_mem_nil, or_false, not_or] at plain
  rw [parse?.eq_def (byte :: rest)]
  simp only [plain, if_false]

theorem parse?_backslash (byte : UInt8) (rest : Bytes) :
    parse? (Ascii.backslash :: byte :: rest) = (parse? rest).map (.literal byte :: ·) := by
  rw [parse?.eq_def]
  rfl

end Glob

namespace IgnoreRule

/-- The bytes that mean something in a line. -/
def specialBytes : List UInt8 :=
  [Ascii.backslash, Ascii.star, Ascii.question, Ascii.openBracket, Ascii.closeBracket, Ascii.bang,
    Ascii.hash, Ascii.space]

/-- A name with a backslash in front of each special byte. -/
def escape (name : Bytes) : Bytes :=
  name.flatMap fun byte => if byte ∈ specialBytes then [Ascii.backslash, byte] else [byte]

theorem escape_cons_of_mem {byte : UInt8} (special : byte ∈ specialBytes) (name : Bytes) :
    escape (byte :: name) = Ascii.backslash :: byte :: escape name := by
  simp [escape, special]

theorem escape_cons_of_notMem {byte : UInt8} (plain : byte ∉ specialBytes) (name : Bytes) :
    escape (byte :: name) = byte :: escape name := by
  simp [escape, plain]

/-- An escaped name is the pattern of its bytes. -/
theorem parse?_escape (name : Bytes) : Glob.parse? (escape name) = some (name.map .literal) := by
  induction name with
  | nil => simp [escape, Glob.parse?]
  | cons byte name ih =>
      by_cases special : byte ∈ specialBytes
      · rw [escape_cons_of_mem special, Glob.parse?_backslash, ih]
        rfl
      · have plain : byte ∉ [Ascii.star, Ascii.question, Ascii.openBracket, Ascii.backslash] := by
          revert special
          simp only [specialBytes, List.mem_cons, List.not_mem_nil]
          tauto
        rw [escape_cons_of_notMem special, Glob.parse?_cons _ plain, ih]
        rfl

theorem escape_ne_nil {name : Bytes} (notEmpty : name ≠ []) : escape name ≠ [] := by
  obtain ⟨byte, rest, rfl⟩ := List.exists_cons_of_ne_nil notEmpty
  by_cases special : byte ∈ specialBytes
  · exact escape_cons_of_mem special rest ▸ List.cons_ne_nil _ _
  · exact escape_cons_of_notMem special rest ▸ List.cons_ne_nil _ _

theorem escape_append (front back : Bytes) : escape (front ++ back) = escape front ++ escape back :=
  List.flatMap_append

theorem mem_escape {byte : UInt8} {name : Bytes} (member : byte ∈ escape name) :
    byte = Ascii.backslash ∨ byte ∈ name := by
  obtain ⟨source, inName, written⟩ := List.mem_flatMap.mp member
  split at written
  · rcases List.mem_cons.mp written with backslash | same
    · exact .inl backslash
    · exact .inr (List.mem_singleton.mp same ▸ inName)
  · exact .inr (List.mem_singleton.mp written ▸ inName)

/-- A star comes after a backslash, so not first. -/
theorem head?_escape (name : Bytes) : (escape name).head? ≠ some Ascii.star := by
  cases name with
  | nil => exact nofun
  | cons byte name =>
      by_cases special : byte ∈ specialBytes
      · rw [escape_cons_of_mem special]
        exact nofun
      · rw [escape_cons_of_notMem special]
        rintro ⟨⟩
        exact special (by decide)

/-- A space at the end of an escaped name stands behind a backslash. -/
theorem getLast?_of_escape_eq {name front : Bytes} (ends : escape name = front ++ [Ascii.space]) :
    front.getLast? = some Ascii.backslash := by
  cases name using List.reverseRecOn with
  | nil => exact absurd ends (by simp [escape])
  | append_singleton name byte =>
      rw [escape_append] at ends
      by_cases special : byte ∈ specialBytes
      · rw [escape_cons_of_mem special, List.append_cons] at ends
        obtain ⟨same, _⟩ := List.append_inj' ends rfl
        rw [← same]
        exact List.getLast?_concat
      · rw [escape_cons_of_notMem special] at ends
        obtain ⟨_, same⟩ := List.append_inj' ends rfl
        exact absurd (List.cons.inj same).1 fun isSpace => special (isSpace ▸ by decide)

/-- An escaped name without line ends is all text, also behind a backslash. -/
theorem isTail_escape {mark name : Bytes} (isMark : mark = [] ∨ mark = [Ascii.backslash])
    (notEmpty : name ≠ [])
    (noEnds : Ascii.carriageReturn ∉ name ∧ Ascii.newline ∉ name) :
    IsTail (mark ++ escape name) [] [] := by
  refine .none (fun byte isLast => ?_) fun front ends => ?_
  · have written : byte = Ascii.backslash ∨ byte ∈ name := by
      rcases List.mem_append.mp (List.mem_of_getLast? isLast) with inMark | inEscaped
      · rcases isMark with rfl | rfl
        · exact nomatch inMark
        · exact .inl (List.mem_singleton.mp inMark)
      · exact mem_escape inEscaped
    rcases written with rfl | inName
    · decide
    · refine ⟨?_, ?_⟩ <;> rintro rfl
      · exact noEnds.1 inName
      · exact noEnds.2 inName
  · -- The space at the end belongs to the name, and the byte before it too, since it is escaped.
    obtain ⟨init, escaped⟩ : ∃ init, escape name = init ++ [Ascii.space] := by
      refine ⟨(escape name).dropLast, ?_⟩
      have last : (escape name).getLast? = some Ascii.space := by
        rw [← List.getLast?_append_of_ne_nil mark (escape_ne_nil notEmpty), ends,
          List.getLast?_concat]
      exact (List.dropLast_append_getLast? _ last).symm
    rw [escaped, ← List.append_assoc] at ends
    obtain ⟨rfl, _⟩ := List.append_inj' ends rfl
    rw [List.getLast?_append, getLast?_of_escape_eq escaped]
    rfl

end IgnoreRule

namespace IgnoreRules

open IgnoreRule

/-- Whether a line makes one rule, which ignores the entries with certain names, wherever they are
below the root, and nothing else. -/
def IgnoresEntries (line : Bytes) (named : Bytes → Prop) : Prop :=
  ∀ root : List Bytes, (∀ name ∈ root, Path.IsName name) →
    ∃ rules rule, (empty (Path.ofNames root)).withLine line = .ok rules ∧ rules.list = [rule] ∧
      rule.keeps = false ∧
      ∀ path : List Bytes, (∀ name ∈ path, Path.IsName name) → ∀ isDirectory : Bool,
        rules.verdict (Path.ofNames path) isDirectory = .ignored ↔
          Path.IsBelow root path ∧ ∃ name, path.getLast? = some name ∧ named name

/-- A line whose pattern is one segment ignores the entries whose names match it. -/
theorem ignoresEntries_of_segment (line : RuleLine) {pattern : Glob}
    (ignores : line.mark ≠ [Ascii.bang]) (anyKind : line.slash = [])
    (noSlash : Ascii.slash ∉ line.pattern)
    (notStars : line.pattern ≠ [Ascii.star, Ascii.star])
    (parsed : Glob.parse? line.pattern = some pattern) :
    IgnoresEntries line.bytes fun name => pattern.isMatch name = true := by
  have components := Bytes.components_of_not_mem line.pattern_ne_nil noSlash
  have holds : line.rule? = some ⟨[.anyDepth, .component pattern], line.mark == [Ascii.bang],
      line.slash == [Ascii.slash]⟩ := by
    simp [RuleLine.rule?, components, RuleSegment.ofComponents?, notStars, parsed, noSlash]
  have fits {name : Bytes} : RuleLine.Fits line.pattern name ↔ pattern.isMatch name = true := by
    simp [RuleLine.Fits, parsed]
  intro root rootNames
  refine ⟨_, _, withLine_empty holds root, rfl, RuleLine.keeps_eq_false holds ignores,
    fun path pathNames isDirectory => ?_⟩
  by_cases below : Path.IsBelow root path
  · obtain ⟨⟨names, rfl⟩, differ⟩ := below
    have notEmpty : names ≠ [] := fun empty => differ (by rw [empty, List.append_nil])
    have matched : line.Matches names isDirectory ↔
        ∃ skipped name, names = skipped ++ [name] ∧ pattern.isMatch name = true := by
      simp only [RuleLine.Matches, components, anyKind, noSlash, RuleLine.divides_cons,
        RuleLine.divides_nil, RuleLine.covers_iff_of_ne notStars, fits]
      constructor
      · rintro ⟨_, skipped, _, rfl, _, _, _, rfl, ⟨name, rfl, fits⟩, rfl⟩
        exact ⟨skipped, name, by simp, fits⟩
      · rintro ⟨skipped, name, rfl, fits⟩
        exact ⟨fun slash => absurd slash.symm (List.cons_ne_nil _ _), skipped, [name], rfl,
          False.elim, [name], [], rfl, ⟨name, rfl, fits⟩, rfl⟩
    rw [verdict_eq_ignored_iff holds ignores rootNames (List.forall_mem_append.mp pathNames).2
      notEmpty, matched]
    constructor
    · rintro ⟨skipped, name, rfl, fits⟩
      exact ⟨Path.isBelow_append root notEmpty, name, by simp, fits⟩
    · rintro ⟨_, name, isLast, fits⟩
      rw [List.getLast?_append_of_ne_nil _ notEmpty] at isLast
      obtain ⟨skipped, rfl⟩ := List.getLast?_eq_some_iff.mp isLast
      exact ⟨skipped, name, rfl, fits⟩
  · rw [verdict_of_not_isBelow _ rootNames pathNames below]
    exact iff_of_false Verdict.noConfusion fun both => below both.1

theorem IgnoresEntries.congr {line : Bytes} {named others : Bytes → Prop}
    (ignores : IgnoresEntries line named) (same : ∀ name, named name ↔ others name) :
    IgnoresEntries line others := by
  obtain rfl : named = others := funext fun name => propext (same name)
  exact ignores

/-- What a line ignores is determined. -/
theorem IgnoresEntries.iff {line : Bytes} {named others : Bytes → Prop}
    (first : IgnoresEntries line named) (second : IgnoresEntries line others) {name : Bytes}
    (isName : Path.IsName name) : named name ↔ others name := by
  obtain ⟨rules, _, added, _, _, ignored⟩ := first [] (List.forall_mem_nil _)
  obtain ⟨_, _, addedAgain, _, _, ignoredAgain⟩ := second [] (List.forall_mem_nil _)
  obtain rfl := Except.ok.inj (added.symm.trans addedAgain)
  have pathNames : ∀ other ∈ [name], Path.IsName other := by simpa using isName
  have below : Path.IsBelow [] [name] := Path.isBelow_append [] (List.cons_ne_nil name [])
  have both := (ignored [name] pathNames false).symm.trans (ignoredAgain [name] pathNames false)
  simpa [below] using both

section

variable {name : Bytes} (isName : Path.IsName name)
  (noEnds : Ascii.carriageReturn ∉ name ∧ Ascii.newline ∉ name)

include isName noEnds

/-- A line that differs from an escaped name by a backslash in front at most ignores the entries
that match what is left of it behind the mark. -/
theorem ignoresEntries_of_mark {front mark segment : Bytes} {pattern : Glob}
    (isFront : front = [] ∨ front = [Ascii.backslash])
    (equal : front ++ escape name = mark ++ segment)
    (isMark : mark = [Ascii.backslash] ∨ mark = [] ∧ ∀ byte ∈ segment.head?,
      byte ≠ Ascii.hash ∧ byte ≠ Ascii.bang ∧ byte ≠ Ascii.backslash)
    (notEmpty : segment ≠ []) (notStars : segment ≠ [Ascii.star, Ascii.star])
    (parsed : Glob.parse? segment = some pattern) :
    IgnoresEntries (front ++ escape name) fun other => pattern.isMatch other = true := by
  have noSlash : Ascii.slash ∉ segment := by
    intro inSegment
    have inLine : Ascii.slash ∈ front ++ escape name :=
      equal ▸ List.mem_append_right mark inSegment
    rcases List.mem_append.mp inLine with inFront | inEscaped
    · rcases isFront with rfl | rfl <;> exact absurd inFront (by decide)
    · exact (mem_escape inEscaped).elim (absurd · (by decide)) isName.slash_not_mem
  have isTail := isTail_escape isFront isName.ne_nil noEnds
  have notClosed : segment.getLast? ≠ some Ascii.slash :=
    fun isLast => noSlash (List.mem_of_getLast? isLast)
  have ignores : mark ≠ [Ascii.bang] := by
    rcases isMark with rfl | ⟨rfl, _⟩ <;> decide
  let line : RuleLine := {
    mark, pattern := segment, slash := [], spaces := [], ends := [], isMark := .inr isMark
    pattern_ne_nil := notEmpty, isSlash := .inr ⟨rfl, notClosed⟩
    isTail := by
      rw [List.append_nil, ← equal]
      exact isTail }
  have bytes : line.bytes = front ++ escape name := by
    simp [line, RuleLine.bytes, equal]
  rw [← bytes]
  exact ignoresEntries_of_segment line ignores rfl noSlash notStars parsed

/-- A name that is escaped twice in front is a literal pattern. -/
theorem ignoresEntries_backslash_escape :
    IgnoresEntries (Ascii.backslash :: escape name) (· = name) := by
  have notStars : escape name ≠ [Ascii.star, Ascii.star] :=
    fun stars => head?_escape name (stars ▸ rfl)
  exact (ignoresEntries_of_mark isName noEnds (.inr rfl) rfl (.inl rfl)
    (escape_ne_nil isName.ne_nil) notStars (parse?_escape name)).congr
      fun _ => Glob.isMatch_map_literal

/-- A name whose first byte begins no pattern is ignored by itself if it is escaped, with a mark in
front if that byte is special. -/
theorem ignoresEntries_escape
    (plain : ∀ first ∈ name.head?,
      first ∉ [Ascii.star, Ascii.question, Ascii.openBracket, Ascii.backslash]) :
    IgnoresEntries (escape name) (· = name) := by
  obtain ⟨first, rest, rfl⟩ := List.exists_cons_of_ne_nil isName.ne_nil
  have firstPlain := plain first rfl
  have parsed : Glob.parse? (first :: escape rest) = some ((first :: rest).map .literal) := by
    rw [Glob.parse?_cons _ firstPlain, parse?_escape]
    rfl
  have notStars : first :: escape rest ≠ [Ascii.star, Ascii.star] := by
    intro stars
    exact firstPlain ((List.cons.inj stars).1 ▸ List.mem_cons_self)
  have literal {other : Bytes} :
      Glob.isMatch ((first :: rest).map .literal) other = true ↔ other = first :: rest :=
    Glob.isMatch_map_literal
  by_cases special : first ∈ specialBytes
  · have equal : [] ++ escape (first :: rest) = [Ascii.backslash] ++ first :: escape rest :=
      escape_cons_of_mem special rest
    exact (ignoresEntries_of_mark isName noEnds (.inl rfl) equal (.inl rfl) (List.cons_ne_nil _ _)
      notStars parsed).congr fun _ => literal
  · have equal : [] ++ escape (first :: rest) = [] ++ first :: escape rest :=
      escape_cons_of_notMem special rest
    refine (ignoresEntries_of_mark isName noEnds (.inl rfl) equal (.inr ⟨rfl, ?_⟩)
      (List.cons_ne_nil _ _) notStars parsed).congr fun _ => literal
    rintro _ ⟨⟩
    refine ⟨?_, ?_, ?_⟩
    all_goals
      rintro rfl
      exact special (by decide)

end

section

variable {rest : Bytes}

/-- What is escaped behind a star that the mark leaves free matches every name that ends with it. -/
theorem ignoresEntries_escape_star (isName : Path.IsName (Ascii.star :: rest))
    (noEnds : Ascii.carriageReturn ∉ Ascii.star :: rest ∧ Ascii.newline ∉ Ascii.star :: rest) :
    IgnoresEntries (escape (Ascii.star :: rest)) (rest <:+ ·) := by
  have equal : [] ++ escape (Ascii.star :: rest) = [Ascii.backslash] ++ Ascii.star :: escape rest :=
    escape_cons_of_mem (by decide) rest
  have parsed : Glob.parse? (Ascii.star :: escape rest) = some (.star :: rest.map .literal) := by
    rw [Glob.parse?.eq_def]
    simp [parse?_escape]
  have notStars : Ascii.star :: escape rest ≠ [Ascii.star, Ascii.star] := by
    intro stars
    exact head?_escape rest ((List.cons.inj stars).2 ▸ rfl)
  refine (ignoresEntries_of_mark isName noEnds (.inl rfl) equal (.inl rfl) (List.cons_ne_nil _ _)
    notStars parsed).congr fun other => ?_
  simp only [Glob.isMatch, anySuffix_iff, Glob.isMatch_map_literal]
  constructor
  · rintro ⟨skipped, _, rfl, rfl⟩
    exact List.suffix_append _ _
  · rintro ⟨skipped, rfl⟩
    exact ⟨skipped, rest, rfl, rfl⟩

/-- What is escaped behind a question mark that the mark leaves free matches every name that has
another first byte in its place. -/
theorem ignoresEntries_escape_question (isName : Path.IsName (Ascii.question :: rest))
    (noEnds :
      Ascii.carriageReturn ∉ Ascii.question :: rest ∧ Ascii.newline ∉ Ascii.question :: rest) :
    IgnoresEntries (escape (Ascii.question :: rest)) fun other => ∃ byte, other = byte :: rest := by
  have equal : [] ++ escape (Ascii.question :: rest) =
      [Ascii.backslash] ++ Ascii.question :: escape rest :=
    escape_cons_of_mem (by decide) rest
  have notStar : Ascii.question ≠ Ascii.star := by decide
  have parsed : Glob.parse? (Ascii.question :: escape rest) = some (.one :: rest.map .literal) := by
    rw [Glob.parse?.eq_def]
    simp [parse?_escape, notStar]
  refine (ignoresEntries_of_mark isName noEnds (.inl rfl) equal (.inl rfl) (List.cons_ne_nil _ _)
    (by simp [notStar]) parsed).congr fun other => ?_
  cases other <;> simp [Glob.isMatch, Glob.isMatch_map_literal]

end

/-- A line with an escaped name makes one rule, which ignores exactly the entries of that name, if
the name does not begin with a backslash or as a pattern can; a star or a question mark in front
stays a pattern. With one more backslash in front the line ignores exactly the entries of any
name. -/
theorem escaped_name_ignores_its_entries {name : Bytes} (isName : Path.IsName name)
    (noEnds : Ascii.carriageReturn ∉ name ∧ Ascii.newline ∉ name) :
    ((∀ first ∈ name.head?,
        first ∉ [Ascii.star, Ascii.question, Ascii.openBracket, Ascii.backslash]) →
      IgnoresEntries (escape name) (· = name)) ∧
    (∀ rest, name = Ascii.star :: rest → IgnoresEntries (escape name) (rest <:+ ·)) ∧
    (∀ rest, name = Ascii.question :: rest →
      IgnoresEntries (escape name) fun other => ∃ byte, other = byte :: rest) ∧
    IgnoresEntries (Ascii.backslash :: escape name) (· = name) := by
  refine ⟨ignoresEntries_escape isName noEnds, ?_, ?_,
    ignoresEntries_backslash_escape isName noEnds⟩
  · rintro rest rfl
    exact ignoresEntries_escape_star isName noEnds
  · rintro rest rfl
    exact ignoresEntries_escape_question isName noEnds

/-- A name with a hash sign in front and patterns and spaces behind it is ignored by itself. -/
theorem escaped_name_ignores_its_entries_comment :
    let name : Bytes := "# [1]*?\\ "
    Path.IsName name ∧
      (Ascii.carriageReturn ∉ name ∧ Ascii.newline ∉ name) ∧
      escape name = "\\#\\ \\[1\\]\\*\\?\\\\\\ " ∧ IgnoresEntries (escape name) (· = name) := by
  intro name
  have isName : Path.IsName name := by decide
  have noEnds : Ascii.carriageReturn ∉ name ∧ Ascii.newline ∉ name := by decide
  have plain : ∀ first ∈ name.head?,
      first ∉ [Ascii.star, Ascii.question, Ascii.openBracket, Ascii.backslash] := by
    rintro first ⟨⟩
    decide
  exact ⟨isName, noEnds, by decide, (escaped_name_ignores_its_entries isName noEnds).1 plain⟩

/-- The escaped name of a file with a star in front ignores another file as well. -/
theorem exists_escaped_name_ignoring_another :
    let name : Bytes := "*a"
    Path.IsName name ∧
      (Ascii.carriageReturn ∉ name ∧ Ascii.newline ∉ name) ∧
      escape name = "\\*a" ∧ ¬IgnoresEntries (escape name) (· = name) := by
  intro name
  have isName : Path.IsName name := by decide
  have noEnds : Ascii.carriageReturn ∉ name ∧ Ascii.newline ∉ name := by decide
  refine ⟨isName, noEnds, by decide, fun ignores => ?_⟩
  have same := (ignoresEntries_escape_star isName noEnds).iff ignores
    (by decide : Path.IsName "ba")
  exact absurd (same.mp ⟨[0x62], rfl⟩) (by decide)

end IgnoreRules

end FormatServer
