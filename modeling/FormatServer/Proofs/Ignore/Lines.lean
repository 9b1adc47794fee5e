import FormatServer.Ignore.Rule
import FormatServer.Proofs.Path.Names

namespace FormatServer

/-- Whether `spaces` and `ends` are what does not count behind the text of a line: all line ends at
its end, and then all spaces there that do not stand behind a backslash. -/
structure IsTail (text spaces ends : Bytes) : Prop where
  ends_are_ends : ∀ byte ∈ ends, byte = Ascii.carriageReturn ∨ byte = Ascii.newline
  all_ends : ∀ byte ∈ (text ++ spaces).getLast?, byte ≠ Ascii.carriageReturn ∧ byte ≠ Ascii.newline
  spaces_are_spaces : ∀ byte ∈ spaces, byte = Ascii.space
  all_spaces : ∀ front, text = front ++ [Ascii.space] → front.getLast? = some Ascii.backslash
  not_escaped : spaces ≠ [] → text.getLast? ≠ some Ascii.backslash

/-- A text has no tail if it ends neither with a line end nor with a space that is not escaped. -/
theorem IsTail.none {text : Bytes}
    (noEnd : ∀ byte ∈ text.getLast?, byte ≠ Ascii.carriageReturn ∧ byte ≠ Ascii.newline)
    (escaped : ∀ front, text = front ++ [Ascii.space] → front.getLast? = some Ascii.backslash) :
    IsTail text [] [] := by
  refine ⟨List.forall_mem_nil _, ?_, List.forall_mem_nil _, escaped, fun some => absurd rfl some⟩
  rwa [List.append_nil]

namespace IgnoreRule

/-- A text whose last space is escaped loses none. -/
theorem dropReversedSpaces_reverse {text : Bytes}
    (escaped : ∀ front, text = front ++ [Ascii.space] → front.getLast? = some Ascii.backslash) :
    dropReversedSpaces text.reverse = text.reverse := by
  cases text using List.reverseRecOn with
  | nil => rfl
  | append_singleton front last =>
      rw [List.reverse_concat, dropReversedSpaces, if_neg]
      rintro ⟨rfl, notEscaped⟩
      rw [List.head?_reverse] at notEscaped
      exact notEscaped (escaped front rfl)

/-- Spaces go, if no backslash stands before them. -/
theorem dropReversedSpaces_append {spaces rest : Bytes}
    (areSpaces : ∀ byte ∈ spaces, byte = Ascii.space)
    (notEscaped : spaces ≠ [] → rest.head? ≠ some Ascii.backslash) :
    dropReversedSpaces (spaces ++ rest) = dropReversedSpaces rest := by
  induction spaces with
  | nil => rfl
  | cons space spaces ih =>
      obtain ⟨rfl, others⟩ := List.forall_mem_cons.mp areSpaces
      have next : (spaces ++ rest).head? ≠ some Ascii.backslash := by
        cases spaces with
        | nil => exact notEscaped (List.cons_ne_nil _ _)
        | cons next spaces =>
            rw [List.cons_append, List.head?_cons, others next List.mem_cons_self]
            decide
      rw [List.cons_append, dropReversedSpaces, if_pos ⟨rfl, next⟩]
      exact ih others fun _ => notEscaped (List.cons_ne_nil _ _)

theorem exists_spaces (reversed : Bytes) :
    ∃ spaces, reversed = spaces ++ dropReversedSpaces reversed ∧
      (∀ byte ∈ spaces, byte = Ascii.space) ∧
      (∀ rest, dropReversedSpaces reversed = Ascii.space :: rest →
        rest.head? = some Ascii.backslash) ∧
      (spaces ≠ [] → (dropReversedSpaces reversed).head? ≠ some Ascii.backslash) := by
  fun_induction dropReversedSpaces reversed with
  | case1 => exact ⟨[], rfl, List.forall_mem_nil _, nofun, fun notEmpty => absurd rfl notEmpty⟩
  | case2 byte rest dropped ih =>
      obtain ⟨rfl, next⟩ := dropped
      obtain ⟨spaces, equal, areSpaces, escaped, notEscaped⟩ := ih
      refine ⟨Ascii.space :: spaces, congrArg _ equal, List.forall_mem_cons.mpr ⟨rfl, areSpaces⟩,
        escaped, fun _ => ?_⟩
      cases spaces with
      | nil =>
          rw [List.nil_append] at equal
          exact equal ▸ next
      | cons space spaces => exact notEscaped (List.cons_ne_nil space spaces)
  | case3 byte rest kept =>
      refine ⟨[], rfl, List.forall_mem_nil _, fun other equal => ?_,
        fun notEmpty => absurd rfl notEmpty⟩
      obtain ⟨rfl, rfl⟩ := List.cons.inj equal
      by_contra notEscaped
      exact kept ⟨rfl, notEscaped⟩

/-- Trimming a line leaves the text before its tail. -/
theorem trim_append {text spaces ends : Bytes} (isTail : IsTail text spaces ends) :
    trimSpaces (trimLineEnd (text ++ spaces ++ ends)) = text := by
  have withSpaces : trimLineEnd (text ++ spaces ++ ends) = text ++ spaces := by
    apply Bytes.dropWhileEnd_append
    · intro byte member
      simpa using isTail.ends_are_ends byte member
    · intro byte member
      simpa using isTail.all_ends byte member
  rw [withSpaces, trimSpaces, List.reverse_append, dropReversedSpaces_append,
    dropReversedSpaces_reverse isTail.all_spaces, List.reverse_reverse]
  · exact fun byte member => isTail.spaces_are_spaces byte (List.mem_reverse.mp member)
  · intro notEmpty
    rw [List.head?_reverse]
    exact isTail.not_escaped fun empty => notEmpty (congrArg List.reverse empty)

/-- Every line is a text and its tail. -/
theorem exists_isTail (line : Bytes) :
    ∃ text spaces ends, line = text ++ spaces ++ ends ∧ IsTail text spaces ends := by
  let isEnd (byte : UInt8) : Bool := byte == Ascii.carriageReturn || byte == Ascii.newline
  let withSpaces : Bytes := line.rdropWhile isEnd
  obtain ⟨spaces, equal, areSpaces, escaped, notEscaped⟩ := exists_spaces withSpaces.reverse
  have split : withSpaces = (dropReversedSpaces withSpaces.reverse).reverse ++ spaces.reverse := by
    rw [← List.reverse_append, ← equal, List.reverse_reverse]
  refine ⟨(dropReversedSpaces withSpaces.reverse).reverse, spaces.reverse, line.rtakeWhile isEnd,
    ?_, ?_, ?_, ?_, ?_, ?_⟩
  · rw [← split]
    exact List.rdropWhile_append_rtakeWhile.symm
  · intro byte member
    simpa [isEnd] using List.mem_rtakeWhile_imp member
  · intro byte isLast
    rw [← split] at isLast
    obtain ⟨notEmpty, rfl⟩ := List.mem_getLast?_eq_getLast isLast
    simpa [isEnd] using List.rdropWhile_last_not isEnd line notEmpty
  · exact fun byte member => areSpaces byte (List.mem_reverse.mp member)
  · intro front ended
    rw [List.reverse_eq_iff, List.reverse_concat] at ended
    rw [← List.head?_reverse]
    exact escaped front.reverse ended
  · intro notEmpty
    rw [List.getLast?_reverse]
    exact notEscaped fun empty => notEmpty (congrArg List.reverse empty)

end IgnoreRule

/-- The parts of a line that holds a rule. In front of the pattern stands an exclamation mark or a
backslash or nothing, behind it a slash or nothing. -/
structure RuleLine where
  mark : Bytes
  pattern : Bytes
  slash : Bytes
  spaces : Bytes
  ends : Bytes
  isMark : mark = [Ascii.bang] ∨ mark = [Ascii.backslash] ∨
    mark = [] ∧ ∀ byte ∈ pattern.head?,
      byte ≠ Ascii.hash ∧ byte ≠ Ascii.bang ∧ byte ≠ Ascii.backslash
  pattern_ne_nil : pattern ≠ []
  isSlash : slash = [Ascii.slash] ∨ slash = [] ∧ pattern.getLast? ≠ some Ascii.slash
  isTail : IsTail (mark ++ pattern ++ slash) spaces ends

namespace RuleLine

variable (line : RuleLine)

/-- The bytes of a line. -/
def bytes : Bytes :=
  line.mark ++ line.pattern ++ line.slash ++ line.spaces ++ line.ends

theorem head?_bytes (first : UInt8) :
    line.bytes.head? = some first ↔
      line.mark = [first] ∨ line.mark = [] ∧ line.pattern.head? = some first := by
  obtain ⟨byte, rest, equal⟩ := List.exists_cons_of_ne_nil line.pattern_ne_nil
  rcases line.isMark with mark | mark | ⟨mark, _⟩ <;> simp [bytes, mark, equal]

/-- The rule that a line holds, if each component of its pattern can be read. -/
def rule? : Option IgnoreRule :=
  let start := if line.pattern.contains Ascii.slash then [] else [RuleSegment.anyDepth]
  (RuleSegment.ofComponents? start line.pattern.components).map fun segments => {
    segments
    keeps := line.mark == [Ascii.bang]
    directoryOnly := line.slash == [Ascii.slash] }

/-- A line that can be cut into these parts is read by them. -/
theorem ofLine_bytes : IgnoreRule.ofLine line.bytes =
    match line.rule? with
    | none => .error (.invalidPattern line.bytes)
    | some rule => .ok (some rule) := by
  have directory : ((line.pattern ++ line.slash).getLast? == some Ascii.slash) =
      (line.slash == [Ascii.slash]) := by
    rcases line.isSlash with slash | ⟨slash, noSlash⟩
    · simp [slash]
    · simpa [slash] using noSlash
  have left : (if line.slash == [Ascii.slash] then (line.pattern ++ line.slash).dropLast
      else line.pattern ++ line.slash) = line.pattern := by
    rcases line.isSlash with slash | ⟨slash, _⟩ <;> simp [slash]
  have trimmed := IgnoreRule.trim_append line.isTail
  change IgnoreRule.trimSpaces (IgnoreRule.trimLineEnd line.bytes) = _ at trimmed
  have hash : ¬Ascii.bang = Ascii.hash ∧ ¬Ascii.backslash = Ascii.hash := by decide
  rw [IgnoreRule.ofLine, trimmed, rule?]
  rcases line.isMark with mark | mark | ⟨mark, unmarked⟩
  · simp only [mark, List.cons_append, List.nil_append, hash, if_false, true_or, if_true, directory,
      left, line.pattern_ne_nil, beq_self_eq_true]
    cases RuleSegment.ofComponents? _ line.pattern.components <;> rfl
  · simp only [mark, List.cons_append, List.nil_append, hash, if_false, or_true, if_true, directory,
      left, line.pattern_ne_nil]
    cases RuleSegment.ofComponents? _ line.pattern.components <;> rfl
  · obtain ⟨first, rest, equal⟩ := List.exists_cons_of_ne_nil line.pattern_ne_nil
    obtain ⟨notHash, notBang, notBackslash⟩ := unmarked first (by simp [equal])
    have keeps : (first == Ascii.bang) = false := beq_eq_false_iff_ne.mpr notBang
    rw [equal, List.cons_append] at directory left
    simp only [mark, equal, List.cons_append, List.nil_append, notHash, notBang, notBackslash,
      if_false, or_self, directory, left, List.cons_ne_nil, keeps]
    cases RuleSegment.ofComponents? _ (Bytes.components (first :: rest)) <;> rfl

theorem keeps_iff {line : RuleLine} {rule : IgnoreRule} (holds : line.rule? = some rule) :
    rule.keeps = true ↔ line.bytes.head? = some Ascii.bang := by
  obtain ⟨segments, found, rfl⟩ := Option.map_eq_some_iff.mp holds
  simp only [beq_iff_eq, head?_bytes]
  refine ⟨.inl, fun either => either.resolve_right ?_⟩
  rintro ⟨unmarked, first⟩
  rcases line.isMark with mark | mark | ⟨_, other⟩
  · exact absurd (mark.symm.trans unmarked) (List.cons_ne_nil _ _)
  · exact absurd (mark.symm.trans unmarked) (List.cons_ne_nil _ _)
  · exact (other _ first).2.1 rfl

theorem keeps_eq_false {line : RuleLine} {rule : IgnoreRule} (holds : line.rule? = some rule)
    (ignores : line.mark ≠ [Ascii.bang]) : rule.keeps = false := by
  obtain ⟨segments, found, rfl⟩ := Option.map_eq_some_iff.mp holds
  exact beq_eq_false_iff_ne.mpr ignores

end RuleLine

namespace IgnoreRule

/-- A mark and more than a slash behind it are the parts of a line. -/
theorem exists_ruleLine_of_mark {spaces ends : Bytes} (mark marked : Bytes)
    (isMark : mark = [Ascii.bang] ∨ mark = [Ascii.backslash] ∨
      mark = [] ∧ ∀ byte ∈ marked.head?,
        byte ≠ Ascii.hash ∧ byte ≠ Ascii.bang ∧ byte ≠ Ascii.backslash)
    (isTail : IsTail (mark ++ marked) spaces ends)
    (notEmpty : (if marked.getLast? == some Ascii.slash then marked.dropLast else marked) ≠ []) :
    ∃ parts : RuleLine, parts.bytes = mark ++ marked ++ spaces ++ ends := by
  by_cases closed : marked.getLast? = some Ascii.slash
  · obtain ⟨pattern, rfl⟩ := List.getLast?_eq_some_iff.mp closed
    have patternNotEmpty : pattern ≠ [] := by simpa using notEmpty
    obtain ⟨first, rest, rfl⟩ := List.exists_cons_of_ne_nil patternNotEmpty
    exact ⟨⟨mark, first :: rest, [Ascii.slash], spaces, ends, isMark, patternNotEmpty, .inl rfl,
      by simpa using isTail⟩, by simp [RuleLine.bytes]⟩
  · exact ⟨⟨mark, marked, [], spaces, ends, isMark, by simpa [closed] using notEmpty,
      .inr ⟨rfl, closed⟩, by simpa using isTail⟩, by simp [RuleLine.bytes]⟩

/-- A line that holds a rule can be cut into parts. -/
theorem exists_ruleLine {line : Bytes} {rule : IgnoreRule} (holds : ofLine line = .ok (some rule)) :
    ∃ parts : RuleLine, parts.bytes = line := by
  obtain ⟨text, spaces, ends, rfl, isTail⟩ := exists_isTail line
  rw [ofLine, trim_append isTail] at holds
  cases text with
  | nil => simp at holds
  | cons first rest =>
      by_cases hash : first = Ascii.hash
      · simp [hash] at holds
      by_cases marked : first = Ascii.bang ∨ first = Ascii.backslash
      · refine exists_ruleLine_of_mark [first] rest ?_ isTail fun empty => ?_
        · rcases marked with rfl | rfl
          · exact .inl rfl
          · exact .inr (.inl rfl)
        · simp only [if_neg hash, if_pos marked, empty, if_true, reduceCtorEq] at holds
      · refine exists_ruleLine_of_mark [] (first :: rest) ?_ isTail fun empty => ?_
        · refine .inr (.inr ⟨rfl, fun byte isFirst => ?_⟩)
          obtain rfl := Option.some.inj isFirst
          exact ⟨hash, not_or.mp marked⟩
        · simp only [if_neg hash, if_neg marked, empty, if_true, reduceCtorEq] at holds

theorem rule?_eq_some {parts : RuleLine} {rule : IgnoreRule}
    (holds : ofLine parts.bytes = .ok (some rule)) : parts.rule? = some rule := by
  rw [RuleLine.ofLine_bytes] at holds
  cases read : parts.rule? with
  | none => simp [read] at holds
  | some other => simpa [read] using holds

/-- Whether a line is a comment, or has no more than spaces and line ends. -/
def IsBlank (line : Bytes) : Prop :=
  line.head? = some Ascii.hash ∨
    ∃ spaces ends : Bytes, line = spaces ++ ends ∧ (∀ byte ∈ spaces, byte = Ascii.space) ∧
      ∀ byte ∈ ends, byte = Ascii.carriageReturn ∨ byte = Ascii.newline

theorem ofLine_of_isBlank {line : Bytes} (blank : IsBlank line) : ofLine line = .ok none := by
  rcases blank with comment | ⟨spaces, ends, rfl, areSpaces, areEnds⟩
  · obtain ⟨text, spaces, ends, rfl, isTail⟩ := exists_isTail line
    have byte_ne : Ascii.hash ≠ Ascii.space ∧ Ascii.hash ≠ Ascii.carriageReturn ∧
      Ascii.hash ≠ Ascii.newline := by decide
    cases text with
    | cons first rest =>
        obtain rfl : first = Ascii.hash := Option.some.inj comment
        rw [ofLine, trim_append isTail]
        rfl
    | nil =>
        cases spaces with
        | cons first spaces =>
            obtain rfl : first = Ascii.hash := Option.some.inj comment
            exact absurd (isTail.spaces_are_spaces _ List.mem_cons_self) byte_ne.1
        | nil =>
            have inEnds := List.mem_of_mem_head? comment
            exact absurd (isTail.ends_are_ends _ inEnds) (not_or.mpr byte_ne.2)
  · have isTail : IsTail [] spaces ends := by
      refine ⟨areEnds, fun byte isLast => ?_, areSpaces, fun front equal => ?_, fun _ => nofun⟩
      · rw [areSpaces byte (List.mem_of_getLast? isLast)]
        decide
      · exact absurd equal (by simp)
    have trimmed := trim_append isTail
    rw [List.nil_append] at trimmed
    rw [ofLine, trimmed]

end IgnoreRule

end FormatServer
