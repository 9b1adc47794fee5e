import FormatServer.Proofs.Text.Columns

namespace FormatServer

/-- The order of places: by line, and on one line by column. -/
instance : LE Position where
  le first second :=
    first.line < second.line ∨ first.line = second.line ∧ first.character ≤ second.character

/-- Whether `line` is the line of a text with the given number: so many line feeds stand in front of
it, and it reaches from the last of them to the next one, or to the end of the text. -/
structure IsLine (text : Bytes) (number : Nat) (front line back : Bytes) : Prop where
  parts : text = front ++ line ++ back
  number : front.count Ascii.newline = number
  starts : ∀ byte ∈ front.getLast?, byte = Ascii.newline
  single : Ascii.newline ∉ line
  ends : ∀ byte ∈ back.head?, byte = Ascii.newline

namespace CodeStep

@[simp] theorem totalBytes_append (front back : List CodeStep) :
    totalBytes (front ++ back) = totalBytes front + totalBytes back := by
  induction front with
  | nil => simp [totalBytes]
  | cons step front ih => simp [totalBytes, ih, Nat.add_assoc]

theorem totalBytes_le_of_prefix {front steps : List CodeStep} (isFront : front <+: steps) :
    totalBytes front ≤ totalBytes steps := by
  obtain ⟨back, rfl⟩ := isFront
  rw [totalBytes_append]
  exact Nat.le_add_right _ _

/-- A text that goes on begins with the same steps. -/
theorem walkAfter_prefix (pending : Nat) (front back : Bytes) :
    walkAfter pending front <+: walkAfter pending (front ++ back) := by
  induction front generalizing pending with
  | nil => cases pending <;> exact List.nil_prefix
  | cons byte front ih =>
      cases pending with
      | zero => exact (List.prefix_cons_inj _).mpr (ih _)
      | succ pending => exact ih pending

/-- More units take no fewer steps. -/
theorem reaching_prefix_reaching {wanted more : Nat} (further : wanted ≤ more)
    (steps : List CodeStep) : reaching wanted steps <+: reaching more steps := by
  induction steps generalizing wanted more with
  | nil => cases wanted <;> exact List.nil_prefix
  | cons step steps ih =>
      cases wanted with
      | zero => exact List.nil_prefix
      | succ wanted =>
          obtain ⟨more, rfl⟩ := Nat.exists_eq_add_of_lt (Nat.lt_of_succ_le further)
          exact (List.prefix_cons_inj step).mpr (ih (by omega))

/-- All steps are taken for as many units as they are worth. -/
theorem reaching_eq_self {steps : List CodeStep} (positive : ∀ step ∈ steps, 1 ≤ step.units)
    {wanted : Nat} (enough : totalUnits steps ≤ wanted) : reaching wanted steps = steps := by
  have all := reaching_append steps [] positive
  rw [List.append_nil] at all
  have taken := reaching_prefix_reaching enough steps
  have reached := reaching_prefix wanted steps
  rw [all] at taken
  exact reached.eq_of_length_le taken.length_le

/-- The steps of a text reach its end. -/
theorem length_le_totalBytes (pending : Nat) (text : Bytes) :
    text.length ≤ pending + totalBytes (walkAfter pending text) := by
  induction text generalizing pending with
  | nil => exact Nat.zero_le _
  | cons byte text ih =>
      cases pending with
      | zero =>
          have behind := ih ((ofFirst byte).bytes - 1)
          have positive := bytes_ofFirst_pos byte
          rw [walkAfter, totalBytes, List.length_cons]
          omega
      | succ pending =>
          have behind := ih pending
          rw [walkAfter, List.length_cons]
          omega

theorem units_pos_of_mem_walkAfter {pending : Nat} {text : Bytes} {step : CodeStep}
    (member : step ∈ walkAfter pending text) : 1 ≤ step.units := by
  induction text generalizing pending with
  | nil => cases pending <;> exact nomatch member
  | cons byte text ih =>
      cases pending with
      | zero =>
          rcases List.mem_cons.mp member with rfl | inRest
          · rcases units_ofFirst byte with one | two <;> omega
          · exact ih inRest
      | succ pending => exact ih member

/-- No step is worth more units than it announces bytes. -/
theorem units_ofFirst_le (byte : UInt8) : (ofFirst byte).units ≤ (ofFirst byte).bytes := by
  unfold ofFirst
  split
  · next length found =>
    have positive := (Utf8.announcedLength?_bounds found).1
    dsimp only
    split <;> omega
  · exact Nat.le_refl _

/-- A text has at most one unit more than it has bytes: only the last step can be worth more units
than there are bytes left. -/
theorem totalUnits_walk_le (text : Bytes) : totalUnits (walk text) ≤ text.length + 1 := by
  induction size : text.length using Nat.strongRecOn generalizing text with
  | ind size ih =>
      cases text with
      | nil => exact Nat.zero_le _
      | cons first rest =>
          rw [List.length_cons] at size
          have most : (ofFirst first).units ≤ 2 := by
            rcases units_ofFirst first with one | two <;> omega
          have announced := units_ofFirst_le first
          rw [walk_cons, totalUnits]
          rcases Nat.lt_or_ge ((ofFirst first).bytes - 1) rest.length with inside | past
          · have behind := ih _ (by rw [List.length_drop]; omega)
              (rest.drop ((ofFirst first).bytes - 1)) rfl
            rw [List.length_drop] at behind
            omega
          · rw [List.drop_eq_nil_of_le past]
            change (ofFirst first).units + 0 ≤ _
            omega

end CodeStep

/-- A text that goes on is no shorter in columns. -/
theorem value_utf16Length_le_append (front back : Bytes) :
    (utf16Length front).value ≤ (utf16Length (front ++ back)).value := by
  obtain ⟨more, equal⟩ := CodeStep.walkAfter_prefix 0 front back
  simp only [utf16Length, CodeStep.walk, ← equal, CodeStep.totalUnits_append]
  exact Nat.le_add_right _ _

namespace ColumnSpan

theorem bytes_measure (line : Bytes) (units : Nat) :
    (measure line units).value.bytes =
      min line.length (CodeStep.totalBytes (CodeStep.reaching units (CodeStep.walk line))) := by
  simp only [measure]
  split
  · next past => exact (Nat.min_eq_left (Nat.le_of_lt past)).symm
  · next inside => exact (Nat.min_eq_right (Nat.le_of_not_lt inside)).symm

/-- More columns span no fewer bytes. -/
theorem bytes_measure_mono {line : Bytes} {units more : Nat} (further : units ≤ more) :
    (measure line units).value.bytes ≤ (measure line more).value.bytes := by
  have taken := CodeStep.totalBytes_le_of_prefix
    (CodeStep.reaching_prefix_reaching further (CodeStep.walk line))
  rw [bytes_measure, bytes_measure]
  omega

/-- As many columns as a line has span the whole line. -/
theorem bytes_measure_of_le {line : Bytes} {units : Nat}
    (past : (utf16Length line).value ≤ units) :
    (measure line units).value.bytes = line.length := by
  have positive : ∀ step ∈ CodeStep.walk line, 1 ≤ step.units :=
    fun _ => CodeStep.units_pos_of_mem_walkAfter
  have whole := CodeStep.length_le_totalBytes 0 line
  rw [Nat.zero_add] at whole
  rw [bytes_measure, CodeStep.reaching_eq_self positive past]
  exact Nat.min_eq_left whole

end ColumnSpan

namespace Position

/-- The bytes after the last line feed are the last of a text. -/
theorem lastLine_suffix (text : Bytes) : lastLine text <:+ text := by
  rw [lastLine, ← List.reverse_prefix, List.reverse_reverse]
  exact List.takeWhile_prefix _

/-- The line of an offset counts the line feeds in front of it. -/
theorem toInt_line_ofOffset {text : Bytes} (short : text.length < Nat.pow 2 31) (offset : Nat) :
    (ofOffset text offset).value.line.toInt = (text.take offset).count Ascii.newline := by
  apply Int32.toInt_ofNat_of_lt
  have counted : (text.take offset).count Ascii.newline ≤ (text.take offset).length :=
    List.count_le_length
  exact Nat.lt_of_le_of_lt (Nat.le_trans counted (List.length_take_le' _ _)) short

/-- The column of an offset counts the units of its line in front of it, if there are not too many
for a place. -/
theorem toInt_character_ofOffset {text : Bytes} {offset : Nat}
    (fits : (utf16Length (lastLine (text.take offset))).value < Nat.pow 2 31) :
    (ofOffset text offset).value.character.toInt =
      (utf16Length (lastLine (text.take offset))).value :=
  Int32.toInt_ofNat_of_lt fits

/-- A line has at most one unit more than its text has bytes. -/
theorem value_utf16Length_lastLine_le (text : Bytes) :
    (utf16Length (lastLine text)).value ≤ text.length + 1 :=
  (CodeStep.totalUnits_walk_le (lastLine text)).trans
    (Nat.succ_le_succ (lastLine_suffix text).length_le)

/-- There are never too many units for a place in front of the end of a text. -/
theorem value_utf16Length_lastLine_lt {text : Bytes} (short : text.length < Nat.pow 2 31)
    {offset : Nat}
    (room : offset < text.length ∨ (utf16Length (lastLine text)).value < Nat.pow 2 31) :
    (utf16Length (lastLine (text.take offset))).value < Nat.pow 2 31 := by
  rcases Nat.lt_or_ge offset text.length with inside | past
  · have units := value_utf16Length_lastLine_le (text.take offset)
    rw [List.length_take, Nat.min_eq_left (Nat.le_of_lt inside)] at units
    omega
  · rw [List.take_of_length_le past]
    exact room.resolve_left (Nat.not_lt.mpr past)

/-- A later offset has no earlier place, unless its column is too large for a place. -/
theorem ofOffset_le_ofOffset {text : Bytes} (short : text.length < Nat.pow 2 31)
    {first second : Nat} (ordered : first ≤ second)
    (fits : (utf16Length (lastLine (text.take second))).value < Nat.pow 2 31) :
    (ofOffset text first).value ≤ (ofOffset text second).value := by
  have lines := toInt_line_ofOffset short first
  have linesAfter := toInt_line_ofOffset short second
  obtain ⟨between, equal⟩ : text.take first <+: text.take second :=
    List.take_prefix_take_left ordered
  by_cases feed : Ascii.newline ∈ between
  · left
    have positive := List.count_pos_iff.mpr feed
    rw [← equal, List.count_append] at linesAfter
    rw [Int32.lt_iff_toInt_lt, lines, linesAfter]
    omega
  · right
    have columns := value_utf16Length_le_append (lastLine (text.take first)) between
    rw [← lastLine_append _ feed, equal] at columns
    rw [← equal, List.count_append, List.count_eq_zero.mpr feed, Nat.add_zero, ← lines,
      Int32.toInt_inj] at linesAfter
    refine ⟨linesAfter.symm, ?_⟩
    rw [Int32.le_iff_toInt_le, toInt_character_ofOffset (Nat.lt_of_le_of_lt columns fits),
      toInt_character_ofOffset fits]
    exact Int.ofNat_le.mpr columns

/-- A line is found behind so many line feeds, if the text has them. -/
theorem fromLine?_eq_some_iff {number : Nat} {text rest : Bytes} :
    fromLine? number text = some rest ↔
      ∃ front, text = front ++ rest ∧ front.count Ascii.newline = number ∧
        ∀ byte ∈ front.getLast?, byte = Ascii.newline := by
  induction number generalizing text with
  | zero =>
      constructor
      · intro found
        exact ⟨[], Option.some.inj found, rfl, fun _ member => nomatch member⟩
      · rintro ⟨front, rfl, none, ends⟩
        cases last : front.getLast? with
        | none => rw [List.getLast?_eq_none_iff.mp last]; rfl
        | some byte =>
            have feed := List.mem_of_getLast? last
            rw [ends byte last] at feed
            exact absurd feed (List.count_eq_zero.mp none)
  | succ number ih =>
      by_cases feed : Ascii.newline ∈ text
      · obtain ⟨head, back, rfl, single⟩ := List.eq_append_cons_of_mem feed
        have headCount := List.count_eq_zero.mpr single
        rw [fromLine?_succ number back single, ih]
        constructor
        · rintro ⟨front, rfl, count, ends⟩
          refine ⟨head ++ Ascii.newline :: front, by simp, ?_, ?_⟩
          · rw [List.count_append, headCount, List.count_cons_self, count, Nat.zero_add]
          · rw [List.getLast?_append, List.getLast?_cons]
            cases last : front.getLast? with
            | none => simp
            | some byte => simpa using ends byte last
        · rintro ⟨front, equal, count, ends⟩
          rcases List.append_eq_append_iff.mp equal with ⟨middle, rfl, same⟩ | ⟨middle, rfl, _⟩
          · rw [List.count_append, headCount, Nat.zero_add] at count
            cases middle with
            | nil => contradiction
            | cons byte middle =>
                obtain ⟨rfl, rfl⟩ := List.cons.inj same
                rw [List.count_cons_self] at count
                refine ⟨middle, rfl, Nat.succ.inj count, fun byte last => ends byte ?_⟩
                rw [List.getLast?_append, List.getLast?_cons, Option.mem_def.mp last]
                rfl
          · rw [List.count_append] at headCount
            omega
      · rw [fromLine?_succ_of_not_mem number feed]
        refine ⟨nofun, ?_⟩
        rintro ⟨front, rfl, count, _⟩
        have none := List.count_eq_zero.mpr feed
        rw [List.count_append] at none
        omega

/-- There is a line behind every line feed. -/
theorem exists_fromLine? {number : Nat} {text : Bytes}
    (enough : number ≤ text.count Ascii.newline) : ∃ rest, fromLine? number text = some rest := by
  induction number generalizing text with
  | zero => exact ⟨text, rfl⟩
  | succ number ih =>
      obtain ⟨front, back, rfl, single⟩ :=
        List.eq_append_cons_of_mem (List.count_pos_iff.mp (Nat.lt_of_lt_of_le number.succ_pos enough))
      rw [List.count_append, List.count_eq_zero.mpr single, List.count_cons_self,
        Nat.zero_add] at enough
      rw [fromLine?_succ number back single]
      exact ih (Nat.le_of_succ_le_succ enough)

/-- What is found is a line and what stands behind it. -/
theorem exists_isLine_of_fromLine? {number : Nat} {text rest : Bytes}
    (found : fromLine? number text = some rest) :
    ∃ front back, IsLine text number front (firstLine rest) back := by
  obtain ⟨front, rfl, number, starts⟩ := fromLine?_eq_some_iff.mp found
  have parts : rest = firstLine rest ++ rest.dropWhile (· ≠ Ascii.newline) :=
    List.takeWhile_append_dropWhile.symm
  refine ⟨front, rest.dropWhile (· ≠ Ascii.newline), ?_, number, starts, fun member => ?_, ?_⟩
  · rw [List.append_assoc, ← parts]
  · simpa using List.mem_takeWhile_imp member
  · intro byte first
    have notAllowed := List.head?_dropWhile_not (· ≠ Ascii.newline) rest
    rw [Option.mem_def.mp first] at notAllowed
    simpa using notAllowed

end Position

namespace IsLine

open Position

/-- A text has as many lines as line feeds, and one more. -/
theorem exists_iff {text : Bytes} {number : Nat} :
    (∃ front line back, IsLine text number front line back) ↔
      number ≤ text.count Ascii.newline := by
  constructor
  · rintro ⟨front, line, back, isLine⟩
    rw [isLine.parts, ← isLine.number, List.append_assoc, List.count_append]
    exact Nat.le_add_right _ _
  · intro enough
    obtain ⟨rest, found⟩ := exists_fromLine? enough
    obtain ⟨front, back, isLine⟩ := exists_isLine_of_fromLine? found
    exact ⟨front, _, back, isLine⟩

variable {text front line back : Bytes} {number : Nat}

theorem fromLine?_eq (isLine : IsLine text number front line back) :
    fromLine? number text = some (line ++ back) :=
  fromLine?_eq_some_iff.mpr
    ⟨front, by rw [isLine.parts, List.append_assoc], isLine.number, isLine.starts⟩

theorem firstLine_eq (isLine : IsLine text number front line back) :
    firstLine (line ++ back) = line := by
  have inside : ∀ byte ∈ line, decide (byte ≠ Ascii.newline) = true :=
    fun _ member => decide_eq_true fun equal => isLine.single (equal ▸ member)
  have behind : back.takeWhile (· ≠ Ascii.newline) = [] := by
    cases back with
    | nil => rfl
    | cons byte back => exact List.takeWhile_cons_of_neg (by simp [isLine.ends byte rfl])
  rw [firstLine, List.takeWhile_append_of_pos inside, behind, List.append_nil]

/-- A place on a line leads to the bytes that its columns span, behind the start of the line. -/
theorem value_toOffset {place : Position}
    (isLine : IsLine text place.line.toInt.toNat front line back) (lineNonnegative : 0 ≤ place.line)
    (characterNonnegative : 0 ≤ place.character) :
    (toOffset text place true).value =
      .ok (front.length +
        (ColumnSpan.measure line place.character.toInt.toNat).value.bytes) := by
  have start : text.length - (line ++ back).length = front.length := by
    rw [isLine.parts, List.append_assoc, List.length_append]
    omega
  rw [toOffset, if_neg (Int32.not_lt.mpr lineNonnegative),
    if_neg (Int32.not_lt.mpr characterNonnegative), isLine.fromLine?_eq]
  simp only [Logged.value_bind, isLine.firstLine_eq, start, Bool.not_true, Bool.and_false,
    Bool.false_eq_true, if_false, Logged.value_pure]

end IsLine

namespace Position

/-- A place off the lines of a text is an error. -/
theorem exists_error_of_no_line {text : Bytes} {place : Position}
    (off : ¬(0 ≤ place.line ∧ 0 ≤ place.character ∧
      ∃ front line back, IsLine text place.line.toInt.toNat front line back))
    (allowBeyond : Bool) : ∃ error, (toOffset text place allowBeyond).value = .error error := by
  unfold toOffset
  split
  · exact ⟨_, rfl⟩
  · next lineNonnegative =>
    split
    · exact ⟨_, rfl⟩
    · next characterNonnegative =>
      split
      · exact ⟨_, rfl⟩
      · next rest found =>
        obtain ⟨front, back, isLine⟩ := exists_isLine_of_fromLine? found
        exact absurd ⟨Int32.not_lt.mp lineNonnegative, Int32.not_lt.mp characterNonnegative,
          front, _, back, isLine⟩ off

/-- The offsets of a text have places in the same order, those from its end on only if its last line
has no more columns than a place can hold; it has at most one more than the text has bytes. A place
on a line of the text leads to an offset on that line, no later for fewer columns, and to the end of
the line for as many columns as the line has or more. Every other place is an error. There are as
many lines as line feeds, and one more. -/
theorem offsets_and_places_keep_order (text : Bytes) (short : text.length < Nat.pow 2 31) :
    (∀ first second, first ≤ second →
      second < text.length ∨ (utf16Length (lastLine text)).value < Nat.pow 2 31 →
      (ofOffset text first).value ≤ (ofOffset text second).value) ∧
    (utf16Length (lastLine text)).value ≤ text.length + 1 ∧
    (∀ place : Position, 0 ≤ place.line → 0 ≤ place.character →
      ∀ front line back, IsLine text place.line.toInt.toNat front line back →
      ∃ offset, (toOffset text place true).value = .ok offset ∧
        front.length ≤ offset ∧ offset ≤ front.length + line.length ∧
        ((utf16Length line).value ≤ place.character.toInt.toNat →
          offset = front.length + line.length) ∧
        ∀ character, place.character ≤ character →
          ∃ later, (toOffset text ⟨place.line, character⟩ true).value = .ok later ∧
            offset ≤ later) ∧
    (∀ place : Position,
      ¬(0 ≤ place.line ∧ 0 ≤ place.character ∧
        ∃ front line back, IsLine text place.line.toInt.toNat front line back) →
      ∃ error, (toOffset text place true).value = .error error) ∧
    ∀ number, (∃ front line back, IsLine text number front line back) ↔
      number ≤ text.count Ascii.newline := by
  refine ⟨fun first second ordered room =>
      ofOffset_le_ofOffset short ordered (value_utf16Length_lastLine_lt short room),
    value_utf16Length_lastLine_le text, ?_, fun place off => exists_error_of_no_line off true,
    fun number => IsLine.exists_iff⟩
  · intro place lineNonnegative characterNonnegative front line back isLine
    have spanned := ColumnSpan.bytes_measure line place.character.toInt.toNat
    refine ⟨_, isLine.value_toOffset lineNonnegative characterNonnegative, Nat.le_add_right _ _,
      by omega, fun past => by rw [ColumnSpan.bytes_measure_of_le past], ?_⟩
    intro character further
    have nonnegative := Int32.le_trans characterNonnegative further
    refine ⟨_, @IsLine.value_toOffset text front line back ⟨place.line, character⟩ isLine
      lineNonnegative nonnegative, Nat.add_le_add_left (ColumnSpan.bytes_measure_mono ?_) _⟩
    exact Int.toNat_le_toNat (Int32.le_iff_toInt_le.mp further)

/-- A line that ends inside a sequence: a column past its end leads to its end, and an offset past
the text has no earlier place than one on the line before. -/
theorem offsets_and_places_keep_order_truncated :
    ([0x61, Ascii.newline, 0xC3] : Bytes).length < Nat.pow 2 31 ∧
      (ofOffset [0x61, Ascii.newline, 0xC3] 1).value ≤
        (ofOffset [0x61, Ascii.newline, 0xC3] 7).value ∧
      (toOffset [0x61, Ascii.newline, 0xC3] ⟨1, 5⟩ true).value = .ok 3 ∧
      ∃ error, (toOffset [0x61, Ascii.newline, 0xC3] ⟨2, 0⟩ true).value = .error error := by
  have law := offsets_and_places_keep_order [0x61, Ascii.newline, 0xC3] (by decide)
  have isLine : IsLine [0x61, Ascii.newline, 0xC3] 1 [0x61, Ascii.newline] [0xC3] [] :=
    ⟨rfl, by decide, fun _ last => (Option.some.inj last).symm, by decide, nofun⟩
  refine ⟨by decide, law.1 1 7 (by decide) (.inr (by decide)), ?_, law.2.2.2.1 ⟨2, 0⟩ ?_⟩
  · obtain ⟨offset, found, _, _, atEnd, _⟩ :=
      law.2.2.1 ⟨1, 5⟩ (by decide) (by decide) _ _ _ isLine
    rw [found, atEnd (by decide)]
    rfl
  · rintro ⟨_, _, lines⟩
    exact absurd ((law.2.2.2.2 2).mp lines) (by decide)

/-- A letter for each of many bytes and a last byte that announces four: one column more than there
are bytes. -/
theorem value_utf16Length_replicate_append (count : Nat) :
    (utf16Length (List.replicate count 0x61 ++ [0xF0])).value = count + 2 := by
  have whole : ∀ part ∈ List.replicate count (TextPart.decoded 'a'), ¬part.IsBroken := by
    intro part member
    rw [List.eq_of_mem_replicate member]
    exact id
  have counted := CodeStep.totalUnits_walk_append whole [0xF0]
  have letters : (List.replicate count (TextPart.decoded 'a')).flatMap TextPart.bytes =
      List.replicate count 0x61 := by
    rw [List.flatMap_replicate]
    exact List.flatten_replicate_singleton
  have columns : ((List.replicate count (TextPart.decoded 'a')).map TextPart.columns).sum =
      count := by
    rw [List.map_replicate, List.sum_replicate_nat]
    exact Nat.mul_one count
  rw [letters, columns] at counted
  exact counted

/-- A text of one line ends behind all its columns. -/
theorem value_ofOffset_length {text : Bytes} (single : Ascii.newline ∉ text) :
    (ofOffset text text.length).value = ⟨0, Int32.ofNat (utf16Length text).value⟩ := by
  have lastLineEqual : lastLine text = text := lastLine_append [] single
  rw [ofOffset, List.take_length, lastLineEqual, List.count_eq_zero.mpr single]
  rfl

/-- A text of the greatest length can have one column more than a place can hold. Its end then stands
before its start. -/
theorem exists_end_before_start :
    ∃ text : Bytes, text.length < Nat.pow 2 31 ∧
      ¬(ofOffset text 0).value ≤ (ofOffset text text.length).value := by
  -- The text is never computed: only its length and its columns matter.
  obtain ⟨text, short, columns, single⟩ : ∃ text : Bytes, text.length < Nat.pow 2 31 ∧
      (utf16Length text).value = Nat.pow 2 31 ∧ Ascii.newline ∉ text := by
    obtain ⟨count, size⟩ : ∃ count, count + 2 = Nat.pow 2 31 := ⟨Nat.pow 2 31 - 2, by decide⟩
    refine ⟨List.replicate count 0x61 ++ [0xF0], ?_, ?_, ?_⟩
    · rw [List.length_append, List.length_replicate, ← size]
      exact Nat.lt_succ_self _
    · rw [value_utf16Length_replicate_append, size]
    · rw [List.mem_append, List.mem_replicate]
      exact not_or.mpr ⟨fun letters => absurd letters.2 (by decide), by decide⟩
  refine ⟨text, short, ?_⟩
  have start : (ofOffset text 0).value = ⟨0, 0⟩ := by
    rw [ofOffset, List.take_zero]
    rfl
  rw [value_ofOffset_length single, columns, start]
  rintro (earlier | ⟨_, left⟩)
  · exact absurd earlier (by decide)
  · exact absurd left (by decide)

end Position

end FormatServer
