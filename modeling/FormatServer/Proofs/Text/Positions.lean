import FormatServer.Proofs.Text.Characters
import Mathlib.Data.List.DropRight

namespace FormatServer

/-- Elements that all satisfy the test extend the longest last part that does. -/
theorem rtakeWhile_append_of_pos {α : Type} {test : α → Bool} (front : List α) {back : List α}
    (all : ∀ element ∈ back, test element = true) :
    (front ++ back).rtakeWhile test = front.rtakeWhile test ++ back := by
  have reversed : ∀ element ∈ back.reverse, test element = true :=
    fun element member => all element (List.mem_reverse.mp member)
  rw [List.rtakeWhile, List.reverse_append, List.takeWhile_append_of_pos reversed,
    List.reverse_append, List.reverse_reverse]
  rfl

namespace Characters

/-- The characters after the last line feed. -/
def lastLine (characters : List Char) : List Char :=
  characters.rtakeWhile (· ≠ '\n')

theorem lastLine_suffix (characters : List Char) : lastLine characters <:+ characters :=
  List.rtakeWhile_suffix _ _

@[simp] theorem lastLine_concat (characters : List Char) (last : Char) :
    lastLine (characters ++ [last]) = if last = '\n' then [] else lastLine characters ++ [last] := by
  rw [lastLine, List.rtakeWhile_concat]
  by_cases feed : last = '\n' <;> simp [feed, lastLine]

theorem lastLine_append_newline (front back : List Char) :
    lastLine (front ++ '\n' :: back) = lastLine back := by
  induction back using List.reverseRecOn with
  | nil => rw [lastLine_concat, if_pos rfl]; rfl
  | append_singleton back last ih =>
      rw [← List.cons_append, ← List.append_assoc, lastLine_concat, lastLine_concat, ih]

theorem ne_newline_of_mem_lastLine {characters : List Char} {character : Char}
    (member : character ∈ lastLine characters) : character ≠ '\n' := by
  have allowed := List.mem_rtakeWhile_imp member
  exact of_decide_eq_true allowed

theorem lastLine_append (front : List Char) {back : List Char} (single : '\n' ∉ back) :
    lastLine (front ++ back) = lastLine front ++ back :=
  rtakeWhile_append_of_pos front fun _ member => decide_eq_true fun equal => single (equal ▸ member)

theorem lastLine_of_not_mem {characters : List Char} (single : '\n' ∉ characters) :
    lastLine characters = characters :=
  lastLine_append [] single

end Characters

namespace Utf8

/-- Only the line feed has the byte of a line feed in its sequence. -/
theorem newline_mem_utf8EncodeChar {character : Char} :
    Ascii.newline ∈ String.utf8EncodeChar character ↔ character = '\n' := by
  constructor
  · intro member
    obtain ⟨first, rest, equal, _, announced, continued⟩ := utf8EncodeChar_shape character
    have single : character.utf8Size = 1 := by
      rw [equal, List.mem_cons] at member
      rw [← String.length_utf8EncodeChar, equal]
      rcases member with rfl | member
      · have none : 1 = rest.length + 1 := Option.some.inj announced
        simpa using none.symm
      · exact absurd (continued _ member) (by decide)
    have bound : character.toNat < 0x80 :=
      Nat.lt_succ_of_le (UInt32.le_iff_toNat_le.mp (Char.utf8Size_eq_one_iff.mp single))
    rw [utf8EncodeChar_eq_encode, encode, if_pos bound, List.mem_singleton, ← UInt8.toNat_inj,
      toNat_toUInt8 (Nat.lt_trans bound (by decide))] at member
    exact Char.toNat_inj.mp member.symm
  · rintro rfl
    decide

theorem count_newline_utf8EncodeChar (character : Char) :
    (String.utf8EncodeChar character).count Ascii.newline = if character = '\n' then 1 else 0 := by
  split
  · next equal =>
    subst equal
    decide
  · next differ =>
    exact List.count_eq_zero.mpr fun member => differ (newline_mem_utf8EncodeChar.mp member)

/-- A text has as many line feeds as its characters. -/
theorem count_newline_encodeAll (characters : List Char) :
    (encodeAll characters).count Ascii.newline = characters.count '\n' := by
  induction characters with
  | nil => rfl
  | cons character characters ih =>
      rw [encodeAll_cons, List.count_append, count_newline_utf8EncodeChar, ih, List.count_cons]
      simp [Nat.add_comm]

theorem newline_mem_encodeAll {characters : List Char} :
    Ascii.newline ∈ encodeAll characters ↔ '\n' ∈ characters := by
  rw [← List.count_pos_iff, count_newline_encodeAll, List.count_pos_iff]

end Utf8

namespace CodeStep

/-- The step of a character: its bytes in UTF-8 and its units in UTF-16. -/
def ofCharacter (character : Char) : CodeStep :=
  ⟨(String.utf8EncodeChar character).length, (Utf16.encode character).length, false⟩

theorem walkAfter_append (skipped text : Bytes) :
    walkAfter skipped.length (skipped ++ text) = walk text := by
  induction skipped with
  | nil => rfl
  | cons byte skipped ih => exact ih

/-- A character takes two units exactly when it takes four bytes. -/
theorem length_utf16_encode (character : Char) :
    (Utf16.encode character).length =
      if (String.utf8EncodeChar character).length = 4 then 2 else 1 := by
  rw [Utf8.utf8EncodeChar_eq_encode]
  unfold Utf16.encode Utf8.encode
  by_cases one : character.toNat < 0x80
  · simp [one, show character.toNat < 0x10000 by omega]
  · by_cases two : character.toNat < 0x800
    · simp [one, two, show character.toNat < 0x10000 by omega]
    · by_cases three : character.toNat < 0x10000
      · simp [one, two, three]
      · simp [one, two, three]

theorem units_ofCharacter_pos (character : Char) : 1 ≤ (ofCharacter character).units := by
  change 1 ≤ (Utf16.encode character).length
  rw [length_utf16_encode]
  split <;> decide

/-- A character is one step. -/
theorem walk_utf8EncodeChar_append (character : Char) (rest : Bytes) :
    walk (String.utf8EncodeChar character ++ rest) = ofCharacter character :: walk rest := by
  obtain ⟨first, others, equal, _, announced, _⟩ := Utf8.utf8EncodeChar_shape character
  have units := length_utf16_encode character
  have step : ofFirst first = ofCharacter character := by
    rw [equal] at units
    simp only [ofFirst, announced, ofCharacter, units, equal, List.length_cons]
  rw [← walkAfter_append others rest, equal, ← step]
  simp only [walk, List.cons_append, walkAfter, ofFirst, announced, Nat.add_sub_cancel]

/-- The walk over a text makes one step for each character. -/
theorem walk_encodeAll (characters : List Char) :
    walk (Utf8.encodeAll characters) = characters.map ofCharacter := by
  induction characters with
  | nil => rfl
  | cons character characters ih =>
      rw [Utf8.encodeAll_cons, walk_utf8EncodeChar_append, ih, List.map_cons]

theorem totalBytes_map_ofCharacter (characters : List Char) :
    totalBytes (characters.map ofCharacter) = (Utf8.encodeAll characters).length := by
  induction characters with
  | nil => rfl
  | cons character characters ih => simp [totalBytes, ofCharacter, ih]

theorem totalUnits_map_ofCharacter (characters : List Char) :
    totalUnits (characters.map ofCharacter) = (Utf16.encodeAll characters).length := by
  induction characters with
  | nil => rfl
  | cons character characters ih => simp [totalUnits, ofCharacter, ih]

theorem reaching_prefix (wanted : Nat) (steps : List CodeStep) : reaching wanted steps <+: steps := by
  fun_induction reaching wanted steps with
  | case1 => exact List.nil_prefix
  | case2 => exact List.nil_prefix
  | case3 wanted step steps ih => exact (List.prefix_cons_inj step).mpr ih

/-- The first steps that reach what some first steps are worth are those steps. -/
theorem reaching_append (front back : List CodeStep) (positive : ∀ step ∈ front, 1 ≤ step.units) :
    reaching (totalUnits front) (front ++ back) = front := by
  induction front with
  | nil => simp [totalUnits, reaching]
  | cons step front ih =>
      have first := positive step List.mem_cons_self
      have others := ih fun other member => positive other (List.mem_cons_of_mem step member)
      obtain ⟨units, equal⟩ := Nat.exists_eq_add_of_le' first
      rw [totalUnits, equal, Nat.add_right_comm, List.cons_append, reaching, equal,
        show units + totalUnits front + 1 - (units + 1) = totalUnits front by omega, others]

end CodeStep

namespace ColumnSpan

/-- The units of the first characters of a line span exactly those characters. -/
theorem value_measure (front back : List Char) :
    (measure (Utf8.encodeAll (front ++ back)) (Utf16.encodeAll front).length).value =
      ⟨(Utf8.encodeAll front).length, true⟩ := by
  have positive : ∀ step ∈ front.map CodeStep.ofCharacter, 1 ≤ step.units := by
    intro step member
    obtain ⟨character, _, rfl⟩ := List.mem_map.mp member
    exact CodeStep.units_ofCharacter_pos character
  have reached := CodeStep.reaching_append _ (back.map CodeStep.ofCharacter) positive
  rw [CodeStep.totalUnits_map_ofCharacter] at reached
  have within := Nat.not_lt.mpr (Utf8.length_encodeAll_le front back)
  simp only [measure, CodeStep.walk_encodeAll, List.map_append, reached,
    CodeStep.totalBytes_map_ofCharacter, CodeStep.totalUnits_map_ofCharacter, if_neg within,
    BEq.rfl]

/-- Units that are spanned exactly are those of the first characters of the line. -/
theorem exists_split_of_exact {line : List Char} {units : Nat}
    (exact : (measure (Utf8.encodeAll line) units).value.exact = true) :
    ∃ front back, line = front ++ back ∧ units = (Utf16.encodeAll front).length ∧
      (measure (Utf8.encodeAll line) units).value.bytes = (Utf8.encodeAll front).length := by
  obtain ⟨count, reached⟩ : ∃ count,
      CodeStep.reaching units (line.map CodeStep.ofCharacter) =
        (line.take count).map CodeStep.ofCharacter := by
    have front := CodeStep.reaching_prefix units (line.map CodeStep.ofCharacter)
    rw [List.prefix_iff_eq_take, ← List.map_take] at front
    exact ⟨_, front⟩
  have split := List.take_append_drop count line
  have within := Nat.not_lt.mpr (Utf8.length_encodeAll_le (line.take count) (line.drop count))
  rw [split] at within
  simp only [measure, CodeStep.walk_encodeAll, reached, CodeStep.totalBytes_map_ofCharacter,
    CodeStep.totalUnits_map_ofCharacter, if_neg within, beq_iff_eq] at exact ⊢
  exact ⟨line.take count, line.drop count, split.symm, exact.symm, rfl⟩

end ColumnSpan

namespace Position

/-- What follows the last line feed of a text stays when bytes of a line are added. -/
theorem lastLine_append (front : Bytes) {back : Bytes} (single : Ascii.newline ∉ back) :
    lastLine (front ++ back) = lastLine front ++ back :=
  rtakeWhile_append_of_pos front fun _ member => decide_eq_true fun equal => single (equal ▸ member)

/-- The last line of a text holds the characters of the last line. -/
theorem lastLine_encodeAll (characters : List Char) :
    lastLine (Utf8.encodeAll characters) = Utf8.encodeAll (Characters.lastLine characters) := by
  induction characters using List.reverseRecOn with
  | nil => rfl
  | append_singleton characters last ih =>
      rw [Utf8.encodeAll_append, Characters.lastLine_concat]
      by_cases feed : last = '\n'
      · rw [if_pos feed, feed]
        exact List.rtakeWhile_concat_neg _ _ _ (by decide)
      · have single : Ascii.newline ∉ Utf8.encodeAll [last] := by
          rw [Utf8.newline_mem_encodeAll, List.mem_singleton]
          exact fun equal => feed equal.symm
        rw [if_neg feed, lastLine_append _ single, ih, Utf8.encodeAll_append]

/-- The first line of a text holds the characters of the first line. -/
theorem firstLine_encodeAll (characters : List Char) :
    firstLine (Utf8.encodeAll characters) =
      Utf8.encodeAll (characters.takeWhile (· ≠ '\n')) := by
  induction characters with
  | nil => rfl
  | cons character characters ih =>
      by_cases feed : character = '\n'
      · subst feed
        rfl
      · have single : ∀ byte ∈ String.utf8EncodeChar character, decide (byte ≠ Ascii.newline) := by
          intro byte member
          refine decide_eq_true fun equal => feed (Utf8.newline_mem_utf8EncodeChar.mp ?_)
          exact equal ▸ member
        rw [Utf8.encodeAll_cons, firstLine, List.takeWhile_append_of_pos single,
          List.takeWhile_cons_of_pos (by simp [feed]), Utf8.encodeAll_cons]
        exact congrArg _ ih

theorem fromLine?_succ (line : Nat) {front : Bytes} (rest : Bytes)
    (single : Ascii.newline ∉ front) :
    fromLine? (line + 1) (front ++ Ascii.newline :: rest) = fromLine? line rest := by
  have all : ∀ byte ∈ front, decide (byte ≠ Ascii.newline) = true :=
    fun byte member => decide_eq_true fun equal => single (equal ▸ member)
  rw [fromLine?, List.dropWhile_append_of_pos all, List.dropWhile_cons_of_neg (by simp)]

theorem fromLine?_succ_of_not_mem (line : Nat) {text : Bytes} (single : Ascii.newline ∉ text) :
    fromLine? (line + 1) text = none := by
  have all : ∀ byte ∈ text, decide (byte ≠ Ascii.newline) = true :=
    fun byte member => decide_eq_true fun equal => single (equal ▸ member)
  rw [fromLine?, List.dropWhile_eq_nil_iff.mpr all]

/-- A line feed splits the encoded text where it splits the characters. -/
theorem fromLine?_succ_encodeAll (line : Nat) {front : List Char} (rest : List Char)
    (single : '\n' ∉ front) :
    fromLine? (line + 1) (Utf8.encodeAll (front ++ '\n' :: rest)) =
      fromLine? line (Utf8.encodeAll rest) := by
  rw [Utf8.encodeAll_append]
  exact fromLine?_succ line _ (Utf8.newline_mem_encodeAll.not.mpr single)

/-- The line of a place starts behind as many line feeds as stand before the place. -/
theorem fromLine?_encodeAll (before after : List Char) :
    fromLine? (before.count '\n') (Utf8.encodeAll (before ++ after)) =
      some (Utf8.encodeAll (Characters.lastLine before ++ after)) := by
  induction lines : before.count '\n' generalizing before with
  | zero =>
      rw [Characters.lastLine_of_not_mem (List.count_eq_zero.mp lines)]
      rfl
  | succ lines ih =>
      have member : '\n' ∈ before := List.count_pos_iff.mp (by omega)
      obtain ⟨front, back, rfl, single⟩ := List.eq_append_cons_of_mem member
      rw [List.count_append, List.count_eq_zero.mpr single, List.count_cons_self] at lines
      rw [List.append_assoc, List.cons_append, fromLine?_succ_encodeAll _ _ single,
        ih back (by omega), Characters.lastLine_append_newline]

/-- A line that is found starts behind that many line feeds. -/
theorem exists_split_of_fromLine? {line : Nat} {characters : List Char} {rest : Bytes}
    (found : fromLine? line (Utf8.encodeAll characters) = some rest) :
    ∃ before after, characters = before ++ after ∧ before.count '\n' = line ∧
      Characters.lastLine before = [] ∧ rest = Utf8.encodeAll after := by
  induction line generalizing characters with
  | zero => exact ⟨[], characters, rfl, rfl, rfl, (Option.some.inj found).symm⟩
  | succ line ih =>
      by_cases member : '\n' ∈ characters
      · obtain ⟨front, back, rfl, single⟩ := List.eq_append_cons_of_mem member
        rw [fromLine?_succ_encodeAll _ _ single] at found
        obtain ⟨before, after, rfl, lines, ends, rfl⟩ := ih found
        refine ⟨front ++ '\n' :: before, after, by simp, ?_, ?_, rfl⟩
        · rw [List.count_append, List.count_eq_zero.mpr single, List.count_cons_self, lines,
            Nat.zero_add]
        · rw [Characters.lastLine_append_newline, ends]
      · rw [fromLine?_succ_of_not_mem line (Utf8.newline_mem_encodeAll.not.mpr member)] at found
        contradiction

/-- The place after some characters of a text: the line counts their line feeds and the character
the UTF-16 units after the last of them. -/
structure IsAfter (place : Position) (before : List Char) : Prop where
  line : place.line.toInt = before.count '\n'
  character : place.character.toInt = (Utf16.encodeAll (Characters.lastLine before)).length

theorem IsAfter.unique {place other : Position} {before : List Char} (first : place.IsAfter before)
    (second : other.IsAfter before) : place = other := by
  have lines := Int32.toInt_inj.mp (first.line.trans second.line.symm)
  have characters := Int32.toInt_inj.mp (first.character.trans second.character.symm)
  cases place
  cases other
  simp_all

/-- No text has more UTF-16 units than bytes. -/
theorem length_utf16_le (characters : List Char) :
    (Utf16.encodeAll characters).length ≤ (Utf8.encodeAll characters).length := by
  induction characters with
  | nil => exact Nat.le_refl _
  | cons character characters ih =>
      have units := CodeStep.length_utf16_encode character
      have bytes : 1 ≤ (String.utf8EncodeChar character).length := by
        rw [String.length_utf8EncodeChar]
        exact Char.utf8Size_pos character
      rw [Utf8.encodeAll_cons, Utf16.encodeAll_cons, List.length_append, List.length_append]
      split at units <;> omega

theorem length_lastLine_le (characters : List Char) :
    (Utf8.encodeAll (Characters.lastLine characters)).length ≤
      (Utf8.encodeAll characters).length := by
  obtain ⟨front, equal⟩ := Characters.lastLine_suffix characters
  have lengths := congrArg (fun list => (Utf8.encodeAll list).length) equal
  simp only [Utf8.encodeAll_append, List.length_append] at lengths
  omega

/-- There are no more line feeds in front of a split than bytes. -/
theorem count_newline_le (characters : List Char) :
    characters.count '\n' ≤ (Utf8.encodeAll characters).length := by
  rw [← Utf8.count_newline_encodeAll]
  exact List.count_le_length

/-- There are no more units of the last line in front of a split than bytes. -/
theorem length_utf16_lastLine_le (characters : List Char) :
    (Utf16.encodeAll (Characters.lastLine characters)).length ≤
      (Utf8.encodeAll characters).length :=
  Nat.le_trans (length_utf16_le (Characters.lastLine characters)) (length_lastLine_le characters)

/-- The place of a split between characters counts the line feeds in front of it and the units of
its line, as far as a place can hold them. -/
theorem value_ofOffset (before after : List Char) :
    (ofOffset (Utf8.encodeAll (before ++ after)) (Utf8.encodeAll before).length).value =
      ⟨Int32.ofNat (before.count '\n'),
        Int32.ofNat (Utf16.encodeAll (Characters.lastLine before)).length⟩ := by
  have front := Utf8.take_encodeAll before after
  have walked := CodeStep.walk_encodeAll (Characters.lastLine before)
  simp only [ofOffset, Logged.value_bind, Logged.value_pure, front, Utf8.count_newline_encodeAll,
    lastLine_encodeAll, utf16Length, walked, CodeStep.totalUnits_map_ofCharacter]

/-- The place of a split between characters is the place after those in front of it. -/
theorem isAfter_ofOffset (before after : List Char)
    (short : (Utf8.encodeAll before).length < Nat.pow 2 31) :
    (ofOffset (Utf8.encodeAll (before ++ after)) (Utf8.encodeAll before).length).value.IsAfter
      before := by
  rw [value_ofOffset]
  constructor
  · exact Int32.toInt_ofNat_of_lt (Nat.lt_of_le_of_lt (count_newline_le before) short)
  · exact Int32.toInt_ofNat_of_lt (Nat.lt_of_le_of_lt (length_utf16_lastLine_le before) short)

/-- The place after some characters leads back to the split behind them. -/
theorem value_toOffset {place : Position} {before : List Char} (isAfter : place.IsAfter before)
    (after : List Char) (allowBeyond : Bool) :
    (toOffset (Utf8.encodeAll (before ++ after)) place allowBeyond).value =
      .ok (Utf8.encodeAll before).length := by
  have lineNonnegative : ¬place.line < 0 := by
    rw [Int32.lt_iff_toInt_lt, isAfter.line]
    exact Int.not_lt.mpr (Int.natCast_nonneg _)
  have characterNonnegative : ¬place.character < 0 := by
    rw [Int32.lt_iff_toInt_lt, isAfter.character]
    exact Int.not_lt.mpr (Int.natCast_nonneg _)
  have lineValue : place.line.toInt.toNat = before.count '\n' := by
    rw [isAfter.line, Int.toNat_natCast]
  have characterValue : place.character.toInt.toNat =
      (Utf16.encodeAll (Characters.lastLine before)).length := by
    rw [isAfter.character, Int.toNat_natCast]
  have line : (Characters.lastLine before ++ after).takeWhile (· ≠ '\n') =
      Characters.lastLine before ++ after.takeWhile (· ≠ '\n') :=
    List.takeWhile_append_of_pos fun _ member =>
      decide_eq_true (Characters.ne_newline_of_mem_lastLine member)
  have spanned := ColumnSpan.value_measure (Characters.lastLine before)
    (after.takeWhile (· ≠ '\n'))
  have bounded := length_lastLine_le before
  rw [toOffset, if_neg lineNonnegative, if_neg characterNonnegative, lineValue, characterValue,
    fromLine?_encodeAll]
  simp only [Logged.value_bind, firstLine_encodeAll, line, spanned, Bool.not_true, Bool.false_and,
    Bool.false_eq_true, if_false, Logged.value_pure]
  rw [Utf8.encodeAll_append, Utf8.encodeAll_append, List.length_append, List.length_append]
  congr 1
  omega

/-- A place that is strictly accepted has a line of the text and a column that spans exactly. -/
theorem exists_line_of_toOffset {text : Bytes} {place : Position} {offset : Nat}
    (found : (toOffset text place false).value = .ok offset) :
    0 ≤ place.line.toInt ∧ 0 ≤ place.character.toInt ∧
      ∃ rest, fromLine? place.line.toInt.toNat text = some rest ∧
        (ColumnSpan.measure (firstLine rest) place.character.toInt.toNat).value.exact = true ∧
        offset = text.length - rest.length +
          (ColumnSpan.measure (firstLine rest) place.character.toInt.toNat).value.bytes := by
  unfold toOffset at found
  split at found
  · contradiction
  · next lineNonnegative =>
    split at found
    · contradiction
    · next characterNonnegative =>
      rw [Int32.lt_iff_toInt_lt, Int.not_lt] at lineNonnegative characterNonnegative
      refine ⟨lineNonnegative, characterNonnegative, ?_⟩
      split at found
      · contradiction
      · next rest lineFound =>
        simp only [Logged.value_bind, Bool.not_false, Bool.and_true, Bool.not_eq_true'] at found
        split at found
        · contradiction
        · next spanExact =>
          rw [Logged.value_pure, Except.ok.injEq] at found
          exact ⟨rest, lineFound, eq_true_of_ne_false spanExact, found.symm⟩

/-- A place that is strictly accepted is the place after some characters of the text. -/
theorem exists_split_of_toOffset {characters : List Char} {place : Position} {offset : Nat}
    (found : (toOffset (Utf8.encodeAll characters) place false).value = .ok offset) :
    ∃ before after, characters = before ++ after ∧ place.IsAfter before ∧
      offset = (Utf8.encodeAll before).length := by
  obtain ⟨lineNonnegative, characterNonnegative, rest, lineFound, exact, rfl⟩ :=
    exists_line_of_toOffset found
  obtain ⟨front, back, rfl, lines, ends, rfl⟩ := exists_split_of_fromLine? lineFound
  rw [firstLine_encodeAll] at exact ⊢
  obtain ⟨column, others, lineSplit, units, bytes⟩ := ColumnSpan.exists_split_of_exact exact
  have behind := List.takeWhile_append_dropWhile (p := (· ≠ '\n')) (l := back)
  rw [lineSplit, List.append_assoc] at behind
  have single : '\n' ∉ column := by
    intro member
    have inLine : '\n' ∈ back.takeWhile (· ≠ '\n') :=
      lineSplit ▸ List.mem_append_left others member
    simpa using List.mem_takeWhile_imp inLine
  have lastLine : Characters.lastLine (front ++ column) = column := by
    rw [Characters.lastLine_append front single, ends, List.nil_append]
  have lineCount : (front ++ column).count '\n' = place.line.toInt.toNat := by
    rw [List.count_append, List.count_eq_zero.mpr single, lines, Nat.add_zero]
  refine ⟨front ++ column, _, by rw [List.append_assoc, behind], ⟨?_, ?_⟩, ?_⟩
  · rw [lineCount]
    exact (Int.toNat_of_nonneg lineNonnegative).symm
  · rw [lastLine, ← units]
    exact (Int.toNat_of_nonneg characterNonnegative).symm
  · rw [bytes, Utf8.encodeAll_append, Utf8.encodeAll_append, List.length_append, List.length_append]
    omega

/-- Every split of a text between characters has a place that counts the line feeds in front of it
and the UTF-16 units of its line, and the place leads back to the split. Every place that is
strictly accepted is the place of such a split. -/
theorem places_correspond_to_splits (characters : List Char)
    (short : (Utf8.encodeAll characters).length < Nat.pow 2 31) :
    (∀ before after, characters = before ++ after →
      (ofOffset (Utf8.encodeAll characters) (Utf8.encodeAll before).length).value.IsAfter before ∧
      ∀ allowBeyond,
        (toOffset (Utf8.encodeAll characters)
          (ofOffset (Utf8.encodeAll characters) (Utf8.encodeAll before).length).value
          allowBeyond).value = .ok (Utf8.encodeAll before).length) ∧
    (∀ place offset, (toOffset (Utf8.encodeAll characters) place false).value = .ok offset →
      (∃ before after, characters = before ++ after ∧ place.IsAfter before ∧
        offset = (Utf8.encodeAll before).length) ∧
      (ofOffset (Utf8.encodeAll characters) offset).value = place) := by
  have shortFront {before after : List Char} (equal : characters = before ++ after) :
      (Utf8.encodeAll before).length < Nat.pow 2 31 := by
    rw [equal] at short
    exact Nat.lt_of_le_of_lt (Utf8.length_encodeAll_le before after) short
  constructor
  · intro before after equal
    have isAfter := isAfter_ofOffset before after (shortFront equal)
    rw [← equal] at isAfter
    refine ⟨isAfter, fun allowBeyond => ?_⟩
    have found := value_toOffset isAfter after allowBeyond
    rwa [← equal] at found
  · intro place offset found
    obtain ⟨before, after, equal, isAfter, rfl⟩ := exists_split_of_toOffset found
    have computed := isAfter_ofOffset before after (shortFront equal)
    rw [← equal] at computed
    exact ⟨⟨before, after, equal, isAfter, rfl⟩, computed.unique isAfter⟩

/-- The end of a text whose last character takes a pair of surrogates. -/
theorem places_correspond_to_splits_astral :
    (Utf8.encodeAll ['a', '\n', '😀']).length < Nat.pow 2 31 ∧
      (toOffset (Utf8.encodeAll ['a', '\n', '😀'])
        (ofOffset (Utf8.encodeAll ['a', '\n', '😀']) 6).value false).value = .ok 6 ∧
      (ofOffset (Utf8.encodeAll ['a', '\n', '😀']) 6).value = ⟨1, 2⟩ := by
  have law := places_correspond_to_splits ['a', '\n', '😀'] (by decide)
  refine ⟨by decide, (law.1 ['a', '\n', '😀'] [] rfl).2 false, ?_⟩
  exact (law.2 ⟨1, 2⟩ 6 (by rfl)).2

end Position

end FormatServer
