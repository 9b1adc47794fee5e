import FormatServer.Proofs.Text.Smallest

namespace FormatServer

/-- Whether an offset lies between a carriage return and the line feed after it. -/
def IsInsideLineEnd (text : Bytes) (offset : Nat) : Prop :=
  ∃ front back, text = front ++ Ascii.carriageReturn :: Ascii.newline :: back ∧
    offset = front.length + 1

/-- Whether two texts agree up to a carriage return that only the source goes on with a line feed. -/
def FirstDifferInsideLineEnd (source formatted : Bytes) : Prop :=
  ∃ front back other, source = front ++ Ascii.carriageReturn :: Ascii.newline :: back ∧
    formatted = front ++ Ascii.carriageReturn :: other ∧ other.head? ≠ some Ascii.newline

/-- Whether two texts agree from a line feed on which has a carriage return in front of it in the
source, but in the formatted text another byte, or in one of them no byte behind the first `start`
bytes. -/
def LastDifferInsideLineEnd (source formatted : Bytes) (start : Nat) : Prop :=
  ∃ front other back, source = front ++ Ascii.carriageReturn :: Ascii.newline :: back ∧
    formatted = other ++ Ascii.newline :: back ∧
    start ≤ front.length + 1 ∧ start ≤ other.length ∧
    (other.getLast? ≠ some Ascii.carriageReturn ∨ start = front.length + 1 ∨ start = other.length)

/-- Whether every carriage return is followed by a line feed. -/
def ReturnsHaveFeeds (text : Bytes) : Prop :=
  ∀ front back, text = front ++ Ascii.carriageReturn :: back → back.head? = some Ascii.newline

/-- Whether every line feed follows a carriage return. -/
def FeedsHaveReturns (text : Bytes) : Prop :=
  ∀ front back, text = front ++ Ascii.newline :: back →
    front.getLast? = some Ascii.carriageReturn

namespace Utf8

/-- No character goes on behind an ASCII byte of a well-formed text. -/
theorem head?_behind_ascii {front back : Bytes} {byte : UInt8} (ascii : byte < 0x80)
    (wellFormed : isWellFormed (front ++ byte :: back) = true) :
    ∀ next ∈ back.head?, isContinuationByte next = false := by
  obtain ⟨characters, equal⟩ := exists_characters wellFormed
  have starts : ∀ first, (byte :: back).head? = some first → isContinuationByte first = false := by
    rintro first ⟨⟩
    simp [isContinuationByte, UInt8.not_le.mpr ascii]
  obtain ⟨before, after, rfl, behind⟩ := exists_cut equal.symm starts
  cases after with
  | nil => contradiction
  | cons character after =>
      obtain ⟨first, rest, shape, _, announced, _⟩ := utf8EncodeChar_shape character
      rw [encodeAll_cons, shape, List.cons_append, List.cons.injEq] at behind
      obtain ⟨rfl, rfl⟩ := behind
      have single : announcedLength? byte = some 1 := if_pos ascii
      rw [single, Option.some.injEq] at announced
      obtain rfl : rest = [] := List.eq_nil_of_length_eq_zero (by omega)
      exact head?_encodeAll after

end Utf8

namespace ByteEdit

/-- What the edit between two texts keeps: a front that is common to both texts and, behind it, a
common end. No common front that ends with an ASCII byte is longer if the texts are well formed, and
behind the front no common end is that starts with no continuation byte. -/
structure Keeps (source formatted front removed inserted back : Bytes) : Prop where
  sourceParts : source = front ++ (removed ++ back)
  formattedParts : formatted = front ++ (inserted ++ back)
  start : (between source formatted).start.toNat = front.length
  stop : (between source formatted).stop.toNat = front.length + removed.length
  startBoundary : IsBoundary source front.length
  stopBoundary : IsBoundary source (front.length + removed.length)
  longestFront : ∀ byte before rest other, byte < 0x80 → source = before ++ byte :: rest →
    formatted = before ++ byte :: other → Utf8.isWellFormed source = true →
    Utf8.isWellFormed formatted = true → before.length + 1 ≤ front.length
  longestBack : ∀ byte before other rest, Utf8.isContinuationByte byte = false →
    source = before ++ byte :: rest → formatted = other ++ byte :: rest →
    front.length ≤ before.length → front.length ≤ other.length → rest.length + 1 ≤ back.length

/-- A front that ends with an ASCII byte has the first clusters of a well-formed text. -/
theorem clusters_prefix_of_ascii {text before rest : Bytes} {byte : UInt8} (ascii : byte < 0x80)
    (equal : text = before ++ byte :: rest) (wellFormed : Utf8.isWellFormed text = true) :
    clusters (before ++ [byte]) <+: clusters text := by
  rw [equal] at wellFormed ⊢
  rw [List.append_cons before byte rest,
    clusters_append_of_head _ (Utf8.head?_behind_ascii ascii wellFormed)]
  exact List.prefix_append _ _

/-- An end that starts with no continuation byte has the last clusters of a text. -/
theorem clusters_suffix_of_start {text before rest : Bytes} {byte : UInt8} {kept others : List Bytes}
    (starts : Utf8.isContinuationByte byte = false) (equal : text = before ++ byte :: rest)
    (cut : clusters text = kept ++ others) (behind : kept.flatten.length ≤ before.length) :
    clusters (byte :: rest) <:+ others := by
  have boundary : IsBoundary text before.length := Or.inr (Or.inr ⟨byte, by simp [equal], starts⟩)
  have suffix := boundary.clusters_drop_suffix cut behind
  rwa [equal, List.drop_left] at suffix

/-- The edit between two texts keeps such a front and such an end. -/
theorem exists_keeps {source : Bytes} (formatted : Bytes) (short : source.length < Nat.pow 2 32) :
    ∃ front removed inserted back, Keeps source formatted front removed inserted back := by
  obtain ⟨kept, removed, inserted, tail, sourceCut, formattedCut, edit, longestStart,
    longestEnd⟩ := exists_parts source formatted
  have stopBoundary := (boundary_of_clusters_eq sourceCut).1
  rw [List.append_assoc] at sourceCut formattedCut
  have startBoundary := (boundary_of_clusters_eq sourceCut).1
  have startFits := Nat.lt_of_le_of_lt startBoundary.le_length short
  have stopFits := Nat.lt_of_le_of_lt stopBoundary.le_length short
  refine ⟨kept.flatten, removed.flatten, inserted.flatten, tail.flatten, ?_⟩
  constructor
  · rw [← List.flatten_append, ← List.flatten_append, ← sourceCut, flatten_clusters]
  · rw [← List.flatten_append, ← List.flatten_append, ← formattedCut, flatten_clusters]
  · rw [edit, UInt32.toNat_ofNat_of_lt' startFits]
  · rw [edit, UInt32.toNat_ofNat_of_lt' stopFits, List.flatten_append, List.length_append]
  · exact startBoundary
  · rwa [List.flatten_append, List.length_append] at stopBoundary
  · intro byte before rest other ascii sourceEqual formattedEqual wellFormed formattedWellFormed
    obtain ⟨more, rfl⟩ := longestStart _ (clusters_prefix_of_ascii ascii sourceEqual wellFormed)
      (clusters_prefix_of_ascii ascii formattedEqual formattedWellFormed)
    rw [List.flatten_append, flatten_clusters, List.length_append, List.length_append]
    exact Nat.le_add_right _ _
  · intro byte before other rest starts sourceEqual formattedEqual behind otherBehind
    obtain ⟨more, rfl⟩ := longestEnd _
      (clusters_suffix_of_start starts sourceEqual sourceCut behind)
      (clusters_suffix_of_start starts formattedEqual formattedCut otherBehind)
    rw [List.flatten_append, flatten_clusters, List.length_append]
    exact Nat.le_add_left _ _

namespace Keeps

variable {source formatted front removed inserted back : Bytes}

/-- The edit starts inside a line end exactly where the texts first differ inside one. -/
theorem start_isInsideLineEnd_iff (keeps : Keeps source formatted front removed inserted back)
    (wellFormed : Utf8.isWellFormed source = true)
    (formattedWellFormed : Utf8.isWellFormed formatted = true) :
    IsInsideLineEnd source front.length ↔ FirstDifferInsideLineEnd source formatted := by
  constructor
  · rintro ⟨before, rest, equal, size⟩
    have parts := keeps.sourceParts.symm.trans equal
    rw [List.append_cons] at parts
    obtain ⟨isFront, behind⟩ := List.append_inj parts (by rw [List.length_append, size]; rfl)
    have formattedEqual := keeps.formattedParts
    rw [isFront, List.append_assoc, List.singleton_append] at formattedEqual
    refine ⟨before, rest, _, equal, formattedEqual, fun feed => ?_⟩
    -- The texts would have the line feed in common as well.
    obtain ⟨other, isOther⟩ := List.head?_eq_some_iff.mp feed
    have longer := keeps.longestFront Ascii.newline front rest other (by decide)
      (keeps.sourceParts.trans (congrArg (front ++ ·) behind))
      (keeps.formattedParts.trans (congrArg (front ++ ·) isOther)) wellFormed formattedWellFormed
    exact absurd longer (Nat.not_succ_le_self _)
  · rintro ⟨before, rest, other, sourceEqual, formattedEqual, differ⟩
    have least := keeps.longestFront _ _ _ _ (by decide) sourceEqual formattedEqual wellFormed
      formattedWellFormed
    refine ⟨before, rest, sourceEqual, Nat.le_antisymm (Nat.le_of_not_lt fun more => ?_) least⟩
    -- The line feed would stand in the common front, and so in both texts.
    have inFront : before ++ [Ascii.carriageReturn, Ascii.newline] <+: front :=
      List.prefix_of_prefix_length_le ⟨rest, by rw [sourceEqual, List.append_assoc]; rfl⟩
        ⟨_, keeps.sourceParts.symm⟩ (by rw [List.length_append]; exact more)
    obtain ⟨others, equal⟩ := inFront.trans ⟨_, keeps.formattedParts.symm⟩
    rw [formattedEqual, List.append_assoc, List.append_cancel_left_eq] at equal
    obtain ⟨_, rfl⟩ := List.cons.inj equal
    exact differ rfl

/-- If the edit stops inside a line end, the texts last differ inside it. -/
theorem lastDiffer_of_stop (keeps : Keeps source formatted front removed inserted back)
    (inside : IsInsideLineEnd source (front.length + removed.length)) :
    LastDifferInsideLineEnd source formatted front.length := by
  obtain ⟨before, rest, equal, size⟩ := inside
  have parts := keeps.sourceParts.symm.trans equal
  rw [← List.append_assoc, List.append_cons] at parts
  obtain ⟨_, isBack⟩ := List.append_inj parts
    (by rw [List.length_append, List.length_append, size]; rfl)
  have formattedEqual := keeps.formattedParts
  rw [isBack, ← List.append_assoc] at formattedEqual
  refine ⟨before, front ++ inserted, rest, equal, formattedEqual, by omega, by simp, ?_⟩
  by_contra alike
  simp only [not_or, not_not] at alike
  obtain ⟨isReturn, notAtBefore, notAtOther⟩ := alike
  -- The texts would have the carriage return in common as well.
  obtain ⟨other, isOther⟩ := List.getLast?_eq_some_iff.mp isReturn
  have otherSize := congrArg List.length isOther
  rw [List.length_append, List.length_append, List.length_singleton] at otherSize
  rw [List.length_append] at notAtOther
  rw [isOther, List.append_assoc, List.singleton_append] at formattedEqual
  have longer := keeps.longestBack _ _ _ _ (by decide) equal formattedEqual (by omega) (by omega)
  rw [isBack] at longer
  exact Nat.lt_irrefl _ longer

/-- If the texts last differ inside a line end, the edit stops inside it. -/
theorem stop_of_lastDiffer (keeps : Keeps source formatted front removed inserted back)
    (differ : LastDifferInsideLineEnd source formatted front.length) :
    IsInsideLineEnd source (front.length + removed.length) := by
  obtain ⟨before, other, rest, sourceEqual, formattedEqual, within, otherWithin, differ⟩ := differ
  have sourceSplit := sourceEqual
  rw [List.append_cons] at sourceSplit
  have least := keeps.longestBack _ _ _ _ (by decide) sourceSplit formattedEqual
    (by simpa using within) otherWithin
  have sourceSize := congrArg List.length (keeps.sourceParts.symm.trans sourceEqual)
  have formattedSize := congrArg List.length (keeps.formattedParts.symm.trans formattedEqual)
  simp only [List.length_append, List.length_cons] at sourceSize formattedSize
  refine ⟨before, rest, sourceEqual, ?_⟩
  by_contra notInside
  -- The carriage return would stand in the common end, and so in both texts.
  have backOfSource : back <:+ source :=
    ⟨front ++ removed, by rw [keeps.sourceParts, List.append_assoc]⟩
  have backOfFormatted : back <:+ formatted :=
    ⟨front ++ inserted, by rw [keeps.formattedParts, List.append_assoc]⟩
  have inBack : Ascii.carriageReturn :: Ascii.newline :: rest <:+ back :=
    List.suffix_of_suffix_length_le ⟨before, sourceEqual.symm⟩ backOfSource
      (by rw [List.length_cons, List.length_cons]; omega)
  obtain ⟨others, equal⟩ := inBack.trans backOfFormatted
  rw [formattedEqual, List.append_cons, List.append_cancel_right_eq] at equal
  rcases differ with notReturn | atBefore | atOther
  · exact notReturn (by rw [← equal, List.getLast?_concat])
  · omega
  · omega

/-- Where the formatted text goes on with a line feed behind the common front, the edit starts inside
a line end, if every line feed of that text follows a carriage return and every carriage return of the
source has a line feed. -/
theorem start_isInsideLineEnd_of_feeds (keeps : Keeps source formatted front removed inserted back)
    (returns : ReturnsHaveFeeds source) (feeds : FeedsHaveReturns formatted) {rest : Bytes}
    (equal : formatted = front ++ Ascii.newline :: rest) :
    IsInsideLineEnd source front.length := by
  obtain ⟨before, isFront⟩ := List.getLast?_eq_some_iff.mp (feeds front rest equal)
  have sourceEqual := keeps.sourceParts
  rw [isFront, List.append_assoc, List.singleton_append] at sourceEqual
  obtain ⟨others, isOthers⟩ := List.head?_eq_some_iff.mp (returns before _ sourceEqual)
  rw [isOthers] at sourceEqual
  refine ⟨before, others, sourceEqual, ?_⟩
  rw [isFront, List.length_append]
  rfl

/-- Texts whose line ends all have two bytes neither first nor last differ inside one. -/
theorem not_differ (keeps : Keeps source formatted front removed inserted back)
    (wellFormed : Utf8.isWellFormed source = true)
    (formattedWellFormed : Utf8.isWellFormed formatted = true) (returns : ReturnsHaveFeeds source)
    (formattedReturns : ReturnsHaveFeeds formatted) (feeds : FeedsHaveReturns formatted) :
    ¬FirstDifferInsideLineEnd source formatted ∧
      ¬LastDifferInsideLineEnd source formatted front.length := by
  have notFirst : ¬FirstDifferInsideLineEnd source formatted := by
    rintro ⟨before, rest, other, _, equal, differ⟩
    exact differ (formattedReturns before other equal)
  have notInside : ¬IsInsideLineEnd source front.length :=
    fun inside => notFirst ((keeps.start_isInsideLineEnd_iff wellFormed formattedWellFormed).mp inside)
  refine ⟨notFirst, ?_⟩
  rintro ⟨before, other, rest, sourceEqual, formattedEqual, _, _, differ⟩
  rcases differ with notReturn | atBefore | atOther
  · exact notReturn (feeds other rest formattedEqual)
  · exact notInside ⟨before, rest, sourceEqual, atBefore⟩
  · obtain ⟨isFront, _⟩ := List.append_inj (keeps.formattedParts.symm.trans formattedEqual) atOther
    exact notInside (keeps.start_isInsideLineEnd_of_feeds returns feeds (isFront ▸ formattedEqual))

end Keeps

end ByteEdit

namespace Position

/-- A number that a place holds and that is not below zero is held as it is. -/
theorem toInt_ofNat_of_nonneg {number : Nat} (short : number < Nat.pow 2 32)
    (nonnegative : 0 ≤ (Int32.ofNat number).toInt) : (Int32.ofNat number).toInt = number := by
  change number < 2 ^ 32 at short
  simp only [Int32.toInt_ofNat', Int32.size, Int.bmod] at nonnegative ⊢
  omega

/-- A place that leads to an offset is not below zero. -/
theorem nonneg_of_toOffset {text : Bytes} {place : Position} {allowBeyond : Bool} {offset : Nat}
    (found : (toOffset text place allowBeyond).value = .ok offset) :
    0 ≤ place.line ∧ 0 ≤ place.character := by
  unfold toOffset at found
  split at found
  · contradiction
  · next lineNonnegative =>
    split at found
    · contradiction
    · next characterNonnegative =>
      exact ⟨Int32.not_lt.mp lineNonnegative, Int32.not_lt.mp characterNonnegative⟩

/-- A boundary of a well-formed text is a split between characters. -/
theorem exists_split_of_isBoundary {text : Bytes} (wellFormed : Utf8.isWellFormed text = true)
    {place : Nat} (boundary : IsBoundary text place) :
    ∃ before after, text = Utf8.encodeAll (before ++ after) ∧
      place = (Utf8.encodeAll before).length := by
  obtain ⟨characters, equal⟩ := Utf8.exists_characters wellFormed
  have size : (text.take place).length = place := by
    rw [List.length_take, Nat.min_eq_left boundary.le_length]
  have starts : ∀ byte, (text.drop place).head? = some byte →
      Utf8.isContinuationByte byte = false := by
    intro byte isHead
    rcases boundary with rfl | rfl | ⟨first, found, starts⟩
    · exact head?_encodeAll characters byte (equal ▸ isHead)
    · rw [List.drop_length] at isHead
      contradiction
    · rw [List.head?_drop, found] at isHead
      exact Option.some.inj isHead ▸ starts
  obtain ⟨before, after, front, back⟩ :=
    Utf8.exists_cut (equal.symm.trans (List.take_append_drop place text).symm) starts
  refine ⟨before, after, ?_, ?_⟩
  · rw [Utf8.encodeAll_append, ← front, ← back, List.take_append_drop]
  · rw [← front, size]

/-- The place of a boundary leads back to it, if it leads to an offset at all. -/
theorem eq_of_toOffset_ofOffset {text : Bytes} (wellFormed : Utf8.isWellFormed text = true)
    (short : text.length < Nat.pow 2 32) {place : Nat} (boundary : IsBoundary text place)
    {allowBeyond : Bool} {offset : Nat}
    (found : (toOffset text (ofOffset text place).value allowBeyond).value = .ok offset) :
    offset = place := by
  obtain ⟨before, after, rfl, rfl⟩ := exists_split_of_isBoundary wellFormed boundary
  have shortFront := Nat.lt_of_le_of_lt (Utf8.length_encodeAll_le before after) short
  have nonnegative := nonneg_of_toOffset found
  have isAfter : (ofOffset (Utf8.encodeAll (before ++ after))
      (Utf8.encodeAll before).length).value.IsAfter before := by
    rw [value_ofOffset] at nonnegative ⊢
    constructor
    · exact toInt_ofNat_of_nonneg (Nat.lt_of_le_of_lt (count_newline_le before) shortFront)
        (Int32.le_iff_toInt_le.mp nonnegative.1)
    · exact toInt_ofNat_of_nonneg
        (Nat.lt_of_le_of_lt (length_utf16_lastLine_le before) shortFront)
        (Int32.le_iff_toInt_le.mp nonnegative.2)
  rw [value_toOffset isAfter after allowBeyond] at found
  exact (Except.ok.inj found).symm

/-- The place of a boundary leads back to it in a text that is not too long for places. -/
theorem toOffset_ofOffset_of_isBoundary {text : Bytes}
    (wellFormed : Utf8.isWellFormed text = true) (short : text.length < Nat.pow 2 31)
    {place : Nat} (boundary : IsBoundary text place) (allowBeyond : Bool) :
    (toOffset text (ofOffset text place).value allowBeyond).value = .ok place := by
  obtain ⟨before, after, rfl, rfl⟩ := exists_split_of_isBoundary wellFormed boundary
  have shortFront := Nat.lt_of_le_of_lt (Utf8.length_encodeAll_le before after) short
  exact value_toOffset (isAfter_ofOffset before after shortFront) after allowBeyond

end Position

namespace TextEdit

/-- An end of the edit between two well-formed texts, read back as an offset of the source, is inside
a line end exactly if the texts first differ there, or last differ there. Both ends can be read back
in a source that is not too long for places. None is inside a line end if every carriage return of
both texts has a line feed and every line feed of the formatted text has a carriage return. -/
theorem between_isInsideLineEnd_iff_differ {source formatted : Bytes}
    (wellFormed : Utf8.isWellFormed source = true)
    (formattedWellFormed : Utf8.isWellFormed formatted = true)
    (short : source.length < Nat.pow 2 32) :
    ∃ edit, (between source formatted).value = [edit] ∧
      (∀ allowBeyond offset,
        (Position.toOffset source edit.range.start allowBeyond).value = .ok offset →
        (IsInsideLineEnd source offset ↔ FirstDifferInsideLineEnd source formatted)) ∧
      (∀ allowBeyond offset,
        (Position.toOffset source edit.range.stop allowBeyond).value = .ok offset →
        (IsInsideLineEnd source offset ↔
          LastDifferInsideLineEnd source formatted
            (ByteEdit.between source formatted).start.toNat)) ∧
      (source.length < Nat.pow 2 31 → ∀ allowBeyond,
        (∃ start, (Position.toOffset source edit.range.start allowBeyond).value = .ok start) ∧
        ∃ stop, (Position.toOffset source edit.range.stop allowBeyond).value = .ok stop) ∧
      (ReturnsHaveFeeds source → ReturnsHaveFeeds formatted → FeedsHaveReturns formatted →
        ¬FirstDifferInsideLineEnd source formatted ∧
          ¬LastDifferInsideLineEnd source formatted
            (ByteEdit.between source formatted).start.toNat) := by
  obtain ⟨front, removed, inserted, back, keeps⟩ := ByteEdit.exists_keeps formatted short
  have startBoundary := keeps.startBoundary
  have stopBoundary := keeps.stopBoundary
  refine ⟨_, rfl, ?_⟩
  dsimp only
  rw [keeps.start, keeps.stop]
  refine ⟨?_, ?_, ?_, ?_⟩
  · intro allowBeyond offset found
    rw [Position.eq_of_toOffset_ofOffset wellFormed short startBoundary found]
    exact keeps.start_isInsideLineEnd_iff wellFormed formattedWellFormed
  · intro allowBeyond offset found
    rw [Position.eq_of_toOffset_ofOffset wellFormed short stopBoundary found]
    exact ⟨keeps.lastDiffer_of_stop, keeps.stop_of_lastDiffer⟩
  · intro shorter allowBeyond
    exact ⟨⟨_, Position.toOffset_ofOffset_of_isBoundary wellFormed shorter startBoundary
        allowBeyond⟩,
      _, Position.toOffset_ofOffset_of_isBoundary wellFormed shorter stopBoundary allowBeyond⟩
  · exact keeps.not_differ wellFormed formattedWellFormed

/-- Taking out the second of two carriage returns stops in front of the line feed. -/
theorem between_isInsideLineEnd_iff_differ_second_return :
    Utf8.isWellFormed [0x61, 0x0D, 0x0D, 0x0A] = true ∧
      Utf8.isWellFormed [0x61, 0x0D, 0x0A] = true ∧
      ([0x61, 0x0D, 0x0D, 0x0A] : Bytes).length < Nat.pow 2 32 ∧
      ∃ edit, (between [0x61, 0x0D, 0x0D, 0x0A] [0x61, 0x0D, 0x0A]).value = [edit] ∧
        (Position.toOffset [0x61, 0x0D, 0x0D, 0x0A] edit.range.stop true).value = .ok 3 ∧
        IsInsideLineEnd [0x61, 0x0D, 0x0D, 0x0A] 3 := by
  have wellFormed : Utf8.isWellFormed [0x61, 0x0D, 0x0D, 0x0A] = true := by decide
  have formattedWellFormed : Utf8.isWellFormed [0x61, 0x0D, 0x0A] = true := by decide
  have short : ([0x61, 0x0D, 0x0D, 0x0A] : Bytes).length < Nat.pow 2 32 := by decide
  obtain ⟨edit, isEdit, _, stop, _⟩ :=
    between_isInsideLineEnd_iff_differ wellFormed formattedWellFormed short
  obtain rfl : (⟨⟨⟨0, 2⟩, ⟨0, 3⟩⟩, []⟩ : TextEdit) = edit :=
    (List.cons.inj ((show _ = [_] by decide).symm.trans isEdit)).1
  refine ⟨wellFormed, formattedWellFormed, short, _, isEdit, by decide, ?_⟩
  rw [stop true 3 (by decide)]
  exact ⟨[0x61, 0x0D], [0x61, 0x0D], [], rfl, rfl, by decide, by decide, .inr (.inr (by decide))⟩

/-- Putting a line feed in the place of a carriage return and a line feed takes out the carriage
return alone, so the edit stops inside the line end. -/
theorem exists_stop_inside_lineEnd :
    Utf8.isWellFormed [0x61, 0x0D, 0x0A, 0x62] = true ∧
      Utf8.isWellFormed [0x61, 0x0A, 0x62] = true ∧
      ([0x61, 0x0D, 0x0A, 0x62] : Bytes) ≠ [0x61, 0x0A, 0x62] ∧
      ∃ edit, (between [0x61, 0x0D, 0x0A, 0x62] [0x61, 0x0A, 0x62]).value = [edit] ∧
        (∀ allowBeyond,
          (Position.toOffset [0x61, 0x0D, 0x0A, 0x62] edit.range.stop allowBeyond).value = .ok 2) ∧
        IsInsideLineEnd [0x61, 0x0D, 0x0A, 0x62] 2 :=
  ⟨by decide, by decide, by decide, ⟨⟨⟨0, 1⟩, ⟨0, 2⟩⟩, []⟩, by decide, by decide,
    [0x61], [0x62], rfl, rfl⟩

end TextEdit

end FormatServer
