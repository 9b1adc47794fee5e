import FormatServer.Proofs.Text.Positions
import FormatServer.Text.Edit

namespace FormatServer

theorem commonStart_prefix_left (left right : List Bytes) : commonStart left right <+: left := by
  fun_induction commonStart left right with
  | case1 left first right ih => exact (List.prefix_cons_inj first).mpr ih
  | case2 => exact List.nil_prefix
  | case3 => exact List.nil_prefix

theorem commonStart_prefix_right (left right : List Bytes) : commonStart left right <+: right := by
  fun_induction commonStart left right with
  | case1 left first right ih => exact (List.prefix_cons_inj first).mpr ih
  | case2 => exact List.nil_prefix
  | case3 => exact List.nil_prefix

theorem commonEnd_suffix_left (left right : List Bytes) : commonEnd left right <:+ left := by
  rw [commonEnd, ← List.reverse_prefix, List.reverse_reverse]
  exact commonStart_prefix_left _ _

theorem commonEnd_suffix_right (left right : List Bytes) : commonEnd left right <:+ right := by
  rw [commonEnd, ← List.reverse_prefix, List.reverse_reverse]
  exact commonStart_prefix_right _ _

/-- What both lists begin with is among what they are found to begin with. -/
theorem prefix_commonStart {front left right : List Bytes} (inLeft : front <+: left)
    (inRight : front <+: right) : front <+: commonStart left right := by
  induction front generalizing left right with
  | nil => exact List.nil_prefix
  | cons cluster front ih =>
      obtain ⟨left, rfl⟩ := inLeft
      obtain ⟨right, rfl⟩ := inRight
      simp only [List.cons_append, commonStart, if_pos]
      exact (List.prefix_cons_inj cluster).mpr
        (ih (List.prefix_append front left) (List.prefix_append front right))

/-- What both lists end with is among what they are found to end with. -/
theorem suffix_commonEnd {back left right : List Bytes} (inLeft : back <:+ left)
    (inRight : back <:+ right) : back <:+ commonEnd left right := by
  rw [commonEnd, ← List.reverse_prefix, List.reverse_reverse]
  exact prefix_commonStart (List.reverse_prefix.mpr inLeft) (List.reverse_prefix.mpr inRight)

namespace ByteEdit

/-- The clusters of both texts agree outside the edit, which replaces the clusters of the source
between them by those of the formatted text. All common first clusters are kept, and of what follows
them all common last clusters. -/
theorem exists_parts (source formatted : Bytes) :
    ∃ kept removed added tail : List Bytes,
      clusters source = kept ++ removed ++ tail ∧ clusters formatted = kept ++ added ++ tail ∧
      between source formatted =
        { start := .ofNat kept.flatten.length
          stop := .ofNat (kept ++ removed).flatten.length
          replacement := added.flatten } ∧
      (∀ front, front <+: clusters source → front <+: clusters formatted → front <+: kept) ∧
      ∀ back, back <:+ removed ++ tail → back <:+ added ++ tail → back <:+ tail := by
  let kept := commonStart (clusters source) (clusters formatted)
  let tail := commonEnd ((clusters source).drop kept.length) ((clusters formatted).drop kept.length)
  obtain ⟨sourceRest, sourceParts⟩ : kept <+: clusters source := commonStart_prefix_left _ _
  obtain ⟨formattedRest, formattedParts⟩ : kept <+: clusters formatted :=
    commonStart_prefix_right _ _
  have sourceDrop : (clusters source).drop kept.length = sourceRest := by
    rw [← sourceParts, List.drop_left]
  have formattedDrop : (clusters formatted).drop kept.length = formattedRest := by
    rw [← formattedParts, List.drop_left]
  obtain ⟨removed, removedParts⟩ : tail <:+ (clusters source).drop kept.length :=
    commonEnd_suffix_left _ _
  obtain ⟨added, addedParts⟩ : tail <:+ (clusters formatted).drop kept.length :=
    commonEnd_suffix_right _ _
  have longest (back : List Bytes) (inSource : back <:+ removed ++ tail)
      (inFormatted : back <:+ added ++ tail) : back <:+ tail := by
    rw [removedParts] at inSource
    rw [addedParts] at inFormatted
    exact suffix_commonEnd inSource inFormatted
  rw [sourceDrop] at removedParts
  rw [formattedDrop] at addedParts
  rw [← removedParts, ← List.append_assoc] at sourceParts
  rw [← addedParts, ← List.append_assoc] at formattedParts
  have sourceText : source = (kept ++ removed).flatten ++ tail.flatten := by
    rw [← List.flatten_append, sourceParts, flatten_clusters]
  have formattedText : formatted = kept.flatten ++ added.flatten ++ tail.flatten := by
    rw [← List.flatten_append, ← List.flatten_append, formattedParts, flatten_clusters]
  refine ⟨kept, removed, added, tail, sourceParts.symm, formattedParts.symm, ?_,
    fun front => prefix_commonStart, longest⟩
  have stop : source.length - tail.flatten.length = (kept ++ removed).flatten.length := by
    rw [sourceText, List.length_append]
    omega
  have replacement : (formatted.take (formatted.length - tail.flatten.length)).drop
      kept.flatten.length = added.flatten := by
    have size : formatted.length - tail.flatten.length =
        (kept.flatten ++ added.flatten).length := by
      rw [formattedText, List.length_append]
      omega
    rw [size, formattedText, List.take_left, List.drop_left]
  rw [← stop, ← replacement]
  rfl

end ByteEdit

theorem clusters_ne_nil (byte : UInt8) (rest : Bytes) : clusters (byte :: rest) ≠ [] := by
  intro empty
  have flat := flatten_clusters (byte :: rest)
  rw [empty] at flat
  contradiction

/-- A byte joins the cluster after it exactly when that one starts with a continuation byte. -/
theorem clusters_cons_cons (byte next : UInt8) (rest : Bytes) :
    ∃ cluster others, clusters (next :: rest) = cluster :: others ∧
      clusters (byte :: next :: rest) =
        if Utf8.isContinuationByte next then (byte :: cluster) :: others
        else [byte] :: cluster :: others := by
  obtain ⟨cluster, others, equal⟩ := List.exists_cons_of_ne_nil (clusters_ne_nil next rest)
  refine ⟨cluster, others, equal, ?_⟩
  conv_lhs => unfold clusters
  rw [equal]

/-- A byte and the continuation bytes after it are one cluster. -/
theorem clusters_append (first : UInt8) {rest text : Bytes}
    (continued : ∀ byte ∈ rest, Utf8.isContinuationByte byte = true)
    (ends : ∀ byte ∈ text.head?, Utf8.isContinuationByte byte = false) :
    clusters (first :: rest ++ text) = (first :: rest) :: clusters text := by
  induction rest generalizing first with
  | nil =>
      cases text with
      | nil => rfl
      | cons next text =>
          have boundary := ends next rfl
          obtain ⟨cluster, others, equal, joined⟩ := clusters_cons_cons first next text
          rw [List.cons_append, List.nil_append, joined, boundary, equal]
          rfl
  | cons second rest ih =>
      have others := fun byte member => continued byte (List.mem_cons_of_mem second member)
      obtain ⟨cluster, rest', equal, joined⟩ := clusters_cons_cons first second (rest ++ text)
      have tail := ih second others
      rw [List.cons_append, equal, List.cons.injEq] at tail
      rw [List.cons_append, List.cons_append, joined, continued second List.mem_cons_self, if_pos rfl,
        tail.1, tail.2]

/-- No sequence of a character starts with a continuation byte. -/
theorem head?_encodeAll (characters : List Char) :
    ∀ byte ∈ (Utf8.encodeAll characters).head?, Utf8.isContinuationByte byte = false := by
  intro byte member
  cases characters with
  | nil => contradiction
  | cons character characters =>
      obtain ⟨first, rest, equal, boundary, _⟩ := Utf8.utf8EncodeChar_shape character
      rw [Utf8.encodeAll_cons, equal, List.cons_append, List.head?_cons, Option.mem_some] at member
      exact member ▸ boundary

/-- The clusters of a text of characters are their sequences. -/
theorem clusters_encodeAll (characters : List Char) :
    clusters (Utf8.encodeAll characters) = characters.map String.utf8EncodeChar := by
  induction characters with
  | nil => rfl
  | cons character characters ih =>
      obtain ⟨first, rest, equal, _, _, continued⟩ := Utf8.utf8EncodeChar_shape character
      rw [Utf8.encodeAll_cons, equal, clusters_append first continued (head?_encodeAll characters),
        ih, List.map_cons, equal]

namespace TextEdit

/-- Whether an edit turns a text into another: its range leads back to a range of bytes of the text,
and replacing those bytes by the new text gives the other one. -/
def Turns (edit : TextEdit) (source formatted : Bytes) : Prop :=
  ∃ start stop,
    (∀ allowBeyond, (Position.toOffset source edit.range.start allowBeyond).value = .ok start) ∧
    (∀ allowBeyond, (Position.toOffset source edit.range.stop allowBeyond).value = .ok stop) ∧
    start ≤ stop ∧ stop ≤ source.length ∧
    source.take start ++ edit.newText ++ source.drop stop = formatted

/-- The places of a split between characters lead back to the split. -/
theorem toOffset_ofOffset (before after : List Char)
    (short : (Utf8.encodeAll (before ++ after)).length < Nat.pow 2 31) (allowBeyond : Bool) :
    (Position.toOffset (Utf8.encodeAll (before ++ after))
      (Position.ofOffset (Utf8.encodeAll (before ++ after))
        (UInt32.ofNat (Utf8.encodeAll before).length).toNat).value allowBeyond).value =
      .ok (Utf8.encodeAll before).length := by
  have shortFront := Nat.lt_of_le_of_lt (Utf8.length_encodeAll_le before after) short
  rw [UInt32.toNat_ofNat_of_lt' (Nat.lt_trans shortFront (by decide))]
  exact Position.value_toOffset (Position.isAfter_ofOffset before after shortFront) after allowBeyond

/-- The edit from a well-formed text to another text turns the one into the other. -/
theorem turns_between {source : Bytes} (formatted : Bytes)
    (wellFormed : Utf8.isWellFormed source = true) (short : source.length < Nat.pow 2 31) :
    ∃ edit, (between source formatted).value = [edit] ∧ edit.Turns source formatted := by
  obtain ⟨characters, rfl⟩ := Utf8.exists_characters wellFormed
  obtain ⟨kept, removed, added, tail, sourceParts, formattedParts, edit, _⟩ :=
    ByteEdit.exists_parts (Utf8.encodeAll characters) formatted
  rw [clusters_encodeAll] at sourceParts
  obtain ⟨front, after, rfl, frontEqual, rfl⟩ := List.map_eq_append_iff.mp sourceParts
  obtain ⟨before, middle, rfl, rfl, rfl⟩ := List.map_eq_append_iff.mp frontEqual
  have formattedText := flatten_clusters formatted
  rw [formattedParts, List.flatten_append, List.flatten_append] at formattedText
  have start : (before.map String.utf8EncodeChar).flatten = Utf8.encodeAll before := rfl
  have stop : (before.map String.utf8EncodeChar ++ middle.map String.utf8EncodeChar).flatten =
      Utf8.encodeAll (before ++ middle) := by
    rw [← List.map_append]
    rfl
  have rest : (after.map String.utf8EncodeChar).flatten = Utf8.encodeAll after := rfl
  rw [start, stop] at edit
  rw [start, rest] at formattedText
  refine ⟨_, rfl, (Utf8.encodeAll before).length, (Utf8.encodeAll (before ++ middle)).length,
    ?_, ?_, ?_, ?_, ?_⟩
  · intro allowBeyond
    have back := toOffset_ofOffset before (middle ++ after) (by rwa [← List.append_assoc])
      allowBeyond
    rw [← List.append_assoc] at back
    simpa only [edit] using back
  · intro allowBeyond
    simpa only [edit] using toOffset_ofOffset (before ++ middle) after short allowBeyond
  · exact Utf8.length_encodeAll_le before middle
  · exact Utf8.length_encodeAll_le (before ++ middle) after
  · have front := Utf8.take_encodeAll before (middle ++ after)
    rw [← List.append_assoc] at front
    rw [front, Utf8.drop_encodeAll, edit, formattedText]

end TextEdit

end FormatServer
