import FormatServer.Proofs.Text.Edits

namespace FormatServer

section Boundaries

theorem IsBoundary.le_length {text : Bytes} {offset : Nat} (boundary : IsBoundary text offset) :
    offset ≤ text.length := by
  rcases boundary with rfl | rfl | ⟨byte, found, _⟩
  · exact Nat.zero_le _
  · exact Nat.le_refl _
  · exact Nat.le_of_lt (List.getElem?_eq_some_iff.mp found).1

/-- Texts that agree from two places on have the same boundaries behind these places. -/
theorem IsBoundary.of_drop_eq {text other : Bytes} {place otherPlace distance : Nat}
    (boundary : IsBoundary text (place + distance)) (behind : 0 < place + distance)
    (within : place ≤ text.length) (otherWithin : otherPlace ≤ other.length)
    (same : text.drop place = other.drop otherPlace) :
    IsBoundary other (otherPlace + distance) := by
  have lengths := congrArg List.length same
  simp only [List.length_drop] at lengths
  rcases boundary with first | last | ⟨byte, found, starts⟩
  · omega
  · exact Or.inr (Or.inl (by omega))
  · refine Or.inr (Or.inr ⟨byte, ?_, starts⟩)
    rw [← List.getElem?_drop, ← same, List.getElem?_drop, found]

/-- A text is cut into the clusters of its halves where the second half starts a code point. -/
theorem clusters_append_of_head (front : Bytes) {back : Bytes}
    (starts : ∀ byte ∈ back.head?, Utf8.isContinuationByte byte = false) :
    clusters (front ++ back) = clusters front ++ clusters back := by
  induction front with
  | nil => rfl
  | cons byte front ih =>
      cases front with
      | nil =>
          exact clusters_append byte (List.forall_mem_nil _) starts
      | cons next front =>
          obtain ⟨cluster, others, equal, joined⟩ := clusters_cons_cons byte next front
          obtain ⟨longer, more, longerEqual, longerJoined⟩ :=
            clusters_cons_cons byte next (front ++ back)
          rw [List.cons_append, longerEqual, equal, List.cons_append, List.cons.injEq] at ih
          obtain ⟨rfl, rfl⟩ := ih
          rw [List.cons_append, List.cons_append, longerJoined, joined]
          split <;> rfl

/-- At a boundary a text is cut between clusters. -/
theorem IsBoundary.clusters_eq {text : Bytes} {offset : Nat} (boundary : IsBoundary text offset) :
    clusters text = clusters (text.take offset) ++ clusters (text.drop offset) := by
  rcases boundary with rfl | rfl | ⟨byte, found, starts⟩
  · rfl
  · rw [List.take_length, List.drop_length]
    exact (List.append_nil _).symm
  · have head : ∀ other ∈ (text.drop offset).head?, Utf8.isContinuationByte other = false := by
      intro other isHead
      rw [List.head?_drop, found] at isHead
      exact Option.some.inj isHead ▸ starts
    rw [← clusters_append_of_head _ head, List.take_append_drop]

/-- What stands behind the first cluster of a text is cut as in the text, and it starts a code
point. -/
theorem clusters_behind_first {text cluster : Bytes} {others : List Bytes}
    (cut : clusters text = cluster :: others) :
    clusters others.flatten = others ∧
      ∀ byte ∈ others.flatten.head?, Utf8.isContinuationByte byte = false := by
  induction text generalizing cluster others with
  | nil => exact nomatch cut
  | cons byte rest ih =>
      cases rest with
      | nil =>
          cases cut
          exact ⟨rfl, fun _ none => nomatch none⟩
      | cons next rest =>
          obtain ⟨first, more, equal, joined⟩ := clusters_cons_cons byte next rest
          rw [joined] at cut
          split at cut
          · cases cut
            exact ih equal
          · next starts =>
            cases cut
            rw [← equal, flatten_clusters]
            refine ⟨rfl, fun head isHead => ?_⟩
            cases isHead
            simpa using starts

/-- What stands behind some clusters of a text is cut as in the text, and it starts a code point. -/
theorem clusters_behind {text : Bytes} {cluster : Bytes} {front back : List Bytes}
    (cut : clusters text = cluster :: front ++ back) :
    clusters back.flatten = back ∧
      ∀ byte ∈ back.flatten.head?, Utf8.isContinuationByte byte = false := by
  induction front generalizing text cluster with
  | nil => exact clusters_behind_first cut
  | cons next front ih => exact ih (clusters_behind_first cut).1

/-- Wherever the clusters of a text are parted, there is a boundary, and the second part is cut as in
the text. -/
theorem boundary_of_clusters_eq {text : Bytes} {front back : List Bytes}
    (cut : clusters text = front ++ back) :
    IsBoundary text front.flatten.length ∧ clusters (text.drop front.flatten.length) = back := by
  have parts : text = front.flatten ++ back.flatten := by
    rw [← List.flatten_append, ← cut, flatten_clusters]
  cases front with
  | nil => exact ⟨Or.inl rfl, cut⟩
  | cons cluster front =>
      obtain ⟨sameCut, starts⟩ := clusters_behind cut
      rw [parts, List.drop_left]
      refine ⟨Or.inr ?_, sameCut⟩
      cases behind : back.flatten with
      | nil => exact Or.inl (by rw [List.append_nil])
      | cons byte rest =>
          rw [behind] at starts
          exact Or.inr ⟨byte, by simp, starts byte rfl⟩

/-- Behind a place the boundaries of a text are those of the rest. -/
theorem IsBoundary.drop {text : Bytes} {place distance : Nat}
    (boundary : IsBoundary text (place + distance)) : IsBoundary (text.drop place) distance := by
  by_cases behind : 0 < place + distance
  · have within : place ≤ text.length := Nat.le_trans (Nat.le_add_right _ _) boundary.le_length
    have moved := boundary.of_drop_eq behind within (Nat.zero_le (text.drop place).length) rfl
    rwa [Nat.zero_add] at moved
  · exact Or.inl (by omega)

/-- Behind a boundary a text has the last clusters of what it has behind an earlier one. -/
theorem IsBoundary.clusters_drop_suffix {text : Bytes} {front back : List Bytes} {offset : Nat}
    (boundary : IsBoundary text offset) (cut : clusters text = front ++ back)
    (behind : front.flatten.length ≤ offset) : clusters (text.drop offset) <:+ back := by
  obtain ⟨distance, rfl⟩ := Nat.exists_eq_add_of_le behind
  rw [← (boundary_of_clusters_eq cut).2, boundary.drop.clusters_eq, List.drop_drop]
  exact List.suffix_append _ _

end Boundaries

/-- Whether putting `added` in the place of the bytes from `start` to before `stop` of `source` gives
`formatted`, where both ends are boundaries of both texts. -/
structure Replaces (source formatted : Bytes) (start stop : Nat) (added : Bytes) : Prop where
  ordered : start ≤ stop
  inside : stop ≤ source.length
  result : source.take start ++ added ++ source.drop stop = formatted
  startOfSource : IsBoundary source start
  stopOfSource : IsBoundary source stop
  startOfFormatted : IsBoundary formatted start
  stopOfFormatted : IsBoundary formatted (start + added.length)

namespace Replaces

variable {source formatted added : Bytes} {start stop : Nat}

theorem length_take (replaces : Replaces source formatted start stop added) :
    (source.take start).length = start := by
  have ordered := replaces.ordered
  have inside := replaces.inside
  rw [List.length_take]
  omega

/-- Both texts begin with what stands in front of the replaced bytes. -/
theorem take_eq (replaces : Replaces source formatted start stop added) :
    formatted.take start = source.take start := by
  rw [← replaces.result, List.append_assoc]
  exact List.take_left' replaces.length_take

/-- Both texts end with what stands behind the replaced bytes. -/
theorem drop_eq (replaces : Replaces source formatted start stop added) :
    formatted.drop (start + added.length) = source.drop stop := by
  rw [← replaces.result]
  exact List.drop_left' (by rw [List.length_append, replaces.length_take])

/-- Clusters in front of every replacement are common to both texts. -/
theorem start_le (replaces : Replaces source formatted start stop added) {kept : List Bytes}
    (longest : ∀ front, front <+: clusters source → front <+: clusters formatted → front <+: kept) :
    start ≤ kept.flatten.length := by
  have inSource : clusters (source.take start) <+: clusters source := by
    rw [replaces.startOfSource.clusters_eq]
    exact List.prefix_append _ _
  have inFormatted : clusters (source.take start) <+: clusters formatted := by
    rw [replaces.startOfFormatted.clusters_eq, replaces.take_eq]
    exact List.prefix_append _ _
  obtain ⟨more, rfl⟩ := longest _ inSource inFormatted
  rw [List.flatten_append, flatten_clusters, List.length_append, replaces.length_take]
  exact Nat.le_add_right _ _

/-- Nothing that both texts end with behind the common first clusters is longer than the common last
clusters of what stands there. -/
theorem length_le_of_drop_eq {kept removed inserted tail : List Bytes} {offset otherOffset : Nat}
    (sourceParts : clusters source = kept ++ (removed ++ tail))
    (formattedParts : clusters formatted = kept ++ (inserted ++ tail))
    (longest : ∀ back, back <:+ removed ++ tail → back <:+ inserted ++ tail → back <:+ tail)
    (boundary : IsBoundary source offset) (behind : kept.flatten.length ≤ offset)
    (otherBoundary : IsBoundary formatted otherOffset) (otherBehind : kept.flatten.length ≤ otherOffset)
    (same : formatted.drop otherOffset = source.drop offset) :
    source.length ≤ offset + tail.flatten.length := by
  have inSource := boundary.clusters_drop_suffix sourceParts behind
  have inFormatted := otherBoundary.clusters_drop_suffix formattedParts otherBehind
  rw [same] at inFormatted
  obtain ⟨more, parts⟩ := longest _ inSource inFormatted
  have lengths := congrArg (fun list => list.flatten.length) parts
  simp only [List.flatten_append, flatten_clusters, List.length_append, List.length_drop] at lengths
  omega

/-- A replacement may be taken to stop no earlier than at a common boundary of both texts: what follows
it is cut off at that boundary in the text in which it stops first, and as far in the other one. -/
theorem exists_stop_behind (replaces : Replaces source formatted start stop added) {place : Nat}
    (boundary : IsBoundary source place) (otherBoundary : IsBoundary formatted place) :
    ∃ distance, place ≤ stop + distance ∧ place ≤ start + added.length + distance ∧
      distance ≤ place - min stop (start + added.length) ∧
      IsBoundary source (stop + distance) ∧
      IsBoundary formatted (start + added.length + distance) := by
  have inside := replaces.inside
  have otherInside := replaces.stopOfFormatted.le_length
  have same := replaces.drop_eq
  refine ⟨place - min stop (start + added.length), by omega, by omega, Nat.le_refl _, ?_⟩
  rcases Nat.lt_or_ge (min stop (start + added.length)) place with behind | before
  · rcases Nat.le_total stop (start + added.length) with first | first
    · have reached : stop + (place - min stop (start + added.length)) = place := by omega
      rw [← reached] at boundary
      exact ⟨boundary, boundary.of_drop_eq (by omega) inside otherInside same.symm⟩
    · have reached : start + added.length + (place - min stop (start + added.length)) = place := by
        omega
      rw [← reached] at otherBoundary
      exact ⟨otherBoundary.of_drop_eq (by omega) otherInside inside same, otherBoundary⟩
  · rw [Nat.sub_eq_zero_of_le before]
    exact ⟨replaces.stopOfSource, replaces.stopOfFormatted⟩

/-- Clusters between common first and last clusters replace each other. -/
theorem of_clusters_eq {kept removed inserted tail : List Bytes}
    (sourceParts : clusters source = kept ++ removed ++ tail)
    (formattedParts : clusters formatted = kept ++ inserted ++ tail) :
    Replaces source formatted kept.flatten.length (kept ++ removed).flatten.length
      inserted.flatten := by
  have sourceText : source = kept.flatten ++ removed.flatten ++ tail.flatten := by
    rw [← List.flatten_append, ← List.flatten_append, ← sourceParts, flatten_clusters]
  have formattedText : formatted = kept.flatten ++ inserted.flatten ++ tail.flatten := by
    rw [← List.flatten_append, ← List.flatten_append, ← formattedParts, flatten_clusters]
  have stopOfSource := (boundary_of_clusters_eq sourceParts).1
  have stopOfFormatted := (boundary_of_clusters_eq formattedParts).1
  rw [List.append_assoc] at sourceParts formattedParts
  refine
    { ordered := ?_
      inside := stopOfSource.le_length
      result := ?_
      startOfSource := (boundary_of_clusters_eq sourceParts).1
      stopOfSource := stopOfSource
      startOfFormatted := (boundary_of_clusters_eq formattedParts).1
      stopOfFormatted := ?_ }
  · rw [List.flatten_append, List.length_append]
    exact Nat.le_add_right _ _
  · have front : source.take kept.flatten.length = kept.flatten := by
      rw [sourceText, List.append_assoc, List.take_left]
    have back : source.drop (kept ++ removed).flatten.length = tail.flatten := by
      rw [sourceText, List.flatten_append, List.drop_left]
    rw [front, back, formattedText]
  · rwa [List.flatten_append, List.length_append] at stopOfFormatted

/-- Clusters between all common first and all common last clusters are no more bytes than any
replacement takes out and puts in. -/
theorem length_le_of_clusters_eq (replaces : Replaces source formatted start stop added)
    {kept removed inserted tail : List Bytes}
    (sourceParts : clusters source = kept ++ removed ++ tail)
    (formattedParts : clusters formatted = kept ++ inserted ++ tail)
    (longestStart : ∀ front,
      front <+: clusters source → front <+: clusters formatted → front <+: kept)
    (longestEnd : ∀ back, back <:+ removed ++ tail → back <:+ inserted ++ tail → back <:+ tail) :
    removed.flatten.length ≤ stop - start ∧ inserted.flatten.length ≤ added.length := by
  have sourceLength := congrArg (fun list => list.flatten.length) sourceParts
  have formattedLength := congrArg (fun list => list.flatten.length) formattedParts
  simp only [flatten_clusters, List.flatten_append, List.length_append]
    at sourceLength formattedLength
  rw [List.append_assoc] at sourceParts formattedParts
  obtain ⟨distance, behind, otherBehind, near, boundary, otherBoundary⟩ :=
    replaces.exists_stop_behind (boundary_of_clusters_eq sourceParts).1
      (boundary_of_clusters_eq formattedParts).1
  have same : formatted.drop (start + added.length + distance) = source.drop (stop + distance) := by
    rw [← List.drop_drop, replaces.drop_eq, List.drop_drop]
  have startLe := replaces.start_le longestStart
  have longest := length_le_of_drop_eq sourceParts formattedParts longestEnd boundary behind
    otherBoundary otherBehind same
  have lengths := congrArg List.length replaces.result
  simp only [List.length_append, replaces.length_take, List.length_drop] at lengths
  have ordered := replaces.ordered
  have inside := replaces.inside
  omega

end Replaces

/-- The edit between two texts replaces bytes between boundaries of both, and every other such
replacement takes out at least as many bytes and puts in at least as many. -/
theorem ByteEdit.between_is_smallest_replacement (source formatted : Bytes)
    (short : source.length < Nat.pow 2 32) :
    let edit := between source formatted
    Replaces source formatted edit.start.toNat edit.stop.toNat edit.replacement ∧
      ∀ start stop added, Replaces source formatted start stop added →
        edit.stop.toNat - edit.start.toNat ≤ stop - start ∧
          edit.replacement.length ≤ added.length := by
  obtain ⟨kept, removed, inserted, tail, sourceParts, formattedParts, isEdit, longestStart,
    longestEnd⟩ := exists_parts source formatted
  have least := Replaces.of_clusters_eq sourceParts formattedParts
  have start : (between source formatted).start.toNat = kept.flatten.length := by
    rw [isEdit, UInt32.toNat_ofNat_of_lt' (Nat.lt_of_le_of_lt least.startOfSource.le_length short)]
  have stop : (between source formatted).stop.toNat = (kept ++ removed).flatten.length := by
    rw [isEdit, UInt32.toNat_ofNat_of_lt' (Nat.lt_of_le_of_lt least.inside short)]
  have replacement : (between source formatted).replacement = inserted.flatten := by
    rw [isEdit]
  dsimp only
  rw [start, stop, replacement]
  refine ⟨least, fun start stop added replaces => ?_⟩
  rw [List.flatten_append, List.length_append, Nat.add_sub_cancel_left]
  exact replaces.length_le_of_clusters_eq sourceParts formattedParts longestStart longestEnd

/-- Between texts that repeat a malformed sequence the edit puts in one more of them, and no
replacement puts in less. -/
theorem ByteEdit.between_is_smallest_replacement_repeated :
    ([0x80, 0x61, 0x80] : Bytes).length < Nat.pow 2 32 ∧
      between [0x80, 0x61, 0x80] [0x80, 0x61, 0x80, 0x61, 0x80] = ⟨3, 3, [0x61, 0x80]⟩ ∧
      Replaces [0x80, 0x61, 0x80] [0x80, 0x61, 0x80, 0x61, 0x80] 3 3 [0x61, 0x80] ∧
      ∀ start stop added,
        Replaces [0x80, 0x61, 0x80] [0x80, 0x61, 0x80, 0x61, 0x80] start stop added →
          2 ≤ added.length := by
  have short : ([0x80, 0x61, 0x80] : Bytes).length < Nat.pow 2 32 := by decide
  have edit : between [0x80, 0x61, 0x80] [0x80, 0x61, 0x80, 0x61, 0x80] = ⟨3, 3, [0x61, 0x80]⟩ := by
    decide
  obtain ⟨replaces, smallest⟩ :=
    between_is_smallest_replacement [0x80, 0x61, 0x80] [0x80, 0x61, 0x80, 0x61, 0x80] short
  rw [edit] at replaces smallest
  exact ⟨short, edit, replaces, fun start stop added other => (smallest start stop added other).2⟩

end FormatServer
