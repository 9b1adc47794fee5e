import FormatServer.Proofs.Text.Positions
import Mathlib

namespace FormatServer

/-- A part of a text that is read from left to right: a character, where its sequence stands, or a
byte at which no character starts. -/
inductive TextPart where
  | decoded (character : Char)
  | stray (byte : UInt8)
  deriving DecidableEq

namespace TextPart

/-- The bytes of a part. -/
def bytes : TextPart → Bytes
  | decoded character => String.utf8EncodeChar character
  | stray byte => [byte]

/-- The columns of a part: the UTF-16 units of a character, one for any other byte. -/
def columns : TextPart → Nat
  | decoded character => (Utf16.encode character).length
  | stray _ => 1

/-- Whether a part announces a sequence that does not stand there. -/
def IsBroken : TextPart → Prop
  | decoded _ => False
  | stray byte => Utf8.announcedLength? byte ≠ none

/-- The parts of a text: characters as long as there are any, and single bytes elsewhere. -/
inductive Reads : Bytes → List TextPart → Prop where
  | nil : Reads [] []
  | decoded {rest : Bytes} {parts : List TextPart} (character : Char)
      (others : Reads rest parts) :
      Reads (String.utf8EncodeChar character ++ rest) (.decoded character :: parts)
  | stray {byte : UInt8} {rest : Bytes} {parts : List TextPart}
      (none : ∀ character, ¬String.utf8EncodeChar character <+: byte :: rest)
      (others : Reads rest parts) : Reads (byte :: rest) (.stray byte :: parts)

/-- The parts of a text hold its bytes. -/
theorem Reads.flatMap_bytes {text : Bytes} {parts : List TextPart} (reads : Reads text parts) :
    parts.flatMap bytes = text := by
  induction reads with
  | nil => rfl
  | decoded character others ih => exact congrArg (String.utf8EncodeChar character ++ ·) ih
  | stray none others ih => exact congrArg (_ :: ·) ih

/-- Every text has parts. -/
theorem exists_reads (text : Bytes) : ∃ parts, Reads text parts := by
  induction size : text.length using Nat.strongRecOn generalizing text with
  | ind size ih =>
      cases text with
      | nil => exact ⟨[], .nil⟩
      | cons byte rest =>
          by_cases starts : ∃ character, String.utf8EncodeChar character <+: byte :: rest
          · obtain ⟨character, behind, equal⟩ := starts
            rw [← equal, List.length_append, String.length_utf8EncodeChar] at size
            have positive := Char.utf8Size_pos character
            obtain ⟨parts, reads⟩ := ih behind.length (by omega) behind rfl
            exact ⟨_, equal ▸ Reads.decoded character reads⟩
          · obtain ⟨parts, reads⟩ := ih rest.length (by rw [← size]; exact Nat.lt_succ_self _) rest rfl
            exact ⟨_, .stray (not_exists.mp starts) reads⟩

/-- A text starts with the sequence of one character at most. -/
theorem utf8EncodeChar_append_inj {first second : Char} {rest other : Bytes}
    (equal : String.utf8EncodeChar first ++ rest = String.utf8EncodeChar second ++ other) :
    first = second ∧ rest = other := by
  have decoded := congrArg (fun text => text.toByteArray.utf8DecodeChar? 0) equal
  simp only [List.toByteArray_append, ByteArray.utf8DecodeChar?_utf8EncodeChar_append,
    Option.some.injEq] at decoded
  exact ⟨decoded, List.append_cancel_left (decoded ▸ equal)⟩

/-- A text has no other parts. -/
theorem Reads.unique {text : Bytes} {parts others : List TextPart} (reads : Reads text parts)
    (other : Reads text others) : parts = others := by
  induction reads generalizing others with
  | nil =>
      generalize empty : ([] : Bytes) = text at other
      cases other with
      | nil => rfl
      | decoded character _ => simp at empty
      | stray => simp at empty
  | @decoded rest parts character _ ih =>
      generalize equal : String.utf8EncodeChar character ++ rest = text at other
      cases other with
      | nil => simp at equal
      | decoded second behind =>
          obtain ⟨rfl, rfl⟩ := utf8EncodeChar_append_inj equal
          rw [ih behind]
      | stray none _ => exact absurd ⟨rest, equal⟩ (none character)
  | @stray byte rest parts none _ ih =>
      generalize equal : byte :: rest = text at other
      cases other with
      | nil => simp at equal
      | decoded second behind => exact absurd ⟨_, equal.symm⟩ (none second)
      | stray _ behind =>
          obtain ⟨rfl, rfl⟩ := List.cons.inj equal
          rw [ih behind]

end TextPart

namespace CodeStep

@[simp] theorem totalUnits_append (front back : List CodeStep) :
    totalUnits (front ++ back) = totalUnits front + totalUnits back := by
  induction front with
  | nil => simp [totalUnits]
  | cons step front ih => simp [totalUnits, ih, Nat.add_assoc]

/-- Bytes that are passed do not matter to the steps behind them. -/
theorem walkAfter_eq_drop (pending : Nat) (text : Bytes) :
    walkAfter pending text = walk (text.drop pending) := by
  induction pending generalizing text with
  | zero => rfl
  | succ pending ih =>
      cases text with
      | nil => rfl
      | cons byte rest => exact ih rest

/-- The first step of a text is the one that its first byte announces, and the others are those of
the bytes behind it. -/
theorem walk_cons (first : UInt8) (rest : Bytes) :
    walk (first :: rest) = ofFirst first :: walk (rest.drop ((ofFirst first).bytes - 1)) :=
  congrArg _ (walkAfter_eq_drop _ rest)

/-- A part that is not broken is one step, worth its columns. -/
theorem walk_bytes_append {part : TextPart} (whole : ¬part.IsBroken) (rest : Bytes) :
    ∃ step, step.units = part.columns ∧ walk (part.bytes ++ rest) = step :: walk rest := by
  cases part with
  | decoded character => exact ⟨_, rfl, walk_utf8EncodeChar_append character rest⟩
  | stray byte =>
      have silent : Utf8.announcedLength? byte = none := not_not.mp whole
      refine ⟨ofFirst byte, ?_, ?_⟩
      · simp only [ofFirst, silent, TextPart.columns]
      · rw [TextPart.bytes, List.singleton_append, walk_cons]
        simp only [ofFirst, silent, Nat.sub_self, List.drop_zero]

/-- Parts that are not broken count their columns, whatever stands behind them. -/
theorem totalUnits_walk_append {parts : List TextPart} (whole : ∀ part ∈ parts, ¬part.IsBroken)
    (rest : Bytes) :
    totalUnits (walk (parts.flatMap TextPart.bytes ++ rest)) =
      (parts.map TextPart.columns).sum + totalUnits (walk rest) := by
  induction parts with
  | nil => simp
  | cons part parts ih =>
      obtain ⟨first, others⟩ := List.forall_mem_cons.mp whole
      obtain ⟨step, units, walked⟩ := walk_bytes_append first (parts.flatMap TextPart.bytes ++ rest)
      rw [List.flatMap_cons, List.append_assoc, walked, totalUnits, ih others, units, List.map_cons,
        List.sum_cons, Nat.add_assoc]

/-- A byte that announces a sequence counts for all the bytes that it announces. -/
theorem totalUnits_walk_cons {lead : UInt8} {length : Nat}
    (announced : Utf8.announcedLength? lead = some length) (rest : Bytes) :
    totalUnits (walk (lead :: rest)) =
      (if length = 4 then 2 else 1) + totalUnits (walk (rest.drop (length - 1))) := by
  rw [walk_cons, totalUnits]
  simp only [ofFirst, announced]

end CodeStep

/-- Every text is read into parts in one way. If none of them is broken, the length of the text is the
sum of their columns. Otherwise the columns in front of the first broken part count, this part
counts one, or two if it announces four bytes, and the count goes on behind all the bytes that it
announces. -/
theorem utf16Length_counts_columns_until_broken (text : Bytes) :
    ∃ parts, TextPart.Reads text parts ∧ (∀ others, TextPart.Reads text others → others = parts) ∧
      ((∀ part ∈ parts, ¬part.IsBroken) →
        (utf16Length text).value = (parts.map TextPart.columns).sum) ∧
      ∀ front lead back length, parts = front ++ .stray lead :: back →
        (∀ part ∈ front, ¬part.IsBroken) → Utf8.announcedLength? lead = some length →
        (utf16Length text).value =
          (front.map TextPart.columns).sum + ((if length = 4 then 2 else 1) +
            (utf16Length (text.drop ((front.flatMap TextPart.bytes).length + length))).value) := by
  obtain ⟨parts, reads⟩ := TextPart.exists_reads text
  refine ⟨parts, reads, fun others other => other.unique reads, fun whole => ?_, ?_⟩
  · have counted := CodeStep.totalUnits_walk_append whole []
    rwa [List.append_nil, reads.flatMap_bytes] at counted
  · rintro front lead back length rfl whole announced
    have split : text = front.flatMap TextPart.bytes ++ lead :: back.flatMap TextPart.bytes := by
      rw [← reads.flatMap_bytes, List.flatMap_append]
      rfl
    obtain ⟨bytes, rfl⟩ := Nat.exists_eq_add_of_le' (Utf8.announcedLength?_bounds announced).1
    have behind : text.drop ((front.flatMap TextPart.bytes).length + (bytes + 1)) =
        (back.flatMap TextPart.bytes).drop bytes := by
      rw [split, ← List.drop_drop, List.drop_left, List.drop_succ_cons]
    rw [behind, split]
    simp only [utf16Length]
    rw [CodeStep.totalUnits_walk_append whole, CodeStep.totalUnits_walk_cons announced,
      Nat.add_sub_cancel]

/-- A first byte of two bytes in front of a letter counts for both, so the letter has no column. -/
theorem exists_letter_without_column :
    TextPart.Reads [0xC3, 0x61] [.stray 0xC3, .decoded 'a'] ∧
      (([.stray 0xC3, .decoded 'a'] : List TextPart).map TextPart.columns).sum = 2 ∧
      (utf16Length [0xC3, 0x61]).value = 1 := by
  refine ⟨.stray ?_ (.decoded 'a' .nil), by decide, by decide⟩
  rintro character ⟨rest, equal⟩
  -- The sequence would have to go on with a byte that continues it.
  obtain ⟨first, others, shape, _, announced, continued⟩ := Utf8.utf8EncodeChar_shape character
  rw [shape, List.cons_append, List.cons.injEq] at equal
  obtain ⟨rfl, equal⟩ := equal
  have two : 2 = others.length + 1 := Option.some.inj announced
  obtain ⟨second, rfl⟩ := List.length_eq_one_iff.mp (show others.length = 1 by omega)
  obtain ⟨rfl, _⟩ := List.cons.inj equal
  exact absurd (continued 0x61 List.mem_cons_self) (by decide)

end FormatServer
