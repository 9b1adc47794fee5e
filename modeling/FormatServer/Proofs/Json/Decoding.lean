import FormatServer.Json.Schema

namespace FormatServer

/-- A computation that follows another succeeds only after it. -/
theorem bind_eq_ok_iff {ε α β : Type} {first : Except ε α} {next : α → Except ε β} {result : β} :
    (first >>= next) = .ok result ↔ ∃ value, first = .ok value ∧ next value = .ok result := by
  cases first with
  | ok value => simp [bind, Except.bind]
  | error error => simp [bind, Except.bind]

/-- Placing an error below a step does not change what is decoded. -/
theorem Decoded.below_eq_ok_iff {α : Type} {step : SchemaStep} {decoded : Decoded α} {value : α} :
    decoded.below step = .ok value ↔ decoded = .ok value := by
  cases decoded <;> simp [below]

namespace Json

theorem decodeBool_eq_ok_iff {value : Json} {on : Bool} :
    value.decodeBool = .ok on ↔ value = .bool on := by
  cases value <;> simp [decodeBool, Decoded.refuse]

theorem decodeString_eq_ok_iff {value : Json} {text : Bytes} :
    value.decodeString = .ok text ↔ value = .string text := by
  cases value <;> simp [decodeString, Decoded.refuse]

/-- A value equals a whole number of 64 bits with a sign if it is this number or a double that has
the same value. -/
theorem toInt64?_eq_some_iff {value : Json} {whole : Int64} :
    value.toInt64? = some whole ↔ value = .number (.signed whole) ∨
      ∃ double, value = .number (.binary double) ∧ double.toInt? = some whole.toInt := by
  cases value with
  | number number =>
      cases number with
      | signed other => simp [toInt64?]
      | unsigned other => simp [toInt64?]
      | binary double =>
          have written : (number (.binary double) = number (.signed whole) ∨
              ∃ other, number (.binary double) = number (.binary other) ∧
                other.toInt? = some whole.toInt) ↔ double.toInt? = some whole.toInt := by
            simp
          rw [written]
          cases equal : double.toInt? with
          | none => simp [toInt64?, equal]
          | some integer =>
              simp only [toInt64?, equal, Option.some.injEq]
              constructor
              · intro found
                split at found
                · next within =>
                  obtain rfl := Option.some.inj found
                  exact (Int64.toInt_ofInt_of_le within.1 (Int.lt_add_one_of_le within.2)).symm
                · contradiction
              · rintro rfl
                rw [if_pos ⟨whole.minValue_le_toInt, whole.toInt_le⟩, Int64.ofInt_toInt]
  | _ => simp [toInt64?]

theorem decodeInt64_eq_ok_iff {value : Json} {whole : Int64} :
    value.decodeInt64 = .ok whole ↔ value.toInt64? = some whole := by
  unfold decodeInt64
  cases value.toInt64? <;> simp [Decoded.refuse]

theorem decodeElements_eq_ok_iff {place : Nat} {elements : List Json} {texts : List Bytes} :
    decodeElements decodeString place elements = .ok texts ↔ elements = texts.map .string := by
  induction elements generalizing place texts with
  | nil => cases texts <;> simp [decodeElements]
  | cons element elements ih =>
      simp only [decodeElements, bind_eq_ok_iff, Decoded.below_eq_ok_iff, decodeString_eq_ok_iff,
        ih]
      cases texts with
      | nil => simp [pure, Except.pure]
      | cons text texts => simp [pure, Except.pure]

theorem decodeArray_eq_ok_iff {value : Json} {texts : List Bytes} :
    value.decodeArray decodeString = .ok texts ↔ value = .array (texts.map .string) := by
  cases value <;> simp [decodeArray, Decoded.refuse, decodeElements_eq_ok_iff]

end Json

theorem JsonObject.optional_eq_ok_iff {α : Type} {members : JsonObject} {key : String}
    {decode : Json → Decoded α} {default value : α} :
    members.optional key decode default = .ok value ↔
      (∀ member, members.get? key = some member → decode member = .ok value) ∧
        (members.get? key = none → value = default) := by
  unfold optional
  cases members.get? key with
  | none => simp [eq_comm]
  | some member => simp [Decoded.below_eq_ok_iff]

end FormatServer
