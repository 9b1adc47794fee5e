import FormatServer.Json.Token

namespace FormatServer.NumberLiteral

/-- The bytes that numbers are made of. -/
def isNumberByte (byte : UInt8) : Bool :=
  Ascii.isDigit byte || byte == Ascii.minus || byte == Ascii.plus || byte == Ascii.dot ||
    byte == 0x65 || byte == 0x45

/-- No number before the text goes on with it. -/
def Ends (text : Bytes) : Prop :=
  ∀ byte, text.head? = some byte → isNumberByte byte = false

/-- A reader that stops before `rest` also stops before the other text: they start alike, or no
number goes on with the other. -/
def Agrees (other rest : Bytes) : Prop :=
  other.head? = rest.head? ∨ Ends other

/-- Two texts that start with the same bytes start alike if the texts behind those do. -/
theorem Agrees.append {other rest : Bytes} (agrees : Agrees other rest) (front : Bytes) :
    Agrees (front ++ other) (front ++ rest) := by
  cases front with
  | nil => exact agrees
  | cons first front => exact Or.inl rfl

/-- What the first byte of `rest` is not, the first byte of the other text is not either. -/
theorem Agrees.head_ne {other rest : Bytes} (agrees : Agrees other rest) {test : UInt8 → Bool}
    (marks : ∀ byte, test byte = true → isNumberByte byte = true)
    (stops : ∀ byte, rest.head? = some byte → test byte = false) :
    ∀ byte, other.head? = some byte → test byte = false := by
  intro byte isHead
  cases agrees with
  | inl same => exact stops byte (same ▸ isHead)
  | inr ends =>
      cases holds : test byte with
      | false => rfl
      | true =>
          have member := marks byte holds
          rw [ends byte isHead] at member
          contradiction

/-- What is read off the front of a text does not depend on the text behind it. -/
def ReadsLocally {α : Type} (read : Bytes → Option (α × Bytes)) : Prop :=
  ∀ text value rest, read text = some (value, rest) →
    ∃ spelled, text = spelled ++ rest ∧ (∀ byte ∈ spelled, isNumberByte byte = true) ∧
      ∀ other, Agrees other rest → read (spelled ++ other) = some (value, other)

/-- Reading nothing is local. -/
theorem readsLocally_pure {α : Type} (value : α) : ReadsLocally fun text => some (value, text) := by
  intro text value rest found
  cases found
  exact ⟨[], rfl, by simp, fun other _ => rfl⟩

/-- Two local readers, one after the other, are a local reader. -/
theorem ReadsLocally.bind {α β : Type} {first : Bytes → Option (α × Bytes)}
    {second : α → Bytes → Option (β × Bytes)} (firstLocal : ReadsLocally first)
    (secondLocal : ∀ value, ReadsLocally (second value)) :
    ReadsLocally fun text => (first text).bind fun read => second read.1 read.2 := by
  intro text value rest found
  simp only [Option.bind_eq_some_iff, Prod.exists] at found
  obtain ⟨middle, between, firstFound, secondFound⟩ := found
  obtain ⟨front, rfl, frontBytes, frontReads⟩ := firstLocal _ _ _ firstFound
  obtain ⟨back, rfl, backBytes, backReads⟩ := secondLocal _ _ _ _ secondFound
  refine ⟨front ++ back, by simp, ?_, ?_⟩
  · intro byte member
    rcases List.mem_append.mp member with inFront | inBack
    · exact frontBytes byte inFront
    · exact backBytes byte inBack
  · intro other agrees
    dsimp only
    rw [List.append_assoc, frontReads _ (agrees.append back), Option.bind_some]
    exact backReads other agrees

/-- A reader that reads something behind a mark, and nothing where no mark stands, is local. -/
theorem readsLocally_optional {α : Type} {read : Bytes → Option (α × Bytes)}
    (default : α) (test : UInt8 → Bool) (marks : ∀ byte, test byte = true → isNumberByte byte = true)
    (skips : ∀ text : Bytes, (∀ byte, text.head? = some byte → test byte = false) →
      read text = some (default, text))
    (takes : ∀ first, test first = true → ReadsLocally fun rest => read (first :: rest)) :
    ReadsLocally read := by
  intro text value rest found
  by_cases absent : ∀ byte, text.head? = some byte → test byte = false
  · rw [skips text absent] at found
    cases found
    exact ⟨[], rfl, by simp, fun other agrees => skips other (agrees.head_ne marks absent)⟩
  · cases text with
    | nil => simp at absent
    | cons first tail =>
        have holds : test first = true := by simpa using absent
        obtain ⟨spelled, rfl, bytes, reads⟩ := takes first holds tail value rest found
        refine ⟨first :: spelled, rfl, ?_, reads⟩
        intro byte member
        rcases List.mem_cons.mp member with rfl | inSpelled
        · exact marks byte holds
        · exact bytes byte inSpelled

theorem isNumberByte_of_isDigit {byte : UInt8} (isDigit : Ascii.isDigit byte = true) :
    isNumberByte byte = true := by
  simp [isNumberByte, isDigit]

/-- The first digits of a text are those in front of a text that starts with none. -/
theorem readDigits_append {digits other : Bytes}
    (areDigits : ∀ byte ∈ digits, Ascii.isDigit byte = true)
    (stops : ∀ byte, other.head? = some byte → Ascii.isDigit byte = false) :
    readDigits (digits ++ other) = (digits, other) := by
  have none : other.takeWhile Ascii.isDigit = [] ∧ other.dropWhile Ascii.isDigit = other := by
    cases other with
    | nil => exact ⟨rfl, rfl⟩
    | cons first rest => simp [stops first rfl]
  rw [readDigits, List.takeWhile_append_of_pos areDigits, List.dropWhile_append_of_pos areDigits,
    none.1, none.2, List.append_nil]

/-- The first digits of a text, and that none follows them. -/
theorem exists_of_readDigits {text digits rest : Bytes} (found : readDigits text = (digits, rest)) :
    text = digits ++ rest ∧ (∀ byte ∈ digits, Ascii.isDigit byte = true) ∧
      ∀ byte, rest.head? = some byte → Ascii.isDigit byte = false := by
  cases found
  refine ⟨List.takeWhile_append_dropWhile.symm,
    fun byte => List.all_eq_true.mp List.all_takeWhile byte, ?_⟩
  intro byte isHead
  have stops := List.head?_dropWhile_not Ascii.isDigit text
  rw [isHead] at stops
  simpa using stops

/-- Reads at least one digit. -/
def readSomeDigits? (text : Bytes) : Option (Bytes × Bytes) :=
  match readDigits text with
  | ([], _) => none
  | (digits, rest) => some (digits, rest)

theorem readSomeDigits?_eq_some_iff {text digits rest : Bytes} :
    readSomeDigits? text = some (digits, rest) ↔ digits ≠ [] ∧ readDigits text = (digits, rest) := by
  unfold readSomeDigits?
  rcases readDigits text with ⟨found, after⟩
  cases found with
  | nil =>
      constructor
      · simp
      · rintro ⟨some, same⟩
        cases same
        contradiction
  | cons first found =>
      constructor
      · intro same
        cases same
        exact ⟨List.cons_ne_nil first found, rfl⟩
      · rintro ⟨_, same⟩
        cases same
        rfl

theorem readsLocally_readSomeDigits? : ReadsLocally readSomeDigits? := by
  intro text digits rest found
  rw [readSomeDigits?_eq_some_iff] at found
  obtain ⟨some, read⟩ := found
  obtain ⟨rfl, areDigits, stops⟩ := exists_of_readDigits read
  refine ⟨digits, rfl, fun byte member => isNumberByte_of_isDigit (areDigits byte member), ?_⟩
  intro other agrees
  rw [readSomeDigits?_eq_some_iff]
  exact ⟨some, readDigits_append areDigits
    (agrees.head_ne (fun byte => isNumberByte_of_isDigit) stops)⟩

theorem readsLocally_readWhole? : ReadsLocally readWhole? := by
  intro text digits rest found
  cases text with
  | nil => contradiction
  | cons first tail =>
      simp only [readWhole?] at found
      split at found
      · next isZero =>
        cases found
        refine ⟨[first], rfl, by simp [isZero]; decide, fun other _ => by simp [readWhole?, isZero]⟩
      · next notZero =>
        split at found
        · next isDigit =>
          obtain ⟨same, areDigits, stops⟩ := exists_of_readDigits (Option.some.inj found)
          cases digits with
          | nil =>
              subst same
              simp [isDigit] at stops
          | cons other digits =>
              obtain ⟨rfl, rfl⟩ := List.cons_eq_cons.mp same
              refine ⟨first :: digits, rfl,
                fun byte member => isNumberByte_of_isDigit (areDigits byte member), ?_⟩
              intro other agrees
              have read := readDigits_append areDigits
                (agrees.head_ne (fun byte => isNumberByte_of_isDigit) stops)
              simpa [readWhole?, notZero, isDigit] using read
        · contradiction

theorem readsLocally_readFraction? : ReadsLocally readFraction? := by
  apply readsLocally_optional [] (· == Ascii.dot)
  · intro byte isDot
    simp_all [isNumberByte]
  · intro text absent
    cases text with
    | nil => rfl
    | cons first rest => simp_all [readFraction?]
  · intro first isDot
    have same : (fun rest => readFraction? (first :: rest)) = readSomeDigits? := by
      funext rest
      have read : first = Ascii.dot := by simpa using isDot
      rcases digits : readDigits rest with ⟨_ | ⟨_, _⟩, _⟩
      · simp [readFraction?, readSomeDigits?, read, digits]
      · simp [readFraction?, readSomeDigits?, read, digits]
    rw [same]
    exact readsLocally_readSomeDigits?

/-- Reads an optional sign, one of those that pass the test: whether it is a minus. -/
def readSign? (test : UInt8 → Bool) (text : Bytes) : Option (Bool × Bytes) :=
  match text with
  | [] => some (false, text)
  | first :: rest => if test first then some (first == Ascii.minus, rest) else some (false, text)

theorem readsLocally_readSign? {test : UInt8 → Bool}
    (marks : ∀ byte, test byte = true → isNumberByte byte = true) :
    ReadsLocally (readSign? test) := by
  apply readsLocally_optional false test marks
  · intro text absent
    cases text with
    | nil => rfl
    | cons first rest => simp [readSign?, absent first rfl]
  · intro first isSign
    have same : (fun rest => readSign? test (first :: rest)) =
        fun rest => some (first == Ascii.minus, rest) := by
      funext rest
      simp [readSign?, isSign]
    rw [same]
    exact readsLocally_pure _

theorem readsLocally_readSignedDigits? : ReadsLocally readSignedDigits? := by
  let isSign : UInt8 → Bool := fun byte => byte == Ascii.minus || byte == Ascii.plus
  have marks : ∀ byte, isSign byte = true → isNumberByte byte = true := by
    intro byte
    simp only [isSign, isNumberByte]
    grind
  have same : readSignedDigits? = fun text => (readSign? isSign text).bind fun sign =>
      (readSomeDigits? sign.2).bind fun digits => some ((sign.1, digits.1), digits.2) := by
    funext text
    have sign : readSign? isSign text = some (match text with
        | [] => (false, text)
        | first :: rest =>
          if first = Ascii.minus then (true, rest)
          else if first = Ascii.plus then (false, rest)
          else (false, text)) := by
      cases text with
      | nil => rfl
      | cons first rest =>
          by_cases minus : first = Ascii.minus
          · simp [readSign?, isSign, minus]
          · by_cases plus : first = Ascii.plus
            · have notMinus : Ascii.plus ≠ Ascii.minus := by decide
              simp [readSign?, isSign, plus, notMinus]
            · simp [readSign?, isSign, minus, plus]
    rw [sign]
    simp only [readSignedDigits?, readSomeDigits?, Option.bind_some]
    generalize readDigits _ = read
    rcases read with ⟨_ | _, _⟩ <;> rfl
  rw [same]
  exact (readsLocally_readSign? marks).bind fun sign =>
    readsLocally_readSomeDigits?.bind fun digits => readsLocally_pure (sign, digits)

theorem readsLocally_readExponent? : ReadsLocally readExponent? := by
  apply readsLocally_optional none (fun byte => byte == 0x65 || byte == 0x45)
  · intro byte isMark
    simp only [isNumberByte]
    grind
  · intro text absent
    cases text with
    | nil => rfl
    | cons first rest =>
        have notMark : ¬(first = 0x65 ∨ first = 0x45) := by simpa using absent first rfl
        simp [readExponent?, notMark]
  · intro first isMark
    have same : (fun rest => readExponent? (first :: rest)) =
        fun rest => (readSignedDigits? rest).bind fun read => some (some read.1, read.2) := by
      funext rest
      have mark : first = 0x65 ∨ first = 0x45 := by simpa using isMark
      rw [readExponent?, if_pos mark, Option.map_eq_bind]
      rfl
    rw [same]
    exact readsLocally_readSignedDigits?.bind fun exponent => readsLocally_pure (some exponent)

/-- What is read as a number does not depend on what follows it. -/
theorem readsLocally_read? : ReadsLocally read? := by
  let isMinus : UInt8 → Bool := fun byte => byte == Ascii.minus
  have marks : ∀ byte, isMinus byte = true → isNumberByte byte = true := by
    intro byte
    simp only [isMinus, isNumberByte]
    grind
  have same : read? = fun text => (readSign? isMinus text).bind fun sign =>
      (readWhole? sign.2).bind fun whole => (readFraction? whole.2).bind fun fraction =>
        (readExponent? fraction.2).bind fun exponent =>
          some (⟨sign.1, whole.1, fraction.1, exponent.1⟩, exponent.2) := by
    funext text
    have sign : readSign? isMinus text = some (match text with
        | [] => (false, text)
        | first :: rest => if first = Ascii.minus then (true, rest) else (false, text)) := by
      cases text with
      | nil => rfl
      | cons first rest =>
          by_cases minus : first = Ascii.minus
          · simp [readSign?, isMinus, minus]
          · simp [readSign?, isMinus, minus]
    rw [sign]
    rfl
  rw [same]
  exact (readsLocally_readSign? marks).bind fun sign => readsLocally_readWhole?.bind fun whole =>
    readsLocally_readFraction?.bind fun fraction => readsLocally_readExponent?.bind fun exponent =>
      readsLocally_pure (NumberLiteral.mk sign whole fraction exponent)

end FormatServer.NumberLiteral
