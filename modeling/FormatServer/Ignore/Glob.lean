import FormatServer.Text.Bytes

namespace FormatServer

/-- Whether a test holds of some suffix of a list, from the whole list to the empty one. -/
def anySuffix {α : Type} (test : List α → Bool) : List α → Bool
  | [] => test []
  | first :: rest => test (first :: rest) || anySuffix test rest

theorem anySuffix_iff {α : Type} {test : List α → Bool} {list : List α} :
    anySuffix test list = true ↔ ∃ skipped rest, list = skipped ++ rest ∧ test rest = true := by
  induction list with
  | nil => simp [anySuffix, and_assoc]
  | cons first tail inductionHypothesis =>
    simp only [anySuffix, Bool.or_eq_true, inductionHypothesis]
    constructor
    · rintro (holds | ⟨skipped, rest, rfl, holds⟩)
      · exact ⟨[], first :: tail, rfl, holds⟩
      · exact ⟨first :: skipped, rest, rfl, holds⟩
    · rintro ⟨skipped, rest, equal, holds⟩
      cases skipped with
      | nil => exact .inl (by simpa [equal] using holds)
      | cons other skipped =>
        simp only [List.cons_append, List.cons.injEq] at equal
        exact .inr ⟨skipped, rest, equal.2, holds⟩

/-- A class of bytes, given by the first and the last byte of each of its ranges; an inverted one
holds the bytes outside of them. -/
structure ByteClass where
  inverted : Bool
  ranges : List (UInt8 × UInt8)
  deriving DecidableEq, Repr

/-- Whether a byte belongs to a class. -/
def ByteClass.contains (group : ByteClass) (byte : UInt8) : Bool :=
  group.ranges.any (fun (low, high) => low ≤ byte && byte ≤ high) != group.inverted

/-- One part of a pattern: a star stands for any bytes, also none, and the others for one byte. -/
inductive GlobToken where
  | star
  | one
  | oneOf (group : ByteClass)
  | literal (byte : UInt8)
  deriving DecidableEq, Repr

/-- A pattern for one path component. -/
abbrev Glob := List GlobToken

namespace Glob

/-- Whether a pattern matches a whole text. -/
def isMatch : Glob → Bytes → Bool
  | [] => List.isEmpty
  | .star :: tokens => anySuffix (isMatch tokens)
  | .one :: tokens => fun text =>
    match text with
    | [] => false
    | _ :: rest => isMatch tokens rest
  | .oneOf group :: tokens => fun text =>
    match text with
    | [] => false
    | byte :: rest => group.contains byte && isMatch tokens rest
  | .literal expected :: tokens => fun text =>
    match text with
    | [] => false
    | byte :: rest => byte == expected && isMatch tokens rest

/-- The ranges that the inside of a class names: three bytes around a minus sign are a range, any
other byte stands for itself. A range from a later byte to an earlier one is refused. -/
def ranges? : Bytes → Option (List (UInt8 × UInt8))
  | low :: sign :: high :: rest =>
    if sign = Ascii.minus then
      if high < low then none else (ranges? rest).map ((low, high) :: ·)
    else (ranges? (sign :: high :: rest)).map ((low, low) :: ·)
  | byte :: rest => (ranges? rest).map ((byte, byte) :: ·)
  | [] => some []

/-- The class between two brackets; a caret or an exclamation mark in front inverts it. -/
def class? (inside : Bytes) : Option ByteClass :=
  match inside with
  | [] => (ranges? inside).map (⟨false, ·⟩)
  | first :: rest =>
    if first = Ascii.caret ∨ first = Ascii.bang then (ranges? rest).map (⟨true, ·⟩)
    else (ranges? inside).map (⟨false, ·⟩)

/-- The inside of a class and what follows its closing bracket, from the byte after the opening one.
A closing bracket that comes first belongs to the inside. -/
def splitClass? (text : Bytes) : Option (Bytes × Bytes) :=
  match text with
  | [] => none
  | first :: rest =>
    match rest.dropWhile (· ≠ Ascii.closeBracket) with
    | [] => none
    | _ :: after => some (first :: rest.takeWhile (· ≠ Ascii.closeBracket), after)

theorem length_of_splitClass? {text inside after : Bytes}
    (found : splitClass? text = some (inside, after)) : after.length < text.length := by
  unfold splitClass? at found
  split at found
  · simp at found
  · next first rest =>
    split at found
    · simp at found
    · next bracket tail equal =>
      simp only [Option.some.injEq, Prod.mk.injEq] at found
      have bound := (List.dropWhile_suffix (· ≠ Ascii.closeBracket) (l := rest)).length_le
      rw [equal, found.2] at bound
      simp only [List.length_cons] at bound ⊢
      omega

/-- Reads a pattern; none if a class is not closed or names a backward range, or if a backslash has
nothing behind it. -/
def parse? : Bytes → Option Glob
  | [] => some []
  | byte :: rest =>
    if byte = Ascii.star then (parse? rest).map (.star :: ·)
    else if byte = Ascii.question then (parse? rest).map (.one :: ·)
    else if byte = Ascii.openBracket then
      match _found : splitClass? rest with
      | none => none
      | some (inside, after) =>
        match class? inside with
        | none => none
        | some group => (parse? after).map (.oneOf group :: ·)
    else if byte = Ascii.backslash then
      match rest with
      | [] => none
      | escaped :: after => (parse? after).map (.literal escaped :: ·)
    else (parse? rest).map (.literal byte :: ·)
termination_by text => text.length
decreasing_by
  all_goals try (have shorter := length_of_splitClass? _found)
  all_goals simp only [List.length_cons]
  all_goals omega

/-- What is said of a text that is no pattern. -/
def syntaxErrorMessage : Bytes := "<glob-error>"

end Glob

end FormatServer
