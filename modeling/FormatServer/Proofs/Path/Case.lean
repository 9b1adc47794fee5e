import FormatServer.Path

namespace FormatServer

/-- Lower case keeps slashes and adds none. -/
@[simp] theorem Ascii.toLower_eq_slash (byte : UInt8) :
    Ascii.toLower byte = Ascii.slash ↔ byte = Ascii.slash := by
  unfold Ascii.toLower
  grind

/-- Lower case keeps dots and adds none. -/
@[simp] theorem Ascii.toLower_eq_dot (byte : UInt8) :
    Ascii.toLower byte = Ascii.dot ↔ byte = Ascii.dot := by
  unfold Ascii.toLower
  grind

namespace Bytes

/-- A test that does not look at the case of letters takes as much of a text in lower case. -/
theorem takeWhile_toLower (test : UInt8 → Bool)
    (blind : ∀ byte, test (Ascii.toLower byte) = test byte) (text : Bytes) :
    text.toLower.takeWhile test = Bytes.toLower (text.takeWhile test) := by
  have same : test ∘ Ascii.toLower = test := funext blind
  rw [toLower, List.takeWhile_map, same, toLower]

theorem dropWhile_toLower (test : UInt8 → Bool)
    (blind : ∀ byte, test (Ascii.toLower byte) = test byte) (text : Bytes) :
    text.toLower.dropWhile test = Bytes.toLower (text.dropWhile test) := by
  have same : test ∘ Ascii.toLower = test := funext blind
  rw [toLower, List.dropWhile_map, same, toLower]

theorem reverse_toLower (text : Bytes) : Bytes.toLower text.reverse = text.toLower.reverse :=
  List.map_reverse

end Bytes

namespace Path

/-- The case of letters does not change where a path starts. -/
theorem root_toLower (path : Bytes) : root path.toLower = (root path).toLower := by
  have short (first : UInt8) :
      (if Ascii.toLower first = Ascii.slash then [Ascii.toLower first] else []) =
        Bytes.toLower (if first = Ascii.slash then [first] else []) := by
    split <;> simp_all [Bytes.toLower]
  match path with
  | [] => rfl
  | [first] => exact short first
  | [first, second] => exact short first
  | first :: second :: third :: rest =>
    have network := Bytes.takeWhile_toLower (· ≠ Ascii.slash) (by simp) (third :: rest)
    have behind := Bytes.dropWhile_toLower (· ≠ Ascii.slash) (by simp) (third :: rest)
    simp only [Bytes.toLower, List.map_cons] at network behind
    simp only [root, Bytes.toLower, List.map_cons, network, behind, Ascii.toLower_eq_slash, ne_eq]
    split
    · split
      · simp [List.map_take]
      · simp
    · simp

theorem endsInSlash_toLower (text : Bytes) : endsInSlash text.toLower = endsInSlash text := by
  simp only [endsInSlash, Bytes.toLower, List.getLast?_map]
  cases text.getLast? with
  | none => rfl
  | some last =>
    rw [Bool.eq_iff_iff]
    simp

theorem afterLastSlash_toLower (text : Bytes) :
    afterLastSlash text.toLower = (afterLastSlash text).toLower := by
  rw [afterLastSlash, ← Bytes.reverse_toLower, Bytes.takeWhile_toLower _ (by simp),
    ← Bytes.reverse_toLower, afterLastSlash]

/-- The name of a file in lower case is the name of the file with the path in lower case. -/
theorem filename_toLower (path : Bytes) : filename path.toLower = (filename path).toLower := by
  have rest : path.toLower.drop (root path.toLower).length =
      Bytes.toLower (path.drop (root path).length) := by
    rw [root_toLower, Bytes.toLower, Bytes.toLower, Bytes.toLower, List.length_map, List.map_drop]
  have slashes (text : Bytes) :
      text.toLower.all (· == Ascii.slash) = text.all (· == Ascii.slash) := by
    rw [Bool.eq_iff_iff]
    simp [Bytes.toLower]
  simp only [filename]
  rw [rest, slashes, root_toLower, endsInSlash_toLower, endsInSlash_toLower, afterLastSlash_toLower]
  split
  · split <;> rfl
  · split <;> rfl

/-- The extension in lower case is the extension of the path in lower case. -/
theorem extension_toLower (path : Bytes) : extension path.toLower = (extension path).toLower := by
  have single (name : Bytes) : name.toLower = [Ascii.dot] ↔ name = [Ascii.dot] := by
    simp [Bytes.toLower, List.map_eq_cons_iff]
  have double (name : Bytes) :
      name.toLower = [Ascii.dot, Ascii.dot] ↔ name = [Ascii.dot, Ascii.dot] := by
    simp [Bytes.toLower, List.map_eq_cons_iff]
  have dots (name : Bytes) : name.toLower.contains Ascii.dot = name.contains Ascii.dot := by
    rw [Bool.eq_iff_iff]
    simp [Bytes.toLower]
  simp only [extension, filename_toLower, single, double, dots]
  split
  · rfl
  · rw [← Bytes.reverse_toLower, Bytes.takeWhile_toLower _ (by simp), ← Bytes.reverse_toLower]
    rfl

end Path

end FormatServer
