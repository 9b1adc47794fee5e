import FormatServer.Proofs.Path.Names
import FormatServer.Uri

namespace FormatServer

/-- A hexadecimal digit is read as the value it was written for. -/
theorem Ascii.hexValue?_hexDigit {value : UInt8} (small : value < 16) :
    hexValue? (hexDigit value) = some value := by
  unfold hexDigit hexValue? isDigit
  grind

namespace Percent

theorem decode_cons_of_ne {byte : UInt8} (differ : byte ≠ Ascii.percent) (rest : Bytes) :
    decode (byte :: rest) = byte :: decode rest := by
  simp only [decode.eq_def (byte :: rest), differ, if_false]

/-- The two digits of a byte are read as the byte. -/
theorem decode_digits (byte : UInt8) (rest : Bytes) :
    decode (Ascii.percent :: Ascii.hexDigit (byte / 16) :: Ascii.hexDigit (byte % 16) :: rest) =
      byte :: decode rest := by
  have high : byte / 16 < 16 := by
    rw [UInt8.lt_iff_toNat_lt, UInt8.toNat_div]
    exact Nat.div_lt_of_lt_mul byte.toNat_lt
  have low : byte % 16 < 16 := by
    rw [UInt8.lt_iff_toNat_lt, UInt8.toNat_mod]
    exact Nat.mod_lt _ (by decide)
  have whole : byte / 16 * 16 + byte % 16 = byte := by
    apply UInt8.toNat_inj.mp
    have bound := byte.toNat_lt
    simp only [UInt8.toNat_add, UInt8.toNat_mul, UInt8.toNat_div, UInt8.toNat_mod, UInt8.toNat_ofNat,
      Nat.reducePow, Nat.reduceMod]
    omega
  rw [decode, if_pos rfl]
  simp only [Ascii.hexValue?_hexDigit high, Ascii.hexValue?_hexDigit low, whole]

/-- Every text is read back from its percent coding. -/
theorem decode_encode (text : Bytes) : decode (encode text) = text := by
  induction text with
  | nil => rfl
  | cons byte rest ih =>
      rw [encode, List.flatMap_cons, ← encode]
      by_cases plain : isPlain byte = true
      · have differ : byte ≠ Ascii.percent := by
          rintro rfl
          exact absurd plain (by decide)
        rw [if_pos plain, List.singleton_append, decode_cons_of_ne differ, ih]
      · rw [if_neg plain, List.cons_append, List.cons_append, List.singleton_append, decode_digits,
          ih]

/-- A slash is written as it is. -/
theorem encode_slash (rest : Bytes) :
    encode (Ascii.slash :: rest) = Ascii.slash :: encode rest := rfl

end Percent

/-- A path that is absolute starts with a slash. -/
theorem Path.exists_of_isAbsolute {path : Bytes} (absolute : isAbsolute path = true) :
    ∃ rest, path = Ascii.slash :: rest := by
  obtain ⟨rest, equal⟩ := root_prefix path
  rcases root_of_isAbsolute absolute with plain | ⟨first, network, _, _, inNetwork⟩
  · exact ⟨rest, by rw [← equal, plain]; rfl⟩
  · exact ⟨_, by rw [← equal, inNetwork]; rfl⟩

namespace FileUri

/-- Whether a document has a normalized absolute path: a root and names, without an empty component
and without dots. -/
structure IsNormal (document : FileUri) : Prop where
  absolute : Path.isAbsolute document.path = true
  names : ∃ names, (∀ name ∈ names, Path.IsName name) ∧
    document.path = Path.root document.path ++ Path.join names

/-- The document at an absolute path is normal. -/
theorem isNormal_ofPath {path : Bytes} (absolute : Path.isAbsolute path = true) :
    (ofPath path).IsNormal := by
  obtain ⟨names, areNames, equal⟩ := Path.exists_names_of_normalize path
  have document : ofPath path = ⟨Path.root path ++ Path.join names⟩ := congrArg FileUri.mk equal
  rw [document]
  refine ⟨Path.isAbsolute_append_join absolute areNames, names, areNames, ?_⟩
  rw [Path.root_append_join absolute areNames]

/-- A normal document is the one at its path. -/
theorem IsNormal.ofPath_eq {document : FileUri} (normal : document.IsNormal) :
    ofPath document.path = document := by
  obtain ⟨absolute, names, areNames, equal⟩ := normal
  have same := Path.normalize_append_join absolute areNames
  rw [← equal] at same
  exact congrArg FileUri.mk same

/-- An empty authority stands before a path. -/
theorem splitAuthority_slash (rest : Bytes) :
    splitAuthority (Ascii.slash :: Ascii.slash :: Ascii.slash :: rest) =
      ([], Ascii.slash :: rest) := rfl

/-- The scheme ends at its colon. -/
theorem takeWhile_scheme (text : Bytes) :
    (scheme ++ Ascii.colon :: text).takeWhile (· ≠ Ascii.colon) = scheme := by
  have noColon : ∀ byte ∈ scheme, decide (byte ≠ Ascii.colon) = true :=
    List.all_eq_true.mp rfl
  rw [List.takeWhile_append_of_pos noColon, List.takeWhile_cons_of_neg (by simp),
    List.append_nil]

/-- The URI of an absolute path is read as the document at that path. -/
theorem parse_print {document : FileUri} (absolute : Path.isAbsolute document.path = true) :
    parse document.print = .ok (ofPath document.path) := by
  obtain ⟨rest, equal⟩ := Path.exists_of_isAbsolute absolute
  let text : Bytes := Ascii.slash :: Ascii.slash :: Ascii.slash :: Percent.encode rest
  have printed : document.print = scheme ++ Ascii.colon :: text := by
    rw [print, equal, Percent.encode_slash]
    simp only [Bytes.concat_cons, Bytes.concat_nil, List.append_nil]
    rfl
  have remains : (scheme ++ Ascii.colon :: text).drop (scheme.length + 1) = text := by
    rw [List.drop_length_add_append]
    rfl
  have back : Percent.decode (Ascii.slash :: Percent.encode rest) = document.path := by
    rw [equal, ← Percent.encode_slash, Percent.decode_encode]
  have hasColon : (scheme ++ Ascii.colon :: text).contains Ascii.colon = true := by simp
  rw [printed, parse, hasColon, takeWhile_scheme]
  simp only [remains, not_true, if_false, ne_eq, text, splitAuthority_slash, back, absolute, if_true,
    false_and]

/-- A URI that is accepted names the document at an absolute path. -/
theorem exists_path_of_parse {uri : Bytes} {document : FileUri}
    (accepted : parse uri = .ok document) :
    ∃ path, Path.isAbsolute path = true ∧ document = ofPath path := by
  simp only [parse] at accepted
  split at accepted
  · contradiction
  · split at accepted
    · contradiction
    · split at accepted
      · contradiction
      · split at accepted
        · next absolute => exact ⟨_, absolute, (Except.ok.inj accepted).symm⟩
        · contradiction

/-- The URI of the document at an absolute path names that document. A URI that is accepted names a
document with a normalized absolute path, which is the document at that path, and the URI of which
names it again. -/
theorem uris_and_paths_round_trip :
    (∀ path, Path.isAbsolute path = true → parse (ofPath path).print = .ok (ofPath path)) ∧
    ∀ uri document, parse uri = .ok document →
      document.IsNormal ∧ ofPath document.path = document ∧ parse document.print = .ok document := by
  constructor
  · intro path absolute
    have normal := isNormal_ofPath absolute
    rw [parse_print normal.absolute, normal.ofPath_eq]
  · intro uri document accepted
    obtain ⟨path, absolute, rfl⟩ := exists_path_of_parse accepted
    have normal := isNormal_ofPath absolute
    exact ⟨normal, normal.ofPath_eq, by rw [parse_print normal.absolute, normal.ofPath_eq]⟩

/-- A path with marks that a URI escapes, and a URI that escapes two dots below a network. -/
theorem uris_and_paths_round_trip_escaped :
    Path.isAbsolute "/é /./a%2F?#:" = true ∧
      parse (ofPath "/é /./a%2F?#:").print = .ok ⟨"/é /a%2F?#:"⟩ ∧
      parse "file:////net/b/%2E%2e//a%20" = .ok ⟨"//net/a "⟩ ∧
      IsNormal ⟨"//net/a "⟩ ∧ parse (print ⟨"//net/a "⟩) = .ok ⟨"//net/a "⟩ := by
  have absolute : Path.isAbsolute "/é /./a%2F?#:" = true := by decide
  have accepted : parse "file:////net/b/%2E%2e//a%20" = .ok ⟨"//net/a "⟩ := by rfl
  obtain ⟨normal, _, back⟩ := uris_and_paths_round_trip.2 _ _ accepted
  exact ⟨absolute, uris_and_paths_round_trip.1 _ absolute, accepted, normal, back⟩

end FileUri

end FormatServer
