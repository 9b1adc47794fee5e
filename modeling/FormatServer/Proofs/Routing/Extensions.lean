import FormatServer.Proofs.Path.Case
import FormatServer.Routing.Route
import Mathlib.Data.List.Nodup

namespace FormatServer

open ParserTable

/-- Whether a name ends with an extension and has more in front of it, where the case of letters
does not count. -/
def EndsWith (name extension : Bytes) : Prop :=
  ∃ front back, name = front ++ back ∧ front ≠ [] ∧ back.toLower = extension.toLower

/-- Whether a row has the longest extension of a table that a name ends with, and no other row has
one as long. -/
structure IsLongest (rows : List (Bytes × Bytes)) (name : Bytes) (row : Bytes × Bytes) : Prop where
  known : row ∈ rows
  fits : EndsWith name row.1
  longest : ∀ other ∈ rows, EndsWith name other.1 → other = row ∨ other.1.length < row.1.length

/-- Whether a name is none of those that are known in full: no configuration file, no manifest and
no name with a parser of its own. -/
structure IsPlainName (name : Bytes) : Prop where
  notConfig : name ∉ Route.configFileNames
  notManifest : name ≠ Route.manifestFile
  notListed : ∀ row ∈ toBytes fileNames, row.1 ≠ name

/-- The same route for another path. -/
def Route.withPath (path : Bytes) : Route → Route
  | native _ kind => native path kind
  | untouched _ => untouched path
  | external _ parser => external path parser
  | manifest _ parser => manifest path parser

section Extensions

variable {name extension other : Bytes} {rows : List (Bytes × Bytes)} {row : Bytes × Bytes}

theorem length_toLower (text : Bytes) : text.toLower.length = text.length :=
  List.length_map _

/-- A name is tested for an extension without regard to case. -/
theorem endsWithIgnoringCase_iff :
    endsWithIgnoringCase name extension = true ↔ EndsWith name extension := by
  simp only [endsWithIgnoringCase, Bool.and_eq_true, decide_eq_true_eq, List.isSuffixOf_iff_suffix]
  constructor
  · rintro ⟨shorter, front, spread⟩
    obtain ⟨nameFront, back, rfl, rfl, sameBack⟩ := List.map_eq_append_iff.mp spread.symm
    refine ⟨nameFront, back, rfl, ?_, sameBack⟩
    rintro rfl
    have lengths := congrArg List.length sameBack
    simp only [List.length_map, length_toLower, List.nil_append] at lengths shorter
    omega
  · rintro ⟨front, back, rfl, notEmpty, same⟩
    have lengths := congrArg List.length same
    have positive := List.length_pos_iff.mpr notEmpty
    simp only [length_toLower] at lengths
    refine ⟨by rw [List.length_append]; omega, front.toLower, ?_⟩
    rw [← same, Bytes.toLower, Bytes.toLower, Bytes.toLower, List.map_append]

/-- Extensions of one length that a name ends with are one extension. -/
theorem EndsWith.toLower_eq (ends : EndsWith name extension) (otherEnds : EndsWith name other)
    (sameLength : extension.length = other.length) : extension.toLower = other.toLower := by
  obtain ⟨front, back, rfl, _, same⟩ := ends
  obtain ⟨otherFront, otherBack, spread, _, otherSame⟩ := otherEnds
  have lengths : back.length = otherBack.length := by
    rw [← length_toLower back, ← length_toLower otherBack, same, otherSame, length_toLower,
      length_toLower, sameLength]
  rw [← same, ← otherSame, (List.append_inj' spread lengths).2]

/-- Names that differ in the case of letters end with the same extensions. -/
theorem endsWithIgnoringCase_congr (same : name.toLower = other.toLower) :
    endsWithIgnoringCase name = endsWithIgnoringCase other := by
  funext extension
  have lengths := congrArg List.length same
  rw [length_toLower, length_toLower] at lengths
  rw [endsWithIgnoringCase, endsWithIgnoringCase, same, lengths]

/-- Of two rows the one with the longer extension is kept. -/
theorem longer_some (best row : Bytes × Bytes) :
    ∃ kept, longer (some best) row = some kept ∧ (kept = best ∨ kept = row) ∧
      best.1.length ≤ kept.1.length ∧ row.1.length ≤ kept.1.length := by
  rw [longer]
  split
  · next shorter => exact ⟨row, rfl, Or.inr rfl, Nat.le_of_lt shorter, Nat.le_refl _⟩
  · next notShorter => exact ⟨best, rfl, Or.inl rfl, Nat.le_refl _, Nat.le_of_not_lt notShorter⟩

/-- Of rows one with the longest extension is kept. -/
theorem foldl_longer (rows : List (Bytes × Bytes)) (best : Bytes × Bytes) :
    ∃ kept, rows.foldl longer (some best) = some kept ∧ (kept = best ∨ kept ∈ rows) ∧
      best.1.length ≤ kept.1.length ∧ ∀ row ∈ rows, row.1.length ≤ kept.1.length := by
  induction rows generalizing best with
  | nil => exact ⟨best, rfl, Or.inl rfl, Nat.le_refl _, by simp⟩
  | cons first rows ih =>
      obtain ⟨next, isNext, fromBoth, bestBound, firstBound⟩ := longer_some best first
      obtain ⟨kept, isKept, fromRest, nextBound, restBound⟩ := ih next
      refine ⟨kept, by rw [List.foldl_cons, isNext, isKept], ?_, by omega,
        List.forall_mem_cons.mpr ⟨by omega, restBound⟩⟩
      rcases fromRest with rfl | inRest
      · rcases fromBoth with isBest | isFirst
        · exact Or.inl isBest
        · exact Or.inr (isFirst ▸ List.mem_cons_self)
      · exact Or.inr (List.mem_cons_of_mem _ inRest)

/-- A name that ends with extensions of a table has the parser of one that is no shorter than the
others. -/
theorem exists_parserAmong? (rows : List (Bytes × Bytes)) (name : Bytes)
    (fits : ∃ row ∈ rows, EndsWith name row.1) :
    ∃ row ∈ rows, EndsWith name row.1 ∧ parserAmong? rows name = some row.2 ∧
      ∀ other ∈ rows, EndsWith name other.1 → other.1.length ≤ row.1.length := by
  have mem_fitting (row : Bytes × Bytes) :
      row ∈ rows.filter (fun row => endsWithIgnoringCase name row.1) ↔
        row ∈ rows ∧ EndsWith name row.1 := by
    rw [List.mem_filter, endsWithIgnoringCase_iff]
  unfold parserAmong?
  cases fitting : rows.filter fun row => endsWithIgnoringCase name row.1 with
  | nil =>
      obtain ⟨row, known, ends⟩ := fits
      have inside := (mem_fitting row).mpr ⟨known, ends⟩
      rw [fitting] at inside
      exact absurd inside List.not_mem_nil
  | cons first rest =>
      simp only [fitting] at mem_fitting ⊢
      obtain ⟨kept, isKept, fromBoth, firstBound, restBound⟩ := foldl_longer rest first
      obtain ⟨known, ends⟩ := (mem_fitting kept).mp (List.mem_cons.mpr fromBoth)
      refine ⟨kept, known, ends, ?_, fun other isOther otherEnds => ?_⟩
      · rw [List.foldl_cons, longer, isKept]
        rfl
      · rcases List.mem_cons.mp ((mem_fitting other).mpr ⟨isOther, otherEnds⟩) with rfl | inRest
        · exact firstBound
        · exact restBound other inRest

/-- The parser of the longest extension is chosen. -/
theorem IsLongest.parserAmong?_eq (isLongest : IsLongest rows name row) :
    parserAmong? rows name = some row.2 := by
  obtain ⟨kept, known, ends, isKept, longest⟩ :=
    exists_parserAmong? rows name ⟨row, isLongest.known, isLongest.fits⟩
  have bound := longest row isLongest.known isLongest.fits
  rcases isLongest.longest kept known ends with rfl | shorter
  · exact isKept
  · omega

/-- In whatever order rows stand, the longest extension is the same. -/
theorem IsLongest.perm (isLongest : IsLongest rows name row) {others : List (Bytes × Bytes)}
    (perm : others.Perm rows) : IsLongest others name row where
  known := perm.mem_iff.mpr isLongest.known
  fits := isLongest.fits
  longest other isOther := isLongest.longest other (perm.mem_iff.mp isOther)

/-- In a table whose extensions differ by more than case there is one longest extension. -/
theorem exists_isLongest (distinct : (rows.map (·.1.toLower)).Nodup)
    (fits : ∃ row ∈ rows, EndsWith name row.1) : ∃ row, IsLongest rows name row := by
  obtain ⟨row, known, ends, _, longest⟩ := exists_parserAmong? rows name fits
  refine ⟨row, known, ends, fun other isOther otherEnds => ?_⟩
  have bound := longest other isOther otherEnds
  by_cases sameLength : other.1.length = row.1.length
  · exact Or.inl (List.inj_on_of_nodup_map distinct isOther known
      (otherEnds.toLower_eq ends sameLength))
  · exact Or.inr (by omega)

/-- The known extensions differ by more than case. -/
theorem nodup_extensions : ((toBytes extensions).map (·.1.toLower)).Nodup := by
  decide +kernel

end Extensions

section Rules

variable {path other : Bytes}

/-- The route of a file by what is known of its name, before languages of plugins and scripts are
asked for. -/
def Route.builtIn? (path : Bytes) : Option Route :=
  let name := Path.filename path
  if configFileNames.contains name then some (untouched path)
  else if name = manifestFile then some (manifest path parserOfManifest)
  else ((parserOfName? name).or (parserOfExtension? name)).map (external path)

/-- What is known of a name comes before languages of plugins, and those before scripts. -/
theorem Route.ofPath?_eq (path : Bytes) (languages : PluginLanguages) :
    ofPath? path languages = ((builtIn? path).or
      ((pluginOf? languages (Path.filename path)).map (external path))).or
        ((ScriptKind.ofPath? path).map (native path)) := by
  unfold ofPath? builtIn?
  dsimp only
  split
  · rfl
  · split
    · rfl
    · cases parserOfName? (Path.filename path) with
      | some parser => rfl
      | none =>
          cases parserOfExtension? (Path.filename path) with
          | some parser => rfl
          | none =>
              cases pluginOf? languages (Path.filename path) with
              | some language => rfl
              | none => rfl

theorem parserOfName?_eq_none_iff {name : Bytes} :
    parserOfName? name = none ↔ ∀ row ∈ toBytes fileNames, row.1 ≠ name := by
  simp [parserOfName?]

/-- Of a plain name only the extension is known. -/
theorem IsPlainName.builtIn?_eq (plain : IsPlainName (Path.filename path)) :
    Route.builtIn? path =
      (parserOfExtension? (Path.filename path)).map (Route.external path) := by
  have notConfig := plain.notConfig
  simp [Route.builtIn?, notConfig, plain.notManifest, parserOfName?_eq_none_iff.mpr plain.notListed]

/-- Without plugins no extension is a language. -/
theorem pluginOf?_empty (name : Bytes) : Route.pluginOf? {} name = none := by
  unfold Route.pluginOf?
  split
  · rfl
  · rfl

/-- The kind of a script does not depend on the case of its name. -/
theorem ScriptKind.ofPath?_congr
    (same : (Path.filename path).toLower = (Path.filename other).toLower) :
    ScriptKind.ofPath? path = ScriptKind.ofPath? other := by
  have extension : (Path.extension (Path.filename path)).toLower =
      (Path.extension (Path.filename other)).toLower := by
    rw [← Path.extension_toLower, ← Path.extension_toLower, same]
  simp only [ScriptKind.ofPath?]
  rw [endsWithIgnoringCase_congr same, extension]

/-- Plain names that differ in case are routed alike. -/
theorem IsPlainName.ofPath?_eq_map (plain : IsPlainName (Path.filename path))
    (otherPlain : IsPlainName (Path.filename other))
    (same : (Path.filename other).toLower = (Path.filename path).toLower) :
    Route.ofPath? other {} = (Route.ofPath? path {}).map (Route.withPath other) := by
  have sameParser : parserOfExtension? (Path.filename other) =
      parserOfExtension? (Path.filename path) := by
    simp only [parserOfExtension?, parserAmong?, endsWithIgnoringCase_congr same]
  rw [Route.ofPath?_eq, Route.ofPath?_eq, plain.builtIn?_eq, otherPlain.builtIn?_eq, sameParser,
    ScriptKind.ofPath?_congr same, pluginOf?_empty, pluginOf?_empty]
  cases parserOfExtension? (Path.filename path) with
  | some parser => rfl
  | none =>
      cases ScriptKind.ofPath? path with
      | some kind => rfl
      | none => rfl

end Rules

/-- A file whose name is not known in full is routed by the longest known extension that its name
ends with, if there is one, in whatever order the extensions are known; and without plugins the case
of its name does not count. -/
theorem longest_extension_decides_in_any_case {path : Bytes}
    (plain : IsPlainName (Path.filename path)) :
    ((∃ row ∈ toBytes extensions, EndsWith (Path.filename path) row.1) →
      ∃ row, IsLongest (toBytes extensions) (Path.filename path) row ∧
        (∀ languages, Route.ofPath? path languages = some (.external path row.2)) ∧
        ∀ rows, rows.Perm (toBytes extensions) →
          parserAmong? rows (Path.filename path) = some row.2) ∧
    ∀ other, IsPlainName (Path.filename other) →
      (Path.filename other).toLower = (Path.filename path).toLower →
        Route.ofPath? other {} = (Route.ofPath? path {}).map (Route.withPath other) := by
  refine ⟨fun fits => ?_, fun other otherPlain same => plain.ofPath?_eq_map otherPlain same⟩
  obtain ⟨row, isLongest⟩ := exists_isLongest nodup_extensions fits
  refine ⟨row, isLongest, fun languages => ?_, fun rows perm => ?_⟩
  · rw [Route.ofPath?_eq, plain.builtIn?_eq, parserOfExtension?, isLongest.parserAmong?_eq]
    rfl
  · exact (isLongest.perm perm).parserAmong?_eq

/-- Templates of components are no plain markup, in any case and whatever plugins there are. -/
theorem longest_extension_decides_in_any_case_component :
    (∀ languages, Route.ofPath? "/p/App.Component.HTML" languages =
      some (.external "/p/App.Component.HTML" "angular")) ∧
    Route.ofPath? "/q/app.component.html" {} =
      some (.external "/q/app.component.html" "angular") := by
  have plain : IsPlainName (Path.filename "/p/App.Component.HTML") :=
    ⟨by decide +kernel, by decide +kernel, by decide +kernel⟩
  have otherPlain : IsPlainName (Path.filename "/q/app.component.html") :=
    ⟨by decide +kernel, by decide +kernel, by decide +kernel⟩
  have fits : ∃ row ∈ toBytes extensions, EndsWith (Path.filename "/p/App.Component.HTML") row.1 :=
    ⟨(".component.html", "angular"), by decide +kernel,
      endsWithIgnoringCase_iff.mp (by decide +kernel)⟩
  obtain ⟨longest, alike⟩ := longest_extension_decides_in_any_case plain
  obtain ⟨row, _, routed, _⟩ := longest fits
  have isAngular : Route.ofPath? "/p/App.Component.HTML" {} =
      some (.external "/p/App.Component.HTML" "angular") := by
    decide +kernel
  have parser := (routed {}).symm.trans isAngular
  simp only [Option.some.injEq, Route.external.injEq, true_and] at parser
  refine ⟨fun languages => by rw [routed languages, parser], ?_⟩
  rw [alike "/q/app.component.html" otherPlain (by decide +kernel), isAngular]
  rfl

end FormatServer
