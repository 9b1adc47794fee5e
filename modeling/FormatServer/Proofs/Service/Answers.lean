import FormatServer.Proofs.Text.Edits
import FormatServer.Service.Formatter

namespace FormatServer.TreeFormatter

variable {σ π : Type}

/-- A request that an engine answers: the document is named and not ignored, its text is the given
content or that of its file, and formatting the text on the route of the document gives a text. -/
structure Prints (formatter : TreeFormatter σ π) (files : FileTree) (document : FileUri)
    (content : Option Bytes) (state : SessionState σ) (source formatted : Bytes) : Prop where
  named : document.path ≠ []
  notIgnored : formatter.ignores files document.path = false
  text : content = some source ∨ content = none ∧ files.read document.path = .ok source
  result : ∃ route, Route.ofPath? document.path formatter.lease.languages = some route ∧
    ((formatter.formatText route source).run state).1 = some formatted

/-- A text with a route is answered with the edit to what it is formatted to. -/
theorem formatContent_of_formatText (formatter : TreeFormatter σ π) {path source formatted : Bytes}
    {route : Route} {state : SessionState σ}
    (routed : Route.ofPath? path formatter.lease.languages = some route)
    (result : ((formatter.formatText route source).run state).1 = some formatted) :
    ((formatter.formatContent path source).run state).1 =
      some (if formatted = source then [] else (TextEdit.between source formatted).value) := by
  unfold formatContent
  simp only [routed, Session.run_bind, result]
  split
  · rfl
  · rfl

/-- A request about a document that is named and not ignored is a request about its text. -/
theorem formatDocument_eq_formatContent (formatter : TreeFormatter σ π) {files : FileTree}
    {document : FileUri} {content : Option Bytes} {source : Bytes} (named : document.path ≠ [])
    (notIgnored : formatter.ignores files document.path = false)
    (text : content = some source ∨ content = none ∧ files.read document.path = .ok source) :
    formatter.formatDocument files document content =
      formatter.formatContent document.path source := by
  unfold formatDocument
  simp only [named, notIgnored, if_false, Bool.false_eq_true]
  rcases text with rfl | ⟨rfl, read⟩
  · rfl
  · simp only [read]

/-- The edit from a well-formed text to another one turns the first into the second. A request on a
well-formed text is answered without edits exactly when the text is formatted already, and otherwise
with one edit that turns the text into what it is formatted to. -/
theorem answer_turns_source_into_result (formatter : TreeFormatter σ π) (files : FileTree)
    (source formatted : Bytes) (wellFormed : Utf8.isWellFormed source = true)
    (short : source.length < Nat.pow 2 31) :
    (∃ edit, (TextEdit.between source formatted).value = [edit] ∧ edit.Turns source formatted) ∧
    ∀ document content state,
      formatter.Prints files document content state source formatted →
      ∃ edits, ((formatter.formatDocument files document content).run state).1 = some edits ∧
        (edits = [] ↔ formatted = source) ∧
        (formatted ≠ source → ∃ edit, edits = [edit] ∧ edit.Turns source formatted) := by
  obtain ⟨edit, single, turns⟩ := TextEdit.turns_between formatted wellFormed short
  refine ⟨⟨edit, single, turns⟩, ?_⟩
  intro document content state prints
  obtain ⟨route, routed, result⟩ := prints.result
  refine ⟨_, by rw [formatter.formatDocument_eq_formatContent prints.named prints.notIgnored
    prints.text, formatter.formatContent_of_formatText routed result], ?_⟩
  by_cases same : formatted = source
  · rw [if_pos same]
    exact ⟨⟨fun _ => same, fun _ => rfl⟩, fun differ => absurd same differ⟩
  · rw [if_neg same, single]
    refine ⟨⟨fun empty => ?_, fun equal => absurd equal same⟩, fun _ => ⟨edit, rfl, turns⟩⟩
    contradiction

/-- A style sheet whose engine prints another last character and a line end. -/
theorem answer_turns_source_into_result_style_sheet :
    let engine : ExternalEngine Unit :=
      { printFile? := some fun _ _ _ _ _ => return .ok (Bytes.ofString "é→\n") }
    let formatter : TreeFormatter Unit Unit :=
      { config := { root := "/w" }, ignored := none, lease := .held engine 1 {}, native := none }
    Utf8.isWellFormed "é😀" = true ∧ (Bytes.ofString "é😀").length < Nat.pow 2 31 ∧
      formatter.Prints {} ⟨"/w/a.css"⟩ (some "é😀") ⟨(), []⟩ "é😀" "é→\n" ∧
      ∃ edit, ((formatter.formatDocument {} ⟨"/w/a.css"⟩ (some "é😀")).run ⟨(), []⟩).1 =
        some [edit] ∧ edit.Turns "é😀" "é→\n" := by
  intro engine formatter
  have prints : formatter.Prints {} ⟨"/w/a.css"⟩ (some "é😀") ⟨(), []⟩ "é😀" "é→\n" :=
    ⟨by decide, rfl, Or.inl rfl, .external "/w/a.css" "css", by decide, by rfl⟩
  obtain ⟨edits, answered, _, turns⟩ :=
    (answer_turns_source_into_result formatter {} "é😀" "é→\n" (by decide) (by decide)).2 _ _ _ prints
  obtain ⟨edit, rfl, turned⟩ := turns (by decide)
  exact ⟨by decide, by decide, prints, edit, answered, turned⟩

end FormatServer.TreeFormatter
