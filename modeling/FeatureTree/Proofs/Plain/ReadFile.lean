import FeatureTree.Proofs.Plain.ReadParts
import FeatureTree.Proofs.Plain.Written

/-!
# Files that are read back

A file is a feature behind a line that names its language, which English does without. A reader
changes to the dialect of that line before it comes to the title, so the feature is read in its own
dialect, whatever dialect the reader starts in. Without that line, the reader has to start in
English.

## Main results

* `Plain.parse_of_passes`: a run over all lines to a place where a document may end
* `Plain.parse_legible`, `Plain.parse_legible_file`: what comes back of a feature and of a file
* `Plain.parse_feature`: the lines of a feature are read as the feature in its own dialect
* `Plain.parse_file`: the lines of a file are read as its feature in English
-/

namespace FeatureTree

open Ast (Document)

namespace Plain

variable {s : ParseState} {d : Dialect}

/-! ### The end of a document -/

/-- Whether a document may end at a place. -/
def MayEnd (place : State) : Prop := place.entries.any (·.kind = .eof) = true

/-- A document may end within a scope. -/
theorem mayEnd_of_isWithin {place : State} {scope : Scope} (h : place.IsWithin scope) :
    MayEnd place := by
  cases place with
  | step c owner given =>
    obtain ⟨rfl, hg⟩ := h
    cases owner <;> cases given <;> first | exact absurd hg Bool.false_ne_true | rfl
  | title c owner | titleText c owner => cases owner <;> rfl
  | heading c | headingText c | examples c | examplesText c | examplesTable c => rfl
  | _ => cases h

/-- A document may end behind a title. -/
theorem mayEnd_of_isBehindTitle {place : State} (h : IsBehindTitle place) : MayEnd place := by
  obtain ⟨scope, h⟩ := h
  exact mayEnd_of_isWithin h

/-- A run over all lines that notes no fault gives the document, if it may end there. -/
theorem parse_of_passes {source : Text}
    (hrun : (ParseState.start d).Passes (Line.ofText source) s) (hs : s.Settled)
    (hend : MayEnd s.place) (hfaults : s.faults = []) :
    Document.parse d source = .ok s.document := by
  have hread : Document.read d source = { s with place := .done } := by
    have hend' : s.place.entries.any (·.kind = .eof) = true := hend
    rw [Document.read, hrun.run_eq, ParseState.finish, if_pos hend', hs]
  rw [Document.parse_ok_iff, hread]
  exact ⟨hfaults, rfl⟩

/-- The reader is ready before the first line. -/
theorem ready_start (hd : d ∈ Dialect.all) : (ParseState.start d).Ready :=
  ⟨Dialect.distinct_of_mem hd, rfl, rfl, ParseState.settled_of_not_inTable rfl⟩

/-- What the reader is led to from its start is the document of the text. -/
theorem parse_of_leads {source : Text} {P : State → Prop} {document : Document}
    (h : (ParseState.start d).Leads (Line.ofText source) P document)
    (hend : ∀ place, P place → MayEnd place) : Document.parse d source = .ok document := by
  obtain ⟨place, hplace, hrun, hready⟩ := h
  exact parse_of_passes hrun hready.settled (hend place hplace) rfl

/-! ### Languages -/

/-- A language line names its dialect. -/
theorem language?_of_shows (hd : d ∈ Dialect.all) {l : Line}
    (hl : l.Shows ("# language: ".toList ++ d.name)) : l.language? = some d.name := by
  have key : ∀ d ∈ Dialect.all,
      Line.language? ⟨0, "# language: ".toList ++ d.name⟩ = some d.name
      ∧ Line.language? ⟨0, "# language: ".toList ++ d.name ++ ['\n']⟩ = some d.name := by
    decide
  have htext : l.language? = Line.language? ⟨0, l.text⟩ := rfl
  rw [htext]
  rcases hl with hl | hl <;> rw [hl]
  · exact (key d hd).1
  · exact (key d hd).2

/-- A language line changes the dialect of the reader. -/
theorem passes_language (hd : d ∈ Dialect.all) (hplace : s.place = .start) {l : Line}
    (hl : l.Shows ("# language: ".toList ++ d.name)) :
    s.Passes [l] { s with
      place := .languageGiven
      reading := { s.reading with dialect := d } } := by
  have hread : s.reading.token? l .language = .ok (some (.language d.name)) := by
    simp only [Reading.token?, language?_of_shows hd hl, Dialect.ofName?_name hd,
      Option.isSome_some,
      if_true]
  have hleave : s.leave .languageGiven = s :=
    ParseState.settled_of_not_inTable (by rw [hplace]; rfl) _
  have hchoose : ∀ rest, s.choose l rest s.place.entries
      = (s, some (State.on .language .languageGiven, .language d.name)) := by
    intro rest
    have heof : s.tryKind l .eof = (s, none) := ParseState.tryKind_of_refuses rfl
    rw [hplace]
    simp only [State.entries, State.on, ParseState.choose, heof, ParseState.tryKind_of_reads hread]
  have hgoes : s.goes l .languageGiven (.language d.name)
      = { s with place := .languageGiven, reading := { s.reading with dialect := d } } := by
    simp only [ParseState.goes, Reading.after, Dialect.ofName?_name hd, Option.getD_some]
    rfl
  exact hgoes ▸ .single fun rest => ParseState.advance_eq (hchoose rest) hleave

/-- The language line of a dialect other than English. -/
theorem languageLines_of_ne (hd : d ∈ Dialect.all) (hne : d ≠ Dialect.english) :
    languageLines d.name = ["# language: ".toList ++ d.name] := by
  have key : ∀ d ∈ Dialect.all, d.name = [] ∨ d.name = ['e', 'n'] →
      d.name = Dialect.english.name := by
    decide
  rw [languageLines, if_neg]
  intro h
  exact hne (Dialect.eq_of_name_eq hd Dialect.english_mem (key d hd (by simpa using h)))

/-- A document in English says no language. -/
theorem languageLines_english : languageLines Dialect.english.name = [] := by decide

/-- The line of a language is one line. -/
theorem oneLine_language (hd : d ∈ Dialect.all) :
    Text.OneLine ("# language: ".toList ++ d.name) := by
  have key : ∀ d ∈ Dialect.all, '\n' ∉ "# language: ".toList ++ d.name := by decide
  exact key d hd

/-! ### Features and files -/

/-- The lines of a feature are read as what comes back of it, in its own dialect. -/
theorem parse_legible (hd : d ∈ Dialect.all) {f : Feature} (hf : f.Legible d) :
    ∃ x : Ast.Feature, x.plain = f.reread d
      ∧ Document.parse d (Text.joinLines f.lines) = .ok (Document.empty.withFeature x) := by
  obtain ⟨x, hx, hlead⟩ := leads_feature (j := 0) (ready_start hd) (.inl rfl)
    (Dialect.ofName?_name hd) hf (by simpa using (Feature.Legible.joinable hf).1.spell)
  exact ⟨x, hx, parse_of_leads hlead fun _ => mayEnd_of_isBehindTitle⟩

/-- The lines of a feature are read as the feature, in its own dialect. -/
theorem parse_feature (hd : d ∈ Dialect.all) {f : Feature} (hf : f.Fit d) :
    ∃ x : Ast.Feature, x.plain = f
      ∧ Document.parse d (Text.joinLines f.lines) = .ok (Document.empty.withFeature x) := by
  obtain ⟨x, hx, hparse⟩ := parse_legible hd (Feature.Fit.legible hf)
  exact ⟨x, hx.trans (Feature.Fit.reread_eq hf), hparse⟩

/-- The lines of a file are read as what comes back of its feature. The reader starts in any dialect
if they name the language, and in English if they do not. -/
theorem parse_legible_file {given : Dialect} (hgiven : d ≠ Dialect.english ∨ given = d)
    (hd : d ∈ Dialect.all) {f : Feature} (hf : f.Legible d) :
    ∃ x : Ast.Feature, x.plain = f.reread d
      ∧ Document.parse given (Text.joinLines (fileLines (some f)))
        = .ok (Document.empty.withFeature x) := by
  have hlanguage : f.language = d.name := hf.language
  obtain ⟨hjoinable, hlinesNe⟩ := Feature.Legible.joinable hf
  by_cases hen : d = Dialect.english
  · obtain rfl := hgiven.resolve_left (fun hne => hne hen)
    rw [fileLines, hlanguage, hen, languageLines_english, List.nil_append, ← hen]
    exact parse_legible hd hf
  · rw [fileLines, hlanguage, languageLines_of_ne hd hen]
    have hjoin : Joinable (["# language: ".toList ++ d.name] ++ f.lines) :=
      .append_of_ne_nil (by simpa using oneLine_language hd) hjoinable hlinesNe
    have hspell := hjoin.spell
    generalize Text.joinLines (["# language: ".toList ++ d.name] ++ f.lines) = source at hspell
    obtain ⟨ls, ls', hls, hname, hlines⟩ := hspell.append_inv
    obtain _ | @⟨l, _, _, _, hl, hnil⟩ := hname
    cases hnil
    have hfirst := passes_language (s := ParseState.start given) hd rfl hl
    have hready : ParseState.Ready { ParseState.start given with
        place := .languageGiven
        reading := { (ParseState.start given).reading with dialect := d } } :=
      ⟨Dialect.distinct_of_mem hd, rfl, rfl, ParseState.settled_of_not_inTable rfl⟩
    obtain ⟨x, hx, place, hplace, hrun, hready'⟩ := leads_feature (j := 0) hready (.inr rfl)
      (Dialect.ofName?_name hd) hf (by simpa using hlines)
    refine ⟨x, hx, parse_of_passes ?_ hready'.settled (mayEnd_of_isBehindTitle hplace) rfl⟩
    rw [hls]
    exact hfirst.append hrun

/-- The lines of a file are read as its feature, in English. -/
theorem parse_file (hd : d ∈ Dialect.all) {f : Feature} (hf : f.Fit d) :
    ∃ x : Ast.Feature, x.plain = f
      ∧ Document.parse Dialect.english (Text.joinLines (fileLines (some f)))
        = .ok (Document.empty.withFeature x) := by
  have hgiven : d ≠ Dialect.english ∨ Dialect.english = d := by
    by_cases hen : d = Dialect.english
    · exact .inr hen.symm
    · exact .inl hen
  obtain ⟨x, hx, hparse⟩ := parse_legible_file hgiven hd (Feature.Fit.legible hf)
  exact ⟨x, hx.trans (Feature.Fit.reread_eq hf), hparse⟩

/-- A file without a feature is read as nothing. -/
theorem parse_nil (d : Dialect) :
    Document.parse d (Text.joinLines (fileLines none)) = .ok Document.empty := rfl

end Plain

end FeatureTree
