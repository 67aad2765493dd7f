import FeatureTree.Proofs.Plain.ReadFile
import FeatureTree.Reading

/-!
# Fragments that are read back

A part that stands alone is read in a small document around it, in the dialect of the reader, in
which its lines stand at the left edge directly behind a title or a step. What is read in front of
the part is the same for all parts that are put there, so each document around a part is read once,
up to the part.

## Main results

* `Plain.exists_parse_inFeature`: a part behind the title of a feature
* `Plain.exists_parse_inScenario`: a part behind the title of a scenario or outline
* `Plain.exists_parse_inStep`: a part behind a step
-/

namespace FeatureTree

open Ast (Document)

namespace Plain

variable {d : Dialect}

/-! ### The documents around parts -/

/-- The name of the feature that is put around a part. -/
def frameName : Text := "Fake feature to parse".toList

/-- The title of the feature that is put around a part. -/
def frameTitle (d : Dialect) : Text := Layout.titleLine d.primaryKeywords.feature frameName

/-- The step that is put in front of an argument or examples. -/
def frameStep : Text := "* fake step".toList

/-- Lines are put into a feature by putting its title in front of them. -/
theorem inFeature_joinLines {ls : List Text} (hne : ls ≠ []) :
    Fragment.inFeature d.primaryKeywords (Text.joinLines ls)
      = Text.joinLines (frameTitle d :: ls) := by
  rw [Text.joinLines_cons hne, frameTitle, Layout.titleLine, if_neg (by decide)]
  have hname : ": Fake feature to parse\n".toList = ':' :: ' ' :: frameName ++ ['\n'] := by decide
  simp [Fragment.inFeature, hname]

/-- A title without a name in front of lines. -/
theorem title_joinLines (k : Text) {ls : List Text} (hne : ls ≠ []) :
    k ++ ":\n".toList ++ Text.joinLines ls = Text.joinLines (Layout.titleLine k [] :: ls) := by
  have hcolon : ":\n".toList = [':', '\n'] := by decide
  rw [Text.joinLines_cons hne]
  simp [Layout.titleLine, hcolon]

/-- Lines are put behind a step by putting its line in front of them. -/
theorem frameStep_joinLines {ls : List Text} (hne : ls ≠ []) :
    "* fake step\n".toList ++ Text.joinLines ls = Text.joinLines (frameStep :: ls) := by
  rw [Text.joinLines_cons hne]
  have hstep : "* fake step\n".toList = frameStep ++ ['\n'] := by decide
  simp [hstep]

/-- Lines are put into a scenario by putting the titles of a feature and of it in front of them. -/
theorem inScenario_joinLines {ls : List Text} (hne : ls ≠ []) :
    Fragment.inScenario d.primaryKeywords (Text.joinLines ls)
      = Text.joinLines
        (frameTitle d :: Layout.titleLine d.primaryKeywords.scenario [] :: ls) := by
  rw [Fragment.inScenario, title_joinLines _ hne, inFeature_joinLines (by simp)]

/-- Lines are put below a step by putting the titles and the step in front of them. -/
theorem inStep_joinLines {ls : List Text} (hne : ls ≠ []) :
    Fragment.inStep d.primaryKeywords (Text.joinLines ls)
      = Text.joinLines (frameTitle d :: Layout.titleLine d.primaryKeywords.scenario []
        :: frameStep :: ls) := by
  rw [Fragment.inStep, frameStep_joinLines hne, inScenario_joinLines (by simp)]

/-- Lines are put into an outline by putting the titles and a step in front of them. -/
theorem inOutline_joinLines {ls : List Text} (hne : ls ≠ []) :
    Fragment.inOutline d.primaryKeywords (Text.joinLines ls)
      = Text.joinLines (frameTitle d :: Layout.titleLine d.primaryKeywords.outline []
        :: frameStep :: ls) := by
  have hlines : ":\n* fake step\n".toList = ":\n".toList ++ "* fake step\n".toList := by decide
  rw [Fragment.inOutline, hlines, List.append_assoc, List.append_assoc,
    frameStep_joinLines hne, ← List.append_assoc, title_joinLines _ (by simp),
    inFeature_joinLines (by simp)]

/-! ### Reading up to a part -/

/-- The keyword of the feature that is put around is a keyword of features. -/
theorem titleWord_frame (hd : d ∈ Dialect.all) :
    d.TitleWord .featureLine d.primaryKeywords.feature :=
  Dialect.titleWord_of_mem_titled hd (by simp [PrimaryKeywords.titled])

/-- The keyword of the scenario that is put around is a keyword of scenarios. -/
theorem titleWord_frameScenario (hd : d ∈ Dialect.all) :
    d.TitleWord .scenarioLine d.primaryKeywords.scenario :=
  Dialect.titleWord_of_mem_titled hd (by simp [PrimaryKeywords.titled])

/-- The keyword of the outline that is put around is a keyword of scenarios. -/
theorem titleWord_frameOutline (hd : d ∈ Dialect.all) :
    d.TitleWord .scenarioLine d.primaryKeywords.outline :=
  Dialect.titleWord_of_mem_titled hd (by simp [PrimaryKeywords.titled])

/-- The title of the feature that is put around is one line. -/
theorem oneLine_frameTitle (hd : d ∈ Dialect.all) : (frameTitle d).OneLine := by
  have hname : '\n' ∉ frameName := by decide
  exact oneLine_titleLine (titleWord_frame hd).oneLine hname

/-- A line in front of the feature that is put around a part. -/
theorem spell_inFront (hd : d ∈ Dialect.all) {t : Text} (ht : t.OneLine) :
    Line.Spell (Line.ofText (t ++ '\n' :: Fragment.inFeature d.primaryKeywords []))
      [t, frameTitle d] := by
  have htitle : Fragment.inFeature d.primaryKeywords [] = Text.joinLines [frameTitle d, []] :=
    inFeature_joinLines (List.cons_ne_nil [] [])
  have hlines : ∀ u ∈ [t, frameTitle d], u.OneLine := by
    simpa using ⟨ht, oneLine_frameTitle hd⟩
  rw [htitle, ← Text.joinLines_cons (by simp)]
  exact Line.spell_ofText_lineFeed hlines

/-- The document that was read up to a part, with given tags and sections of the feature. -/
def framed (d : Dialect) (loc : Location) (tags : List Ast.Tag) (b : Ast.Body) : Document :=
  Document.empty.withFeature
    ⟨.ofTitle loc ⟨d.primaryKeywords.feature, frameName⟩, tags, d.name, b, []⟩

/-- The reader behind a document that was read up to a part. -/
def behind (d : Dialect) (place : State) (document : Document) : ParseState :=
  (ParseState.start d).moved place document

section

variable (hd : d ∈ Dialect.all)

include hd

/-- Behind a place outside of tables, with no tags waiting, the reader is ready. -/
theorem ready_behind {place : State} {document : Document} (htags : document.tags = [])
    (hplace : place.inTable = false) : (behind d place document).Ready :=
  ⟨Dialect.distinct_of_mem hd, rfl, htags, ParseState.settled_of_not_inTable hplace⟩

/-- The title of the feature around a part is read, behind tags if there are any. -/
theorem passes_frame {tags : List Text} (htags : ∀ t ∈ tags, IsTag t) {ls : List Line}
    (hls : Line.Spell ls (tagLines tags ++ [frameTitle d])) :
    ∃ (ts : List Ast.Tag) (loc : Location), ts.map (·.name) = tags
      ∧ (ParseState.start d).Passes ls
        (behind d (.heading .feature) (framed d loc ts .empty)) := by
  have hname : Text.trim frameName = frameName := by decide
  obtain ⟨ts, loc, hts, hrun⟩ := passes_title (by decide) (ready_start hd) rfl
    (titleWord_frame hd) hname htags (.inr ⟨.featureTags, rfl, rfl, rfl⟩) hls
  exact ⟨ts, loc, hts, hrun⟩

/-- A part that is read behind the title of a feature is read in the feature around it. -/
theorem exists_parse_inFeature {xs : List Text} (hx : Joinable xs) (hne : xs ≠ [])
    {Q : Document → Prop}
    (hlead : ∀ loc ls, Line.Spell ls xs →
      ∃ document, Q document
        ∧ (behind d (.heading .feature) (framed d loc [] .empty)).Leads ls MayEnd document) :
    ∃ document, Q document ∧ Document.parse d
      (Fragment.inFeature d.primaryKeywords (Text.joinLines xs)) = .ok document := by
  have hjoin : Joinable ([frameTitle d] ++ xs) := by
    refine .append_of_ne_nil (fun l hl => ?_) hx hne
    obtain rfl := List.mem_singleton.mp hl
    exact oneLine_frameTitle hd
  rw [inFeature_joinLines hne]
  obtain ⟨ls, ls', hls, htitle, hrest⟩ := hjoin.spell.append_inv
  have htitle' : Line.Spell ls (tagLines [] ++ [frameTitle d]) := htitle
  obtain ⟨ts, loc, hts, hrun⟩ := passes_frame hd (by simp) htitle'
  obtain rfl := List.map_eq_nil_iff.mp hts
  obtain ⟨document, hQ, place, hplace, hrun', hready⟩ := hlead loc ls' hrest
  have hpasses := hrun.append hrun'
  rw [← hls] at hpasses
  exact ⟨document, hQ, parse_of_passes hpasses hready.settled hplace rfl⟩

end

/-- The reader behind the title of the scenario around a part. -/
def behindScenario (d : Dialect) (loc : Location) (h : Ast.Heading) : ParseState :=
  behind d (.title .feature .scenario) (framed d loc [] ⟨none, [⟨h, [], [], []⟩]⟩)

/-- The reader behind the step in front of a part. -/
def behindStep (d : Dialect) (loc : Location) (h : Ast.Heading) (x : Ast.Step) : ParseState :=
  behind d (.step .feature .scenario .bare) (framed d loc [] ⟨none, [⟨h, [], [x], []⟩]⟩)

section

variable (hd : d ∈ Dialect.all)

include hd

/-- A part that is read behind the title of a scenario or outline is read in the document around
it. -/
theorem exists_parse_inScenario {k : Text} (hk : d.TitleWord .scenarioLine k)
    {xs : List Text} (hx : Joinable xs) (hne : xs ≠ []) {Q : Document → Prop}
    (hlead : ∀ loc h ls, Line.Spell ls xs →
      ∃ document, Q document ∧ (behindScenario d loc h).Leads ls MayEnd document) :
    ∃ document, Q document ∧ Document.parse d
      (Fragment.inFeature d.primaryKeywords
        (Text.joinLines (Layout.titleLine k [] :: xs))) = .ok document := by
  have hname : '\n' ∉ ([] : Text) := by simp
  have hjoin : Joinable ([Layout.titleLine k []] ++ xs) := by
    refine .append_of_ne_nil (fun l hl => ?_) hx hne
    obtain rfl := List.mem_singleton.mp hl
    exact oneLine_titleLine hk.oneLine hname
  refine exists_parse_inFeature hd hjoin (by simp) fun loc ls hls => ?_
  obtain ⟨ls, ls', rfl, htitle, hrest⟩ := Line.Spell.append_inv hls
  have htitle' : Line.Spell ls (tagLines [] ++ [Layout.titleLine k []]) := htitle
  have hready : (behind d (.heading .feature) (framed d loc [] .empty)).Ready :=
    ready_behind hd rfl rfl
  obtain ⟨ts, loc', hts, hrun⟩ := passes_title (by decide) hready rfl hk Text.trimmed_nil (by simp)
    (.inl rfl) htitle'
  obtain rfl := List.map_eq_nil_iff.mp hts
  obtain ⟨document, hQ, place, hplace, hrun', hready'⟩ :=
    hlead loc (.ofTitle loc' ⟨k, []⟩) ls' hrest
  exact ⟨document, hQ, place, hplace, hrun.append hrun', hready'⟩

/-- A part that is read behind a step is read in the document around it, if the dialect has the
bullet of the step. -/
theorem exists_parse_inStep (hbullet : ['*', ' '] ∈ d.stepKeywords) {k : Text}
    (hk : d.TitleWord .scenarioLine k) {xs : List Text} (hx : Joinable xs) (hne : xs ≠ [])
    {Q : Document → Prop}
    (hlead : ∀ loc h x ls, x.table = [] → x.docString = none → Line.Spell ls xs →
      ∃ document, Q document ∧ (behindStep d loc h x).Leads ls MayEnd document) :
    ∃ document, Q document ∧ Document.parse d
      (Fragment.inFeature d.primaryKeywords
        (Text.joinLines (Layout.titleLine k [] :: frameStep :: xs))) = .ok document := by
  have hstart : d.StepStart ['*'] := Dialect.stepStart_of_mem hd hbullet
  have hjoin : Joinable ([frameStep] ++ xs) := by
    refine .append_of_ne_nil (fun l hl => ?_) hx hne
    obtain rfl := List.mem_singleton.mp hl
    have hline : '\n' ∉ frameStep := by decide
    exact hline
  refine exists_parse_inScenario hd hk hjoin (by simp) fun loc h ls hls => ?_
  obtain _ | @⟨l, _, ls, _, hl, hls⟩ := hls
  have hl' : l.Shows ([] ++ (['*'] ++ ' ' :: "fake step".toList)) := hl
  have hready : (behindScenario d loc h).Ready := ready_behind hd rfl rfl
  have hplace : (behindScenario d loc h).place.TakesSteps .feature .scenario := ⟨rfl, rfl⟩
  obtain ⟨w, loc', role, -, hrun⟩ := passes_stepLine hready hplace .nil hstart hl'
  obtain ⟨document, hQ, place, hplace', hrun', hready'⟩ :=
    hlead loc h ⟨loc', w, role, _, [], none⟩ ls rfl rfl hls
  exact ⟨document, hQ, place, hplace', hrun.append hrun', hready'⟩

end

end Plain

end FeatureTree
