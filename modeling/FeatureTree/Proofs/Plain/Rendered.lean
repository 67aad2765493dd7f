import FeatureTree.Node.Render
import FeatureTree.Proofs.Plain.Fit
import FeatureTree.Proofs.Plain.Keywords
import FeatureTree.Proofs.Plain.Nodes

/-!
# What plain parts are rendered as

The lines of a plain part are the lines that rendering gives for whatever holds what the part says.
This is shown first for the facets that a node is rendered from, wherever they come from, and then
for nodes whose keywords are there.

## Main results

* `Facet.titledLines_of_shows`, `Facet.stepLines_of_shows`: titles and steps over facets
* `Plain.Feature.lines_of_bare`: the lines of a node that holds what a feature says
* `Plain.lines_of_bare_file`: the lines of a node that holds what a file says
-/

namespace FeatureTree

/-! ### Facets -/

namespace Facet

/-- Whether the lines of a part are given texts. -/
def Shows (part : Facet) (lines : List Text) : Prop := part.lines () = .ok (lines.map .text)

/-- Whether the name of a part is a given text. -/
def IsNamed (part : Facet) (name : Text) : Prop := part.field .name = .ok (.text name)

/-- Whether a part is a row of cells with given values. -/
def IsRow (part : Facet) (values : List Text) : Prop :=
  part.cells () = .ok (values.map Cell.escape)

variable {parts : List Facet}

/-- Parts that are named as tags give the names of the tags. -/
theorem tagNames_of_named {tags : List Text} (h : List.Forall₂ IsNamed parts tags) :
    tagNames parts = .ok tags := by
  have hnames : parts.mapM (·.field .name) = .ok (tags.map Value.text) :=
    mapM_of_forall₂ (List.forall₂_map_right_iff.mpr h)
  rw [tagNames, hnames]
  exact Layout.mapM_textOnly tags

/-- Parts that are seen as rows give the lines of the table. -/
theorem table_of_rows {rows : List (List Text)} (h : List.Forall₂ IsRow parts rows) :
    table parts = .ok (Layout.tableLines rows) := by
  have hrows : parts.mapM (·.cells ()) = .ok (rows.map (·.map Cell.escape)) :=
    mapM_of_forall₂ (List.forall₂_map_right_iff.mpr h)
  rw [table, hrows]
  rfl

/-- A part that shows some lines shows them indented. -/
theorem indented_of_shows {part : Facet} {lines : List Text} (h : part.Shows lines) :
    part.indented = .ok ((Layout.indent lines).map .text) := by
  rw [Shows] at h
  rw [indented, h]
  exact Layout.indentValues_text 1 lines

/-- Steps that show their lines show them indented, one step after the other. -/
theorem steps_of_shows {lines : List (List Text)} (h : List.Forall₂ Shows parts lines) :
    steps parts = .ok ((lines.flatMap Layout.indent).map .text) := by
  have hsteps : parts.mapM indented
      = .ok (lines.map fun ls => (Layout.indent ls).map Value.text) := by
    refine mapM_of_forall₂ (List.forall₂_map_right_iff.mpr (h.imp ?_))
    exact fun part ls hpart => indented_of_shows hpart
  rw [steps, hsteps, List.map_flatMap]
  simp [Functor.map, Except.map, List.flatMap]

/-- The lines of a titled part over facets of its tags and inner parts. -/
theorem titledLines_of_shows {write : Value → Except Fault Text}
    (hwrite : ∀ t, write (.text t) = .ok t) {keyword : Text} {own : Value} {name description : Text}
    {tagParts inner : List Facet} {tags : List Text} (body : List Text)
    {innerLines : List (List Text)}
    (htags : List.Forall₂ IsNamed tagParts tags) (hinner : List.Forall₂ Shows inner innerLines) :
    Shape.titledLines write (.ok (.text keyword)) tagParts ⟨own, .text name, .text description⟩
        (body.map .text) inner
      = .ok
        (((Plain.Heading.mk keyword name description).part tags body innerLines).map .text) := by
  have hlines : inner.mapM (·.lines ()) = .ok (innerLines.map (·.map Value.text)) :=
    mapM_of_forall₂ (List.forall₂_map_right_iff.mpr hinner)
  simp only [Shape.titledLines, tagNames_of_named htags, Layout.titleOf_text hwrite,
    Layout.descriptionText, hlines, bind, Except.bind, pure, Except.pure, Plain.Heading.part,
    Layout.map_part]
  rfl

/-- The lines of a step over the facet of its argument. -/
theorem stepLines_of_shows {write : Value → Except Fault Text}
    (hwrite : ∀ t, write (.text t) = .ok t) {keyword text : Text} {part : Option Facet}
    {block : Option Plain.Block}
    (hblock : Option.Rel Shows part (block.map Plain.Block.lines)) :
    Shape.stepLines write (.ok (.text keyword)) (.text text) part
      = .ok ((Plain.Step.mk keyword text block).lines.map .text) := by
  cases block with
  | none =>
    cases hblock
    simp [Shape.stepLines, hwrite, Plain.Step.lines, bind, Except.bind, pure, Except.pure]
  | some b =>
    cases hblock with
    | some hpart =>
      simp [Shape.stepLines, hwrite, Plain.Step.lines, bind, Except.bind, pure, Except.pure,
        indented_of_shows hpart]

/-- The lines of a file over the facet of its feature. -/
theorem fileLines_of_shows {write : Value → Except Fault Text}
    (hwrite : ∀ t, write (.text t) = .ok t) {part : Facet} {language : Text} {lines : List Text}
    (hlanguage : part.field .language = .ok (.text language)) (hpart : part.Shows lines) :
    Shape.fileLines write (some part)
      = .ok ((Plain.languageLines language ++ lines).map .text) := by
  rw [Shows] at hpart
  have hagrees : (Value.text language).agrees (.text ['e', 'n'])
      = decide (language = ['e', 'n']) := rfl
  simp only [Shape.fileLines, hpart, hlanguage, Shape.languageLines, hwrite, hagrees, bind,
    Except.bind, pure, Except.pure, Plain.languageLines]
  by_cases hen : language = ['e', 'n'] <;> cases hempty : language.isEmpty <;>
    simp [hen, hempty]

end Facet

/-! ### Nodes -/

namespace Node

variable (default : Value)

/-- A node as a part of the node around it, with its lines. -/
def seen (n : Node) : Facet := n.facet (n.lines default)

/-- A node is written as what is seen of its parts is written. -/
theorem lines_eq (n : Node) :
    n.lines default = (n.shape.map (seen default)).lines Value.written
      (keywordOf default n.origin n.shape) := by
  obtain ⟨o, s⟩ := n
  exact lines_mk default o s

/-- A node with a keyword of its own goes by that. -/
theorem keywordOf_own {o : Origin} {s : Shape Node} {keyword : Text} (hne : keyword ≠ [])
    (h : s.field? .keyword = some (.text keyword)) :
    keywordOf default o s = .ok (.text keyword) := by
  have hpresent : (Value.text keyword).isPresent = true := by simpa using hne
  rw [keywordOf, h]
  simp only [hpresent, if_true]

/-- What is known of what is seen of every node that is left as a given node without its origin is
known, one by one, of nodes that are left as a list of them. -/
theorem forall₂_seen {α : Type} {node : α → Node} {P : Facet → α → Prop}
    {ns : List Node} {ps : List α}
    (h : ∀ p ∈ ps, ∀ n : Node, n.bare = node p → P (n.seen default) p)
    (hbare : ns.map bare = ps.map node) : List.Forall₂ P (ns.map (seen default)) ps :=
  List.forall₂_map_left_iff.mpr (forall₂_of_bare h hbare)

end Node

namespace Plain

variable {d : Dialect} {n : Node} (default : Value)

/-- A node that holds a tag is seen as the tag. -/
theorem isNamed_of_bare {tag : Text} (h : n.bare = tagNode tag) :
    (n.seen default).IsNamed tag := by
  have hs := shape_of_bare_tag h
  rw [Facet.IsNamed, Node.seen, Node.facet, hs]
  rfl

/-- A node that holds a row is seen as the row. -/
theorem isRow_of_bare {values : List Text} (h : n.bare = rowNode values) :
    (n.seen default).IsRow values := by
  obtain ⟨cells, hs, hcells⟩ := shape_of_bare_row h
  have hwritten : cells.mapM (fun c => do Layout.cellText (← c.shape.ask .value))
      = .ok (values.map Cell.escape) := by
    refine mapM_of_forall₂ (List.forall₂_map_right_iff.mpr
      (Node.forall₂_of_bare (fun v _ c hc => ?_) hcells))
    rw [shape_of_bare_cell hc]
    rfl
  rw [Facet.IsRow, Node.seen, Node.facet, hs]
  exact hwritten

/-- A node that holds an argument shows its lines. -/
theorem Block.shows_of_bare {p : Block} (h : n.bare = p.node) :
    (n.seen default).Shows p.lines := by
  rw [Facet.Shows, Node.seen, Node.facet, Node.lines_eq]
  cases p with
  | table rows =>
    obtain ⟨parts, hs, hparts⟩ := shape_of_bare_table h
    have hrows := Node.forall₂_seen default (P := Facet.IsRow)
      (fun values _ m hm => isRow_of_bare default hm) hparts
    rw [hs]
    simp only [Shape.map, Shape.lines, Facet.table_of_rows hrows]
    rfl
  | docString content contentType =>
    rw [shape_of_bare_docString h]
    rfl

/-- A step without a keyword is rendered with the bullet. -/
theorem Step.shows_of_bare {p : Step} (h : n.bare = p.node) :
    (n.seen default).Shows p.withKeyword.lines := by
  obtain ⟨block, hs, hblock⟩ := shape_of_bare h
  have hkeyword : Node.keywordOf default n.origin n.shape = .ok (.text p.withKeyword.keyword) := by
    rw [hs, Node.keywordOf, withKeyword]
    cases hempty : p.keyword.isEmpty <;> simp [Shape.field?, Shape.kind, hempty]
  have hlines : p.withKeyword.lines = (Step.mk p.withKeyword.keyword p.text p.block).lines := by
    rw [withKeyword]
    split <;> rfl
  rw [Facet.Shows, Node.seen, Node.facet, Node.lines_eq, hkeyword, hs, hlines]
  refine Facet.stepLines_of_shows (fun _ => rfl) ?_
  cases hpb : p.block with
  | none =>
    rw [hpb] at hblock
    obtain rfl := Option.map_eq_none_iff.mp hblock
    exact .none
  | some b =>
    rw [hpb] at hblock
    obtain ⟨m, rfl, hm⟩ := Option.map_eq_some_iff.mp hblock
    exact .some (b.shows_of_bare default hm)

/-- Nodes that hold steps show the lines of the steps. -/
theorem shows_steps {steps : List Step} {parts : List Node}
    (h : parts.map Node.bare = steps.map Step.node) :
    Facet.steps (parts.map (Node.seen default))
      = .ok ((stepLines (steps.map Step.withKeyword)).map .text) := by
  have hshows := Node.forall₂_seen default
    (P := fun part p => part.Shows (Step.withKeyword p).lines)
    (fun p _ m hm => p.shows_of_bare default hm) h
  rw [Facet.steps_of_shows (List.forall₂_map_right_iff.mpr hshows), List.flatMap_map, stepLines,
    List.flatMap_map]

/-- Steps that are legible have keywords. -/
theorem Step.Legible.withKeyword_eq {p : Step} (hp : p.Legible d) : p.withKeyword = p := by
  rw [Step.withKeyword, if_neg]
  simpa using hp.word.ne_nil

/-- Legible steps have keywords already. -/
theorem map_withKeyword {steps : List Step} (hp : ∀ p ∈ steps, p.Legible d) :
    steps.map Step.withKeyword = steps :=
  (List.map_congr_left fun p hmem => (hp p hmem).withKeyword_eq).trans (List.map_id _)

/-- Nodes that hold tags are seen as the tags. -/
theorem named_tags {tags : List Text} {parts : List Node}
    (h : parts.map Node.bare = tags.map tagNode) :
    List.Forall₂ Facet.IsNamed (parts.map (Node.seen default)) tags :=
  Node.forall₂_seen default (fun _ _ _ hm => isNamed_of_bare default hm) h

/-- A node that holds a legible background shows its lines. -/
theorem Background.shows_of_bare {p : Background} (hp : p.Legible d) (h : n.bare = p.node) :
    (n.seen default).Shows p.lines := by
  obtain ⟨steps, hs, hsteps⟩ := shape_of_bare h
  rw [Facet.Shows, Node.seen, Node.facet, Node.lines_eq,
    Node.keywordOf_own default hp.heading.word.ne_nil (by rw [hs]; rfl), hs]
  simp only [Shape.map, Shape.lines, shows_steps default hsteps, map_withKeyword hp.steps, bind,
    Except.bind]
  exact Facet.titledLines_of_shows (fun _ => rfl) _ .nil .nil

/-- A node that holds legible examples shows their lines. -/
theorem Examples.shows_of_bare {p : Examples} (hp : p.Legible d) (h : n.bare = p.node) :
    (n.seen default).Shows p.lines := by
  obtain ⟨tags, rows, hs, htags, hrows⟩ := shape_of_bare h
  have hgrid := Node.forall₂_seen default (P := Facet.IsRow)
    (fun values _ m hm => isRow_of_bare default hm) hrows
  rw [Facet.Shows, Node.seen, Node.facet, Node.lines_eq,
    Node.keywordOf_own default hp.heading.word.ne_nil (by rw [hs]; rfl), hs]
  simp only [Shape.map, Shape.lines, Facet.table_of_rows hgrid, bind, Except.bind]
  exact Facet.titledLines_of_shows (fun _ => rfl) _ (named_tags default htags) .nil

/-- A node that holds a legible scenario shows its lines. -/
theorem Scenario.shows_of_bare {p : Scenario} (hp : p.Legible d) (h : n.bare = p.node) :
    (n.seen default).Shows p.lines := by
  obtain ⟨tags, steps, htags, hsteps, ⟨hnone, hs⟩ | ⟨es, parts, hes, hs, hparts⟩⟩ :=
    shape_of_bare h
  · rw [Facet.Shows, Node.seen, Node.facet, Node.lines_eq,
      Node.keywordOf_own default hp.heading.word.ne_nil (by rw [hs]; rfl), hs]
    simp only [Shape.map, Shape.lines, shows_steps default hsteps, map_withKeyword hp.steps, bind,
      Except.bind,
      lines, hnone]
    exact Facet.titledLines_of_shows (fun _ => rfl) _ (named_tags default htags) .nil
  · have hinner := Node.forall₂_seen default (P := fun part e => part.Shows (Examples.lines e))
      (fun e hmem m hm => e.shows_of_bare default (hp.examples e (by simpa [hes] using hmem)) hm)
      hparts
    rw [Facet.Shows, Node.seen, Node.facet, Node.lines_eq,
      Node.keywordOf_own default hp.heading.word.ne_nil (by rw [hs]; rfl), hs]
    simp only [Shape.map, Shape.lines, shows_steps default hsteps, map_withKeyword hp.steps, bind,
      Except.bind,
      lines, hes, Option.getD_some]
    exact Facet.titledLines_of_shows (fun _ => rfl) _ (named_tags default htags)
      (List.forall₂_map_right_iff.mpr hinner)

/-- The sections of a feature or rule are rendered one by one. -/
theorem Body.shows_of_bare {p : Body} (hp : p.Legible d) {setup : Option Node} {tests : List Node}
    (hsetup : setup.map Node.bare = p.background.map Background.node)
    (htests : tests.map Node.bare = p.scenarios.map Scenario.node) :
    List.Forall₂ Facet.Shows
      ((setup.map (Node.seen default)).toList ++ tests.map (Node.seen default))
      p.parts := by
  refine List.rel_append ?_ ?_
  · cases hb : p.background with
    | none =>
      rw [hb] at hsetup
      obtain rfl := Option.map_eq_none_iff.mp hsetup
      exact .nil
    | some b =>
      rw [hb] at hsetup
      obtain ⟨m, rfl, hm⟩ := Option.map_eq_some_iff.mp hsetup
      exact .cons (b.shows_of_bare default (hp.background b hb) hm) .nil
  · refine List.forall₂_map_right_iff.mpr (Node.forall₂_seen default ?_ htests)
    exact fun s hmem m hm => s.shows_of_bare default (hp.scenarios s hmem) hm

/-- A node that holds a legible rule shows its lines. -/
theorem Rule.shows_of_bare {p : Rule} (hp : p.Legible d) (h : n.bare = p.node) :
    (n.seen default).Shows p.lines := by
  obtain ⟨tags, setup, tests, hs, htags, hsetup, htests⟩ := shape_of_bare h
  rw [Facet.Shows, Node.seen, Node.facet, Node.lines_eq,
    Node.keywordOf_own default hp.heading.word.ne_nil (by rw [hs]; rfl), hs]
  exact Facet.titledLines_of_shows (fun _ => rfl) [] (named_tags default htags)
    (p.body.shows_of_bare default hp.body hsetup htests)

/-- A node that holds a legible feature shows its lines. -/
theorem Feature.shows_of_bare {p : Feature} (hp : p.Legible d) (h : n.bare = p.node) :
    (n.seen default).Shows p.lines := by
  obtain ⟨tags, setup, tests, rules, hs, htags, hsetup, htests, hrules⟩ := shape_of_bare h
  have hinner : List.Forall₂ Facet.Shows ((setup.map (Node.seen default)).toList
      ++ tests.map (Node.seen default) ++ rules.map (Node.seen default))
      (p.body.parts ++ p.rules.map Rule.lines) := by
    refine List.rel_append (p.body.shows_of_bare default hp.body hsetup htests) ?_
    refine List.forall₂_map_right_iff.mpr (Node.forall₂_seen default ?_ hrules)
    exact fun r hmem m hm => r.shows_of_bare default (hp.rules r hmem) hm
  rw [Facet.Shows, Node.seen, Node.facet, Node.lines_eq,
    Node.keywordOf_own default hp.heading.word.ne_nil (by rw [hs]; rfl), hs]
  exact Facet.titledLines_of_shows (fun _ => rfl) [] (named_tags default htags) hinner

/-- A node that holds what a file says is rendered as the lines of the file. -/
theorem lines_of_legible_file {path : Text} {f : Option Feature} (hf : ∀ p ∈ f, p.Legible d)
    (h : n.bare = fileNode path f) : n.lines default = .ok ((fileLines f).map .text) := by
  obtain ⟨held, comments, hs, hheld⟩ := shape_of_bare_file h
  rw [Node.lines_eq, hs]
  cases f with
  | none =>
    obtain rfl := Option.map_eq_none_iff.mp hheld
    rfl
  | some p =>
    obtain ⟨m, rfl, hm⟩ := Option.map_eq_some_iff.mp hheld
    obtain ⟨tags, setup, tests, rules, hshape, -⟩ := Feature.shape_of_bare hm
    refine Facet.fileLines_of_shows (fun _ => rfl) ?_ (p.shows_of_bare default (hf p rfl) hm)
    rw [Node.seen, Node.facet, hshape]
    rfl

/-- A node that holds a file is written as the lines of its feature. -/
theorem lines_of_bare_file {path : Text} {f : Option Feature} (hf : ∀ p ∈ f, p.Fit d)
    (h : n.bare = fileNode path f) : n.lines default = .ok ((fileLines f).map .text) :=
  lines_of_legible_file default (fun p hp => Feature.Fit.legible (hf p hp)) h

end Plain

end FeatureTree
