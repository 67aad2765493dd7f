import FeatureTree.Proofs.Plain.Rendered

/-!
# Parts of a document

What stands below a file in the tree of a document is a part of one of eleven sorts. A part of a
feature that is fit is fit for itself, down to its tags and cells, and is written as its own lines.

## Main results

* `Plain.Part.exists_of_mem_children`: what stands below a part is a part, and fit if that is
* `Plain.Part.exists_of_isBelow`: so is what stands anywhere below a file
* `Plain.Part.lines_of_bare`: the lines of a node that holds what a part says
-/

namespace FeatureTree

/-- Whether a node is reached from another one by going to children, at least once. -/
inductive Node.IsBelow (n : Node) : Node → Prop
  | child {m : Node} (h : m ∈ n.children) : IsBelow n m
  | deeper {m k : Node} (hm : IsBelow n m) (h : k ∈ m.children) : IsBelow n k

namespace Plain

/-- What can stand below a file. -/
inductive Part where
  | tag (name : Text)
  | cell (value : Text)
  | row (values : List Text)
  | block (b : Block)
  | step (s : Step)
  | background (b : Background)
  | examples (e : Examples)
  | scenario (s : Scenario)
  | rule (r : Rule)
  | feature (f : Feature)

namespace Part

/-- The node of a part. -/
def node : Part → Node
  | tag name => tagNode name
  | cell value => cellNode value
  | row values => rowNode values
  | block b => b.node
  | step s => s.node
  | background b => b.node
  | examples e => e.node
  | scenario s => s.node
  | rule r => r.node
  | feature f => f.node

/-- The lines of a part. -/
def lines : Part → List Text
  | tag name => [name]
  | cell value => [Cell.escape value]
  | row values => Layout.tableLines [values]
  | block b => b.lines
  | step s => s.lines
  | background b => b.lines
  | examples e => e.lines
  | scenario s => s.lines
  | rule r => r.lines
  | feature f => f.lines

/-- Whether a part can be read back in a dialect. -/
def Fit (d : Dialect) : Part → Prop
  | tag name => IsTag name
  | cell value => Cell.Tidy value
  | row values => values ≠ [] ∧ ∀ v ∈ values, Cell.Tidy v
  | block b => b.Fit
  | step s => s.Fit d
  | background b => b.Fit d
  | examples e => e.Fit d
  | scenario s => s.Fit d
  | rule r => r.Fit d
  | feature f => f.Fit d

variable {d : Dialect}

/-- The node of one of some tags is that of a part that fits. -/
theorem exists_tag {tags : List Text} (htags : ∀ t ∈ tags, IsTag t) {m : Node}
    (hm : m ∈ tags.map tagNode) : ∃ q : Part, m = q.node ∧ q.Fit d := by
  obtain ⟨t, ht, rfl⟩ := List.mem_map.mp hm
  exact ⟨.tag t, rfl, htags t ht⟩

/-- The node of one of some rows is that of a part that fits. -/
theorem exists_row {rows : List (List Text)} (hgrid : Grid rows) {m : Node}
    (hm : m ∈ rows.map rowNode) : ∃ q : Part, m = q.node ∧ q.Fit d := by
  obtain ⟨r, hr, rfl⟩ := List.mem_map.mp hm
  exact ⟨.row r, rfl, hgrid.ne_nil r hr, hgrid.tidy r hr⟩

/-- The node of one of some steps is that of a part that fits. -/
theorem exists_step {steps : List Step} (hsteps : ∀ s ∈ steps, s.Fit d) {m : Node}
    (hm : m ∈ steps.map Step.node) : ∃ q : Part, m = q.node ∧ q.Fit d := by
  obtain ⟨s, hs, rfl⟩ := List.mem_map.mp hm
  exact ⟨.step s, rfl, hsteps s hs⟩

/-- The node of one of the sections of a body is that of a part that fits. -/
theorem exists_section {b : Body} (hb : b.Fit d) {m : Node}
    (hm : m ∈ (b.background.map Background.node).toList ∨ m ∈ b.scenarios.map Scenario.node) :
    ∃ q : Part, m = q.node ∧ q.Fit d := by
  rcases hm with hm | hm
  · obtain ⟨x, hx, rfl⟩ := Option.map_eq_some_iff.mp (Option.mem_toList.mp hm)
    exact ⟨.background x, rfl, hb.background x hx⟩
  · obtain ⟨x, hx, rfl⟩ := List.mem_map.mp hm
    exact ⟨.scenario x, rfl, hb.scenarios x hx⟩

/-- What stands below a part that is fit is a part that is fit. -/
theorem exists_of_mem_children {p : Part} (hp : p.Fit d) {m : Node} (hm : m ∈ p.node.children) :
    ∃ q : Part, m = q.node ∧ q.Fit d := by
  cases p with
  | tag name => cases hm
  | cell value => cases hm
  | row values =>
    obtain ⟨v, hv, rfl⟩ := List.mem_map.mp hm
    exact ⟨.cell v, rfl, hp.2 v hv⟩
  | block b =>
    cases hp with
    | table hne hgrid => exact exists_row hgrid hm
    | docString hfenceable => cases hm
  | step s =>
    obtain ⟨b, hb, rfl⟩ := Option.map_eq_some_iff.mp (Option.mem_toList.mp hm)
    exact ⟨.block b, rfl, hp.block b hb⟩
  | background b => exact exists_step hp.steps hm
  | examples e =>
    rcases List.mem_append.mp hm with hm | hm
    · exact exists_tag hp.tags hm
    · exact exists_row hp.grid hm
  | scenario s =>
    obtain ⟨heading, tags, steps, examples⟩ := s
    cases examples with
    | none =>
      rcases List.mem_append.mp hm with hm | hm
      · exact exists_tag hp.tags hm
      · exact exists_step hp.steps hm
    | some es =>
      rcases List.mem_append.mp hm with hm | hm
      · rcases List.mem_append.mp hm with hm | hm
        · exact exists_tag hp.tags hm
        · exact exists_step hp.steps hm
      · obtain ⟨e, he, rfl⟩ := List.mem_map.mp hm
        exact ⟨.examples e, rfl, hp.examples e he⟩
  | rule r =>
    rcases List.mem_append.mp hm with hm | hm
    · rcases List.mem_append.mp hm with hm | hm
      · exact exists_tag hp.tags hm
      · exact exists_section hp.body (.inl hm)
    · exact exists_section hp.body (.inr hm)
  | feature f =>
    rcases List.mem_append.mp hm with hm | hm
    · rcases List.mem_append.mp hm with hm | hm
      · rcases List.mem_append.mp hm with hm | hm
        · exact exists_tag hp.tags hm
        · exact exists_section hp.body (.inl hm)
      · exact exists_section hp.body (.inr hm)
    · obtain ⟨r, hr, rfl⟩ := List.mem_map.mp hm
      exact ⟨.rule r, rfl, hp.rules r hr⟩

/-- What stands anywhere below a file holds what some part says that is fit. -/
theorem exists_of_isBelow {n : Node} {path : Text} {f : Option Feature} (hf : ∀ p ∈ f, p.Fit d)
    (hn : n.bare = fileNode path f) {m : Node} (hm : n.IsBelow m) :
    ∃ q : Part, m.bare = q.node ∧ q.Fit d := by
  induction hm with
  | child h =>
    have hmem := List.mem_map_of_mem (f := Node.bare) h
    rw [← Node.children_bare, hn] at hmem
    obtain ⟨p, hp, heq⟩ := Option.map_eq_some_iff.mp (Option.mem_toList.mp hmem)
    exact ⟨.feature p, heq.symm, hf p hp⟩
  | deeper _ h ih =>
    obtain ⟨q, hq, hfit⟩ := ih
    have hmem := List.mem_map_of_mem (f := Node.bare) h
    rw [← Node.children_bare, hq] at hmem
    exact exists_of_mem_children hfit hmem

/-- A row is rendered as the only line of its table. -/
theorem lines_of_bare_row {values : List Text} {n : Node} (h : n.bare = rowNode values)
    (default : Value) : n.lines default = .ok ((Layout.tableLines [values]).map .text) := by
  obtain ⟨cells, hs, hcells⟩ := shape_of_bare_row h
  have hwritten : (cells.map (Node.seen default)).mapM Facet.cell
      = .ok (values.map Cell.escape) := by
    refine mapM_of_forall₂ (List.forall₂_map_right_iff.mpr ?_)
    refine Node.forall₂_seen default (fun v _ m hm => ?_) hcells
    rw [Facet.cell, Node.seen, Node.facet, shape_of_bare_cell hm]
    rfl
  rw [Node.lines_eq, hs]
  simp only [Shape.map, Shape.lines, hwritten, bind, Except.bind]
  rfl

/-- A node that holds what a part says is rendered as the lines of the part. -/
theorem lines_of_bare {p : Part} (hp : p.Fit d) {n : Node} (h : n.bare = p.node)
    (default : Value) : n.lines default = .ok (p.lines.map .text) := by
  cases p with
  | tag name =>
    rw [Node.lines_eq, shape_of_bare_tag h]
    rfl
  | cell value =>
    rw [Node.lines_eq, shape_of_bare_cell h]
    rfl
  | row values => exact lines_of_bare_row h default
  | block b => exact b.shows_of_bare default h
  | step s => exact (Step.Fit.legible hp).withKeyword_eq ▸ s.shows_of_bare default h
  | background b => exact b.shows_of_bare default (Background.Fit.legible hp) h
  | examples e => exact e.shows_of_bare default (Examples.Fit.legible hp) h
  | scenario s => exact s.shows_of_bare default (Scenario.Fit.legible hp) h
  | rule r => exact r.shows_of_bare default (Rule.Fit.legible hp) h
  | feature f => exact f.shows_of_bare default (Feature.Fit.legible hp) h

end Part

end Plain

end FeatureTree
