import FeatureTree.Proofs.Lists
import FeatureTree.Proofs.Plain.Basic
import FeatureTree.Proofs.Schema.Bare

/-!
# Nodes that hold what a plain part says

A node is known by what is left of it without its origin: if that is the node of a plain part, the
node has the shape of the part, and its parts hold what the parts of the plain part say.

## Main results

* `Node.children_bare`: the children of a node without its origin are those of the node without
  theirs
* `Plain.Step.shape_of_bare` and its siblings: the shape of a node that holds what a part says
-/

namespace FeatureTree

/-- Changing the parts of a shape leaves its texts alone. -/
theorem Shape.ask_map {α β : Type} (f : α → β) (s : Shape α) : (s.map f).ask = s.ask := by
  funext field
  cases s <;> cases field <;> rfl

/-- Changing the parts of a shape changes those in each list. -/
theorem Shape.list?_map {α β : Type} (f : α → β) (s : Shape α) (field : ListField) :
    (s.map f).list? field = (s.list? field).map (List.map f) := by
  cases s <;> cases field <;> rfl

namespace Node

/-- What is known of every node that is left as a given node without its origin is known, one by
one, of nodes that are left as a list of them. -/
theorem forall₂_of_bare {α : Type} {node : α → Node} {P : Node → α → Prop} {ns : List Node}
    {ps : List α} (h : ∀ p ∈ ps, ∀ n : Node, n.bare = node p → P n p)
    (hbare : ns.map bare = ps.map node) : List.Forall₂ P ns ps := by
  induction ps generalizing ns with
  | nil =>
    obtain rfl := List.map_eq_nil_iff.mp hbare
    exact .nil
  | cons p ps ih =>
    obtain ⟨n, ns', rfl, hn, hns⟩ := List.map_eq_cons_iff.mp hbare
    exact .cons (h p List.mem_cons_self n hn) (ih (fun q hq => h q (List.mem_cons_of_mem _ hq)) hns)

/-- A node without its origin was made from a shape with the same parts. -/
theorem shape_of_bare {n : Node} {s : Shape Node} (h : n.bare = .mk {} s) :
    (n.shape.map bare).withoutComments = s := by
  obtain ⟨o, s'⟩ := n
  rw [bare_mk] at h
  exact (mk.inj h).2

/-- The children of a node without its origin are the children of the node without theirs. -/
theorem children_bare (n : Node) : n.bare.children = n.children.map bare := by
  obtain ⟨o, s⟩ := n
  rw [bare_mk]
  cases s <;>
    simp [children, shape, Shape.map, Shape.withoutComments, Shape.children, Shape.toList_map]

end Node

namespace Plain

/-- The node of a scenario is a scenario or an outline. -/
theorem Scenario.kind_node (p : Scenario) : p.node.kind = .scenario ∨ p.node.kind = .outline := by
  rw [node]
  cases p.examples with
  | none => exact .inl rfl
  | some es => exact .inr rfl

variable {n : Node}

/-- A node that holds a tag has its name. -/
theorem shape_of_bare_tag {tag : Text} (h : n.bare = tagNode tag) :
    n.shape = .tag (.text tag) := by
  have hs := Node.shape_of_bare h
  cases hn : n.shape <;> rw [hn] at hs <;> cases hs
  rfl

/-- A node that holds a cell has its value. -/
theorem shape_of_bare_cell {value : Text} (h : n.bare = cellNode value) :
    n.shape = .cell (.text value) := by
  have hs := Node.shape_of_bare h
  cases hn : n.shape <;> rw [hn] at hs <;> cases hs
  rfl

/-- A node that holds a row has its cells. -/
theorem shape_of_bare_row {values : List Text} (h : n.bare = rowNode values) :
    ∃ cells, n.shape = .row cells ∧ cells.map Node.bare = values.map cellNode := by
  have hs := Node.shape_of_bare h
  cases hn : n.shape <;> rw [hn] at hs <;>
    simp only [Shape.map, Shape.withoutComments, reduceCtorEq, Shape.row.injEq] at hs
  exact ⟨_, rfl, hs⟩

/-- A node that holds a table has its rows. -/
theorem shape_of_bare_table {rows : List (List Text)} (h : n.bare = (Block.table rows).node) :
    ∃ parts, n.shape = .table parts ∧ parts.map Node.bare = rows.map rowNode := by
  have hs := Node.shape_of_bare h
  cases hn : n.shape <;> rw [hn] at hs <;>
    simp only [Shape.map, Shape.withoutComments, reduceCtorEq, Shape.table.injEq] at hs
  exact ⟨_, rfl, hs⟩

/-- A node that holds a doc string has its content and content type. -/
theorem shape_of_bare_docString {content contentType : Text}
    (h : n.bare = (Block.docString content contentType).node) :
    n.shape = .docString (.text content) (.text contentType) := by
  have hs := Node.shape_of_bare h
  cases hn : n.shape <;> rw [hn] at hs <;> cases hs
  rfl

/-- A node that holds a step has its keyword, its text and its argument. -/
theorem Step.shape_of_bare {p : Step} (h : n.bare = p.node) :
    ∃ block, n.shape = .step (.text p.keyword) (.text p.text) block
      ∧ block.map Node.bare = p.block.map Block.node := by
  have hs := Node.shape_of_bare h
  cases hn : n.shape <;> rw [hn] at hs <;>
    simp only [Shape.map, Shape.withoutComments, reduceCtorEq, Shape.step.injEq] at hs
  obtain ⟨rfl, rfl, hblock⟩ := hs
  exact ⟨_, rfl, hblock⟩

/-- A node that holds a background has its title and its steps. -/
theorem Background.shape_of_bare {p : Background} (h : n.bare = p.node) :
    ∃ steps, n.shape = .background p.heading.title steps
      ∧ steps.map Node.bare = p.steps.map Step.node := by
  have hs := Node.shape_of_bare h
  cases hn : n.shape <;> rw [hn] at hs <;>
    simp only [Shape.map, Shape.withoutComments, reduceCtorEq, Shape.background.injEq] at hs
  obtain ⟨rfl, hsteps⟩ := hs
  exact ⟨_, rfl, hsteps⟩

/-- A node that holds examples has their title, tags and rows. -/
theorem Examples.shape_of_bare {p : Examples} (h : n.bare = p.node) :
    ∃ tags rows, n.shape = .example p.heading.title tags rows
      ∧ tags.map Node.bare = p.tags.map tagNode ∧ rows.map Node.bare = p.rows.map rowNode := by
  have hs := Node.shape_of_bare h
  cases hn : n.shape <;> rw [hn] at hs <;>
    simp only [Shape.map, Shape.withoutComments, reduceCtorEq, Shape.example.injEq] at hs
  obtain ⟨rfl, htags, hrows⟩ := hs
  exact ⟨_, _, rfl, htags, hrows⟩

/-- A node holds what a scenario says as a scenario or as an outline, by its examples. -/
theorem Scenario.shape_of_bare {p : Scenario} (h : n.bare = p.node) :
    ∃ tags steps, tags.map Node.bare = p.tags.map tagNode
      ∧ steps.map Node.bare = p.steps.map Step.node
      ∧ ((p.examples = none ∧ n.shape = .scenario p.heading.title tags steps)
        ∨ ∃ es parts, p.examples = some es ∧ n.shape = .outline p.heading.title tags steps parts
          ∧ parts.map Node.bare = es.map Examples.node) := by
  obtain ⟨heading, tags, steps, examples⟩ := p
  cases examples with
  | none =>
    have hs := Node.shape_of_bare h
    cases hn : n.shape <;> rw [hn] at hs <;>
      simp only [Shape.map, Shape.withoutComments, reduceCtorEq, Shape.scenario.injEq] at hs
    obtain ⟨rfl, htags, hsteps⟩ := hs
    exact ⟨_, _, htags, hsteps, .inl ⟨rfl, rfl⟩⟩
  | some es =>
    have hs := Node.shape_of_bare h
    cases hn : n.shape <;> rw [hn] at hs <;>
      simp only [Shape.map, Shape.withoutComments, reduceCtorEq, Shape.outline.injEq] at hs
    obtain ⟨rfl, htags, hsteps, hexamples⟩ := hs
    exact ⟨_, _, htags, hsteps, .inr ⟨_, _, rfl, rfl, hexamples⟩⟩

/-- A node that holds a rule has its title, its tags, its background and its tests. -/
theorem Rule.shape_of_bare {p : Rule} (h : n.bare = p.node) :
    ∃ tags setup tests, n.shape = .rule p.heading.title tags setup tests
      ∧ tags.map Node.bare = p.tags.map tagNode
      ∧ setup.map Node.bare = p.body.background.map Background.node
      ∧ tests.map Node.bare = p.body.scenarios.map Scenario.node := by
  have hs := Node.shape_of_bare h
  cases hn : n.shape <;> rw [hn] at hs <;>
    simp only [Shape.map, Shape.withoutComments, reduceCtorEq, Shape.rule.injEq] at hs
  obtain ⟨rfl, htags, hsetup, htests⟩ := hs
  exact ⟨_, _, _, rfl, htags, hsetup, htests⟩

/-- A node that holds a feature has its title, language, tags, background, tests and rules. -/
theorem Feature.shape_of_bare {p : Feature} (h : n.bare = p.node) :
    ∃ tags setup tests rules,
      n.shape = .feature p.heading.title (.text p.language) tags setup tests rules
      ∧ tags.map Node.bare = p.tags.map tagNode
      ∧ setup.map Node.bare = p.body.background.map Background.node
      ∧ tests.map Node.bare = p.body.scenarios.map Scenario.node
      ∧ rules.map Node.bare = p.rules.map Rule.node := by
  have hs := Node.shape_of_bare h
  cases hn : n.shape <;> rw [hn] at hs <;>
    simp only [Shape.map, Shape.withoutComments, reduceCtorEq, Shape.feature.injEq] at hs
  obtain ⟨rfl, rfl, htags, hsetup, htests, hrules⟩ := hs
  exact ⟨_, _, _, _, rfl, htags, hsetup, htests, hrules⟩

/-- A node that holds a file has its path and its feature. -/
theorem shape_of_bare_file {path : Text} {f : Option Feature} (h : n.bare = fileNode path f) :
    ∃ held comments, n.shape = .featureFile (.text path) held comments
      ∧ held.map Node.bare = f.map Feature.node := by
  have hs := Node.shape_of_bare h
  cases hn : n.shape <;> rw [hn] at hs <;>
    simp only [Shape.map, Shape.withoutComments, reduceCtorEq, Shape.featureFile.injEq] at hs
  obtain ⟨rfl, hheld, -⟩ := hs
  exact ⟨_, _, rfl, hheld⟩

end Plain

end FeatureTree
