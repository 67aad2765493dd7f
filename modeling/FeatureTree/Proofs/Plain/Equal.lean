import FeatureTree.Node.Equality
import FeatureTree.Proofs.Plain.Nodes
import Mathlib.Data.List.Forall2

/-!
# Nodes that hold the same are equal

Two nodes that hold what the same plain part says are equal, wherever they come from. Of a feature
even the language may differ, because it is not compared.

## Main results

* `Plain.Feature.equals_of_bare`: two nodes that hold the same feature are equal
* `Plain.equals_of_bare_file`: so are two files around them
-/

namespace FeatureTree

/-! ### Comparing texts and lists -/

/-- A text agrees with itself. -/
theorem Value.agrees_text (t : Text) : (Value.text t).agrees (.text t) = true := by
  simp [agrees, agreesBy, sameKey]

/-- A list of texts agrees with itself. -/
theorem Value.agrees_texts (ts : List Text) :
    (Value.list (ts.map .text)).agrees (.list (ts.map .text)) = true := by
  have heach : Id.run (agreesEachBy (fun i j => pure (i == j)) (ts.map Value.text) (ts.map .text))
      = true := by
    induction ts with
    | nil => rfl
    | cons t ts ih =>
      have ht := agrees_text t
      rw [agrees] at ht
      rw [List.map_cons, agreesEachBy]
      simp only [Id.run_bind, ht, if_true, ih]
  rw [agrees, agreesBy]
  simpa [items?] using heach

namespace Compared

variable {α β : Type} {same : α → β → Except Fault Bool}

/-- Lists agree if their members do, one by one. -/
theorem agree_of_forall₂ {as : List α} {bs : List β}
    (h : List.Forall₂ (fun a b => same a b = .ok true) as bs) : agree same as bs = .ok true := by
  have heach : agreeEach same as bs = .ok true := by
    induction h with
    | nil => rfl
    | cons hfirst _ ih =>
      rw [agreeEach, hfirst]
      exact ih
  rw [agree, if_pos h.length_eq, heach]

end Compared

namespace Node

/-- Nodes are compared by their shapes, with the comparisons of their parts. -/
theorem equals_eq (n m : Node) :
    n.equals m = agreesWith (n.shape.map fun part => (part, part.equals)) m := by
  obtain ⟨o, s⟩ := n
  exact equals_mk o s m

/-- Nodes of one kind that agree in every capability of the kind are equal. -/
theorem equals_of_agreeIn {n m : Node} (hkind : n.kind = m.kind)
    (h : ∀ c ∈ Capability.ofKind m.kind,
      Compared.agreeIn (fun v w => .ok (v.agrees w)) (fun (part : Node × Comparison) b => part.2 b)
        ((n.shape.map fun part => (part, part.equals)).compared (nameOf ·.1))
        (m.shape.compared nameOf) c = .ok true) : n.equals m = .ok true := by
  have hshared : Capability.shared m.kind m.kind = Capability.ofKind m.kind := by
    cases m.kind <;> rfl
  have hall : ∀ {f : Capability → Except Fault Bool} (cs : List Capability),
      (∀ c ∈ cs, f c = .ok true) → cs.allM f = .ok true := by
    intro f cs hcs
    induction cs with
    | nil => rfl
    | cons c cs ih =>
      rw [List.allM, hcs c List.mem_cons_self]
      exact ih fun c hc => hcs c (List.mem_cons_of_mem _ hc)
  have hk : (n.shape.map fun part => (part, part.equals)).kind = m.kind := by
    rw [Shape.kind_map]
    exact hkind
  rw [equals_eq, agreesWith, hk, hshared]
  cases hcs : Capability.ofKind m.kind with
  | nil => exact absurd (hshared.trans hcs) (Capability.shared_self_ne_nil m.kind)
  | cons c cs => exact hall (c :: cs) (hcs ▸ h)

/-- Nodes that hold what plain parts say are equal one by one if nodes that hold the same part
are. -/
theorem forall₂_equals {α : Type} {node : α → Node} {ns ms : List Node} {ps : List α}
    (h : ∀ p ∈ ps, ∀ n m : Node, n.bare = node p → m.bare = node p → n.equals m = .ok true)
    (hns : ns.map bare = ps.map node) (hms : ms.map bare = ps.map node) :
    List.Forall₂ (fun (part : Node × Comparison) b => part.2 b = .ok true)
      (ns.map fun part => (part, part.equals)) ms := by
  rw [List.forall₂_map_left_iff]
  induction ps generalizing ns ms with
  | nil =>
    obtain rfl := List.map_eq_nil_iff.mp hns
    obtain rfl := List.map_eq_nil_iff.mp hms
    exact .nil
  | cons p ps ih =>
    obtain ⟨n, ns', rfl, hn, hns'⟩ := List.map_eq_cons_iff.mp hns
    obtain ⟨m, ms', rfl, hm, hms'⟩ := List.map_eq_cons_iff.mp hms
    exact .cons (h p List.mem_cons_self n m hn hm)
      (ih (fun q hq => h q (List.mem_cons_of_mem _ hq)) hns' hms')

end Node

namespace Plain

variable {n m : Node}

/-! ### Parts without a title -/

/-- Two nodes of one tag are equal. -/
theorem tag_equals {tag : Text} (hn : n.bare = tagNode tag) (hm : m.bare = tagNode tag) :
    n.equals m = .ok true := by
  have hns := shape_of_bare_tag hn
  have hms := shape_of_bare_tag hm
  refine Node.equals_of_agreeIn (by rw [Node.kind, Node.kind, hns, hms]) ?_
  rw [Node.kind, hns, hms]
  simp [Shape.kind, Capability.ofKind, Compared.agreeIn, Shape.compared, Shape.map, Shape.ask,
    Shape.nameOf, Shape.field?, Value.agrees_text, bind, Except.bind]

/-- Two nodes of one cell are equal. -/
theorem cell_equals {value : Text} (hn : n.bare = cellNode value) (hm : m.bare = cellNode value) :
    n.equals m = .ok true := by
  have hns := shape_of_bare_cell hn
  have hms := shape_of_bare_cell hm
  refine Node.equals_of_agreeIn (by rw [Node.kind, Node.kind, hns, hms]) ?_
  rw [Node.kind, hns, hms]
  simp [Shape.kind, Capability.ofKind, Compared.agreeIn, Shape.compared, Shape.map,
    Shape.textValue?, Shape.textField?, Shape.field?, Fault.ofOption, Value.agrees_text, bind,
    Except.bind]

/-- Two nodes of one row are equal. -/
theorem row_equals {values : List Text} (hn : n.bare = rowNode values)
    (hm : m.bare = rowNode values) :
    n.equals m = .ok true := by
  obtain ⟨cells, hns, hcells⟩ := shape_of_bare_row hn
  obtain ⟨cells', hms, hcells'⟩ := shape_of_bare_row hm
  have hagree := Compared.agree_of_forall₂
    (Node.forall₂_equals (fun v _ n m => cell_equals) hcells hcells')
  refine Node.equals_of_agreeIn (by rw [Node.kind, Node.kind, hns, hms]; rfl) ?_
  rw [Node.kind, hns, hms]
  simpa [Shape.kind, Capability.ofKind, Compared.agreeIn, Shape.compared, Shape.map,
    Shape.children, bind, Except.bind] using hagree

/-- Two nodes of one argument are equal. -/
theorem Block.equals_of_bare {p : Block} (hn : n.bare = p.node) (hm : m.bare = p.node) :
    n.equals m = .ok true := by
  cases p with
  | table rows =>
    obtain ⟨parts, hns, hparts⟩ := shape_of_bare_table hn
    obtain ⟨parts', hms, hparts'⟩ := shape_of_bare_table hm
    have hagree := Compared.agree_of_forall₂
      (Node.forall₂_equals (fun v _ n m => row_equals) hparts hparts')
    refine Node.equals_of_agreeIn (by rw [Node.kind, Node.kind, hns, hms]; rfl) ?_
    rw [Node.kind, hns, hms]
    simpa [Shape.kind, Capability.ofKind, Compared.agreeIn, Shape.compared, Shape.map,
      Shape.list?, Fault.ofOption, bind, Except.bind] using hagree
  | docString content contentType =>
    have hns := shape_of_bare_docString hn
    have hms := shape_of_bare_docString hm
    refine Node.equals_of_agreeIn (by rw [Node.kind, Node.kind, hns, hms]) ?_
    rw [Node.kind, hns, hms]
    simp [Shape.kind, Capability.ofKind, Compared.agreeIn, Shape.compared, Shape.map,
      Shape.textValue?, Shape.textField?, Shape.field?, Fault.ofOption, Value.agrees_text, bind,
      Except.bind]

/-- Two nodes of one step are equal. -/
theorem Step.equals_of_bare {p : Step} (hn : n.bare = p.node) (hm : m.bare = p.node) :
    n.equals m = .ok true := by
  obtain ⟨block, hns, hblock⟩ := shape_of_bare hn
  obtain ⟨block', hms, hblock'⟩ := shape_of_bare hm
  have hparts : block.toList.map Node.bare = p.block.toList.map Block.node := by
    rw [← Option.toList_map, hblock, Option.toList_map]
  have hparts' : block'.toList.map Node.bare = p.block.toList.map Block.node := by
    rw [← Option.toList_map, hblock', Option.toList_map]
  have hagree := Compared.agree_of_forall₂
    (Node.forall₂_equals (fun b _ n m => Block.equals_of_bare) hparts hparts')
  refine Node.equals_of_agreeIn (by rw [Node.kind, Node.kind, hns, hms]; rfl) ?_
  rw [Node.kind, hns, hms]
  simpa [Shape.kind, Capability.ofKind, Compared.agreeIn, Shape.compared, Shape.map,
    Shape.textValue?, Shape.textField?, Shape.field?, Fault.ofOption, Value.agrees_text,
    Shape.children, Option.toList_map, bind, Except.bind] using hagree

/-! ### Titled parts -/

/-- The names of tags are compared as texts. -/
theorem agreeIn_tagged {tags : List Text} {s s' : Shape Node} {parts parts' : List Node}
    (hs : s.list? .tags = some parts) (hs' : s'.list? .tags = some parts')
    (hparts : parts.map Node.bare = tags.map tagNode)
    (hparts' : parts'.map Node.bare = tags.map tagNode) :
    Compared.agreeIn (fun v w => .ok (v.agrees w))
      (fun (part : Node × Node.Comparison) b => part.2 b)
      ((s.map fun part => (part, part.equals)).compared (Node.nameOf ·.1))
      (s'.compared Node.nameOf) .tagged = .ok true := by
  have hnames : ∀ {ns : List Node}, ns.map Node.bare = tags.map tagNode →
      ns.mapM Node.nameOf = .ok (tags.map .text) := by
    intro ns hns
    refine mapM_of_forall₂ (List.forall₂_map_right_iff.mpr
      (Node.forall₂_of_bare (fun tag _ part hpart => ?_) hns))
    rw [Node.nameOf, shape_of_bare_tag hpart]
    rfl
  have hfirst : (parts.map fun part => (part, part.equals)).mapM (fun x => Node.nameOf x.1)
      = .ok (tags.map .text) := by
    rw [List.mapM_map]
    exact hnames hparts
  simp only [Compared.agreeIn, Shape.compared, Shape.list?_map, hs, hs', Option.map_some,
    Fault.ofOption, hfirst, hnames hparts', bind, Except.bind, pure, Except.pure,
    Value.agrees_texts]

/-- The name and the description of a heading are texts. -/
theorem agreeIn_title {h : Heading} {s s' : Shape Node} (hs : s.title? = some h.title)
    (hs' : s'.title? = some h.title) {c : Capability} (hc : c = .named ∨ c = .described) :
    Compared.agreeIn (fun v w => .ok (v.agrees w))
      (fun (part : Node × Node.Comparison) b => part.2 b)
      ((s.map fun part => (part, part.equals)).compared (Node.nameOf ·.1))
      (s'.compared Node.nameOf) c = .ok true := by
  have hname : ∀ {α : Type} {s : Shape α}, s.title? = some h.title →
      s.ask .name = .ok (.text h.name) ∧ s.ask .description = .ok (.text h.description) := by
    intro α s hs
    cases s <;> cases hs <;> exact ⟨rfl, rfl⟩
  have hmap : (s.map fun part => (part, part.equals)).title? = some h.title := by
    rw [← hs]
    cases s <;> rfl
  rcases hc with rfl | rfl <;>
    simp only [Compared.agreeIn, Shape.compared, hname hmap, hname hs', bind, Except.bind,
      Value.agrees_text]

/-- Nodes whose children agree agree in what they contain. -/
theorem agreeIn_containing {s s' : Shape Node}
    (h : Compared.agree (fun (part : Node × Node.Comparison) b => part.2 b)
      (s.children.map fun part => (part, part.equals)) s'.children = .ok true) :
    Compared.agreeIn (fun v w => .ok (v.agrees w))
      (fun (part : Node × Node.Comparison) b => part.2 b)
      ((s.map fun part => (part, part.equals)).compared (Node.nameOf ·.1))
      (s'.compared Node.nameOf) .containing = .ok true := by
  simp only [Compared.agreeIn, Shape.compared, Shape.children_map, bind, Except.bind]
  exact h

/-- Two nodes of one background are equal. -/
theorem Background.equals_of_bare {p : Background} (hn : n.bare = p.node) (hm : m.bare = p.node) :
    n.equals m = .ok true := by
  obtain ⟨steps, hns, hsteps⟩ := shape_of_bare hn
  obtain ⟨steps', hms, hsteps'⟩ := shape_of_bare hm
  have hagree := Compared.agree_of_forall₂
    (Node.forall₂_equals (fun s _ n m => Step.equals_of_bare) hsteps hsteps')
  refine Node.equals_of_agreeIn (by rw [Node.kind, Node.kind, hns, hms]; rfl) fun c hc => ?_
  rw [Node.kind, hms] at hc
  rw [hns, hms]
  simp only [Shape.kind, Capability.ofKind, List.mem_cons, List.not_mem_nil, or_false] at hc
  rcases hc with rfl | rfl | rfl
  · exact agreeIn_title rfl rfl (.inl rfl)
  · exact agreeIn_title rfl rfl (.inr rfl)
  · exact hagree

/-- The examples of an outline are not compared. -/
theorem Scenario.equals_of_bare {p : Scenario} (hn : n.bare = p.node) (hm : m.bare = p.node) :
    n.equals m = .ok true := by
  -- scenarios and outlines have what is compared in the same places
  have hsection : ∀ {n : Node}, n.bare = p.node → ∃ tags steps,
      tags.map Node.bare = p.tags.map tagNode ∧ steps.map Node.bare = p.steps.map Step.node
        ∧ n.shape.title? = some p.heading.title ∧ n.shape.list? .tags = some tags
        ∧ n.shape.list? .steps = some steps
        ∧ Capability.ofKind n.kind = [.named, .described, .tagged, .stepped] := by
    intro n hn
    obtain ⟨tags, steps, htags, hsteps, ⟨-, hs⟩ | ⟨es, parts, -, hs, -⟩⟩ := shape_of_bare hn
    · exact ⟨tags, steps, htags, hsteps, by rw [hs]; rfl, by rw [hs]; rfl, by rw [hs]; rfl,
        by rw [Node.kind, hs]; rfl⟩
    · exact ⟨tags, steps, htags, hsteps, by rw [hs]; rfl, by rw [hs]; rfl, by rw [hs]; rfl,
        by rw [Node.kind, hs]; rfl⟩
  obtain ⟨tags, steps, htags, hsteps, htitle, hnTags, hnSteps, -⟩ := hsection hn
  obtain ⟨tags', steps', htags', hsteps', htitle', hmTags, hmSteps, hcapabilities⟩ := hsection hm
  have hkind : n.kind = m.kind := by rw [← Node.kind_bare n, ← Node.kind_bare m, hn, hm]
  have hagree := Compared.agree_of_forall₂
    (Node.forall₂_equals (fun s _ n m => Step.equals_of_bare) hsteps hsteps')
  refine Node.equals_of_agreeIn hkind fun c hc => ?_
  simp only [hcapabilities, List.mem_cons, List.not_mem_nil, or_false] at hc
  rcases hc with rfl | rfl | rfl | rfl
  · exact agreeIn_title htitle htitle' (.inl rfl)
  · exact agreeIn_title htitle htitle' (.inr rfl)
  · exact agreeIn_tagged hnTags hmTags htags htags'
  · simp only [Compared.agreeIn, Shape.compared, Shape.list?_map, hnSteps, hmSteps, Option.map_some,
      Fault.ofOption, bind, Except.bind]
    exact hagree

/-- The sections of a feature or rule are equal one by one. -/
theorem Body.forall₂_equals {p : Body} {setup setup' : Option Node} {tests tests' : List Node}
    (hsetup : setup.map Node.bare = p.background.map Background.node)
    (hsetup' : setup'.map Node.bare = p.background.map Background.node)
    (htests : tests.map Node.bare = p.scenarios.map Scenario.node)
    (htests' : tests'.map Node.bare = p.scenarios.map Scenario.node) :
    List.Forall₂ (fun (part : Node × Node.Comparison) b => part.2 b = .ok true)
      ((setup.toList ++ tests).map fun part => (part, part.equals)) (setup'.toList ++ tests') := by
  have hlist : ∀ {o : Option Node}, o.map Node.bare = p.background.map Background.node →
      o.toList.map Node.bare = p.background.toList.map Background.node := by
    intro o ho
    rw [← Option.toList_map, ho, Option.toList_map]
  rw [List.map_append]
  exact List.rel_append
    (Node.forall₂_equals (fun b _ n m => Background.equals_of_bare) (hlist hsetup) (hlist hsetup'))
    (Node.forall₂_equals (fun s _ n m => Scenario.equals_of_bare) htests htests')

/-- Two nodes of one rule are equal. -/
theorem Rule.equals_of_bare {p : Rule} (hn : n.bare = p.node) (hm : m.bare = p.node) :
    n.equals m = .ok true := by
  obtain ⟨tags, setup, tests, hns, htags, hsetup, htests⟩ := shape_of_bare hn
  obtain ⟨tags', setup', tests', hms, htags', hsetup', htests'⟩ := shape_of_bare hm
  have hagree : Compared.agree (fun (part : Node × Node.Comparison) b => part.2 b)
      ((tags ++ (setup.toList ++ tests)).map fun part => (part, part.equals))
      (tags' ++ (setup'.toList ++ tests')) = .ok true := by
    rw [List.map_append]
    exact Compared.agree_of_forall₂ (List.rel_append
      (Node.forall₂_equals (fun t _ n m => tag_equals) htags htags')
      (Body.forall₂_equals hsetup hsetup' htests htests'))
  refine Node.equals_of_agreeIn (by rw [Node.kind, Node.kind, hns, hms]; rfl) fun c hc => ?_
  rw [Node.kind, hms] at hc
  rw [hns, hms]
  simp only [Shape.kind, Capability.ofKind, List.mem_cons, List.not_mem_nil, or_false] at hc
  rcases hc with rfl | rfl | rfl | rfl
  · exact agreeIn_title rfl rfl (.inl rfl)
  · exact agreeIn_title rfl rfl (.inr rfl)
  · exact agreeIn_tagged rfl rfl htags htags'
  · refine agreeIn_containing ?_
    simpa only [Shape.children, List.append_assoc] using hagree

/-- Two nodes that hold the same feature are equal, even in two languages. -/
theorem Feature.equals_of_bare {p : Feature} {language : Text} (hn : n.bare = p.node)
    (hm : m.bare = ({ p with language } : Feature).node) : n.equals m = .ok true := by
  obtain ⟨tags, setup, tests, rules, hns, htags, hsetup, htests, hrules⟩ := shape_of_bare hn
  obtain ⟨tags', setup', tests', rules', hms, htags', hsetup', htests', hrules'⟩ := shape_of_bare hm
  have hagree : Compared.agree (fun (part : Node × Node.Comparison) b => part.2 b)
      ((tags ++ (setup.toList ++ tests) ++ rules).map fun part => (part, part.equals))
      (tags' ++ (setup'.toList ++ tests') ++ rules') = .ok true := by
    rw [List.map_append, List.map_append]
    exact Compared.agree_of_forall₂ (List.rel_append
      (List.rel_append (Node.forall₂_equals (fun t _ n m => tag_equals) htags htags')
        (Body.forall₂_equals hsetup hsetup' htests htests'))
      (Node.forall₂_equals (fun r _ n m => Rule.equals_of_bare) hrules hrules'))
  refine Node.equals_of_agreeIn (by rw [Node.kind, Node.kind, hns, hms]; rfl) fun c hc => ?_
  rw [Node.kind, hms] at hc
  rw [hns, hms]
  simp only [Shape.kind, Capability.ofKind, List.mem_cons, List.not_mem_nil, or_false] at hc
  rcases hc with rfl | rfl | rfl | rfl
  · exact agreeIn_title rfl rfl (.inl rfl)
  · exact agreeIn_title rfl rfl (.inr rfl)
  · exact agreeIn_tagged rfl rfl htags htags'
  · refine agreeIn_containing ?_
    simpa only [Shape.children, List.append_assoc] using hagree

/-- Two files around the same feature are equal, wherever they are. -/
theorem equals_of_bare_file {path path' language : Text} {p : Feature}
    (hn : n.bare = fileNode path (some p))
    (hm : m.bare = fileNode path' (some { p with language })) : n.equals m = .ok true := by
  obtain ⟨held, comments, hns, hheld⟩ := shape_of_bare_file hn
  obtain ⟨held', comments', hms, hheld'⟩ := shape_of_bare_file hm
  obtain ⟨f, rfl, hf⟩ := Option.map_eq_some_iff.mp hheld
  obtain ⟨f', rfl, hf'⟩ := Option.map_eq_some_iff.mp hheld'
  have hagree : Compared.agree (fun (part : Node × Node.Comparison) b => part.2 b)
      [(f, f.equals)] [f'] = .ok true :=
    Compared.agree_of_forall₂ (.cons (Feature.equals_of_bare hf hf') .nil)
  refine Node.equals_of_agreeIn (by rw [Node.kind, Node.kind, hns, hms]; rfl) fun c hc => ?_
  rw [Node.kind, hms] at hc
  rw [hns, hms]
  simp only [Shape.kind, Capability.ofKind, List.mem_cons, List.not_mem_nil, or_false] at hc
  subst hc
  exact agreeIn_containing hagree

end Plain

end FeatureTree
