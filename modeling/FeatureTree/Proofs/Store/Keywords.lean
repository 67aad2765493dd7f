import FeatureTree.Proofs.Plain.Keywords
import FeatureTree.Proofs.Store.Printing

/-!
# Keywords of nodes that have none

A node without a keyword is written with one: a step with the bullet, a titled part with the first
keyword of its kind in the language of the feature above it. The feature is found by going up from
parent to parent, so all nodes on the way have to be in reach.

## Main results

* `Store.languageFor_of_under`: the language of a node below a feature
* `Store.Represents.prints`: a node below a feature is written like its tree with the keywords of
  the language
* `Node.bare_withKeywords`: what a tree with keywords holds
-/

namespace FeatureTree

/-! ### Trees with keywords -/

/-- The keyword of a kind that goes with a node that has none. -/
def PrimaryKeywords.word (k : PrimaryKeywords) (kind : Kind) : Text :=
  if kind = .step then ['*'] else (k.ofKind? kind).getD []

namespace Shape

variable {α β : Type}

/-- A shape with the keyword of its kind, if it has none of its own. -/
def withWord (k : PrimaryKeywords) (s : Shape α) : Shape α :=
  match s.field? .keyword with
  | some (.text []) => s.withKeyword (.text (k.word s.kind))
  | _ => s

/-- Filling in a keyword and changing the parts can be done in either order. -/
theorem map_withWord (f : α → β) (k : PrimaryKeywords) (s : Shape α) :
    (s.withWord k).map f = (s.map f).withWord k := by
  rw [withWord, withWord, field?_map, kind_map]
  split
  · exact map_withKeyword f _ s
  · rfl

/-- Filling in a keyword and leaving the comments out can be done in either order. -/
theorem withoutComments_withWord (k : PrimaryKeywords) (s : Shape α) :
    (s.withWord k).withoutComments = s.withoutComments.withWord k := by
  have hfield : s.withoutComments.field? .keyword = s.field? .keyword := by
    cases s <;> rfl
  rw [withWord, withWord, hfield, kind_withoutComments]
  split
  · cases s <;> rfl
  · rfl

/-- Filling in a keyword leaves the parts as they are. -/
@[simp] theorem parts_withWord (k : PrimaryKeywords) (s : Shape α) :
    (s.withWord k).parts = s.parts := by
  rw [withWord]
  split
  · exact parts_withKeyword _ s
  · rfl

/-- A shape that has a keyword has the one it was given. -/
theorem field?_withKeyword {s : Shape α} {v : Value} (h : s.field? .keyword = some v) (w : Value) :
    (s.withKeyword w).field? .keyword = some w := by
  cases s <;> cases h <;> rfl

/-- The word can be taken back. -/
theorem withKeyword_withWord (k : PrimaryKeywords) (s : Shape α) :
    (s.withWord k).withKeyword ((s.field? .keyword).getD .null) = s := by
  have hown := withKeyword_self s
  rw [withWord]
  split
  · next h =>
    rw [h] at hown
    rw [h]
    refine Eq.trans ?_ hown
    cases s <;> rfl
  · exact hown

/-- Filling in a keyword keeps all values texts. -/
theorem texts_withWord {k : PrimaryKeywords} {s : Shape α} (h : ∀ v ∈ s.values, ∃ t, v = .text t) :
    ∀ v ∈ (s.withWord k).values, ∃ t, v = .text t := by
  rw [withWord]
  split
  · intro v hv
    rw [withKeyword] at hv
    cases hs : s.setField .keyword (.text (k.word s.kind)) with
    | none => exact h v (by rwa [hs] at hv)
    | some t =>
      rcases mem_values_of_setField hs v (by rwa [hs] at hv) with hv | rfl
      · exact h v hv
      · exact ⟨_, rfl⟩
  · exact h

/-- Only files have comments. -/
theorem withoutComments_eq_self {s : Shape α} (h : s.kind ≠ .featureFile) :
    s.withoutComments = s := by
  cases s with
  | featureFile path held comments => exact absurd rfl h
  | _ => rfl

/-- Only a shape that has a keyword has one after it was filled in. -/
theorem exists_keyword_of_withWord {k : PrimaryKeywords} {s : Shape α} {v : Value}
    (h : (s.withWord k).field? .keyword = some v) : ∃ own, s.field? .keyword = some own := by
  rw [withWord] at h
  split at h
  · next hk => exact ⟨_, hk⟩
  · exact ⟨v, h⟩

/-- What has a keyword is a step or has a title. -/
theorem exists_ofKind?_of_keyword (k : PrimaryKeywords) {s : Shape α} {v : Value}
    (h : s.field? .keyword = some v) (hstep : s.kind ≠ .step) :
    ∃ w, k.ofKind? s.kind = some w := by
  cases s <;> cases h <;> first
    | exact absurd rfl hstep
    | exact ⟨_, rfl⟩

end Shape

namespace Node

/-- A tree with the keyword of its kind for every node that has none. -/
def withKeywords (k : PrimaryKeywords) : Node → Node :=
  fold fun o s => .mk o ((s.map Prod.snd).withWord k)

/-- Keywords are filled in part by part, and then in the shape itself. -/
theorem withKeywords_mk (k : PrimaryKeywords) (o : Origin) (s : Shape Node) :
    (mk o s).withKeywords k = mk o ((s.map (withKeywords k)).withWord k) := by
  rw [withKeywords, fold_mk, Shape.map_map]

/-- The keywords of a tree are given to what is left of it without its origin, too. -/
theorem bare_withKeywords (k : PrimaryKeywords) (n : Node) :
    (n.withKeywords k).bare = n.bare.withKeywords k := by
  induction n using Node.induction with
  | mk o s ih =>
    have hmap : ∀ s : Shape Node, (s.withoutComments).map (withKeywords k)
        = (s.map (withKeywords k)).withoutComments := by
      intro s
      cases s <;> rfl
    rw [withKeywords_mk, bare_mk, bare_mk, withKeywords_mk, Shape.map_withWord,
      Shape.withoutComments_withWord, hmap,
      Shape.map_map, Shape.map_map, Shape.map_congr ih]

/-- A tree that can stand below a feature: its texts are texts, and nothing in it is a feature or a
file. -/
inductive IsInner : Node → Prop
  | mk {o : Origin} {s : Shape Node} (kind : s.kind ≠ .feature ∧ s.kind ≠ .featureFile)
    (texts : ∀ v ∈ s.values, ∃ t, v = .text t) (parts : ∀ n ∈ s.parts, IsInner n) :
    IsInner (.mk o s)

/-- A node is an inner one if its bare node is. -/
theorem IsInner.of_bare {n : Node} (h : n.bare.IsInner) : n.IsInner := by
  induction n using Node.induction with
  | mk o s ih =>
    rw [bare_mk] at h
    cases h with
    | mk kind texts parts =>
      rw [Shape.kind_withoutComments, Shape.kind_map] at kind
      rw [Shape.withoutComments_eq_self (by simpa using kind.2)] at texts parts
      rw [Shape.values_map] at texts
      rw [Shape.parts_map] at parts
      exact .mk kind texts fun n hn => ih n hn (parts _ (List.mem_map_of_mem hn))

end Node

namespace Plain

variable (k : PrimaryKeywords)

/-- Filling in the keyword of a titled shape fills it in in the heading. -/
theorem Heading.title_withKeyword {h : Heading} {keyword : Text} {α : Type} {s : Title → Shape α}
    (hs : ∀ t, (s t).field? .keyword = some t.keyword) (hk : ∀ t, k.word (s t).kind = keyword)
    (hset : ∀ t v, (s t).withKeyword v = s { t with keyword := v }) :
    (s h.title).withWord k = s (h.withKeyword keyword).title := by
  obtain ⟨own, name, description⟩ := h
  rw [Shape.withWord, hs, hk, hset]
  cases own <;> rfl

/-- Tags have no keywords to fill in. -/
theorem withKeywords_tags (tags : List Text) :
    (tags.map tagNode).map (Node.withKeywords k) = tags.map tagNode := by
  rw [List.map_map]
  exact List.map_congr_left fun t _ => Node.withKeywords_mk k _ _

/-- A row has no keywords to fill in. -/
theorem withKeywords_rowNode (values : List Text) :
    (rowNode values).withKeywords k = rowNode values := by
  have hcells : (values.map cellNode).map (Node.withKeywords k) = values.map cellNode := by
    rw [List.map_map]
    exact List.map_congr_left fun v _ => Node.withKeywords_mk k _ _
  rw [rowNode, Node.withKeywords_mk, Shape.map, hcells]
  rfl

/-- Rows have no keywords to fill in. -/
theorem withKeywords_rows (rows : List (List Text)) :
    (rows.map rowNode).map (Node.withKeywords k) = rows.map rowNode := by
  rw [List.map_map]
  exact List.map_congr_left fun r _ => withKeywords_rowNode k r

/-- What a step is given has no keywords to fill in. -/
theorem Block.withKeywords_node (b : Block) : b.node.withKeywords k = b.node := by
  cases b with
  | table rows =>
    rw [node, Node.withKeywords_mk, Shape.map, withKeywords_rows]
    rfl
  | docString content contentType => exact Node.withKeywords_mk k _ _

/-- Filling in the keyword of a step fills it in in the plain step. -/
theorem Step.withKeywords_node (p : Step) : p.node.withKeywords k = p.withKeyword.node := by
  obtain ⟨keyword, text, block⟩ := p
  have hblock : (block.map Block.node).map (Node.withKeywords k) = block.map Block.node := by
    rw [Option.map_map]
    exact Option.map_congr fun b _ => b.withKeywords_node k
  rw [node, Node.withKeywords_mk, Shape.map, hblock]
  cases keyword <;> rfl

/-- Filling in the keywords of steps fills them in in the plain steps. -/
theorem Step.withKeywords_nodes (steps : List Step) :
    (steps.map Step.node).map (Node.withKeywords k)
      = (steps.map Step.withKeyword).map Step.node := by
  rw [List.map_map, List.map_map]
  exact List.map_congr_left fun s _ => s.withKeywords_node k

/-- Filling in the keywords of a background fills them in in the plain background. -/
theorem Background.withKeywords_node (p : Background) :
    p.node.withKeywords k = (p.withKeywords k).node := by
  rw [node, Node.withKeywords_mk, Shape.map, Step.withKeywords_nodes,
    Heading.title_withKeyword k (s := fun t => .background t _) (fun _ => rfl) (fun _ => rfl)
      fun _ _ => rfl]
  rfl

/-- Filling in the keywords of a table of examples fills them in in the plain table. -/
theorem Examples.withKeywords_node (p : Examples) :
    p.node.withKeywords k = (p.withKeywords k).node := by
  rw [node, Node.withKeywords_mk, Shape.map, withKeywords_tags, withKeywords_rows,
    Heading.title_withKeyword k (s := fun t => .example t _ _) (fun _ => rfl) (fun _ => rfl)
      fun _ _ => rfl]
  rfl

/-- Filling in the keywords of a scenario fills them in in the plain scenario. -/
theorem Scenario.withKeywords_node (p : Scenario) :
    p.node.withKeywords k = (p.withKeywords k).node := by
  obtain ⟨heading, tags, steps, examples⟩ := p
  cases examples with
  | none =>
    rw [node, Node.withKeywords_mk, Shape.map, withKeywords_tags, Step.withKeywords_nodes,
      Heading.title_withKeyword k (s := fun t => .scenario t _ _) (fun _ => rfl) (fun _ => rfl)
        fun _ _ => rfl]
    rfl
  | some es =>
    have hexamples : (es.map Examples.node).map (Node.withKeywords k)
        = (es.map (Examples.withKeywords k)).map Examples.node := by
      rw [List.map_map, List.map_map]
      exact List.map_congr_left fun e _ => e.withKeywords_node k
    rw [node, Node.withKeywords_mk, Shape.map, withKeywords_tags, Step.withKeywords_nodes,
      hexamples, Heading.title_withKeyword k (s := fun t => .outline t _ _ _) (fun _ => rfl)
        (fun _ => rfl) fun _ _ => rfl]
    rfl

/-- Filling in the keywords of a background fills them in in the plain body. -/
theorem Body.withKeywords_background (b : Body) :
    (b.background.map Background.node).map (Node.withKeywords k)
      = (b.withKeywords k).background.map Background.node := by
  rw [withKeywords, Option.map_map, Option.map_map]
  exact Option.map_congr fun x _ => x.withKeywords_node k

/-- Filling in the keywords of scenarios fills them in in the plain body. -/
theorem Body.withKeywords_scenarios (b : Body) :
    (b.scenarios.map Scenario.node).map (Node.withKeywords k)
      = (b.withKeywords k).scenarios.map Scenario.node := by
  rw [withKeywords, List.map_map, List.map_map]
  exact List.map_congr_left fun x _ => x.withKeywords_node k

/-- Filling in the keywords of a rule fills them in in the plain rule. -/
theorem Rule.withKeywords_node (p : Rule) : p.node.withKeywords k = (p.withKeywords k).node := by
  rw [node, Node.withKeywords_mk, Shape.map, withKeywords_tags, Body.withKeywords_background,
    Body.withKeywords_scenarios, Heading.title_withKeyword k (s := fun t => .rule t _ _ _)
      (fun _ => rfl) (fun _ => rfl) fun _ _ => rfl]
  rfl

/-- A feature has the keywords that its parts have. -/
theorem Feature.withKeywords_node (p : Feature) :
    p.node.withKeywords k = (p.withKeywords k).node := by
  have hrules : (p.rules.map Rule.node).map (Node.withKeywords k)
      = (p.rules.map (Rule.withKeywords k)).map Rule.node := by
    rw [List.map_map, List.map_map]
    exact List.map_congr_left fun x _ => x.withKeywords_node k
  rw [node, Node.withKeywords_mk, Shape.map, withKeywords_tags, Body.withKeywords_background,
    Body.withKeywords_scenarios, hrules, Heading.title_withKeyword k
      (s := fun t => .feature t _ _ _ _ _) (fun _ => rfl) (fun _ => rfl) fun _ _ => rfl]
  rfl

/-! ### What stands below a feature -/

/-- Nodes that are made from inner things one by one are inner. -/
theorem forall_isInner {α : Type} {node : α → Node} {xs : List α}
    (h : ∀ x ∈ xs, (node x).IsInner) : ∀ n ∈ xs.map node, n.IsInner := by
  simpa using h

/-- An optional node that is made from an inner thing is inner. -/
theorem forall_isInner_option {α : Type} {node : α → Node} {x : Option α}
    (h : ∀ a ∈ x, (node a).IsInner) : ∀ n ∈ (x.map node).toList, n.IsInner := by
  simpa using h

/-- A tag is an inner node. -/
theorem isInner_tagNode (tag : Text) : (tagNode tag).IsInner :=
  .mk (by simp [Shape.kind]) (by simp [Shape.values]) (by simp [Shape.parts, Shape.children])

/-- A row is an inner node. -/
theorem isInner_rowNode (values : List Text) : (rowNode values).IsInner := by
  refine .mk (by simp [Shape.kind]) (by simp [Shape.values]) (forall_isInner fun v _ => ?_)
  exact .mk (by simp [Shape.kind]) (by simp [Shape.values]) (by simp [Shape.parts, Shape.children])

/-- All values of a title are texts. -/
theorem Heading.values_title (h : Heading) : ∀ v ∈ h.title.values, ∃ t, v = .text t := by
  simp [Title.values, title]

/-- What a step is given is an inner node. -/
theorem Block.isInner_node (b : Block) : b.node.IsInner := by
  cases b with
  | table rows =>
    exact .mk (by simp [Shape.kind]) (by simp [Shape.values])
      (forall_isInner fun r _ => isInner_rowNode r)
  | docString content contentType =>
    exact .mk (by simp [Shape.kind]) (by simp [Shape.values])
      (by simp [Shape.parts, Shape.children])

/-- A step is an inner node. -/
theorem Step.isInner_node (p : Step) : p.node.IsInner :=
  .mk (by simp [Shape.kind]) (by simp [Shape.values])
    (forall_isInner_option fun b _ => b.isInner_node)

/-- A background is an inner node. -/
theorem Background.isInner_node (p : Background) : p.node.IsInner :=
  .mk (by simp [Shape.kind]) p.heading.values_title (forall_isInner fun s _ => s.isInner_node)

/-- A table of examples is an inner node. -/
theorem Examples.isInner_node (p : Examples) : p.node.IsInner :=
  .mk (by simp [Shape.kind]) p.heading.values_title (List.forall_mem_append.mpr
    ⟨forall_isInner fun t _ => isInner_tagNode t, forall_isInner fun r _ => isInner_rowNode r⟩)

/-- A scenario is an inner node. -/
theorem Scenario.isInner_node (p : Scenario) : p.node.IsInner := by
  obtain ⟨heading, tags, steps, examples⟩ := p
  have htags : ∀ n ∈ tags.map tagNode, n.IsInner := forall_isInner fun t _ => isInner_tagNode t
  have hsteps : ∀ n ∈ steps.map Step.node, n.IsInner := forall_isInner fun s _ => s.isInner_node
  cases examples with
  | none =>
    exact .mk (by simp [Shape.kind]) heading.values_title
      (List.forall_mem_append.mpr ⟨htags, hsteps⟩)
  | some es =>
    exact .mk (by simp [Shape.kind]) heading.values_title (List.forall_mem_append.mpr
      ⟨List.forall_mem_append.mpr ⟨htags, hsteps⟩, forall_isInner fun e _ => e.isInner_node⟩)

/-- What a feature or rule is made of can stand below a feature. -/
theorem Body.isInner (b : Body) {tags : List Text} :
    ∀ n ∈ tags.map tagNode ++ (b.background.map Background.node).toList
      ++ b.scenarios.map Scenario.node, n.IsInner :=
  List.forall_mem_append.mpr ⟨List.forall_mem_append.mpr
    ⟨forall_isInner fun t _ => isInner_tagNode t, forall_isInner_option fun x _ => x.isInner_node⟩,
    forall_isInner fun s _ => s.isInner_node⟩

/-- A rule is an inner node. -/
theorem Rule.isInner_node (p : Rule) : p.node.IsInner :=
  .mk (by simp [Shape.kind]) p.heading.values_title p.body.isInner

/-- All parts of a feature are inner nodes. -/
theorem Feature.isInner (p : Feature) : ∀ n ∈ p.node.shape.parts, n.IsInner :=
  List.forall_mem_append.mpr ⟨p.body.isInner, forall_isInner fun r _ => r.isInner_node⟩

/-! ### What needs no keywords -/

/-- A plain tag is worded. -/
theorem isWorded_tagNode (tag : Text) : (tagNode tag).IsWorded :=
  .mk (fun _ h => by cases h) (by simp [Shape.values]) (by simp [Shape.parts, Shape.children])

/-- A plain cell is worded. -/
theorem isWorded_cellNode (value : Text) : (cellNode value).IsWorded :=
  .mk (fun _ h => by cases h) (by simp [Shape.values]) (by simp [Shape.parts, Shape.children])

/-- A plain row is worded. -/
theorem isWorded_rowNode (values : List Text) : (rowNode values).IsWorded :=
  .mk (fun _ h => by cases h) (by simp [Shape.values])
    (by simpa [Shape.parts, Shape.children] using fun v _ => isWorded_cellNode v)

/-- Nothing in an argument of a step has a keyword. -/
theorem Block.isWorded_node (b : Block) : b.node.IsWorded := by
  cases b with
  | table rows =>
    exact .mk (fun _ h => by cases h) (by simp [Shape.values])
      (by simpa [Shape.parts, Shape.children] using fun r _ => isWorded_rowNode r)
  | docString content contentType =>
    exact .mk (fun _ h => by cases h) (by simp [Shape.values])
      (by simp [Shape.parts, Shape.children])

end Plain

/-! ### Nodes below a feature -/

namespace Store

variable {s : Store} {i j p q : NodeId} {e : Entry} {n : Node} {depth : Nat}

/-- A node is a number of levels below a feature, with nothing between them that is a feature. -/
inductive Under (s : Store) (q : NodeId) : Nat → NodeId → Prop
  | child {i : NodeId} (parent : s.parent? i = some q) : Under s q 1 i
  | deeper {depth : Nat} {i p : NodeId} {e : Entry} (parent : s.parent? i = some p)
    (entry : s.get? p = some e) (plain : e.given = []) (kind : e.shape.kind ≠ .feature)
    (above : Under s q depth p) : Under s q (depth + 1) i

/-- A node with nothing given to it has the kind of its shape. -/
theorem isOfKind_of_plain (he : s.get? i = some e) (hg : e.given = []) (kind : Kind) :
    s.isOfKind kind (.node i) = .ok (decide (e.shape.kind = kind)) := by
  have hget : s.get i = .ok e := by rw [get, he]
  rw [isOfKind, hget]
  simp only [bind, Except.bind, hg, Value.lookup]
  simp [pure, Except.pure]

/-- Going up far enough leads to the feature first. -/
theorem findM?_climb (hu : s.Under q depth i) (hq : s.get? q = some e) (hg : e.given = [])
    (hkind : e.shape.kind = .feature) : ∀ steps, depth ≤ steps →
      (climb s.parent? steps i).findM? (s.hasKind [.feature]) = .ok (some q) := by
  induction hu with
  | @child i parent =>
    intro steps hsteps
    obtain ⟨steps, rfl⟩ : ∃ m, steps = m + 1 := ⟨steps - 1, by omega⟩
    rw [climb, parent]
    simp only [List.findM?, hasKind_of_plain hq hg, hkind]
    rfl
  | @deeper depth i p f parent entry plain kind above ih =>
    intro steps hsteps
    obtain ⟨steps, rfl⟩ : ∃ m, steps = m + 1 := ⟨steps - 1, by omega⟩
    have hno : ([Kind.feature] : List Kind).contains f.shape.kind = false := by simpa using kind
    rw [climb, parent]
    simp only [List.findM?, hasKind_of_plain entry plain, hno]
    exact ih steps (by omega)

/-- A feature with a language. -/
structure IsFeature (s : Store) (q : NodeId) (language : Text) (e : Entry) : Prop where
  entry : s.get? q = some e
  plain : e.given = []
  kind : e.shape.kind = .feature
  language : e.shape.field? .language = some (.text language)

variable {language : Text} {f : Entry}

/-- A feature answers with its language. -/
theorem IsFeature.valueOf (h : s.IsFeature q language f) :
    s.valueOf q (.text .language) = .ok (.text language) := by
  rw [valueOf_text_of_plain h.entry h.plain]
  simp [Shape.ask, h.language, Fault.ofOption]

/-- A feature is written in its own language. -/
theorem IsFeature.languageFor (h : s.IsFeature q language f) :
    s.languageFor q = .ok (.text language) := by
  simp only [Store.languageFor, isOfKind_of_plain h.entry h.plain, h.kind, decide_true, bind,
    Except.bind, if_true, pure, Except.pure, h.valueOf]

/-- The language of a node below a feature is the one of the feature. -/
theorem languageFor_of_under (hq : s.IsFeature q language f) (he : s.get? i = some e)
    (hg : e.given = []) (hkind : e.shape.kind ≠ .feature) (hu : s.Under q depth i)
    (hdepth : depth ≤ s.size) : s.languageFor i = .ok (.text language) := by
  have hup : s.ancestor? [.feature] i = .ok (some q) := by
    rw [ancestor?, calls_of_plain he hg, calls_of_plain he hg]
    exact findM?_climb hu hq.entry hq.plain hq.kind s.size hdepth
  simp only [languageFor, isOfKind_of_plain he hg, hkind, decide_false, bind, Except.bind,
    Bool.false_eq_true, if_false, hup, hq.valueOf]

variable {k : PrimaryKeywords}

/-- A node for which a language holds goes by the keyword that it has with the words of the
language. -/
theorem keywordOf_of_language (hl : s.languageFor i = .ok (.text language))
    (hk : Dialect.keywordsFor s.dialect (.text language) = .ok k)
    (hwords : ∀ kind w, k.ofKind? kind = some w → w ≠ []) (he : s.get? i = some e)
    (hg : e.given = []) (htexts : ∀ v ∈ e.shape.values, ∃ t, v = .text t) {v : Value}
    (hv : (e.shape.withWord k).field? .keyword = some v) :
    s.keywordOf i = .ok v ∧ v.isPresent = true := by
  obtain ⟨own, hf⟩ := Shape.exists_keyword_of_withWord hv
  obtain ⟨t, rfl⟩ := htexts own (Shape.mem_values_of_field? hf)
  have hvalue : s.valueOf i (.text .keyword) = .ok (.text t) := by
    rw [valueOf_text_of_plain he hg]
    simp [Shape.ask, hf, Fault.ofOption]
  rw [Shape.withWord, hf] at hv
  rw [keywordOf, hvalue]
  cases t with
  | cons c cs =>
    obtain rfl := Option.some.inj (hf.symm.trans hv)
    exact ⟨rfl, rfl⟩
  | nil =>
    obtain rfl := Option.some.inj ((Shape.field?_withKeyword hf _).symm.trans hv)
    by_cases hstep : e.shape.kind = .step
    · rw [PrimaryKeywords.word, if_pos hstep]
      simp only [Value.isPresent, isOfKind_of_plain he hg, hstep, bind, Except.bind]
      exact ⟨rfl, rfl⟩
    · obtain ⟨w, hw⟩ := Shape.exists_ofKind?_of_keyword k hf hstep
      rw [PrimaryKeywords.word, if_neg hstep, hw]
      simp only [Value.isPresent, isOfKind_of_plain he hg, hstep, bind, Except.bind, pure,
        Except.pure, hl, layoutKind_of_plain he hg, Kind.keywordIn, hk, hw]
      exact ⟨rfl, by simpa [Value.isPresent] using hwords _ _ hw⟩

/-- A node for which a language holds is written like its tree with the keywords of the language, if
its parts are. -/
theorem Prints.of_language (hl : s.languageFor i = .ok (.text language))
    (hk : Dialect.keywordsFor s.dialect (.text language) = .ok k)
    (hwords : ∀ kind w, k.ofKind? kind = some w → w ≠ []) {o : Origin}
    (pairs : Shape (NodeId × Node)) (he : s.get? i = some e) (hg : e.given = [])
    (hshape : e.shape = pairs.map Prod.fst) (htexts : ∀ v ∈ pairs.values, ∃ t, v = .text t)
    (hparts : ∀ x ∈ pairs.parts, s.Prints x.1 (x.2.withKeywords k)) :
    s.Prints i ((Node.mk o (pairs.map Prod.snd)).withKeywords k) := by
  let written : Shape (NodeId × Node) := pairs.map fun x => (x.1, x.2.withKeywords k)
  have hsnd : (written.withWord k).map Prod.snd
      = ((pairs.map Prod.snd).map (Node.withKeywords k)).withWord k := by
    rw [Shape.map_withWord, Shape.map_map, Shape.map_map]
  have hfst : written.map Prod.fst = e.shape := by
    rw [hshape, Shape.map_map]
  rw [Node.withKeywords_mk, ← hsnd]
  refine .mk (written.withWord k) ((e.shape.field? .keyword).getD .null) he hg ?_
    (fun v hv => ?_) (Shape.texts_withWord (by rwa [Shape.values_map])) fun x hx => ?_
  · rw [Shape.map_withWord, hfst, Shape.withKeyword_withWord]
  · rw [← Shape.field?_map Prod.fst, Shape.map_withWord, hfst] at hv
    exact keywordOf_of_language hl hk hwords he hg (by rwa [hshape, Shape.values_map]) hv
  · rw [Shape.parts_withWord, Shape.parts_map] at hx
    obtain ⟨y, hy, rfl⟩ := List.mem_map.mp hx
    exact hparts y hy

/-- A part that is attached to a node in reach is in reach, and the node is its parent. -/
theorem reaches_part {c : NodeId} (hi : s.Reaches i) (he : s.get? i = some e)
    (hc : c ∈ e.shape.parts) (hremembered : s.remembered c = some i) :
    s.Reaches c ∧ s.parent? c = some i := by
  refine ⟨.owned hi (lt_of_remembered hremembered) (mem_parts.mpr ⟨e, he, ?_⟩),
    parent?_eq_some_iff.mpr ⟨hremembered, hi⟩⟩
  simp [Entry.owned, hc]

/-- A node below a feature is written like the tree that it stands for, with the keywords of the
language of the feature. -/
theorem Represents.prints (hq : s.IsFeature q language f)
    (hk : Dialect.keywordsFor s.dialect (.text language) = .ok k)
    (hwords : ∀ kind w, k.ofKind? kind = some w → w ≠ []) (h : s.Represents i n)
    (hinner : n.IsInner) (hi : s.Reaches i) (hu : s.Under q depth i)
    (hdepth : depth + n.height ≤ s.size) : s.Prints i (n.withKeywords k) := by
  induction h generalizing depth with
  | @mk i e o pairs entry plain shape attached parts ih =>
    obtain ⟨kind, texts, inner⟩ := hinner
    rw [Shape.values_map] at texts
    rw [Shape.kind_map] at kind
    rw [Shape.parts_map] at inner
    have hkind : e.shape.kind ≠ .feature := by
      rw [shape, Shape.kind_map]
      exact kind.1
    have hl := languageFor_of_under hq entry plain hkind hu (by omega)
    refine .of_language hl hk hwords pairs entry plain shape texts fun x hx => ?_
    have hid : x.1 ∈ e.shape.parts := by
      rw [shape, Shape.parts_map]
      exact List.mem_map_of_mem hx
    have hpart : x.2 ∈ (Node.mk o (pairs.map Prod.snd)).shape.parts := by
      rw [Node.shape, Shape.parts_map]
      exact List.mem_map_of_mem hx
    obtain ⟨hreaches, hparent⟩ := reaches_part hi entry hid (attached x hx)
    have hlt := Node.height_lt hpart
    exact ih x hx (inner _ (List.mem_map_of_mem hx)) hreaches
      (.deeper hparent entry plain hkind hu) (by omega)

/-- A feature whose keywords are left out is written like the tree that it stands for, with the
keywords of its language. -/
theorem Represents.prints_feature {p : Plain.Feature}
    (hk : Dialect.keywordsFor s.dialect (.text p.language) = .ok k)
    (hwords : ∀ kind w, k.ofKind? kind = some w → w ≠ []) (h : s.Represents q n)
    (hbare : n.bare = p.node) (hq : s.Reaches q) : s.Prints q (n.withKeywords k) := by
  have hheight := h.spans.height_le
  obtain ⟨tags, setup, tests, rules, hshape, -⟩ := Plain.Feature.shape_of_bare hbare
  have hparts : n.shape.map Node.bare = p.node.shape := by
    refine Eq.trans ?_ (Node.shape_of_bare hbare)
    rw [hshape]
    rfl
  cases h with
  | @mk _ e o pairs entry plain shape attached parts =>
    rw [Node.shape] at hshape hparts
    have hfeature : s.IsFeature q p.language e := by
      refine ⟨entry, plain, ?_, ?_⟩
      · rw [shape, Shape.kind_map, ← Shape.kind_map Prod.snd, hshape]
        rfl
      · rw [shape, Shape.field?_map, ← Shape.field?_map Prod.snd, hshape]
        rfl
    refine .of_language hfeature.languageFor hk hwords pairs entry plain shape ?_ fun x hx => ?_
    · rw [← Shape.values_map Prod.snd, hshape]
      exact List.forall_mem_cons.mpr ⟨⟨_, rfl⟩, p.heading.values_title⟩
    · have hid : x.1 ∈ e.shape.parts := by
        rw [shape, Shape.parts_map]
        exact List.mem_map_of_mem hx
      have hpart : x.2 ∈ (Node.mk o (pairs.map Prod.snd)).shape.parts := by
        rw [Node.shape, Shape.parts_map]
        exact List.mem_map_of_mem hx
      obtain ⟨hreaches, hparent⟩ := reaches_part hq entry hid (attached x hx)
      have hlt := Node.height_lt hpart
      have hinner : x.2.bare.IsInner := by
        refine p.isInner _ ?_
        rw [← hparts, Shape.parts_map]
        exact List.mem_map_of_mem hpart
      exact (parts x hx).prints hfeature hk hwords (.of_bare hinner) hreaches (.child hparent)
        (by omega)

end Store

end FeatureTree
