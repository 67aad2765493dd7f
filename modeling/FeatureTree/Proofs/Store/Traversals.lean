import FeatureTree.Proofs.Rose.Traversals
import FeatureTree.Proofs.Store.Listing
import FeatureTree.Proofs.Store.WaysUp

/-!
# The three walks compared

Below a node of which going to children gives a tree without repetitions, the three walks and the
searches by kind agree: all walks come by the same nodes once each, the two that go down first keep
the order of children, and the walk by levels and a search are told by the walk that goes down.

What stands below a node is said by its children alone, and not by the tree that they give
(`Store.Below`, `Store.AtDepth`).

## Main results

* `Store.Unrolls.atOrBelow_iff`, `Store.Unrolls.below_iff`, `Store.Unrolls.atDepth_iff`: what the
  tree says of the nodes below its top
* `Store.traversals_agree`: what the walks and searches have to do with each other
-/

namespace FeatureTree

/-- A look-up name stands for its kind, and `test` for two. -/
theorem Kind.lookup?_name (k : Kind) : lookup? k.name.toList = some [k] := by cases k <;> decide

namespace Store

variable {s : Store} {i j p c : NodeId} {r u : Rose NodeId}

/-! ### What stands below a node -/

/-- A node is one of the children of another. -/
def IsChild (s : Store) (p c : NodeId) : Prop := ∃ vs, s.children p = .ok vs ∧ .node c ∈ vs

/-- A node stands below another one. -/
abbrev Below (s : Store) : NodeId → NodeId → Prop := Relation.TransGen s.IsChild

/-- A node is another one or stands below it. -/
abbrev AtOrBelow (s : Store) : NodeId → NodeId → Prop := Relation.ReflTransGen s.IsChild

/-- From one node to another it is a number of steps to a child. -/
def AtDepth (s : Store) : Nat → NodeId → NodeId → Prop
  | 0, i, j => j = i
  | d + 1, i, j => ∃ c, s.IsChild i c ∧ s.AtDepth d c j

/-- A node that unrolls to a tree has nodes below it that unroll to its subtrees. -/
theorem Unrolls.subtree (h : s.Unrolls i r) (hu : u.Subtree r) : s.Unrolls u.label u := by
  induction hu generalizing i with
  | refl => rwa [h.label_eq]
  | branch ht _ ih =>
    obtain ⟨-, below⟩ := h
    exact ih (below _ ht)

/-- The children of a node are the labels of the branches it unrolls to. -/
theorem Unrolls.children_eq (h : s.Unrolls i r) :
    s.children i = .ok (r.branches.map fun u => .node u.label) := by
  obtain ⟨children, -⟩ := h
  exact children

/-- The children of a node unroll to its branches. -/
theorem Unrolls.branch (h : s.Unrolls i r) (hu : u ∈ r.branches) : s.Unrolls u.label u := by
  obtain ⟨-, below⟩ := h
  exact below u hu

/-- A child is the label of a branch. -/
theorem Unrolls.isChild_iff (h : s.Unrolls i r) :
    s.IsChild i c ↔ ∃ u ∈ r.branches, u.label = c := by
  rw [IsChild, h.children_eq]
  simp

/-- The nodes of the tree below a node are the node and those below it. -/
theorem Unrolls.atOrBelow_iff (h : s.Unrolls i r) : s.AtOrBelow i j ↔ r.Has j := by
  constructor
  · intro hj
    rw [← Rose.mem_preorder_iff]
    induction hj with
    | refl => exact h.mem_preorder
    | tail _ hc ih =>
      obtain ⟨vs, hvs, hc⟩ := hc
      exact h.mem_of_child ih hvs hc
  · induction h with
    | @mk i rs children below ih =>
      intro hj
      rcases Rose.has_node_iff.mp hj with rfl | ⟨u, hu, hj⟩
      · exact .refl
      · exact (ih u hu hj).head ⟨_, children, List.mem_map_of_mem hu⟩

/-- What is below a node is in one of its branches. -/
theorem Unrolls.below_iff (h : s.Unrolls i r) : s.Below i j ↔ ∃ u ∈ r.branches, u.Has j := by
  rw [Below, Relation.TransGen.head'_iff]
  constructor
  · rintro ⟨c, hc, hj⟩
    obtain ⟨u, hu, rfl⟩ := h.isChild_iff.mp hc
    exact ⟨u, hu, (h.branch hu).atOrBelow_iff.mp hj⟩
  · rintro ⟨u, hu, hj⟩
    exact ⟨u.label, h.isChild_iff.mpr ⟨u, hu, rfl⟩, (h.branch hu).atOrBelow_iff.mpr hj⟩

/-- The levels of the tree below a node hold what is as many steps away. -/
theorem Unrolls.atDepth_iff (h : s.Unrolls i r) {d : Nat} : s.AtDepth d i j ↔ j ∈ r.atDepth d := by
  induction d generalizing i r with
  | zero => rw [AtDepth, Rose.atDepth, List.mem_singleton, h.label_eq]
  | succ d ih =>
    rw [AtDepth, Rose.atDepth, List.mem_flatMap]
    constructor
    · rintro ⟨c, hc, hj⟩
      obtain ⟨u, hu, rfl⟩ := h.isChild_iff.mp hc
      exact ⟨u, hu, (ih (h.branch hu)).mp hj⟩
    · rintro ⟨u, hu, hj⟩
      exact ⟨u.label, h.isChild_iff.mpr ⟨u, hu, rfl⟩, (ih (h.branch hu)).mpr hj⟩

/-- A node that unrolls has an entry. -/
theorem Unrolls.exists_entry (h : s.Unrolls i r) : ∃ e, s.get? i = some e := by
  obtain ⟨_, hcalls, -⟩ := bind_ok h.children_eq
  obtain ⟨e, he, -⟩ := bind_ok hcalls
  exact ⟨e, get_eq_ok.mp he⟩

/-- A tree without repetitions is not deeper than the store has nodes. -/
theorem Unrolls.height_le (h : s.Unrolls i r) (honce : r.Once) : r.height ≤ s.size := by
  refine Nat.le_trans r.height_le_length_preorder (LeadsUp.length_le_of_lt honce.nodup_preorder ?_)
  intro j hj
  obtain ⟨us, hu⟩ := Rose.mem_preorder_iff.mp hj
  obtain ⟨e, he⟩ := (h.subtree hu).exists_entry
  exact get?_lt he

/-! ### Before and after -/

/-- Going down first, a node comes before those below it, or after them. -/
theorem Unrolls.precedes_below (h : s.Unrolls i r) (hp : s.AtOrBelow i p) (hc : s.Below p c) :
    Rose.Precedes r.preorder p c ∧ Rose.Precedes r.postorder c p := by
  obtain ⟨us, hu⟩ := h.atOrBelow_iff.mp hp
  obtain ⟨v, hv, hvc⟩ := (h.subtree hu).below_iff.mp hc
  have hpre : c ∈ us.flatMap Rose.preorder :=
    List.mem_flatMap.mpr ⟨v, hv, Rose.mem_preorder_iff.mpr hvc⟩
  have hpost : c ∈ us.flatMap Rose.postorder :=
    List.mem_flatMap.mpr ⟨v, hv, v.perm_postorder.mem_iff.mpr (Rose.mem_preorder_iff.mpr hvc)⟩
  have hdown : Rose.Precedes (Rose.node p us).preorder p c := by
    rw [Rose.preorder_node, ← List.singleton_append]
    exact Rose.precedes_append (List.mem_singleton_self p) hpre
  have hup : Rose.Precedes (Rose.node p us).postorder c p := by
    rw [Rose.postorder_node]
    exact Rose.precedes_append hpost (List.mem_singleton_self p)
  exact ⟨hdown.of_sublist hu.preorder_sublist, hup.of_sublist hu.postorder_sublist⟩

/-- Going down first, one child with all that is below it comes before the next. -/
theorem Unrolls.precedes_siblings (h : s.Unrolls i r) (hp : s.AtOrBelow i p) {vs : List Value}
    (hvs : s.children p = .ok vs) {x y a b : NodeId}
    (hxy : [Value.node x, Value.node y].Sublist vs) (ha : s.AtOrBelow x a) (hb : s.AtOrBelow y b) :
    Rose.Precedes r.preorder a b ∧ Rose.Precedes r.postorder a b := by
  obtain ⟨us, hu⟩ := h.atOrBelow_iff.mp hp
  have hunrolls := h.subtree hu
  obtain rfl := Except.ok.inj (hunrolls.children_eq.symm.trans hvs)
  obtain ⟨_, hvw, hmap⟩ := List.sublist_map_iff.mp hxy
  obtain ⟨v, _, rfl, hv, hrest⟩ := List.map_eq_cons_iff.mp hmap.symm
  obtain ⟨w, _, rfl, hw, hnil⟩ := List.map_eq_cons_iff.mp hrest
  obtain rfl := List.map_eq_nil_iff.mp hnil
  have hmem : ∀ t ∈ [v, w], s.Unrolls t.label t := fun t ht => hunrolls.branch (hvw.subset ht)
  rw [← Value.node.inj hv, (hmem v (by simp)).atOrBelow_iff] at ha
  rw [← Value.node.inj hw, (hmem w (by simp)).atOrBelow_iff] at hb
  have horder : ∀ f : Rose NodeId → List NodeId, (∀ t b, t.Has b → b ∈ f t) →
      Rose.Precedes (us.flatMap f) a b := by
    intro f hf
    have hpair := Rose.precedes_append (hf v a ha) (hf w b hb)
    exact hpair.of_sublist (by simpa [Rose.branches] using hvw.flatMap f)
  have hpre := horder Rose.preorder fun t b ht => Rose.mem_preorder_iff.mpr ht
  have hpost := horder Rose.postorder fun t b ht =>
    t.perm_postorder.mem_iff.mpr (Rose.mem_preorder_iff.mpr ht)
  have hdown : (us.flatMap Rose.preorder).Sublist (Rose.node p us).preorder := by
    rw [Rose.preorder_node]
    exact List.sublist_cons_self _ _
  have hup : (us.flatMap Rose.postorder).Sublist (Rose.node p us).postorder := by
    rw [Rose.postorder_node]
    exact List.sublist_append_left _ _
  exact ⟨hpre.of_sublist (hdown.trans hu.preorder_sublist),
    hpost.of_sublist (hup.trans hu.postorder_sublist)⟩

/-! ### Level by level -/

/-- Every node below another one is a number of steps away, and the walk by levels comes by those
that are none, one, two and more steps away as the walk that goes down comes by them. -/
theorem Unrolls.exists_depth (h : s.Unrolls i r) (honce : r.Once) : ∃ depth : NodeId → Nat,
    (∀ j ∈ r.preorder, ∀ d, s.AtDepth d i j ↔ d = depth j)
      ∧ ∀ n, r.preorder.length ≤ n →
        r.levelOrder = (List.range n).flatMap fun d => r.preorder.filter (depth · = d) := by
  have hexists : ∀ j, ∃ d, r.Has j → j ∈ r.atDepth d := fun j => by
    by_cases hj : r.Has j
    · exact hj.exists_atDepth.imp fun d hd _ => hd
    · exact ⟨0, fun h => absurd h hj⟩
  choose depth hdepth using hexists
  have hiff : ∀ j, r.Has j → ∀ d, j ∈ r.atDepth d ↔ depth j = d := fun j hj d =>
    ⟨fun hd => honce.depth_unique (hdepth j hj) hd, fun hd => hd ▸ hdepth j hj⟩
  refine ⟨depth, fun j hj d => ?_, fun n hn => ?_⟩
  · rw [h.atDepth_iff, hiff j (Rose.mem_preorder_iff.mp hj) d, eq_comm]
  · rw [Rose.levelOrder_eq (Nat.le_trans r.height_le_length_preorder hn)]
    refine List.flatMap_congr fun d _ => (honce.filter_preorder fun j hj => ?_).symm
    rw [decide_eq_true_iff, hiff j hj d]

/-! ### Main statement -/

/-- The operations that go through what is below a node are its own, and no node that stands there
was given another kind. -/
structure IsUnmasked (s : Store) (i : NodeId) : Prop where
  operations : ∀ operation ∈ ["walk", "find", "find_by_kind"], s.calls i operation = .ok ()
  kinds : ∀ j, s.AtOrBelow i j → ∀ e, s.get? j = some e → Value.lookup "kind" e.given = none

/-- Looking for kinds gives the nodes of these kinds in the order of the walk. -/
theorem findKind_of_unmasked (hi : s.IsUnmasked i) (h : s.Unrolls i r) (hr : r.height ≤ s.size + 1)
    (kinds : List Kind) : s.findKind i kinds = .ok (r.preorder.filter (s.isOneOf kinds)) := by
  refine findKind_of_calls hi.operations (fun j hj => ?_) h hr kinds
  obtain ⟨us, hu⟩ := Rose.mem_preorder_iff.mp hj
  obtain ⟨e, he⟩ := (h.subtree hu).exists_entry
  exact ⟨e, he, hi.kinds j (h.atOrBelow_iff.mpr ⟨us, hu⟩) e he⟩

/-- The three walks of a node and what the searches by kind find below it. -/
structure IsWalked (s : Store) (i : NodeId) (pre post level : List NodeId) : Prop where
  walks : s.walk i (.text "pre".toList) = .ok pre ∧ s.walk i (.text "post".toList) = .ok post
    ∧ s.walk i (.text "level".toList) = .ok level
  once : ∀ ids ∈ [pre, post, level], ids.Nodup ∧ ∀ j, j ∈ ids ↔ s.AtOrBelow i j
  below : ∀ p c, s.AtOrBelow i p → s.Below p c → Rose.Precedes pre p c ∧ Rose.Precedes post c p
  /-- Children come in their order, each with what is below it. -/
  siblings : ∀ p vs x y a b, s.AtOrBelow i p → s.children p = .ok vs →
    [Value.node x, Value.node y].Sublist vs → s.AtOrBelow x a → s.AtOrBelow y b →
    Rose.Precedes pre a b ∧ Rose.Precedes post a b
  levels : ∃ depth : NodeId → Nat, (∀ j ∈ pre, ∀ d, s.AtDepth d i j ↔ d = depth j)
    ∧ ∀ n, pre.length ≤ n → level = (List.range n).flatMap fun d => pre.filter (depth · = d)
  found : ∀ kinds, s.findKind i kinds = .ok (pre.filter (s.isOneOf kinds))

/-- Where going to children gives a tree without repetitions, the three walks come by every node of
it once, the two that go down first keep what is below a node on one side of it and children in
their order, and the walk by levels and the searches are told by the walk that goes down. -/
theorem traversals_agree (h : s.Unrolls i r) (honce : r.Once) (hi : s.IsUnmasked i) :
    (∃ pre post level, s.IsWalked i pre post level)
      ∧ Kind.lookup? "test".toList = some [.scenario, .outline]
      ∧ ∀ k : Kind, Kind.lookup? k.name.toList = some [k] := by
  have hheight : r.height ≤ s.size + 1 := Nat.le_succ_of_le (h.height_le honce)
  have hwalk := walk_of_calls (hi.operations "walk" (by simp)) h hheight
  have hvisits : ∀ order, (r.inOrder order).Nodup ∧ ∀ j, j ∈ r.inOrder order ↔ s.AtOrBelow i j :=
    fun order => ⟨(r.perm_inOrder order).nodup_iff.mpr honce.nodup_preorder, fun j => by
      rw [(r.perm_inOrder order).mem_iff, Rose.mem_preorder_iff, h.atOrBelow_iff]⟩
  refine ⟨⟨r.preorder, r.postorder, r.levelOrder, ?_⟩, rfl, Kind.lookup?_name⟩
  exact {
    walks := ⟨hwalk .pre, hwalk .post, hwalk .level⟩
    once := by
      simp only [List.forall_mem_cons]
      exact ⟨hvisits .pre, hvisits .post, hvisits .level, by simp⟩
    below := fun _ _ hp hc => h.precedes_below hp hc
    siblings := fun _ _ _ _ _ _ hp hvs hxy ha hb => h.precedes_siblings hp hvs hxy ha hb
    levels := h.exists_depth honce
    found := findKind_of_unmasked hi h hheight }

/-- A rule with a scenario that has a step and an outline that has examples. -/
def ruleWithTests : Store where
  entries := #[
    { shape := .rule {} [] none [1, 2] },
    { shape := .scenario {} [] [3] },
    { shape := .outline {} [] [] [4] },
    { shape := .step (.text []) (.text []) none },
    { shape := .example {} [] [] }]

/-- The walks of a rule with two tests, by levels and upwards, and its tests. -/
theorem traversals_agree_ruleWithTests :
    (∃ pre post level, ruleWithTests.IsWalked 0 pre post level)
      ∧ ruleWithTests.walk 0 (.text "level".toList) = .ok [0, 1, 2, 3, 4]
      ∧ ruleWithTests.walk 0 (.text "post".toList) = .ok [3, 1, 4, 2, 0]
      ∧ ruleWithTests.findKind 0 [.scenario, .outline] = .ok [1, 2] := by
  have hleaf : ∀ j, ruleWithTests.children j = .ok [] → ruleWithTests.Unrolls j (.node j []) :=
    fun j hj => .mk (by simpa using hj) (by simp)
  have hscenario : ruleWithTests.Unrolls 1 (.node 1 [.node 3 []]) :=
    .mk rfl (by simpa [Rose.label] using hleaf 3 rfl)
  have houtline : ruleWithTests.Unrolls 2 (.node 2 [.node 4 []]) :=
    .mk rfl (by simpa [Rose.label] using hleaf 4 rfl)
  have hrule : ruleWithTests.Unrolls 0
      (.node 0 [.node 1 [.node 3 []], .node 2 [.node 4 []]]) :=
    .mk rfl (by simpa [Rose.label] using ⟨hscenario, houtline⟩)
  have honce : (Rose.node 0 [.node 1 [.node 3 []], .node 2 [.node 4 []]]).Once := by
    have hempty : ∀ a : NodeId, (Rose.node a []).Once := fun a => .mk (by simp) (by simp) (by simp)
    have hone : ∀ a b : NodeId, a ≠ b → (Rose.node a [.node b []]).Once := fun a b hab =>
      .mk (by simpa [Rose.has_node_iff] using hab) (by simp) (by simpa using hempty b)
    refine .mk (by simp [Rose.has_node_iff]) ?_
      (by simpa using ⟨hone 1 3 (by decide), hone 2 4 (by decide)⟩)
    simp [Rose.has_node_iff]
  have hplain : ∀ j e, ruleWithTests.get? j = some e → e.given = [] := by
    intro j e he
    have hall : ∀ e ∈ ruleWithTests.entries, e.given = [] := by simp [ruleWithTests]
    exact hall e (Array.mem_of_getElem? he)
  have hunmasked : ruleWithTests.IsUnmasked 0 :=
    ⟨fun operation _ => calls_of_plain rfl rfl operation, fun j _ e he => by
      rw [hplain j e he]
      rfl⟩
  exact ⟨(traversals_agree hrule honce hunmasked).1, rfl, rfl, rfl⟩

end Store

end FeatureTree
