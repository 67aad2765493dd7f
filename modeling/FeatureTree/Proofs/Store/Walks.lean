import FeatureTree.Proofs.Lists
import FeatureTree.Proofs.Rose
import FeatureTree.Store.Tree

/-!
# Walks and the trees that they go through

Going to the children of a node, and on to theirs, can give a tree. Walking the node and finding
nodes below it is going through that tree, as long as the tree is not deeper than the store has
nodes.

## Main results

* `Store.walk_of_unrolls`: a walk goes through the tree below a node
* `Store.findKind_of_unrolls`: what is found is what is on the walk and counts as of the kinds
-/

namespace FeatureTree

namespace Store

variable {s : Store} {i : NodeId} {r : Rose NodeId}

/-- Going to the children of a node, and on to theirs, gives a tree. -/
inductive Unrolls (s : Store) : NodeId → Rose NodeId → Prop
  | mk {i : NodeId} {rs : List (Rose NodeId)}
    (children : s.children i = .ok (rs.map fun r => .node r.label))
    (below : ∀ r ∈ rs, Unrolls s r.label r) : Unrolls s i (.node i rs)

/-- What is seen on the way through a tree that is not too deep. -/
theorem roseWithin_of_unrolls {α : Type} {see : NodeId → Except Fault α} {f : NodeId → α} {n : Nat}
    (h : s.Unrolls i r) (hn : r.height ≤ n) (hsee : ∀ j ∈ r.preorder, see j = .ok (f j)) :
    s.roseWithin see n (.node i) = .ok (r.map f) := by
  induction h generalizing n with
  | @mk i rs children below ih =>
    cases n with
    | zero =>
      rw [Rose.height_node] at hn
      omega
    | succ n =>
      rw [Rose.height_node_le_iff] at hn
      rw [Rose.preorder_node, List.forall_mem_cons] at hsee
      have hbelow : (rs.map fun r => Value.node r.label).mapM (s.roseWithin see n)
          = .ok (rs.map (Rose.map f)) := by
        rw [List.mapM_map]
        refine mapM_of_forall₂ (List.forall₂_map_right_iff.mpr ?_)
        refine List.forall₂_same.mpr fun r hr => ih r hr (hn r hr) fun j hj => ?_
        exact hsee.2 j (List.mem_flatMap.mpr ⟨r, hr, hj⟩)
      simp only [roseWithin, hsee.1, children, hbelow, bind, Except.bind, Rose.map_node]
      rfl

/-- A node is the label of the tree it unrolls to. -/
theorem Unrolls.label_eq (h : s.Unrolls i r) : r.label = i := by
  cases h
  rfl

/-- A walk begins with the node itself. -/
theorem Unrolls.mem_preorder (h : s.Unrolls i r) : i ∈ r.preorder := by
  cases h
  rw [Rose.preorder_node]
  exact List.mem_cons_self

/-- With a node its children are in the tree. -/
theorem Unrolls.mem_of_child (h : s.Unrolls i r) {j c : NodeId} {vs : List Value}
    (hj : j ∈ r.preorder) (hvs : s.children j = .ok vs) (hc : .node c ∈ vs) : c ∈ r.preorder := by
  induction h with
  | @mk i rs children below ih =>
    rw [Rose.preorder_node] at hj ⊢
    refine List.mem_cons_of_mem _ ?_
    rcases List.mem_cons.mp hj with rfl | hj
    · obtain rfl := Except.ok.inj (children.symm.trans hvs)
      obtain ⟨r, hr, hrc⟩ := List.mem_map.mp hc
      exact List.mem_flatMap.mpr ⟨r, hr, Value.node.inj hrc ▸ r.label_mem_preorder⟩
    · obtain ⟨r, hr, hj⟩ := List.mem_flatMap.mp hj
      exact List.mem_flatMap.mpr ⟨r, hr, ih r hr hj⟩

variable {e : Entry}

/-- A walk that is the node's own goes through the tree below it. -/
theorem walk_of_calls (hc : s.calls i "walk" = .ok ()) (h : s.Unrolls i r)
    (hr : r.height ≤ s.size + 1) (order : Rose.Order) :
    s.walk i (.text order.name.toList) = .ok (r.inOrder order) := by
  have hrose : s.rose pure i = .ok (r.map id) := roseWithin_of_unrolls h hr fun _ _ => rfl
  simp only [walk, hc, orderOf_name, hrose, Rose.map_id, bind, Except.bind]
  rfl

/-- A walk goes through the tree below a node. -/
theorem walk_of_unrolls (he : s.get? i = some e) (hg : e.given = []) (h : s.Unrolls i r)
    (hr : r.height ≤ s.size + 1) (order : Rose.Order) :
    s.walk i (.text order.name.toList) = .ok (r.inOrder order) :=
  walk_of_calls (calls_of_plain he hg "walk") h hr order

/-- What is found below a node by its own walk is what satisfies the condition, in the order of that
walk. -/
theorem find_of_calls {p : NodeId → Except Fault Bool} {q : NodeId → Bool}
    (hfind : s.calls i "find" = .ok ()) (hwalk : s.calls i "walk" = .ok ()) (h : s.Unrolls i r)
    (hr : r.height ≤ s.size + 1) (hp : ∀ j ∈ r.preorder, p j = .ok (q j)) :
    s.find i p = .ok (r.preorder.filter q) := by
  have hrose : s.rose (fun j => do return if ← p j then [j] else []) i
      = .ok (r.map fun j => if q j then [j] else []) :=
    roseWithin_of_unrolls h hr fun j hj => by
      rw [hp j hj]
      rfl
  have hfilter : ∀ js : List NodeId,
      (js.map fun j => if q j then [j] else []).flatten = js.filter q := by
    intro js
    induction js with
    | nil => rfl
    | cons j js ih => by_cases hj : q j <;> simp [hj, ih]
  rw [find, hfind, hwalk, hrose, ← hfilter, ← Rose.preorder_map]
  rfl

/-- The kind of a node is one of some kinds. -/
def isOneOf (s : Store) (kinds : List Kind) (i : NodeId) : Bool :=
  (s.get? i).any fun e => kinds.contains e.shape.kind

/-- A node that was given no other kind counts by its own. -/
theorem hasKind_eq_isOneOf (he : s.get? i = some e) (hkind : Value.lookup "kind" e.given = none)
    (kinds : List Kind) : s.hasKind kinds i = .ok (s.isOneOf kinds i) := by
  have hget : s.get i = .ok e := by rw [get, he]
  rw [hasKind, hget, isOneOf, he]
  simp only [bind, Except.bind, Entry.isOf, hkind]
  rfl

/-- What a search by kinds of the node's own finds is what is on the walk and has one of them. -/
theorem findKind_of_calls
    (hcalls : ∀ operation ∈ ["walk", "find", "find_by_kind"], s.calls i operation = .ok ())
    (hkind : ∀ j ∈ r.preorder, ∃ e, s.get? j = some e ∧ Value.lookup "kind" e.given = none)
    (h : s.Unrolls i r) (hr : r.height ≤ s.size + 1) (kinds : List Kind) :
    s.findKind i kinds = .ok (r.preorder.filter (s.isOneOf kinds)) := by
  simp only [findKind, hcalls "find_by_kind" (by simp), bind, Except.bind]
  refine find_of_calls (hcalls "find" (by simp)) (hcalls "walk" (by simp)) h hr fun j hj => ?_
  obtain ⟨e, he, hkind⟩ := hkind j hj
  exact hasKind_eq_isOneOf he hkind kinds

/-- Where no node was given anything, what is found is what is on the walk and has one of the
kinds. -/
theorem findKind_of_unrolls (hplain : ∀ j e, s.get? j = some e → e.given = [])
    (hsize : ∀ j ∈ r.preorder, ∃ e, s.get? j = some e) (h : s.Unrolls i r)
    (hr : r.height ≤ s.size + 1) (kinds : List Kind) :
    s.findKind i kinds = .ok (r.preorder.filter (s.isOneOf kinds)) := by
  obtain ⟨e, he⟩ := hsize i h.mem_preorder
  refine findKind_of_calls (fun operation _ => calls_of_plain he (hplain i e he) operation)
    (fun j hj => ?_) h hr kinds
  obtain ⟨f, hf⟩ := hsize j hj
  exact ⟨f, hf, by rw [hplain j f hf]; rfl⟩

end Store

end FeatureTree
