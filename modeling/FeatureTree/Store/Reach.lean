import FeatureTree.Store.Basic

/-!
# Nodes in reach, and parents

A node is in reach when a name holds it or a node in reach owns it. The parent that a node remembers
counts only while it is in reach: to be remembered as a parent does not keep a node.

## Main results

* `Store.mem_live_iff`: the list of nodes in reach is what the inductive definition says
* `Store.parent?_eq_some_iff`: when a node has a parent
-/

namespace FeatureTree

namespace Store

/-- The nodes that names hold. -/
def roots (s : Store) : List NodeId := s.held.filterMap (·.2)

/-- A node of the store is in reach when a name holds it or a node in reach owns it. -/
inductive Reaches (s : Store) : NodeId → Prop where
  | held {i : NodeId} : i < s.size → i ∈ s.roots → Reaches s i
  | owned {i j : NodeId} : Reaches s i → j < s.size → j ∈ s.parts i → Reaches s j

/-- Collects the nodes among `unseen` that can be reached from those in `todo` on ways that stay
among `unseen`. Every node that is collected leaves `unseen`, so the search ends. -/
def discover (next : NodeId → List NodeId) (unseen : List NodeId) : List NodeId → List NodeId
  | [] => []
  | i :: todo =>
    if _h : i ∈ unseen then i :: discover next (unseen.erase i) (next i ++ todo)
    else discover next unseen todo
termination_by todo => (unseen.length, todo.length)
decreasing_by
  · have := List.length_erase_of_mem _h
    have := List.length_pos_of_mem _h
    exact Prod.Lex.left _ _ (by omega)
  · exact Prod.Lex.right _ (by simp)

/-- The nodes in reach. -/
def live (s : Store) : List NodeId := discover s.parts (List.range s.size) s.roots

/-- The parent of a node, given the nodes in reach. -/
def parentAmong (s : Store) (live : List NodeId) (i : NodeId) : Option NodeId :=
  ((s.get? i).bind (·.parent)).filter live.contains

/-- The parent of a node: the one that it remembers, if that is in reach. -/
def parent? (s : Store) (i : NodeId) : Option NodeId := s.parentAmong s.live i

/-- Goes up from a node by at most a number of steps. -/
def climb (up : NodeId → Option NodeId) : Nat → NodeId → List NodeId
  | 0, _ => []
  | n + 1, i =>
    match up i with
    | none => []
    | some p => p :: climb up n p

/-- The parent of a node, the parent's parent and so on, given the nodes in reach. A way up that
does not lead in a circle has fewer nodes than the store. -/
def ancestorsAmong (s : Store) (live : List NodeId) (i : NodeId) : List NodeId :=
  climb (s.parentAmong live) s.size i

/-- The ancestors of a node, nearest first. -/
def ancestors (s : Store) (i : NodeId) : List NodeId := s.ancestorsAmong s.live i

/-- Whether a node counts as one of some kinds. -/
def hasKind (s : Store) (kinds : List Kind) (i : NodeId) : Except Fault Bool := do
  (← s.get i).isOf kinds

/-- The kind of a node to which nothing was given is that of its shape. -/
theorem hasKind_of_plain {s : Store} {i : NodeId} {e : Entry} (he : s.get? i = some e)
    (hg : e.given = []) (kinds : List Kind) :
    s.hasKind kinds i = .ok (kinds.contains e.shape.kind) := by
  have hget : s.get i = .ok e := by rw [get, he]
  rw [hasKind, hget]
  simp only [bind, Except.bind, Entry.isOf, hg, Value.lookup]
  rfl

/-- The nearest ancestor that counts as one of some kinds. -/
def ancestor? (s : Store) (kinds : List Kind) (i : NodeId) : Except Fault (Option NodeId) := do
  s.calls i "get_ancestor"
  s.calls i "ancestors"
  (s.ancestors i).findM? (s.hasKind kinds)

/-! ### What the search finds -/

/-- Ways that start in `todo`, follow `next` and stay among `unseen`. -/
inductive Leads (next : NodeId → List NodeId) (unseen todo : List NodeId) : NodeId → Prop where
  | start {i : NodeId} : i ∈ unseen → i ∈ todo → Leads next unseen todo i
  | step {i j : NodeId} : Leads next unseen todo i → j ∈ unseen → j ∈ next i →
      Leads next unseen todo j

/-- What leads to a node still does where more is unseen and more is to do. -/
theorem Leads.mono {next : NodeId → List NodeId} {unseen unseen' todo todo' : List NodeId}
    {j : NodeId} (h : Leads next unseen todo j) (hu : ∀ i ∈ unseen, i ∈ unseen')
    (ht : ∀ i ∈ todo, i ∈ unseen → Leads next unseen' todo' i) : Leads next unseen' todo' j := by
  induction h with
  | start hi hm => exact ht _ hm hi
  | step _ hj hn ih => exact .step ih (hu _ hj) hn

/-- A way either ends in the node that is taken out or can be had without it. -/
theorem Leads.avoid {next : NodeId → List NodeId} {unseen todo : List NodeId} {i j : NodeId}
    (h : Leads next unseen (i :: todo) j) (hne : j ≠ i) :
    Leads next (unseen.erase i) (next i ++ todo) j := by
  induction h with
  | start hj hm =>
    refine .start ((List.mem_erase_of_ne hne).mpr hj) ?_
    rcases List.mem_cons.mp hm with rfl | hm
    · exact absurd rfl hne
    · exact List.mem_append_right _ hm
  | @step k j _ hj hn ih =>
    have hj := (List.mem_erase_of_ne hne).mpr hj
    by_cases hk : k = i
    · subst hk
      exact .start hj (List.mem_append_left _ hn)
    · exact .step (ih hk) hj hn

/-- The search finds exactly what ways lead to. -/
theorem mem_discover_iff (next : NodeId → List NodeId) (unseen todo : List NodeId) (j : NodeId) :
    j ∈ discover next unseen todo ↔ Leads next unseen todo j := by
  fun_induction discover next unseen todo with
  | case1 unseen =>
    refine ⟨by simp, fun h => ?_⟩
    induction h with
    | start _ hm => simp at hm
    | step _ _ _ ih => simp at ih
  | case2 unseen i todo h ih =>
    rw [List.mem_cons, ih]
    constructor
    · rintro (rfl | hl)
      · exact .start h (by simp)
      · refine hl.mono (fun _ => List.mem_of_mem_erase) fun k hk hu => ?_
        have hu := List.mem_of_mem_erase hu
        rcases List.mem_append.mp hk with hk | hk
        · exact .step (.start h (by simp)) hu hk
        · exact .start hu (by simp [hk])
    · intro hl
      by_cases hj : j = i
      · exact .inl hj
      · exact .inr (hl.avoid hj)
  | case3 unseen i todo h ih =>
    rw [ih]
    constructor
    · exact fun hl => hl.mono (fun _ hu => hu) fun k hk hu => .start hu (by simp [hk])
    · refine fun hl => hl.mono (fun _ hu => hu) fun k hk hu => ?_
      rcases List.mem_cons.mp hk with rfl | hk
      · exact absurd hu h
      · exact .start hu hk

/-- The list of nodes in reach holds exactly the nodes in reach. -/
theorem mem_live_iff {s : Store} {i : NodeId} : i ∈ s.live ↔ s.Reaches i := by
  rw [live, mem_discover_iff]
  constructor
  · intro h
    induction h with
    | start hi hm => exact .held (List.mem_range.mp hi) hm
    | step _ hj hn ih => exact .owned ih (List.mem_range.mp hj) hn
  · intro h
    induction h with
    | held hi hm => exact .start (List.mem_range.mpr hi) hm
    | owned _ hj hn ih => exact .step ih (List.mem_range.mpr hj) hn

/-- A node has a parent when it remembers one that is in reach. -/
theorem parent?_eq_some_iff {s : Store} {i p : NodeId} :
    s.parent? i = some p ↔ (s.get? i).bind (·.parent) = some p ∧ s.Reaches p := by
  simp [parent?, parentAmong, Option.filter_eq_some_iff, mem_live_iff]

end Store

end FeatureTree
