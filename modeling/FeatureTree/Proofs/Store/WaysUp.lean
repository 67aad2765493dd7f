import FeatureTree.Proofs.Store.Planting
import FeatureTree.Proofs.Store.Walks
import Mathlib.Data.List.Perm.Subperm

/-!
# Ways up

From a node one can go up to its parent, to the parent of that, and so on. The way ends at a node
without a parent, unless it leads in a circle. A way that ends goes by no node twice, so it has
fewer nodes than the store, and what the nodes above a node are asked for is found.

## Main results

* `Store.LeadsUp.nodup`: a way that ends goes by no node twice
* `Store.LeadsUp.ancestors_eq`: the ancestors of a node are the nodes on its way up
* `Store.LeadsUp.ancestor?_eq`, `Store.LeadsUp.appliedTags_eq`: the ancestor of a kind and the tags
  of the ancestors are found
-/

namespace FeatureTree

namespace Store

variable {s : Store} {i p : NodeId} {ps qs : List NodeId}

/-- A node that was attached to none has no parent. -/
theorem parent?_of_free (h : s.remembered i = none) : s.parent? i = none := by
  have hparent : (s.get? i).bind (·.parent) = none := h
  rw [parent?, parentAmong, hparent]
  rfl

/-- Going up from a node leads by some nodes, to one without a parent. -/
inductive LeadsUp (s : Store) : NodeId → List NodeId → Prop
  | top {i : NodeId} (none : s.parent? i = none) : LeadsUp s i []
  | up {i p : NodeId} {ps : List NodeId} (parent : s.parent? i = some p) (above : LeadsUp s p ps) :
    LeadsUp s i (p :: ps)

/-- The tags of a node, if nodes of its kind carry tags. -/
def ownTags (s : Store) (i : NodeId) : List Value :=
  (((s.get? i).bind (·.shape.list? .tags)).getD []).map .node

/-- A tagged node lists its own tags. -/
theorem listed_ownTags {e : Entry} (he : s.get? i = some e) (hg : e.given = [])
    (hi : s.isTagged i = true) : s.listed i .tags = .ok (s.ownTags i) := by
  obtain ⟨tags, htags⟩ := Option.isSome_iff_exists.mp hi
  rw [he, Option.bind_some] at htags
  rw [listed, valueOf_list_of_plain he hg htags, ownTags, he, Option.bind_some, htags]
  rfl

namespace LeadsUp

/-- There is one way up from a node at most. -/
theorem unique (h : s.LeadsUp i ps) (h' : s.LeadsUp i qs) : ps = qs := by
  induction h generalizing qs with
  | top none =>
    cases h' with
    | top _ => rfl
    | up parent _ => cases none.symm.trans parent
  | up parent _ ih =>
    cases h' with
    | top none => cases none.symm.trans parent
    | up parent' above' =>
      obtain rfl := Option.some.inj (parent.symm.trans parent')
      rw [ih above']

/-- From a node on a way up the rest of the way leads up. -/
theorem of_mem (h : s.LeadsUp i ps) (hp : p ∈ ps) :
    ∃ qs, s.LeadsUp p qs ∧ qs.length < ps.length := by
  induction h with
  | top => cases hp
  | up _ above ih =>
    rcases List.mem_cons.mp hp with rfl | hp
    · exact ⟨_, above, Nat.lt_succ_self _⟩
    · obtain ⟨qs, hqs, hlt⟩ := ih hp
      exact ⟨qs, hqs, Nat.lt_succ_of_lt hlt⟩

/-- No node is on its own way up. -/
theorem not_mem (h : s.LeadsUp i ps) : i ∉ ps := fun hi => by
  obtain ⟨qs, hqs, hlt⟩ := h.of_mem hi
  rw [h.unique hqs] at hlt
  exact Nat.lt_irrefl _ hlt

/-- A way that ends goes by no node twice. -/
theorem nodup (h : s.LeadsUp i ps) : (i :: ps).Nodup := by
  refine List.nodup_cons.mpr ⟨h.not_mem, ?_⟩
  induction h with
  | top => exact .nil
  | up _ above ih => exact List.nodup_cons.mpr ⟨above.not_mem, ih⟩

/-- What a way up leads to is reached. -/
theorem reaches (h : s.LeadsUp i ps) : ∀ p ∈ ps, s.Reaches p := by
  induction h with
  | top => simp
  | up parent _ ih => exact List.forall_mem_cons.mpr ⟨(parent?_eq_some_iff.mp parent).2, ih⟩

/-- What a way up leads to is in the store. -/
theorem lt_size (h : s.LeadsUp i ps) : ∀ p ∈ ps, p < s.size := fun p hp => by
  cases h.reaches p hp <;> assumption

/-- Different nodes of a store are no more than it has. -/
theorem length_le_of_lt {ids : List NodeId} (hnodup : ids.Nodup) (hlt : ∀ j ∈ ids, j < s.size) :
    ids.length ≤ s.size := by
  have hsub : ids ⊆ List.range s.size := fun j hj => List.mem_range.mpr (hlt j hj)
  simpa using (List.subperm_of_subset hnodup hsub).length_le

/-- A way up is no longer than the store is large. -/
theorem length_le (h : s.LeadsUp i ps) : ps.length ≤ s.size :=
  length_le_of_lt (List.nodup_cons.mp h.nodup).2 h.lt_size

/-- A node of the store has fewer nodes above it than the store has. -/
theorem length_lt (h : s.LeadsUp i ps) (hi : i < s.size) : ps.length < s.size :=
  length_le_of_lt h.nodup (List.forall_mem_cons.mpr ⟨hi, h.lt_size⟩)

/-- Climbing far enough goes the whole way up. -/
theorem climb_eq (h : s.LeadsUp i ps) {n : Nat} (hn : ps.length ≤ n) :
    climb s.parent? n i = ps := by
  induction h generalizing n with
  | top none => cases n <;> simp [climb, none]
  | up parent _ ih =>
    cases n with
    | zero => simp at hn
    | succ n =>
      rw [climb, parent]
      exact congrArg _ (ih (Nat.le_of_succ_le_succ hn))

/-- The ancestors of a node are the nodes on its way up. -/
theorem ancestors_eq (h : s.LeadsUp i ps) : s.ancestors i = ps := h.climb_eq h.length_le

/-- What stands above a node is on its way up. -/
theorem mem_of_transGen (h : s.LeadsUp i ps)
    (hp : Relation.TransGen (fun c q => s.parent? c = some q) i p) : p ∈ ps := by
  induction h with
  | @top i none =>
    obtain ⟨q, hq, -⟩ := Relation.TransGen.head'_iff.mp hp
    cases none.symm.trans hq
  | @up i q qs parent above ih =>
    obtain ⟨q', hq, hp⟩ := Relation.TransGen.head'_iff.mp hp
    obtain rfl := Option.some.inj (parent.symm.trans hq)
    rcases Relation.reflTransGen_iff_eq_or_transGen.mp hp with rfl | hp
    · exact List.mem_cons_self
    · exact List.mem_cons_of_mem _ (ih hp)

/-- What is on the way up of a node stands above it. -/
theorem reflTransGen_of_mem (h : s.LeadsUp i ps) (hp : p ∈ i :: ps) :
    Relation.ReflTransGen (fun c q => s.parent? c = some q) i p := by
  induction h with
  | top =>
    obtain rfl := List.mem_singleton.mp hp
    exact .refl
  | up parent _ ih =>
    rcases List.mem_cons.mp hp with rfl | hp
    · exact .refl
    · exact .head parent (ih hp)

/-! ### What the nodes above a node are asked for -/

variable {e : Entry}

/-- Looking for the first where all tests succeed is looking for it with plain tests. -/
theorem findM?_of_forall {f : NodeId → Except Fault Bool} {g : NodeId → Bool} {is : List NodeId}
    (h : ∀ i ∈ is, f i = .ok (g i)) : is.findM? f = .ok (is.find? g) := by
  induction is with
  | nil => rfl
  | cons i is ih =>
    rw [List.forall_mem_cons] at h
    rw [List.findM?, h.1, List.find?]
    cases g i
    · exact ih h.2
    · rfl

/-- The nearest node on the way up that has one of some kinds is found. -/
theorem ancestor?_eq (h : s.LeadsUp i ps) (he : s.get? i = some e) (hg : e.given = [])
    (hplain : ∀ j ∈ ps, ∃ e, s.get? j = some e ∧ e.given = []) (kinds : List Kind) :
    s.ancestor? kinds i = .ok (ps.find? (s.isOneOf kinds)) := by
  have hfind : ps.findM? (s.hasKind kinds) = .ok (ps.find? (s.isOneOf kinds)) :=
    findM?_of_forall fun j hj => by
      obtain ⟨f, hf, hgf⟩ := hplain j hj
      exact hasKind_eq_isOneOf hf (by rw [hgf]; rfl) kinds
  rw [ancestor?, calls_of_plain he hg, calls_of_plain he hg, h.ancestors_eq, ← hfind]
  rfl

/-- The tags of the nodes on the way up are found, those of the last node first. -/
theorem appliedTags_eq (h : s.LeadsUp i ps)
    (hplain : ∀ j ∈ ps, ∃ e, s.get? j = some e ∧ e.given = []) :
    s.appliedTags i = .ok ((ps.filter s.isTagged).reverse.flatMap s.ownTags) := by
  have hlists : (ps.filter s.isTagged).mapM (s.listed · .tags)
      = .ok ((ps.filter s.isTagged).map s.ownTags) := by
    refine mapM_of_forall₂ (List.forall₂_map_right_iff.mpr (List.forall₂_same.mpr fun j hj => ?_))
    obtain ⟨hmem, htagged⟩ := List.mem_filter.mp hj
    obtain ⟨f, hf, hgf⟩ := hplain j hmem
    exact listed_ownTags hf hgf htagged
  rw [appliedTags, h.ancestors_eq, hlists, List.flatMap, List.map_reverse]
  rfl

end LeadsUp

end Store

end FeatureTree
