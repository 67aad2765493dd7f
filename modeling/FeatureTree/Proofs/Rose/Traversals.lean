import FeatureTree.Proofs.Rose
import Mathlib.Data.List.Flatten
import Mathlib.Data.List.Pairwise

/-!
# The three orders compared

What the orders in which a tree is gone through have to do with each other, where no label stands
twice. Both orders that go down first keep what is below one label together, and the trees directly
below a label in their order. The order by levels visits one level after the other, each as an order
that goes down comes by it.

The queue of the order by levels holds the rest of one level in front of what is already known of
the next (`Rose.levelOrderFrom_append`).

## Main results

* `Rose.Subtree.preorder_sublist`, `Rose.Subtree.postorder_sublist`: a tree is visited within the
  trees that it is part of
* `Rose.levelOrder_eq`: the order by levels is one level after the other
* `Rose.Once.filter_preorder`: a level of a tree is a part of the order that goes down
-/

namespace FeatureTree

namespace Rose

variable {α : Type}

/-! ### Trees within trees -/

/-- A tree is another one or stands below its top. -/
inductive Subtree (u : Rose α) : Rose α → Prop
  | refl : Subtree u u
  | branch {a : α} {ts : List (Rose α)} {t : Rose α} (ht : t ∈ ts) (h : Subtree u t) :
    Subtree u (node a ts)

/-- A label stands in a tree. -/
def Has (t : Rose α) (b : α) : Prop := ∃ us, Subtree (node b us) t

variable {t u : Rose α} {ts : List (Rose α)} {a b : α}

/-- A label of a tree is the one at its top or one of a tree below. -/
theorem has_node_iff : (node a ts).Has b ↔ b = a ∨ ∃ t ∈ ts, t.Has b := by
  constructor
  · rintro ⟨us, hu⟩
    cases hu with
    | refl => exact .inl rfl
    | branch ht hu => exact .inr ⟨_, ht, us, hu⟩
  · rintro (rfl | ⟨t, ht, us, hu⟩)
    · exact ⟨ts, .refl⟩
    · exact ⟨us, .branch ht hu⟩

/-- The labels that an order visits are those that stand in the tree. -/
theorem mem_preorder_iff : b ∈ t.preorder ↔ t.Has b := by
  induction t using induction with
  | node a ts ih =>
    rw [preorder_node, List.mem_cons, List.mem_flatMap, has_node_iff]
    exact or_congr_right (exists_congr fun t => and_congr_right (ih t))

/-- A label comes before another one in a list. -/
def Precedes (labels : List α) (a b : α) : Prop := [a, b].Sublist labels

/-- What comes first in a list comes first in a longer one. -/
theorem Precedes.of_sublist {as bs : List α} (h : Precedes as a b) (hs : as.Sublist bs) :
    Precedes bs a b := h.trans hs

/-- What is in a list comes before what is in the list behind it. -/
theorem precedes_append {as bs : List α} (ha : a ∈ as) (hb : b ∈ bs) :
    Precedes (as ++ bs) a b :=
  (List.singleton_sublist.mpr ha).append (List.singleton_sublist.mpr hb)

/-- Each list that a list is put together from stands in it in order. -/
theorem sublist_flatMap {β : Type} (f : α → List β) {as : List α} (ha : a ∈ as) :
    (f a).Sublist (as.flatMap f) := by
  simpa using (List.singleton_sublist.mpr ha).flatMap f

/-- A tree is visited within the trees that it is part of, going down first. -/
theorem Subtree.preorder_sublist (h : Subtree u t) : u.preorder.Sublist t.preorder := by
  induction h with
  | refl => exact .refl _
  | branch ht _ ih =>
    rw [preorder_node]
    exact (ih.trans (sublist_flatMap preorder ht)).trans (List.sublist_cons_self _ _)

/-- The labels of a subtree are visited from below in the order of the whole tree. -/
theorem Subtree.postorder_sublist (h : Subtree u t) : u.postorder.Sublist t.postorder := by
  induction h with
  | refl => exact .refl _
  | branch ht _ ih =>
    rw [postorder_node]
    exact (ih.trans (sublist_flatMap postorder ht)).trans (List.sublist_append_left _ _)

/-! ### Trees in which no label stands twice -/

/-- No label of a tree stands at two places. -/
inductive Once : Rose α → Prop
  | mk {a : α} {ts : List (Rose α)} (top : ∀ t ∈ ts, ¬ t.Has a)
    (apart : ts.Pairwise fun t u => ∀ b, t.Has b → ¬ u.Has b) (below : ∀ t ∈ ts, Once t) :
    Once (node a ts)

/-- Where no label stands twice none is visited twice. -/
theorem Once.nodup_preorder (h : Once t) : t.preorder.Nodup := by
  induction h with
  | @mk a ts top apart _ ih =>
    rw [preorder_node, List.nodup_cons]
    refine ⟨fun ha => ?_, List.nodup_flatMap.mpr ⟨ih, apart.imp fun hd b hb hb' => ?_⟩⟩
    · obtain ⟨t, ht, ha⟩ := List.mem_flatMap.mp ha
      exact top t ht (mem_preorder_iff.mp ha)
    · exact hd b (mem_preorder_iff.mp hb) (mem_preorder_iff.mp hb')

/-! ### Levels -/

/-- The labels at a depth of a tree, from the first to the last. -/
def atDepth : Nat → Rose α → List α
  | 0, t => [t.label]
  | d + 1, t => t.branches.flatMap (atDepth d)

/-- A queue of trees is visited to its end while what is below them joins it. -/
theorem levelOrderFrom_append (n : Nat) (ts us : List (Rose α)) (hn : ts.length ≤ n) :
    levelOrderFrom n (ts ++ us)
      = ts.map label ++ levelOrderFrom (n - ts.length) (us ++ ts.flatMap branches) := by
  induction ts generalizing n us with
  | nil => simp
  | cons t ts ih =>
    obtain ⟨n, rfl⟩ : ∃ m, n = m + 1 := ⟨n - 1, by simp at hn; omega⟩
    have hn : ts.length ≤ n := Nat.le_of_succ_le_succ hn
    rw [List.cons_append, levelOrderFrom, List.append_assoc, ih n (us ++ t.branches) hn,
      List.flatMap_cons, List.append_assoc, List.length_cons, Nat.add_sub_add_right]
    rfl

/-- The number of labels of some trees. -/
def sizeOfAll (ts : List (Rose α)) : Nat := (ts.map size).foldr (· + ·) 0

/-- Some trees have the labels at their tops and those of their branches. -/
theorem sizeOfAll_branches (ts : List (Rose α)) :
    sizeOfAll ts = ts.length + sizeOfAll (ts.flatMap branches) := by
  induction ts with
  | nil => rfl
  | cons t ts ih =>
    obtain ⟨a, us⟩ := t
    have happend : sizeOfAll (us ++ ts.flatMap branches)
        = sizeOfAll us + sizeOfAll (ts.flatMap branches) := by
      rw [sizeOfAll, List.map_append, foldr_add_append]
      rfl
    have hcons : sizeOfAll (node a us :: ts) = 1 + sizeOfAll us + sizeOfAll ts := by
      rw [sizeOfAll, List.map_cons, List.foldr_cons, size_node]
      rfl
    rw [hcons, ih, List.flatMap_cons, branches, happend, List.length_cons]
    omega

/-- The order by levels of a queue is one level of its trees after the other. -/
theorem levelOrderFrom_eq (k : Nat) (ts : List (Rose α)) (hk : ∀ t ∈ ts, t.height ≤ k) :
    levelOrderFrom (sizeOfAll ts) ts = (List.range k).flatMap fun d => ts.flatMap (atDepth d) := by
  induction k generalizing ts with
  | zero =>
    cases ts with
    | nil => rfl
    | cons t ts =>
      obtain ⟨a, us⟩ := t
      have := hk _ List.mem_cons_self
      rw [height_node] at this
      omega
  | succ k ih =>
    have hbelow : ∀ u ∈ ts.flatMap branches, u.height ≤ k := by
      intro u hu
      obtain ⟨⟨a, us⟩, ht, hu⟩ := List.mem_flatMap.mp hu
      exact height_node_le_iff.mp (hk _ ht) u hu
    have hsize := sizeOfAll_branches ts
    have hlevel := levelOrderFrom_append (sizeOfAll ts) ts [] (by omega)
    rw [List.append_nil, List.nil_append] at hlevel
    have hrest : sizeOfAll ts - ts.length = sizeOfAll (ts.flatMap branches) := by omega
    rw [hlevel, hrest, ih _ hbelow, List.range_succ_eq_map, List.flatMap_cons, List.flatMap_map]
    congr 1
    · exact List.map_eq_flatMap
    · simp only [List.flatMap_assoc]
      rfl

/-- The order by levels is one level after the other. -/
theorem levelOrder_eq {n : Nat} (hn : t.height ≤ n) :
    t.levelOrder = (List.range n).flatMap fun d => t.atDepth d := by
  have h := levelOrderFrom_eq n [t] (by simpa using hn)
  simp only [List.flatMap_singleton] at h
  rw [← h, levelOrder]
  simp [sizeOfAll]

/-- A label at some depth is a label of the tree. -/
theorem has_of_mem_atDepth {d : Nat} (h : b ∈ t.atDepth d) : t.Has b := by
  induction d generalizing t with
  | zero =>
    obtain ⟨a, ts⟩ := t
    rw [List.mem_singleton.mp h]
    exact ⟨ts, .refl⟩
  | succ d ih =>
    obtain ⟨a, ts⟩ := t
    obtain ⟨t, ht, hb⟩ := List.mem_flatMap.mp h
    exact has_node_iff.mpr (.inr ⟨t, ht, ih hb⟩)

/-- A label of a tree stands at a depth of it. -/
theorem Has.exists_atDepth (h : t.Has b) : ∃ d, b ∈ t.atDepth d := by
  induction t using induction with
  | node a ts ih =>
    rcases has_node_iff.mp h with rfl | ⟨t, ht, hb⟩
    · exact ⟨0, List.mem_singleton_self _⟩
    · obtain ⟨d, hd⟩ := ih t ht hb
      exact ⟨d + 1, List.mem_flatMap.mpr ⟨t, ht, hd⟩⟩

/-- Where each label stands once, no two branches share a label. -/
theorem Once.eq_of_has (h : Once (node a ts)) (ht : t ∈ ts) (hu : u ∈ ts) (hb : t.Has b)
    (hb' : u.Has b) : t = u := by
  obtain ⟨-, apart, -⟩ := h
  have hsymm : Std.Symm fun t u : Rose α => ∀ b, t.Has b → ¬ u.Has b :=
    ⟨fun _ _ hd b hb hb' => hd b hb' hb⟩
  by_contra hne
  exact apart.forall ht hu hne b hb hb'

/-- Where no label stands twice, none stands at two depths. -/
theorem Once.depth_unique (h : Once t) {d e : Nat} (hd : b ∈ t.atDepth d) (he : b ∈ t.atDepth e) :
    d = e := by
  induction h generalizing d e with
  | @mk a ts top apart below ih =>
    have hapart : ∀ {d : Nat}, b ∈ (node a ts).atDepth (d + 1) → b ≠ a := fun hd hba => by
      obtain ⟨t, ht, hb⟩ := List.mem_flatMap.mp hd
      exact top t ht (hba ▸ has_of_mem_atDepth hb)
    cases d with
    | zero =>
      cases e with
      | zero => rfl
      | succ e => exact absurd (List.mem_singleton.mp hd) (hapart he)
    | succ d =>
      cases e with
      | zero => exact absurd (List.mem_singleton.mp he) (hapart hd)
      | succ e =>
        obtain ⟨t, ht, hbt⟩ := List.mem_flatMap.mp hd
        obtain ⟨u, hu, hbu⟩ := List.mem_flatMap.mp he
        obtain rfl := (Once.mk top apart below).eq_of_has ht hu (has_of_mem_atDepth hbt)
          (has_of_mem_atDepth hbu)
        rw [ih t ht hbt hbu]

/-- A level of a tree is what the order that goes down comes by at that depth. -/
theorem Once.filter_preorder (h : Once t) {d : Nat} {p : α → Bool}
    (hp : ∀ b, t.Has b → (p b = true ↔ b ∈ t.atDepth d)) : t.preorder.filter p = t.atDepth d := by
  induction h generalizing d p with
  | @mk a ts top apart below ih =>
    have hbelow : ∀ {t b}, t ∈ ts → t.Has b → (node a ts).Has b := fun ht hb =>
      has_node_iff.mpr (.inr ⟨_, ht, hb⟩)
    rw [preorder_node]
    cases d with
    | zero =>
      have hnone : ∀ b ∈ ts.flatMap preorder, ¬ p b = true := by
        intro b hb hpb
        obtain ⟨t, ht, hb⟩ := List.mem_flatMap.mp hb
        have hb := mem_preorder_iff.mp hb
        obtain rfl : b = a := List.mem_singleton.mp ((hp b (hbelow ht hb)).mp hpb)
        exact top t ht hb
      rw [List.filter_cons_of_pos ((hp a ⟨ts, .refl⟩).mpr (List.mem_singleton_self a)),
        List.filter_eq_nil_iff.mpr hnone]
      rfl
    | succ d =>
      have htop : ¬ p a = true := fun hpa => by
        obtain ⟨t, ht, ha⟩ := List.mem_flatMap.mp ((hp a ⟨ts, .refl⟩).mp hpa)
        exact top t ht (has_of_mem_atDepth ha)
      rw [List.filter_cons_of_neg htop, List.filter_flatMap]
      refine List.flatMap_congr fun t ht => ih t ht fun b hb => (hp b (hbelow ht hb)).trans ?_
      constructor
      · intro hd
        obtain ⟨u, hu, hd⟩ := List.mem_flatMap.mp hd
        rwa [(Once.mk top apart below).eq_of_has ht hu hb (has_of_mem_atDepth hd)]
      · exact fun hd => List.mem_flatMap.mpr ⟨t, ht, hd⟩

end Rose

end FeatureTree
