import FeatureTree.Rose
import Mathlib.Data.List.Nodup
import Mathlib.Data.List.Perm.Basic
import Mathlib.Logic.Relation

/-!
# Which labels are visited

Whatever the order in which a tree is gone through, the same labels are visited, each as often as it
stands in the tree. No label is visited twice where every label knows the one above it, as long as
the labels directly below another differ and no label stands above itself.

## Main results

* `Rose.perm_inOrder`: every order visits the same labels
* `Rose.Hangs.nodup_preorder`: no label of a tree that hangs together is visited twice
-/

namespace FeatureTree

namespace Rose

variable {α β : Type}

/-- Changes the labels of a tree. -/
def map (f : α → β) : Rose α → Rose β := fold fun a ts => node (f a) ts

/-- Changing the labels changes the one at the top and those below it. -/
theorem map_node (f : α → β) (a : α) (ts : List (Rose α)) :
    (node a ts).map f = node (f a) (ts.map (map f)) := fold_node _ a ts

/-- What holds of a tree if it holds of the trees directly below the top holds of every tree. -/
theorem induction {motive : Rose α → Prop}
    (node : ∀ a ts, (∀ t ∈ ts, motive t) → motive (node a ts)) (t : Rose α) : motive t := by
  refine @Rose.rec α motive (fun ts => ∀ t ∈ ts, motive t) node ?_ ?_ t
  · exact fun t ht => absurd ht List.not_mem_nil
  · intro t ts ht hts u hu
    rcases List.mem_cons.mp hu with rfl | hu
    · exact ht
    · exact hts u hu

/-- The labels are visited from the top in the same order once they are changed. -/
theorem preorder_map (f : α → β) (t : Rose α) : (t.map f).preorder = t.preorder.map f := by
  induction t using induction with
  | node a ts ih =>
    rw [map_node, preorder_node, preorder_node, List.map_cons, List.map_flatMap, List.flatMap_map]
    exact congrArg _ (List.flatMap_congr ih)

/-- The labels are visited from below in the same order once they are changed. -/
theorem postorder_map (f : α → β) (t : Rose α) : (t.map f).postorder = t.postorder.map f := by
  induction t using induction with
  | node a ts ih =>
    rw [map_node, postorder_node, postorder_node, List.map_append, List.map_flatMap,
      List.flatMap_map, List.flatMap_congr ih]
    rfl

/-- Changing the labels leaves their number alone. -/
theorem size_map (f : α → β) (t : Rose α) : (t.map f).size = t.size := by
  rw [← length_preorder, ← length_preorder, preorder_map, List.length_map]

/-- The labels of a queue of trees are visited in the same order once they are changed. -/
theorem levelOrderFrom_map (f : α → β) (n : Nat) (queue : List (Rose α)) :
    levelOrderFrom n (queue.map (map f)) = (levelOrderFrom n queue).map f := by
  induction n generalizing queue with
  | zero => cases queue <;> rfl
  | succ n ih =>
    cases queue with
    | nil => rfl
    | cons t queue =>
      obtain ⟨a, ts⟩ := t
      rw [List.map_cons, map_node, levelOrderFrom, levelOrderFrom, List.map_cons, ← ih,
        List.map_append]
      rfl

/-- Changing the labels of a tree changes those that are visited. -/
theorem inOrder_map (f : α → β) (t : Rose α) (order : Order) :
    (t.map f).inOrder order = (t.inOrder order).map f := by
  cases order with
  | pre => exact t.preorder_map f
  | post => exact t.postorder_map f
  | level =>
    rw [inOrder, levelOrder, size_map]
    exact levelOrderFrom_map f t.size [t]

/-- Changing no label changes nothing. -/
@[simp] theorem map_id (t : Rose α) : t.map id = t := by
  induction t using induction with
  | node a ts ih =>
    rw [map_node]
    exact congrArg _ ((List.map_congr_left ih).trans (List.map_id ts))

/-- The label at the top is changed as all labels are. -/
theorem label_map (f : α → β) (t : Rose α) : (t.map f).label = f t.label := by
  obtain ⟨a, ts⟩ := t
  rw [map_node]
  rfl

/-- The label at the top is visited. -/
theorem label_mem_preorder (t : Rose α) : t.label ∈ t.preorder := by
  obtain ⟨a, ts⟩ := t
  rw [preorder_node]
  exact List.mem_cons_self

/-- Every tree has a label. -/
theorem size_pos (t : Rose α) : 0 < t.size := by
  obtain ⟨a, ts⟩ := t
  rw [size_node]
  omega

/-- The number of levels of a tree. -/
def height : Rose α → Nat := fold fun _ heights => heights.foldr max 0 + 1

/-- A tree has one level more than the highest of the trees below its top. -/
theorem height_node (a : α) (ts : List (Rose α)) :
    (node a ts).height = (ts.map height).foldr max 0 + 1 := fold_node _ a ts

/-- The greatest of some numbers is no more than a bound if each of them is. -/
theorem foldr_max_le_iff {n : Nat} {ms : List Nat} : ms.foldr max 0 ≤ n ↔ ∀ m ∈ ms, m ≤ n := by
  induction ms with
  | nil => simp
  | cons m ms ih => rw [List.foldr_cons, Nat.max_le, ih, List.forall_mem_cons]

/-- A tree has one level more than the trees directly below its top have at most. -/
theorem height_node_le_iff {a : α} {ts : List (Rose α)} {n : Nat} :
    (node a ts).height ≤ n + 1 ↔ ∀ t ∈ ts, t.height ≤ n := by
  rw [height_node, Nat.add_le_add_iff_right, foldr_max_le_iff, List.forall_mem_map]

/-- A list is no shorter than each of the lists that it is put together from. -/
theorem length_le_length_flatMap {f : α → List β} {as : List α} {a : α} (h : a ∈ as) :
    (f a).length ≤ (as.flatMap f).length := by
  obtain ⟨as₁, as₂, rfl⟩ := List.append_of_mem h
  simp only [List.flatMap_append, List.flatMap_cons, List.length_append]
  omega

/-- A tree has no more levels than labels. -/
theorem height_le_length_preorder (t : Rose α) : t.height ≤ t.preorder.length := by
  induction t using induction with
  | node a ts ih =>
    rw [preorder_node, List.length_cons, height_node_le_iff]
    exact fun t ht => Nat.le_trans (ih t ht) (length_le_length_flatMap ht)

/-! ### The same labels in every order -/

/-- Visiting from below visits the same labels as visiting from the top. -/
theorem perm_postorder (t : Rose α) : t.postorder.Perm t.preorder := by
  induction t using induction with
  | node a ts ih =>
    rw [postorder_node, preorder_node]
    refine List.perm_append_comm.trans (List.Perm.cons a ?_)
    exact List.Perm.flatMap_left ts ih

/-- The sum of two lists of numbers is that of one and that of the other. -/
theorem foldr_add_append (ms ns : List Nat) :
    (ms ++ ns).foldr (· + ·) 0 = ms.foldr (· + ·) 0 + ns.foldr (· + ·) 0 := by
  induction ms with
  | nil => simp
  | cons m ms ih => simp [ih, Nat.add_assoc]

/-- A queue is visited to the end if there are as many labels still to visit as it has. -/
theorem perm_levelOrderFrom (n : Nat) (queue : List (Rose α))
    (hn : (queue.map size).foldr (· + ·) 0 = n) :
    (levelOrderFrom n queue).Perm (queue.flatMap preorder) := by
  induction n generalizing queue with
  | zero =>
    cases queue with
    | nil => exact .refl _
    | cons t queue =>
      have := t.size_pos
      simp only [List.map_cons, List.foldr_cons] at hn
      omega
  | succ n ih =>
    cases queue with
    | nil => exact .refl _
    | cons t queue =>
      obtain ⟨a, ts⟩ := t
      rw [List.map_cons, List.foldr_cons, size_node] at hn
      have hrest := ih (queue ++ ts) (by
        rw [List.map_append, foldr_add_append]
        omega)
      rw [levelOrderFrom, List.flatMap_cons, preorder_node, List.cons_append]
      refine List.Perm.cons a (hrest.trans ?_)
      rw [List.flatMap_append]
      exact List.perm_append_comm

/-- Every order visits the same labels. -/
theorem perm_inOrder (t : Rose α) (order : Order) : (t.inOrder order).Perm t.preorder := by
  cases order with
  | pre => exact .refl _
  | post => exact t.perm_postorder
  | level =>
    have h := perm_levelOrderFrom t.size [t] (by simp)
    rwa [List.flatMap_singleton] at h

/-! ### Trees in which no label is repeated -/

/-- Every label knows the one directly above it, and the labels directly below another differ. -/
inductive Hangs (up : α → Option α) : Rose α → Prop
  | mk {a : α} {ts : List (Rose α)} (distinct : (ts.map label).Nodup)
    (linked : ∀ t ∈ ts, up t.label = some a) (below : ∀ t ∈ ts, Hangs up t) : Hangs up (node a ts)

variable {up : α → Option α} {t : Rose α} {a b c d : α}

/-- A label is another one or stands below it. -/
abbrev StandsUnder (up : α → Option α) : α → α → Prop :=
  Relation.ReflTransGen fun c p => up c = some p

/-- Every label of a tree is the top one or stands below it. -/
theorem Hangs.standsUnder (h : Hangs up t) : ∀ b ∈ t.preorder, StandsUnder up b t.label := by
  induction h with
  | @mk a ts _ linked _ ih =>
    intro b hb
    rw [preorder_node] at hb
    rcases List.mem_cons.mp hb with rfl | hb
    · exact .refl
    · obtain ⟨t, ht, hb⟩ := List.mem_flatMap.mp hb
      exact (ih t ht b hb).tail (linked t ht)

/-- The labels above another stand one above the other, so a label does not stand below two labels
that are directly below the same one. -/
theorem eq_of_standsUnder (hirr : ∀ a, ¬ Relation.TransGen (fun c p => up c = some p) a a)
    (hc : up c = some a) (hd : up d = some a) (hbc : StandsUnder up b c)
    (hbd : StandsUnder up b d) : c = d := by
  have hunique : Relator.RightUnique fun c p : α => up c = some p := fun c p q hp hq =>
    Option.some.inj (hp.symm.trans hq)
  -- if one of the two were above the other, it would be above itself
  have hmeet : ∀ {c d : α}, up c = some a → up d = some a → StandsUnder up c d → c = d := by
    intro c d hc hd h
    rcases h.cases_head with rfl | ⟨p, hp, h⟩
    · rfl
    · obtain rfl : p = a := Option.some.inj (hp.symm.trans hc)
      exact absurd (Relation.TransGen.tail' h hd) (hirr p)
  rcases hbc.total_of_right_unique hunique hbd with h | h
  · exact hmeet hc hd h
  · exact (hmeet hd hc h).symm

/-- No label of a tree that hangs together is visited twice. -/
theorem Hangs.nodup_preorder (h : Hangs up t)
    (hirr : ∀ a, ¬ Relation.TransGen (fun c p => up c = some p) a a) : t.preorder.Nodup := by
  induction h with
  | @mk a ts distinct linked below ih =>
    rw [preorder_node, List.nodup_cons]
    constructor
    · -- the top label stands above what is below it
      intro ha
      obtain ⟨t, ht, ha⟩ := List.mem_flatMap.mp ha
      exact hirr a (Relation.TransGen.tail' ((below t ht).standsUnder a ha) (linked t ht))
    · refine List.nodup_flatMap.mpr ⟨ih, ?_⟩
      have hpair : ts.Pairwise fun t u => t.label ≠ u.label := List.pairwise_map.mp distinct
      refine hpair.imp_of_mem fun {t u} ht hu hne b hbt hbu => hne ?_
      exact eq_of_standsUnder hirr (linked t ht) (linked u hu) ((below t ht).standsUnder b hbt)
        ((below u hu).standsUnder b hbu)

end Rose

end FeatureTree
