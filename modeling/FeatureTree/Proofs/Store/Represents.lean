import FeatureTree.Proofs.Store.Planting
import Mathlib.Data.List.Perm.Subperm

/-!
# Trees that a store represents

A node of a store stands for a tree: it holds what the top of the tree holds, and the nodes that it
lists are attached to it and stand for the parts. Such a tree is finite although the nodes of a
store can be attached in a circle, so no node stands below itself, and a tree has no more levels
than the store has nodes.

## Main results

* `Store.stands_plant`, `Store.represents_plant`: the store in which a tree was planted stands for
  it
* `Store.Spans.height_le`: a tree over the nodes of a store has no more levels than there are nodes
-/

namespace FeatureTree

namespace Shape

variable {α β γ : Type}

/-- The parts of a mapped shape are the mapped parts. -/
@[simp] theorem parts_map (f : α → β) (s : Shape α) : (s.map f).parts = s.parts.map f := by
  cases s <;> simp [parts, map, children, toList_map]

/-- Going through the parts in pairs with what they become. -/
theorem map_mapM {m : Type → Type} [Monad m] [LawfulMonad m] (g : β → γ) (f : α → m β)
    (s : Shape α) : map g <$> s.mapM f = s.mapM fun a => g <$> f a := by
  have hl : ∀ xs : List α, List.map g <$> xs.mapM f = xs.mapM fun a => g <$> f a := by
    intro xs
    induction xs with
    | nil => simp
    | cons x xs ih =>
      rw [List.mapM_cons, List.mapM_cons, ← ih]
      simp [monad_norm]
  have ho : ∀ o : Option α, Option.map g <$> o.mapM f = o.mapM fun a => g <$> f a := by
    intro o
    cases o <;> simp [monad_norm]
  cases s <;> simp only [mapM, ← hl, ← ho] <;> simp [map, monad_norm]

/-- An action that gives back what it is given leaves the shape as it is. -/
theorem mapM_of_id {σ : Type} {f : α → StateM σ α} (h : ∀ a st, (f a st).1 = a) (s : Shape α)
    (st : σ) : (s.mapM f st).1 = s := by
  have hl : ∀ (xs : List α) st, (xs.mapM f st).1 = xs := by
    intro xs
    induction xs with
    | nil => exact fun _ => rfl
    | cons x xs ih =>
      intro st
      rw [List.mapM_cons]
      exact congrArg₂ List.cons (h x st) (ih _)
  have ho : ∀ (o : Option α) st, (o.mapM f st).1 = o := by
    rintro (_ | a) st
    · rfl
    · rw [Option.mapM_some]
      exact congrArg some (h a st)
  have hbind : ∀ {β γ : Type} (x : StateM σ β) (g : β → StateM σ γ) st,
      ((x >>= g) st).1 = (g (x st).1 (x st).2).1 := fun _ _ _ => rfl
  have hpure : ∀ {β : Type} (b : β) st, ((pure b : StateM σ β) st).1 = b := fun _ _ => rfl
  cases s <;> simp only [mapM, hbind, hpure, hl, ho]

end Shape

namespace Node

/-- The number of levels of a tree. -/
def height : Node → Nat
  | .mk _ shape => (shape.parts.attach.map fun n => height n.1).foldr max 0 + 1
termination_by n => sizeOf n
decreasing_by
  have := Shape.sizeOf_lt_of_mem_parts n.2
  simp only [Node.mk.sizeOf_spec]
  omega

/-- No number is above the greatest. -/
theorem le_foldr_max {ns : List Nat} {k : Nat} (h : k ∈ ns) : k ≤ ns.foldr max 0 := by
  induction ns with
  | nil => cases h
  | cons n ns ih =>
    rw [List.foldr_cons]
    rcases List.mem_cons.mp h with rfl | h
    · exact Nat.le_max_left _ _
    · exact Nat.le_trans (ih h) (Nat.le_max_right _ _)

/-- The greatest of some numbers is one of them. -/
theorem foldr_max_mem {ns : List Nat} (h : ns ≠ []) : ns.foldr max 0 ∈ ns := by
  induction ns with
  | nil => exact absurd rfl h
  | cons n ns ih =>
    rw [List.foldr_cons]
    by_cases hns : ns = []
    · subst hns
      simp
    · rcases Nat.le_total n (ns.foldr max 0) with hle | hle
      · rw [Nat.max_eq_right hle]
        exact List.mem_cons_of_mem _ (ih hns)
      · rw [Nat.max_eq_left hle]
        exact List.mem_cons_self

/-- A node is one level higher than the highest of its parts. -/
theorem height_eq (n : Node) : n.height = (n.shape.parts.map height).foldr max 0 + 1 := by
  obtain ⟨o, shape⟩ := n
  rw [height, List.attach_map_val]
  rfl

/-- A part has fewer levels than the whole. -/
theorem height_lt {n m : Node} (h : m ∈ n.shape.parts) : m.height < n.height := by
  rw [height_eq n]
  exact Nat.lt_succ_of_le (le_foldr_max (List.mem_map_of_mem h))

/-- Every node has a height. -/
theorem height_pos (n : Node) : 0 < n.height := by
  rw [height_eq]
  exact Nat.succ_pos _

/-- Every tree mentions some nodes. -/
theorem within_any (n : Node) : n.Within fun _ => True :=
  Node.induction (fun _ _ ih => .mk (fun _ _ => trivial) (fun _ _ _ _ => trivial)
    (fun _ _ _ _ => trivial) ih) n

end Node

namespace Store

variable {s t : Store} {i j : NodeId} {n m : Node}

/-! ### Levels -/

/-- Below a node of a store there are nodes as there are parts below the top of a tree. -/
inductive Spans (s : Store) : NodeId → Node → Prop
  | mk {i : NodeId} {e : Entry} {n : Node} (pairs : List (NodeId × Node))
    (entry : s.get? i = some e) (listed : e.shape.parts = pairs.map Prod.fst)
    (parts : n.shape.parts = pairs.map Prod.snd)
    (below : ∀ x ∈ pairs, Spans s x.1 x.2) : Spans s i n

namespace Spans

/-- A node that spans another is in the store. -/
theorem lt_size (h : s.Spans i n) : i < s.size := by
  cases h with
  | mk pairs entry _ _ _ => exact get?_lt entry

/-- Lists with the same first members agree on what depends on these alone. -/
theorem map_snd_eq {α : Type} {f : Node → α} : {xs ys : List (NodeId × Node)} →
    xs.map Prod.fst = ys.map Prod.fst →
    (∀ x ∈ xs, ∀ y ∈ ys, x.1 = y.1 → f x.2 = f y.2) →
    xs.map (fun x => f x.2) = ys.map fun y => f y.2
  | [], [], _, _ => rfl
  | x :: xs, y :: ys, h, hf => by
    rw [List.map_cons, List.map_cons, List.cons.injEq] at h
    rw [List.map_cons, List.map_cons, hf x (by simp) y (by simp) h.1,
      map_snd_eq h.2 fun a ha b hb =>
        hf a (List.mem_cons_of_mem _ ha) b (List.mem_cons_of_mem _ hb)]

/-- All trees over a node have as many levels. -/
theorem height_eq (h : s.Spans i n) (h' : s.Spans i m) : n.height = m.height := by
  induction h generalizing m with
  | mk pairs entry listed parts _ ih =>
    cases h' with
    | mk pairs' entry' listed' parts' below' =>
      obtain rfl := Option.some.inj (entry.symm.trans entry')
      rw [Node.height_eq, Node.height_eq, parts, parts', List.map_map, List.map_map]
      refine congrArg (fun ns => ns.foldr max 0 + 1)
        (map_snd_eq (listed.symm.trans listed') fun x hx y hy hxy => ?_)
      exact ih x hx (hxy ▸ below' y hy)

/-- Going down where most levels are, one comes by a different node on every level. -/
theorem exists_nodup (h : s.Spans i n) : ∃ ids : List NodeId, ids.length = n.height ∧ ids.Nodup
    ∧ ∀ j ∈ ids, j < s.size ∧ ∃ m, s.Spans j m ∧ m.height ≤ n.height := by
  induction h with
  | @mk i e n pairs entry listed parts below ih =>
    have htop := Spans.mk pairs entry listed parts below
    by_cases hnil : pairs = []
    · refine ⟨[i], ?_, by simp, fun j hj => ?_⟩
      · rw [Node.height_eq, parts, hnil]
        rfl
      · obtain rfl := List.mem_singleton.mp hj
        exact ⟨htop.lt_size, _, htop, Nat.le_refl _⟩
    · have hne : (pairs.map fun x => x.2.height) ≠ [] := by simpa using hnil
      obtain ⟨x, hx, hmax⟩ := List.mem_map.mp (Node.foldr_max_mem hne)
      have hheight : n.height = x.2.height + 1 := by
        rw [Node.height_eq, parts, List.map_map, hmax]
        rfl
      obtain ⟨ids, hlength, hnodup, hids⟩ := ih x hx
      rw [hheight]
      refine ⟨i :: ids, by simp [hlength], List.nodup_cons.mpr ⟨fun hi => ?_, hnodup⟩, ?_⟩
      · -- there would be a tree with fewer levels over the top
        obtain ⟨-, m, hm, hle⟩ := hids i hi
        have := htop.height_eq hm
        omega
      · rw [List.forall_mem_cons]
        refine ⟨⟨htop.lt_size, _, htop, Nat.le_of_eq hheight⟩, fun j hj => ?_⟩
        obtain ⟨hlt, m, hm, hle⟩ := hids j hj
        exact ⟨hlt, m, hm, Nat.le_succ_of_le hle⟩

/-- A tree has no more levels than the store over whose nodes it is has nodes. -/
theorem height_le (h : s.Spans i n) : n.height ≤ s.size := by
  obtain ⟨ids, hlength, hnodup, hids⟩ := h.exists_nodup
  have hsub : ids ⊆ List.range s.size := fun j hj => List.mem_range.mpr (hids j hj).1
  have hle := (List.subperm_of_subset hnodup hsub).length_le
  rwa [List.length_range, hlength] at hle

end Spans

/-! ### Trees -/

/-- A node of a store stands for a tree: it was given nothing, it holds what the top of the tree
holds, and the nodes that it lists are attached to it and stand for the parts. -/
inductive Represents (s : Store) : NodeId → Node → Prop
  | mk {i : NodeId} {e : Entry} {o : Origin} (pairs : Shape (NodeId × Node))
    (entry : s.get? i = some e) (plain : e.given = []) (shape : e.shape = pairs.map Prod.fst)
    (attached : ∀ x ∈ pairs.parts, s.remembered x.1 = some i)
    (parts : ∀ x ∈ pairs.parts, Represents s x.1 x.2) : Represents s i (.mk o (pairs.map Prod.snd))

namespace Represents

/-- A node that represents another has an entry with parts that represent its parts. -/
theorem inv (h : s.Represents i n) : ∃ (e : Entry) (pairs : Shape (NodeId × Node)),
    s.get? i = some e ∧ e.given = []
    ∧ e.shape = pairs.map Prod.fst ∧ n.shape = pairs.map Prod.snd
    ∧ (∀ x ∈ pairs.parts, s.remembered x.1 = some i) ∧ ∀ x ∈ pairs.parts, s.Represents x.1 x.2 := by
  cases h with
  | mk pairs entry plain shape attached parts =>
    exact ⟨_, pairs, entry, plain, shape, rfl, attached, parts⟩

/-- A node that represents another spans it. -/
theorem spans (h : s.Represents i n) : s.Spans i n := by
  induction h with
  | mk pairs entry _ shape _ _ ih =>
    exact .mk pairs.parts entry (by rw [shape, Shape.parts_map]) (Shape.parts_map _ _) ih

/-- A store that holds the same and in which what was attached is attached represents the same. -/
theorem mono (h : s.Represents i n)
    (hentries : ∀ j e, s.get? j = some e →
      ∃ f, t.get? j = some f ∧ f.shape = e.shape ∧ f.given = e.given)
    (hremembered : ∀ c q, s.remembered c = some q → t.remembered c = some q) :
    t.Represents i n := by
  induction h with
  | mk pairs entry plain shape attached _ ih =>
    obtain ⟨f, hf, hshape, hgiven⟩ := hentries _ _ entry
    exact .mk pairs hf (hgiven.trans plain) (hshape.trans shape)
      (fun x hx => hremembered _ _ (attached x hx)) ih

end Represents

/-! ### Planting -/

/-- Planting a tree, with the tree next to its identity. -/
def plantingPair (n : Node) : StateM Store (NodeId × Node) := do return (← planting n, n)

/-- Planting nodes one by one grows the store. -/
theorem grown_plantingPair (ns : List Node) (s : Store) :
    Grown (fun _ => True) s (ns.mapM plantingPair s).2
      ((ns.mapM plantingPair s).1.map Prod.fst) := by
  have hmap : List.map Prod.fst <$> ns.mapM plantingPair = ns.mapM planting := by
    induction ns with
    | nil => rfl
    | cons n ns ih =>
      rw [List.mapM_cons, List.mapM_cons, ← ih]
      rfl
  have hgrown : Grown (fun _ => True) s (ns.mapM planting s).2 (ns.mapM planting s).1 :=
    grown_mapM_planting (fun n _ s => grown_plant n.within_any s) s
  rw [← hmap] at hgrown
  exact hgrown

/-- A node of a store stands for a tree and comes from where the tree comes from, and so do its
parts, which differ and come before the node. -/
inductive Stands (s : Store) : NodeId → Node → Prop
  | mk {i : NodeId} {e : Entry} {o : Origin} (pairs : Shape (NodeId × Node))
    (entry : s.get? i = some e) (plain : e.given = []) (line : e.line = o.line)
    (capsule : e.capsule = o.capsule) (shape : e.shape = pairs.map Prod.fst)
    (distinct : (pairs.parts.map Prod.fst).Nodup)
    (attached : ∀ x ∈ pairs.parts, x.1 < i ∧ s.remembered x.1 = some i)
    (parts : ∀ x ∈ pairs.parts, Stands s x.1 x.2) : Stands s i (.mk o (pairs.map Prod.snd))

namespace Stands

/-- A node that stands for another represents it. -/
theorem represents (h : s.Stands i n) : s.Represents i n := by
  induction h with
  | mk pairs entry plain _ _ shape _ attached _ ih =>
    exact .mk pairs entry plain shape (fun x hx => (attached x hx).2) ih

/-- A store that holds the same, whatever is remembered, and in which what was attached is attached
keeps standing for the same. -/
theorem mono (h : s.Stands i n)
    (hentries : ∀ j e, s.get? j = some e → ∃ parent, t.get? j = some { e with parent })
    (hremembered : ∀ c q, s.remembered c = some q → t.remembered c = some q) : t.Stands i n := by
  induction h with
  | mk pairs entry plain line capsule shape distinct attached _ ih =>
    obtain ⟨parent, hf⟩ := hentries _ _ entry
    exact .mk pairs hf plain line capsule shape distinct
      (fun x hx => ⟨(attached x hx).1, hremembered _ _ (attached x hx).2⟩) ih

/-- What stands for a node does so after the store has grown. -/
theorem of_grown {r : NodeId → Prop} {tops : List NodeId} (h : s.Stands i n)
    (hg : Grown r s t tops) : t.Stands i n := by
  refine h.mono (fun j e he => ⟨e.parent, (hg.old j (get?_lt he)).trans he⟩) fun c q hq => ?_
  rwa [hg.remembered_old (lt_of_remembered hq)]

end Stands

/-- Nodes that are planted one by one stand for what was planted. -/
theorem stands_plantingPair {ns : List Node}
    (h : ∀ n ∈ ns, ∀ s : Store, (planting n s).2.Stands (planting n s).1 n) (s : Store) :
    ∀ x ∈ (ns.mapM plantingPair s).1, (ns.mapM plantingPair s).2.Stands x.1 x.2 := by
  induction ns generalizing s with
  | nil => exact fun x hx => by cases hx
  | cons n ns ih =>
    rw [List.forall_mem_cons] at h
    rw [List.mapM_cons]
    refine List.forall_mem_cons.mpr ⟨?_, ih h.2 _⟩
    exact (h.1 s).of_grown (grown_plantingPair ns (planting n s).2)

/-- The store in which a tree was planted stands for it. -/
theorem stands_plant (n : Node) (s : Store) : (s.plant n).2.Stands (s.plant n).1 n := by
  induction n using Node.induction generalizing s with
  | mk o shape ih =>
    obtain ⟨pairs, t, hpairs⟩ : ∃ pairs t, shape.mapM plantingPair s = (pairs, t) := ⟨_, _, rfl⟩
    have hparts : shape.parts.mapM plantingPair s = (pairs.parts, t) := by
      rw [← Shape.parts_mapM]
      exact congrArg (fun x => (x.1.parts, x.2)) hpairs
    have hfst : shape.mapM planting s = (pairs.map Prod.fst, t) := by
      have hmap : ((shape.mapM plantingPair s).1.map Prod.fst, (shape.mapM plantingPair s).2)
          = shape.mapM planting s := congrFun (Shape.map_mapM Prod.fst plantingPair shape) s
      rw [← hmap, hpairs]
    have hsnd : shape = pairs.map Prod.snd := by
      have hmap : ((shape.mapM plantingPair s).1.map Prod.snd, (shape.mapM plantingPair s).2)
          = shape.mapM (fun n => Prod.snd <$> plantingPair n) s :=
        congrFun (Shape.map_mapM Prod.snd plantingPair shape) s
      rw [hpairs] at hmap
      exact (Shape.mapM_of_id (fun _ _ => rfl) shape s).symm.trans (congrArg Prod.fst hmap.symm)
    have hrep := stands_plantingPair ih s
    have hgrown := grown_plantingPair shape.parts s
    rw [hparts] at hrep hgrown
    rw [plant_mk, hfst]
    simp only
    have hlt : ∀ c ∈ (pairs.map Prod.fst).parts, c < t.size := by
      rw [Shape.parts_map]
      exact fun c hc => (hgrown.tops_new c hc).2
    generalize he : ({ shape := pairs.map Prod.fst, line := o.line, capsule := o.capsule } : Entry)
      = e
    have hshape : e.shape = pairs.map Prod.fst := he ▸ rfl
    rw [← hshape] at hlt
    have hget := get?_addOwner e t hlt
    have hremembered := remembered_addOwner hlt (he ▸ rfl)
    have htop : (addOwner e t).1 = t.size := rfl
    rw [htop, hsnd]
    have hmem : ∀ x ∈ pairs.parts, x.1 ∈ e.shape.parts := fun x hx => by
      rw [hshape, Shape.parts_map]
      exact List.mem_map_of_mem hx
    refine .mk pairs (by rw [hget, if_pos rfl]) (he ▸ rfl) (he ▸ rfl) (he ▸ rfl) hshape
      hgrown.tops_nodup (fun x hx => ⟨hlt _ (hmem x hx), ?_⟩) fun x hx => ?_
    · rw [hremembered, if_pos (hmem x hx)]
    · refine (hrep x hx).mono (fun j f hf => ?_) fun c q hq => ?_
      · rw [hget, if_neg (Nat.ne_of_lt (get?_lt hf)), hf]
        rw [Option.map_some]
        split
        · exact ⟨_, rfl⟩
        · exact ⟨f.parent, rfl⟩
      · rw [hremembered, if_neg, hq]
        intro hm
        rw [hshape, Shape.parts_map] at hm
        rw [hgrown.tops_free c hm] at hq
        cases hq

/-- What represents a node does so after the store has grown. -/
theorem Represents.of_grown {r : NodeId → Prop} {tops : List NodeId} (h : s.Represents i n)
    (hg : Grown r s t tops) : t.Represents i n := by
  refine h.mono (fun j e he => ⟨e, (hg.old j (get?_lt he)).trans he, rfl, rfl⟩) fun c q hq => ?_
  rwa [hg.remembered_old (lt_of_remembered hq)]

/-- The store in which a tree was planted represents it. -/
theorem represents_plant (n : Node) (s : Store) : (s.plant n).2.Represents (s.plant n).1 n :=
  (stands_plant n s).represents

end Store

end FeatureTree
