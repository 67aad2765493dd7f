import FeatureTree.Proofs.Store.Mentions
import FeatureTree.Store.Reach
import FeatureTree.Store.Tree

/-!
# What planting a tree does

Planting a tree adds nodes behind those of the store and leaves those alone. The new nodes are
attached to one another as they list one another: a part remembers exactly the node that lists it,
and the top of the tree remembers none. The tree is planted part by part, so what is said here holds
of a number of trees at once, and an owner is put over them at the end.

## Main results

* `Store.Grown.append`, `Store.Grown.addOwner`: trees next to one another, and an owner over them
* `Store.grown_plant`: planting a tree adds nodes that are attached as they are listed
* `Store.ascends_plant`: each of these nodes comes after its parts
-/

namespace FeatureTree

/-! ### Going through the parts of a tree -/

namespace Shape

variable {α β γ : Type}

/-- A part is smaller than the shape. -/
theorem sizeOf_lt_of_mem_parts [SizeOf α] {s : Shape α} {a : α} (h : a ∈ s.parts) :
    sizeOf a < sizeOf s := by
  have hl : ∀ {xs : List α}, a ∈ xs → sizeOf a < sizeOf xs := List.sizeOf_lt_of_mem
  have ho : ∀ {o : Option α}, o = some a → sizeOf a < sizeOf o := by
    rintro _ rfl
    simp
  cases s <;>
    simp only [parts, children, List.mem_append, Option.mem_toList, List.not_mem_nil] at h <;>
    simp only [row.sizeOf_spec, table.sizeOf_spec, step.sizeOf_spec, background.sizeOf_spec,
      scenario.sizeOf_spec, outline.sizeOf_spec, example.sizeOf_spec, rule.sizeOf_spec,
      feature.sizeOf_spec, featureFile.sizeOf_spec, directory.sizeOf_spec]
  all_goals grind

/-- Going through the members of an option is going through the option. -/
theorem mapM_toList {m : Type → Type} [Monad m] [LawfulMonad m] (f : α → m β) (o : Option α) :
    o.toList.mapM f = Option.toList <$> o.mapM f := by
  cases o <;> simp

/-- The results for the parts of a shape come in the order of the parts. -/
theorem parts_mapM {m : Type → Type} [Monad m] [LawfulMonad m] (f : α → m β) (s : Shape α) :
    parts <$> s.mapM f = s.parts.mapM f := by
  cases s <;>
    simp [mapM, parts, children, List.mapM_append, mapM_toList, monad_norm]

/-- What a node has in the place of a text stays. -/
theorem values_mapM {σ : Type} (f : α → StateM σ β) (s : Shape α) (st : σ) :
    (s.mapM f st).1.values = s.values := by
  cases s <;> rfl

/-- Going through a mapped shape is mapping on the way. -/
theorem mapM_map {m : Type → Type} [Monad m] [LawfulMonad m] (g : α → β) (f : β → m γ)
    (s : Shape α) : (s.map g).mapM f = s.mapM fun a => f (g a) := by
  have ho : ∀ o : Option α, (o.map g).mapM f = o.mapM fun a => f (g a) := by
    rintro (_ | a) <;> rfl
  cases s <;> simp [mapM, map, List.mapM_map, ho, Function.comp_def]

end Shape

/-- What holds of a tree if it holds of its parts holds of every tree. -/
theorem Node.induction {motive : Node → Prop}
    (mk : ∀ o shape, (∀ n ∈ shape.parts, motive n) → motive (.mk o shape)) : (n : Node) → motive n
  | .mk o shape => mk o shape fun n hn =>
    have := Shape.sizeOf_lt_of_mem_parts hn
    induction mk n
termination_by n => sizeOf n
decreasing_by
  simp only [Node.mk.sizeOf_spec]
  omega

namespace Store

variable {p : NodeId → Prop} {s t u : Store}

/-! ### Look-up -/

/-- A node with an entry is in the store. -/
theorem get?_lt {i : NodeId} {e : Entry} (h : s.get? i = some e) : i < s.size :=
  (Array.getElem?_eq_some_iff.mp h).1

/-- Every node in the store has an entry. -/
theorem get?_of_lt {i : NodeId} (h : i < s.size) : ∃ e, s.get? i = some e :=
  ⟨_, Array.getElem?_eq_getElem h⟩

/-- A node beyond the end of the store has no entry. -/
theorem get?_of_le {i : NodeId} (h : s.size ≤ i) : s.get? i = none :=
  Array.getElem?_eq_none h

/-- The node that a node was attached to. -/
def remembered (s : Store) (c : NodeId) : Option NodeId := (s.get? c).bind (·.parent)

/-- A node that remembers a parent is in the store. -/
theorem lt_of_remembered {s : Store} {c p : NodeId} (h : s.remembered c = some p) : c < s.size := by
  obtain ⟨e, he, -⟩ := Option.bind_eq_some_iff.mp h
  exact get?_lt he

/-- A node lists another among its parts. -/
def Lists (s : Store) (q c : NodeId) : Prop := ∃ e, s.get? q = some e ∧ c ∈ e.shape.parts

/-- Attaching some nodes changes what they remember and nothing else. -/
theorem get?_foldl_setParent (q : Option NodeId) (cs : List NodeId) (s : Store) (j : NodeId) :
    (cs.foldl (fun s c => s.setParent q c) s).get? j
      = (s.get? j).map fun e => if j ∈ cs then { e with parent := q } else e := by
  induction cs generalizing s with
  | nil => simp
  | cons c cs ih =>
    rw [List.foldl_cons, ih, setParent, get?_update]
    by_cases hc : c = j
    · subst hc
      cases s.get? c <;> simp
    · cases s.get? j <;> simp [hc, Ne.symm hc]

/-- Setting the parents of some nodes changes nothing but entries. -/
theorem rest_foldl_setParent (q : Option NodeId) (cs : List NodeId) (s : Store) :
    ∃ entries, cs.foldl (fun s c => s.setParent q c) s = { s with entries }
      ∧ entries.size = s.size := by
  induction cs generalizing s with
  | nil => exact ⟨s.entries, rfl, rfl⟩
  | cons c cs ih =>
    obtain ⟨entries, h, hsize⟩ := ih (s.setParent q c)
    exact ⟨entries, h, by simpa [setParent] using hsize⟩

/-! ### Trees that were planted -/

/-- The second store is the first one with trees behind its nodes. The tops of the trees are known,
and every node that the trees mention in their values satisfies a condition. -/
structure Grown (p : NodeId → Prop) (s t : Store) (tops : List NodeId) : Prop where
  rest : t = { s with entries := t.entries }
  le : s.size ≤ t.size
  old : ∀ j < s.size, t.get? j = s.get? j
  tops_new : ∀ i ∈ tops, s.size ≤ i ∧ i < t.size
  tops_nodup : tops.Nodup
  tops_free : ∀ i ∈ tops, t.remembered i = none
  plain : ∀ j e, s.size ≤ j → t.get? j = some e → e.given = []
  mentions : ∀ j e, s.size ≤ j → t.get? j = some e → ∀ i ∈ e.owned, i ∈ e.shape.parts ∨ p i
  parts_new : ∀ j e, s.size ≤ j → t.get? j = some e →
    ∀ c ∈ e.shape.parts, s.size ≤ c ∧ c < t.size
  parts_nodup : ∀ j e, s.size ≤ j → t.get? j = some e → e.shape.parts.Nodup
  links : ∀ c q, s.size ≤ c → (t.remembered c = some q ↔ s.size ≤ q ∧ t.Lists q c)

/-- Nothing was planted. -/
theorem Grown.refl (p : NodeId → Prop) (s : Store) : Grown p s s [] where
  rest := rfl
  le := Nat.le_refl _
  old _ _ := rfl
  tops_new := by simp
  tops_nodup := .nil
  tops_free := by simp
  plain j e hj he := by simp [get?_of_le hj] at he
  mentions j e hj he := by simp [get?_of_le hj] at he
  parts_new j e hj he := by simp [get?_of_le hj] at he
  parts_nodup j e hj he := by simp [get?_of_le hj] at he
  links c q hc := by
    constructor
    · intro h
      simp [remembered, get?_of_le hc] at h
    · rintro ⟨hq, e, he, -⟩
      simp [get?_of_le hq] at he

/-- A node that lists others is in the store. -/
theorem Lists.lt {q c : NodeId} (h : s.Lists q c) : q < s.size := by
  obtain ⟨e, he, -⟩ := h
  exact get?_lt he

/-- A node of planted trees that is listed by one of them is one of theirs. -/
theorem Grown.lists_new {tops : List NodeId} (h : Grown p s t tops) {q c : NodeId}
    (hq : s.size ≤ q) (hl : t.Lists q c) : s.size ≤ c ∧ c < t.size := by
  obtain ⟨e, he, hc⟩ := hl
  exact h.parts_new q e hq he c hc

/-- Growing changes no old parent. -/
theorem Grown.remembered_old {tops : List NodeId} (h : Grown p s t tops) {c : NodeId}
    (hc : c < s.size) : t.remembered c = s.remembered c := by
  rw [remembered, remembered, h.old c hc]

/-- Growing changes nothing about what old nodes list. -/
theorem Grown.lists_old {tops : List NodeId} (h : Grown p s t tops) {q c : NodeId}
    (hq : q < s.size) : t.Lists q c ↔ s.Lists q c := by
  rw [Lists, Lists, h.old q hq]

/-- Trees that were planted one after the other. -/
theorem Grown.append {xs ys : List NodeId} (h : Grown p s t xs) (h' : Grown p t u ys) :
    Grown p s u (xs ++ ys) where
  rest := by rw [h'.rest, h.rest]
  le := Nat.le_trans h.le h'.le
  old j hj := (h'.old j (Nat.lt_of_lt_of_le hj h.le)).trans (h.old j hj)
  tops_new := by
    rw [List.forall_mem_append]
    constructor
    · intro i hi
      obtain ⟨hle, hlt⟩ := h.tops_new i hi
      exact ⟨hle, Nat.lt_of_lt_of_le hlt h'.le⟩
    · intro i hi
      obtain ⟨hle, hlt⟩ := h'.tops_new i hi
      exact ⟨Nat.le_trans h.le hle, hlt⟩
  tops_nodup := by
    refine List.nodup_append.mpr ⟨h.tops_nodup, h'.tops_nodup, fun i hi j hj => ?_⟩
    exact Nat.ne_of_lt (Nat.lt_of_lt_of_le (h.tops_new i hi).2 (h'.tops_new j hj).1)
  tops_free := by
    rw [List.forall_mem_append]
    refine ⟨fun i hi => ?_, h'.tops_free⟩
    rw [h'.remembered_old (h.tops_new i hi).2, h.tops_free i hi]
  plain j e hj he := by
    rcases Nat.lt_or_ge j t.size with hlt | hge
    · exact h.plain j e hj (h'.old j hlt ▸ he)
    · exact h'.plain j e hge he
  mentions j e hj he := by
    rcases Nat.lt_or_ge j t.size with hlt | hge
    · exact h.mentions j e hj (h'.old j hlt ▸ he)
    · exact h'.mentions j e hge he
  parts_new j e hj he c hc := by
    rcases Nat.lt_or_ge j t.size with hlt | hge
    · obtain ⟨hle, hlt⟩ := h.parts_new j e hj (h'.old j hlt ▸ he) c hc
      exact ⟨hle, Nat.lt_of_lt_of_le hlt h'.le⟩
    · obtain ⟨hle, hlt⟩ := h'.parts_new j e hge he c hc
      exact ⟨Nat.le_trans h.le hle, hlt⟩
  parts_nodup j e hj he := by
    rcases Nat.lt_or_ge j t.size with hlt | hge
    · exact h.parts_nodup j e hj (h'.old j hlt ▸ he)
    · exact h'.parts_nodup j e hge he
  links c q hc := by
    rcases Nat.lt_or_ge c t.size with hlt | hge
    · rw [h'.remembered_old hlt, h.links c q hc]
      -- a later tree does not list what was there before it
      constructor
      · rintro ⟨hq, hl⟩
        exact ⟨hq, (h'.lists_old hl.lt).mpr hl⟩
      · rintro ⟨hq, hl⟩
        rcases Nat.lt_or_ge q t.size with hqt | hqt
        · exact ⟨hq, (h'.lists_old hqt).mp hl⟩
        · exact absurd hlt (Nat.not_lt.mpr (h'.lists_new hqt hl).1)
    · rw [h'.links c q hge]
      -- an earlier tree does not list what came after it
      constructor
      · rintro ⟨hq, hl⟩
        exact ⟨Nat.le_trans h.le hq, hl⟩
      · rintro ⟨hq, hl⟩
        rcases Nat.lt_or_ge q t.size with hqt | hqt
        · have hlt := (h.lists_new hq ((h'.lists_old hqt).mp hl)).2
          exact absurd hlt (Nat.not_lt.mpr hge)
        · exact ⟨hqt, hl⟩

/-- Adding an owner over some nodes, and what is found afterwards. -/
theorem get?_addOwner (e : Entry) (s : Store) (hparts : ∀ c ∈ e.shape.parts, c < s.size)
    (j : NodeId) : (addOwner e s).2.get? j
      = if j = s.size then some e
        else (s.get? j).map fun f =>
          if j ∈ e.shape.parts then { f with parent := some s.size } else f := by
  have hget : (addOwner e s).2.get? j = ((s.add e).2.get? j).map fun f =>
      if j ∈ e.shape.parts then { f with parent := some s.size } else f :=
    get?_foldl_setParent (some s.size) e.shape.parts (s.add e).2 j
  rw [hget]
  by_cases hj : j = s.size
  · subst hj
    have hself : s.size ∉ e.shape.parts := fun h => Nat.lt_irrefl _ (hparts _ h)
    have hadd : (s.add e).2.get? s.size = some e := get?_add_self s e
    simp [hadd, hself]
  · rw [if_neg hj]
    rcases Nat.lt_or_ge j s.size with hlt | hge
    · rw [get?_add_of_lt hlt]
    · have : (s.add e).2.size ≤ j := by
        rw [size_add]
        exact Nat.lt_of_le_of_ne hge (Ne.symm hj)
      rw [get?_of_le this, get?_of_le hge]

/-- Adding the owner of some nodes changes nothing but entries. -/
theorem rest_addOwner (e : Entry) (s : Store) :
    (addOwner e s).2 = { s with entries := (addOwner e s).2.entries }
      ∧ (addOwner e s).2.size = s.size + 1 := by
  obtain ⟨entries, h, hsize⟩ := rest_foldl_setParent (some s.size) e.shape.parts (s.add e).2
  have hstore : (addOwner e s).2 = { s with entries } := h
  refine ⟨by rw [hstore], ?_⟩
  rw [hstore, ← size_add s e]
  exact hsize

section

variable {e f : Entry}

/-- A node of the store with the new owner is the owner, or an old node that is as it was but for
what it remembers. -/
theorem entry_addOwner (hparts : ∀ c ∈ e.shape.parts, c < t.size) {j : NodeId}
    (hf : (addOwner e t).2.get? j = some f) :
    (j = t.size ∧ f = e) ∨ ∃ g, t.get? j = some g
      ∧ f.shape = g.shape ∧ f.given = g.given ∧ f.owned = g.owned := by
  rw [get?_addOwner e t hparts] at hf
  split at hf
  · next hj => exact .inl ⟨hj, (Option.some.inj hf).symm⟩
  · obtain ⟨g, hg, rfl⟩ := Option.map_eq_some_iff.mp hf
    refine .inr ⟨g, hg, ?_⟩
    split <;> exact ⟨rfl, rfl, rfl⟩

/-- The new owner lists its parts, and all others list what they did. -/
theorem lists_addOwner (hparts : ∀ c ∈ e.shape.parts, c < t.size) {q c : NodeId} :
    (addOwner e t).2.Lists q c ↔ (q = t.size ∧ c ∈ e.shape.parts) ∨ t.Lists q c := by
  constructor
  · rintro ⟨f, hf, hc⟩
    rcases entry_addOwner hparts hf with ⟨hq, rfl⟩ | ⟨g, hg, hs, -⟩
    · exact .inl ⟨hq, hc⟩
    · exact .inr ⟨g, hg, hs ▸ hc⟩
  · rintro (⟨rfl, hc⟩ | ⟨g, hg, hc⟩)
    · exact ⟨e, by rw [get?_addOwner e t hparts, if_pos rfl], hc⟩
    · refine ⟨_, by rw [get?_addOwner e t hparts, if_neg (Nat.ne_of_lt (get?_lt hg)), hg]; rfl, ?_⟩
      split <;> exact hc

/-- The parts of the new owner remember it, and all others remember what they did. -/
theorem remembered_addOwner (hparts : ∀ c ∈ e.shape.parts, c < t.size) (hfree : e.parent = none)
    (c : NodeId) : (addOwner e t).2.remembered c
      = if c ∈ e.shape.parts then some t.size else t.remembered c := by
  rw [remembered, get?_addOwner e t hparts]
  by_cases hc : c = t.size
  · have hself : c ∉ e.shape.parts := fun h => Nat.lt_irrefl _ (hc ▸ hparts c h)
    rw [if_pos hc, if_neg hself, remembered, get?_of_le (Nat.le_of_eq hc.symm)]
    exact hfree
  · rw [if_neg hc, remembered]
    cases hg : t.get? c with
    | none =>
      have hnot : c ∉ e.shape.parts := fun h => by
        obtain ⟨g, hg'⟩ := get?_of_lt (hparts c h)
        cases hg.symm.trans hg'
      rw [if_neg hnot]
      rfl
    | some g =>
      rw [Option.map_some]
      split <;> rfl

/-- An owner over trees that were planted makes them one tree. -/
theorem Grown.addOwner (h : Grown p s t e.shape.parts) (hgiven : e.given = [])
    (hfree : e.parent = none) (hmentions : ∀ i ∈ e.owned, i ∈ e.shape.parts ∨ p i) :
    Grown p s (addOwner e t).2 [(addOwner e t).1] := by
  have hparts : ∀ c ∈ e.shape.parts, c < t.size := fun c hc => (h.tops_new c hc).2
  obtain ⟨hrest, hsize⟩ := rest_addOwner e t
  have htop : (Store.addOwner e t).1 = t.size := rfl
  exact {
    rest := by rw [hrest, h.rest]
    le := by
      rw [hsize]
      exact Nat.le_succ_of_le h.le
    old := fun j hj => by
      have hjt := Nat.lt_of_lt_of_le hj h.le
      have hc : j ∉ e.shape.parts := fun hc => Nat.not_lt.mpr (h.tops_new j hc).1 hj
      rw [get?_addOwner e t hparts, if_neg (Nat.ne_of_lt hjt), h.old j hj]
      simp [hc]
    tops_new := by
      simp only [List.mem_singleton, forall_eq, hsize, htop]
      exact ⟨h.le, Nat.lt_succ_self _⟩
    tops_nodup := by simp
    tops_free := by
      have hself : t.size ∉ e.shape.parts := fun hc => Nat.lt_irrefl _ (hparts _ hc)
      refine List.forall_mem_singleton.mpr ?_
      rw [htop, remembered_addOwner hparts hfree, if_neg hself, remembered,
        get?_of_le (Nat.le_refl _)]
      rfl
    plain := fun j f hj hf => by
      rcases entry_addOwner hparts hf with ⟨-, rfl⟩ | ⟨g, hg, -, hgive, -⟩
      · exact hgiven
      · rw [hgive, h.plain j g hj hg]
    mentions := fun j f hj hf => by
      rcases entry_addOwner hparts hf with ⟨-, rfl⟩ | ⟨g, hg, hs, -, ho⟩
      · exact hmentions
      · rw [hs, ho]
        exact h.mentions j g hj hg
    parts_new := fun j f hj hf c hc => by
      rw [hsize]
      rcases entry_addOwner hparts hf with ⟨-, rfl⟩ | ⟨g, hg, hs, -⟩
      · exact ⟨(h.tops_new c hc).1, Nat.lt_succ_of_lt (h.tops_new c hc).2⟩
      · obtain ⟨hle, hlt⟩ := h.parts_new j g hj hg c (hs ▸ hc)
        exact ⟨hle, Nat.lt_succ_of_lt hlt⟩
    parts_nodup := fun j f hj hf => by
      rcases entry_addOwner hparts hf with ⟨-, rfl⟩ | ⟨g, hg, hs, -⟩
      · exact h.tops_nodup
      · rw [hs]
        exact h.parts_nodup j g hj hg
    links := fun c q hc => by
      rw [lists_addOwner hparts, remembered_addOwner hparts hfree]
      by_cases hm : c ∈ e.shape.parts
      · -- no tree below the owner lists the top of one
        have hnot : s.size ≤ q → ¬ t.Lists q c := fun hq hl => by
          have := (h.links c q hc).mpr ⟨hq, hl⟩
          rw [h.tops_free c hm] at this
          cases this
        simp only [hm, if_true, Option.some.injEq, and_true]
        constructor
        · rintro rfl
          exact ⟨h.le, .inl rfl⟩
        · rintro ⟨hq, rfl | hl⟩
          · rfl
          · exact absurd hl (hnot hq)
      · simp only [hm, if_false, and_false, false_or]
        exact h.links c q hc }

end

/-! ### Planting -/

/-- Planting a tree as an action on stores. -/
def planting (n : Node) : StateM Store NodeId := fun s => s.plant n

/-- Planting some trees one after the other. -/
theorem grown_mapM_planting {ns : List Node}
    (h : ∀ n ∈ ns, ∀ s : Store, Grown p s (planting n s).2 [(planting n s).1]) (s : Store) :
    Grown p s (ns.mapM planting s).2 (ns.mapM planting s).1 := by
  induction ns generalizing s with
  | nil => exact .refl p s
  | cons n ns ih =>
    rw [List.forall_mem_cons] at h
    rw [List.mapM_cons]
    exact (h.1 s).append (ih h.2 (planting n s).2)

/-- A tree is planted by planting its parts and adding an owner over them. -/
theorem plant_mk (s : Store) (o : Origin) (shape : Shape Node) :
    s.plant (.mk o shape) = Store.addOwner
      { shape := (shape.mapM planting s).1, line := o.line, capsule := o.capsule }
      (shape.mapM planting s).2 := by
  rw [plant, Node.fold_mk, Shape.mapM_map]
  rfl

/-- Planting a tree adds nodes that are attached to one another as they are listed. -/
theorem grown_plant {n : Node} (h : n.Within p) (s : Store) :
    Grown p s (s.plant n).2 [(s.plant n).1] := by
  induction h generalizing s with
  | @mk o shape hline hcapsule hvalues _ ih =>
    have hparts : ((shape.mapM planting s).1.parts, (shape.mapM planting s).2)
        = shape.parts.mapM planting s := congrFun (Shape.parts_mapM planting shape) s
    have hkept : (shape.mapM planting s).1.values = shape.values :=
      Shape.values_mapM planting shape s
    have hgrown := grown_mapM_planting ih s
    rw [← hparts] at hgrown
    rw [plant_mk]
    refine hgrown.addOwner rfl rfl fun i hi => ?_
    simp only [Entry.owned, hkept, Value.nodesOfFields, List.append_nil, List.mem_append,
      Value.mem_nodesOfItems, List.mem_cons] at hi
    rcases hi with (hi | ⟨v, rfl | hv, hi⟩) | hi
    · exact .inl hi
    · exact .inr (hline i hi)
    · exact .inr (hvalues v hv i hi)
    · cases hc : o.capsule with
      | none => simp [hc] at hi
      | some c =>
        rw [hc] at hi
        exact .inr (hcapsule c hc i hi)

/-! ### Parts come first -/

/-- Of the nodes that the second store has beyond those of the first, each comes after its parts. -/
def Ascends (s t : Store) : Prop :=
  ∀ j e, s.size ≤ j → t.get? j = some e → ∀ c ∈ e.shape.parts, c < j

/-- Two growths upwards one after the other are one. -/
theorem Ascends.append {tops : List NodeId} (h : Ascends s t) (h' : Ascends t u)
    (hu : Grown p t u tops) : Ascends s u := fun j e hj he => by
  rcases Nat.lt_or_ge j t.size with hlt | hge
  · exact h j e hj (hu.old j hlt ▸ he)
  · exact h' j e hge he

/-- Adding the owner of old nodes is a growth upwards. -/
theorem Ascends.addOwner {e : Entry} (h : Ascends s t) (hparts : ∀ c ∈ e.shape.parts, c < t.size) :
    Ascends s (addOwner e t).2 := fun j f hj hf => by
  rcases entry_addOwner hparts hf with ⟨rfl, rfl⟩ | ⟨g, hg, hs, -⟩
  · exact hparts
  · rw [hs]
    exact h j g hj hg

/-- Planting nodes one by one is a growth upwards, if planting each is. -/
theorem ascends_mapM_planting {ns : List Node} (hns : ∀ n ∈ ns, n.Within p)
    (h : ∀ n ∈ ns, ∀ s : Store, Ascends s (planting n s).2) (s : Store) :
    Ascends s (ns.mapM planting s).2 := by
  induction ns generalizing s with
  | nil =>
    intro j e hj he
    have he : s.get? j = some e := he
    rw [get?_of_le hj] at he
    cases he
  | cons n ns ih =>
    rw [List.forall_mem_cons] at hns h
    rw [List.mapM_cons]
    exact (h.1 s).append (ih hns.2 h.2 _)
      (grown_mapM_planting (fun n hn s => grown_plant (hns.2 n hn) s) _)

/-- Each node of a planted tree comes after its parts. -/
theorem ascends_plant {n : Node} (h : n.Within p) (s : Store) : Ascends s (s.plant n).2 := by
  induction h generalizing s with
  | @mk o shape _ _ _ hns ih =>
    have hparts : ((shape.mapM planting s).1.parts, (shape.mapM planting s).2)
        = shape.parts.mapM planting s := congrFun (Shape.parts_mapM planting shape) s
    have hgrown := grown_mapM_planting (fun n hn s => grown_plant (hns n hn) s) s
    have hascends := ascends_mapM_planting hns ih s
    rw [← hparts] at hgrown hascends
    rw [plant_mk]
    exact hascends.addOwner fun c hc => (hgrown.tops_new c hc).2

/-- A node of planted trees comes before the one that it was attached to. -/
theorem Grown.lt_of_remembered {tops : List NodeId} (h : Grown p s t tops) (ht : Ascends s t)
    {c q : NodeId} (hc : s.size ≤ c) (hq : t.remembered c = some q) : c < q := by
  obtain ⟨hle, e, he, hm⟩ := (h.links c q hc).mp hq
  exact ht q e hle he c hm

end Store

end FeatureTree
