import FeatureTree.Proofs.Store.Planting
import FeatureTree.Store.Rows

/-!
# What operations do to the links between nodes

A node can be got at through the names that hold nodes and through what nodes own; it remembers its
parent besides. Two things are said of an operation here: which ways to a node it adds, and whether
it changes what any node remembers. Assigning attributes, changing lists and giving names does not
change that at all.

## Main results

* `Store.Adds.trans`: the ways added by one operation and another
* `Store.Edits.assign`, `Store.Edits.changeList`: what is remembered stays as attributes change
* `Store.Grown.adds`: planting a tree adds ways to its nodes and to the nodes that it mentions
-/

namespace FeatureTree

/-! ### Shapes that were changed -/

namespace Shape

variable {α : Type} {s t : Shape α}

/-- Setting a field leaves the parts as they are. -/
theorem parts_of_setField {field : TextField} {v : Value} (h : s.setField field v = some t) :
    t.parts = s.parts := by
  cases field <;> cases s <;> cases h <;> rfl

/-- Setting a field brings in no other value. -/
theorem mem_values_of_setField {field : TextField} {v : Value} (h : s.setField field v = some t) :
    ∀ w ∈ t.values, w ∈ s.values ∨ w = v := by
  cases field <;> cases s <;> cases h <;>
    simp +contextual [mapTitle, values, Title.values]

/-- Setting a part leaves the values as they are. -/
theorem values_of_setPart {field : PartField} {part : Option α}
    (h : s.setPart field part = some t) :
    t.values = s.values := by
  cases field <;> cases s <;> cases h <;> rfl

/-- Setting a part brings in no other part. -/
theorem mem_parts_of_setPart {field : PartField} {part : Option α}
    (h : s.setPart field part = some t) : ∀ c ∈ t.parts, c ∈ s.parts ∨ part = some c := by
  cases field <;> cases s <;> cases h <;> simp +contextual [parts, children, or_imp]

/-- Setting a list leaves the values as they are. -/
theorem values_of_setList {field : ListField} {xs : List α} (h : s.setList field xs = some t) :
    t.values = s.values := by
  cases field <;> cases s <;> cases h <;> rfl

/-- Setting a list brings in no other parts. -/
theorem mem_parts_of_setList {field : ListField} {xs : List α} (h : s.setList field xs = some t) :
    ∀ c ∈ t.parts, c ∈ s.parts ∨ c ∈ xs := by
  cases field <;> cases s <;> cases h <;> simp +contextual [parts, children, or_imp]

/-- What a field holds is one of the values. -/
theorem mem_values_of_field? {field : TextField} {v : Value} (h : s.field? field = some v) :
    v ∈ s.values := by
  cases field <;> cases s <;> cases h <;> simp [values, Title.values]

/-- A single part is one of the parts. -/
theorem mem_parts_of_part? {field : PartField} {c : α} (h : s.part? field = some (some c)) :
    c ∈ s.parts := by
  cases field <;> cases s <;> cases h <;> simp [parts, children]

/-- What is in a list is one of the parts. -/
theorem mem_parts_of_list? {field : ListField} {xs : List α} (h : s.list? field = some xs) {c : α}
    (hc : c ∈ xs) : c ∈ s.parts := by
  cases field <;> cases s <;> cases h <;> simp [parts, children, hc]

/-- Changing the values of a shape changes each of them. -/
theorem values_mapValues (f : Value → Value) : (s.mapValues f).values = s.values.map f := by
  cases s <;> rfl

end Shape

/-! ### Values that were changed -/

namespace Value

/-- After a field is put there is no other new field. -/
theorem mem_of_mem_put {α : Type} {key : String} {v : α} {fields : List (String × α)}
    {f : String × α} (h : f ∈ put key v fields) : f ∈ fields ∨ f = (key, v) := by
  induction fields with
  | nil => exact .inr (by simpa [put] using h)
  | cons g fields ih =>
    obtain ⟨k, w⟩ := g
    rw [put] at h
    split at h
    · next hk =>
      rcases List.mem_cons.mp h with rfl | h
      · exact .inr rfl
      · exact .inl (List.mem_cons_of_mem _ h)
    · rcases List.mem_cons.mp h with rfl | h
      · exact .inl List.mem_cons_self
      · rcases ih h with h | h
        · exact .inl (List.mem_cons_of_mem _ h)
        · exact .inr h

/-- A list of nodes is made of these nodes. -/
theorem eq_of_onlyNodes {items : List Value} {is : List Nat}
    (h : (items.mapM fun v => match v with
      | .node i => some i
      | _ => none) = some is) : items = is.map .node := by
  induction items generalizing is with
  | nil =>
    cases h
    rfl
  | cons v items ih =>
    rw [List.mapM_cons] at h
    obtain ⟨i, hv, h⟩ := Option.bind_eq_some_iff.mp h
    obtain ⟨js, hjs, h⟩ := Option.bind_eq_some_iff.mp h
    cases h
    cases v <;> cases hv
    rw [ih hjs, List.map_cons]

/-- The list of some nodes has these nodes in it. -/
theorem nodes_ofNodes (is : List Nat) : (ofNodes is).nodes = is := by
  rw [ofNodes, nodes]
  induction is with
  | nil => rfl
  | cons i is ih => rw [List.map_cons, nodesOfItems, ih, nodes, List.singleton_append]

/-- A list that holds nodes and nothing else mentions just these. -/
theorem nodes_of_onlyNodes? {v : Value} {is : List Nat} (h : v.onlyNodes? = some is) :
    v.nodes = is := by
  obtain ⟨items, hi, h⟩ := Option.bind_eq_some_iff.mp h
  obtain rfl := eq_of_onlyNodes h
  cases v <;> cases hi <;> exact nodes_ofNodes is

mutual

/-- Giving lists identities changes no nodes. -/
theorem nodes_keep : (v : Value) → ∀ n, (v.keep n).1.nodes = v.nodes
  | .null, _ | .bool _, _ | .int _, _ | .float _, _ | .text _, _ | .node _, _ | .kept _ _, _ => rfl
  | .list items, n => nodesOfItems_keepItems items n
  | .table fields, n => nodesOfFields_keepFields fields n

/-- Keeping items leaves the nodes in them as they are. -/
theorem nodesOfItems_keepItems : (items : List Value) → ∀ n,
    nodesOfItems (keepItems items n).1 = nodesOfItems items
  | [], _ => rfl
  | v :: items, n => congrArg₂ (· ++ ·) (nodes_keep v n) (nodesOfItems_keepItems items _)

/-- Keeping fields leaves the nodes in them as they are. -/
theorem nodesOfFields_keepFields : (fields : List (String × Value)) → ∀ n,
    nodesOfFields (keepFields fields n).1 = nodesOfFields fields
  | [], _ => rfl
  | (_, v) :: fields, n => congrArg₂ (· ++ ·) (nodes_keep v n) (nodesOfFields_keepFields fields _)

end

variable {q : Nat → Prop} {id : Nat} {f : List Value → List Value}

mutual

/-- Changing a list wherever it occurs brings in no more nodes than changing it once. -/
theorem mem_nodes_mapKept
    (hf : ∀ items, ∀ i ∈ nodesOfItems (f items), i ∈ nodesOfItems items ∨ q i) :
    (v : Value) → ∀ i ∈ (v.mapKept id f).nodes, i ∈ v.nodes ∨ q i
  | .null | .bool _ | .int _ | .float _ | .text _ | .node _ => fun _ hi => .inl hi
  | .list items => mem_nodesOfItems_mapKept hf items
  | .table fields => mem_nodesOfFields_mapKept hf fields
  | .kept other items => by
    intro i hi
    rw [mapKept, nodes] at hi
    split at hi
    · rcases hf _ i hi with hi | hi
      · exact mem_nodesOfItems_mapKept hf items i hi
      · exact .inr hi
    · exact mem_nodesOfItems_mapKept hf items i hi

/-- Changing a kept list brings no other nodes into items. -/
theorem mem_nodesOfItems_mapKept
    (hf : ∀ items, ∀ i ∈ nodesOfItems (f items), i ∈ nodesOfItems items ∨ q i) :
    (items : List Value) → ∀ i ∈ nodesOfItems (mapKeptItems id f items),
      i ∈ nodesOfItems items ∨ q i
  | [] => fun _ hi => .inl hi
  | v :: items => by
    intro i hi
    simp only [mapKeptItems, nodesOfItems, List.mem_append] at hi ⊢
    rcases hi with hi | hi
    · exact (mem_nodes_mapKept hf v i hi).imp_left .inl
    · exact (mem_nodesOfItems_mapKept hf items i hi).imp_left .inr

/-- Changing a kept list brings no other nodes into fields. -/
theorem mem_nodesOfFields_mapKept
    (hf : ∀ items, ∀ i ∈ nodesOfItems (f items), i ∈ nodesOfItems items ∨ q i) :
    (fields : List (String × Value)) → ∀ i ∈ nodesOfFields (mapKeptFields id f fields),
      i ∈ nodesOfFields fields ∨ q i
  | [] => fun _ hi => .inl hi
  | (k, v) :: fields => by
    intro i hi
    simp only [mapKeptFields, nodesOfFields, List.mem_append] at hi ⊢
    rcases hi with hi | hi
    · exact (mem_nodes_mapKept hf v i hi).imp_left .inl
    · exact (mem_nodesOfFields_mapKept hf fields i hi).imp_left .inr

end

end Value

/-! ### What a changed node owns -/

namespace Store

namespace Entry

/-- An entry owns its parts and the nodes in its line, its values, what it was given and its
data. -/
theorem mem_owned {e : Entry} {i : NodeId} :
    i ∈ e.owned ↔ i ∈ e.shape.parts ∨ i ∈ e.line.nodes ∨ (∃ v ∈ e.shape.values, i ∈ v.nodes)
      ∨ (∃ f ∈ e.given, i ∈ f.2.nodes) ∨ ∃ c ∈ e.capsule, i ∈ c.data.nodes := by
  cases hc : e.capsule <;>
    simp [owned, hc, Value.nodesOfItems, Value.mem_nodesOfItems, Value.mem_nodesOfFields]

variable {e f : Entry} {i : NodeId}

/-- Giving a value to an entry brings in the nodes of the value only. -/
theorem owned_give {name : String} {v : Value} (h : i ∈ (e.give name v).owned) :
    i ∈ e.owned ∨ i ∈ v.nodes := by
  rw [mem_owned] at h ⊢
  rcases h with h | h | h | ⟨g, hg, hi⟩ | h
  · exact .inl (.inl h)
  · exact .inl (.inr (.inl h))
  · exact .inl (.inr (.inr (.inl h)))
  · rcases Value.mem_of_mem_put hg with hg | rfl
    · exact .inl (.inr (.inr (.inr (.inl ⟨g, hg, hi⟩))))
    · exact .inr hi
  · exact .inl (.inr (.inr (.inr (.inr h))))

/-- Withholding a name brings nothing in. -/
theorem owned_withhold {name : String} (h : i ∈ (e.withhold name).owned) : i ∈ e.owned := by
  rw [mem_owned] at h ⊢
  rcases h with h | h | h | ⟨g, hg, hi⟩ | h
  · exact .inl h
  · exact .inr (.inl h)
  · exact .inr (.inr (.inl h))
  · exact .inr (.inr (.inr (.inl ⟨g, (List.mem_filter.mp hg).1, hi⟩)))
  · exact .inr (.inr (.inr (.inr h)))

/-- A node with another shape owns what that shape brings. -/
theorem owned_shape {shape : Shape NodeId} {q : NodeId → Prop}
    (hparts : ∀ c ∈ shape.parts, c ∈ e.shape.parts ∨ q c)
    (hvalues : ∀ v ∈ shape.values, v ∈ e.shape.values ∨ ∀ c ∈ v.nodes, q c)
    (h : i ∈ ({ e with shape } : Entry).owned) : i ∈ e.owned ∨ q i := by
  rw [mem_owned] at h ⊢
  rcases h with h | h | ⟨v, hv, hi⟩ | h
  · exact (hparts i h).imp_left .inl
  · exact .inl (.inr (.inl h))
  · rcases hvalues v hv with hv | hv
    · exact .inl (.inr (.inr (.inl ⟨v, hv, hi⟩)))
    · exact .inr (hv i hi)
  · exact .inl (.inr (.inr (.inr h)))

/-- Taking away the line brings nothing in. -/
theorem owned_noLine (h : i ∈ ({ e with line := .null } : Entry).owned) : i ∈ e.owned := by
  rw [mem_owned] at h ⊢
  rcases h with h | h | h
  · exact .inl h
  · simp [Value.nodes] at h
  · exact .inr (.inr h)

/-- Taking away the data brings nothing in. -/
theorem owned_noCapsule (h : i ∈ ({ e with capsule := none } : Entry).owned) : i ∈ e.owned := by
  rw [mem_owned] at h ⊢
  rcases h with h | h | h | h | h
  · exact .inl h
  · exact .inr (.inl h)
  · exact .inr (.inr (.inl h))
  · exact .inr (.inr (.inr (.inl h)))
  · simp at h

/-- Filling an attribute brings in the nodes of the value only. -/
theorem owned_fill? {a : Attribute} {v : Value} (hf : e.fill? a v = some f) (h : i ∈ f.owned) :
    i ∈ e.owned ∨ i ∈ v.nodes := by
  unfold fill? at hf
  split at hf
  · obtain ⟨shape, hs, rfl⟩ := Option.map_eq_some_iff.mp hf
    refine owned_shape (fun c hc => .inl (Shape.parts_of_setField hs ▸ hc)) (fun w hw => ?_) h
    exact (Shape.mem_values_of_setField hs w hw).imp_right fun hw => by simp [hw]
  · obtain ⟨shape, hs, rfl⟩ := Option.map_eq_some_iff.mp hf
    refine owned_shape (fun c hc => ?_) (fun w hw => .inl (Shape.values_of_setPart hs ▸ hw)) h
    exact (Shape.mem_parts_of_setPart hs c hc).imp_right nofun
  · next j =>
    obtain ⟨shape, hs, rfl⟩ := Option.map_eq_some_iff.mp hf
    refine owned_shape (fun c hc => ?_) (fun w hw => .inl (Shape.values_of_setPart hs ▸ hw)) h
    exact (Shape.mem_parts_of_setPart hs c hc).imp_right fun hc => by
      cases hc
      simp [Value.nodes]
  · obtain ⟨is, his, hf⟩ := Option.bind_eq_some_iff.mp hf
    obtain ⟨shape, hs, hf⟩ := Option.bind_eq_some_iff.mp hf
    cases hf
    refine owned_shape (fun c hc => ?_) (fun w hw => .inl (Shape.values_of_setList hs ▸ hw)) h
    exact (Shape.mem_parts_of_setList hs c hc).imp_right fun hc => by
      rwa [Value.nodes_of_onlyNodes? his]
  · cases hf
    exact .inl (owned_noLine h)
  · cases hf
    exact .inl (owned_noCapsule h)
  · cases hf

/-- Clearing an attribute brings nothing in. -/
theorem owned_vacate {a : Attribute} (h : i ∈ (e.vacate a).owned) : i ∈ e.owned := by
  -- what takes the place of a part that is let go of has parts and values of the old shape
  have hshape : ∀ shape : Shape NodeId, (∀ c ∈ shape.parts, c ∈ e.shape.parts) →
      shape.values = e.shape.values → i ∈ ({ e with shape } : Entry).owned → i ∈ e.owned :=
    fun shape hparts hvalues hi => (owned_shape (q := fun _ => False)
      (fun c hc => .inl (hparts c hc)) (fun v hv => .inl (hvalues ▸ hv)) hi).resolve_right id
  unfold vacate at h
  split at h
  · next field =>
    cases hs : e.shape.setPart field none with
    | none => simpa only [hs, Option.getD_none] using h
    | some shape =>
      rw [hs, Option.getD_some] at h
      exact hshape shape (fun c hc => (Shape.mem_parts_of_setPart hs c hc).resolve_right nofun)
        (Shape.values_of_setPart hs) h
  · next field =>
    cases hs : e.shape.setList field [] with
    | none => simpa only [hs, Option.getD_none] using h
    | some shape =>
      rw [hs, Option.getD_some] at h
      exact hshape shape
        (fun c hc => (Shape.mem_parts_of_setList hs c hc).resolve_right List.not_mem_nil)
        (Shape.values_of_setList hs) h
  · exact owned_noLine h
  · exact owned_noCapsule h
  · exact h

/-- A node that was given a value owns what it owned and what the value brings. -/
theorem owned_assign {name : String} {v : Value} (h : i ∈ (e.assign name v).owned) :
    i ∈ e.owned ∨ i ∈ v.nodes := by
  unfold assign at h
  split at h
  · exact owned_give h
  · split at h
    · next hf => exact owned_fill? hf (owned_withhold h)
    · exact (owned_give h).imp_left owned_vacate

/-- Changing a kept list brings in only what comes into the list. -/
theorem owned_mapKept {id : Nat} {g : List Value → List Value} {q : NodeId → Prop}
    (hg : ∀ items, ∀ i ∈ Value.nodesOfItems (g items), i ∈ Value.nodesOfItems items ∨ q i)
    (h : i ∈ (e.mapValues (·.mapKept id g)).owned) : i ∈ e.owned ∨ q i := by
  have hmap : ∀ v : Value, i ∈ (v.mapKept id g).nodes → i ∈ v.nodes ∨ q i :=
    fun v => Value.mem_nodes_mapKept hg v i
  rw [mem_owned] at h ⊢
  rcases h with h | h | ⟨v, hv, hi⟩ | ⟨f, hf, hi⟩ | ⟨c, hc, hi⟩
  · rw [mapValues, Shape.parts_mapValues] at h
    exact .inl (.inl h)
  · exact (hmap _ h).imp_left fun h => .inr (.inl h)
  · rw [mapValues, Shape.values_mapValues] at hv
    obtain ⟨w, hw, rfl⟩ := List.mem_map.mp hv
    exact (hmap w hi).imp_left fun hi => .inr (.inr (.inl ⟨w, hw, hi⟩))
  · obtain ⟨⟨name, w⟩, hw, rfl⟩ := List.mem_map.mp hf
    exact (hmap w hi).imp_left fun hi => .inr (.inr (.inr (.inl ⟨_, hw, hi⟩)))
  · obtain ⟨d, hd, rfl⟩ := Option.map_eq_some_iff.mp hc
    exact (hmap _ hi).imp_left fun hi => .inr (.inr (.inr (.inr ⟨d, hd, hi⟩)))

end Entry

/-! ### Ways to nodes -/

/-- The second store has no way to a node that the first does not have, but for nodes that satisfy a
condition. -/
structure Adds (q : NodeId → Prop) (s t : Store) : Prop where
  roots : ∀ i ∈ t.roots, i ∈ s.roots ∨ q i
  parts : ∀ j, ∀ i ∈ t.parts j, i ∈ s.parts j ∨ q i

/-- The second store is the first one after a change that attaches and detaches nothing. -/
structure Edits (q : NodeId → Prop) (s t : Store) : Prop extends Adds q s t where
  size_eq : t.size = s.size
  remembered_eq : ∀ c, t.remembered c = s.remembered c

variable {q : NodeId → Prop} {s t u : Store}

/-- A store adds nothing to itself. -/
theorem Adds.refl (q : NodeId → Prop) (s : Store) : Adds q s s := ⟨fun _ => .inl, fun _ _ => .inl⟩

/-- The ways added by one change and then another. -/
theorem Adds.trans (h : Adds q s t) (h' : Adds q t u) : Adds q s u where
  roots i hi := by
    rcases h'.roots i hi with hi | hi
    · exact h.roots i hi
    · exact .inr hi
  parts j i hi := by
    rcases h'.parts j i hi with hi | hi
    · exact h.parts j i hi
    · exact .inr hi

/-- Nothing is edited in a store that stays as it is. -/
theorem Edits.refl (q : NodeId → Prop) (s : Store) : Edits q s s := ⟨.refl q s, rfl, fun _ => rfl⟩

/-- Two edits one after the other are one. -/
theorem Edits.trans (h : Edits q s t) (h' : Edits q t u) : Edits q s u :=
  ⟨h.toAdds.trans h'.toAdds, h'.size_eq.trans h.size_eq,
    fun c => (h'.remembered_eq c).trans (h.remembered_eq c)⟩

/-- The parts of a node are what its entry owns. -/
theorem mem_parts {s : Store} {i j : NodeId} :
    i ∈ s.parts j ↔ ∃ e, s.get? j = some e ∧ i ∈ e.owned := by
  rw [parts]
  cases s.get? j <;> simp

/-- Setting a parent adds no parts. -/
theorem Adds.setParent (q : NodeId → Prop) (s : Store) (parent : Option NodeId) (c : NodeId) :
    Adds q s (s.setParent parent c) where
  roots i hi := .inl hi
  parts j i hi := by
    rw [mem_parts, Store.setParent, get?_update] at hi
    rw [mem_parts]
    obtain ⟨e, he, hi⟩ := hi
    split at he
    · obtain ⟨f, hf, rfl⟩ := Option.map_eq_some_iff.mp he
      exact .inl ⟨f, hf, hi⟩
    · exact .inl ⟨e, he, hi⟩

/-- Setting a parent changes what one node remembers. -/
theorem remembered_setParent (s : Store) (parent : Option NodeId) {c : NodeId} (hc : c < s.size)
    (d : NodeId) :
    (s.setParent parent c).remembered d = if d = c then parent else s.remembered d := by
  rw [remembered, setParent, get?_update, remembered]
  by_cases hd : c = d
  · subst hd
    obtain ⟨e, he⟩ := get?_of_lt hc
    simp [he]
  · rw [if_neg hd, if_neg (Ne.symm hd)]

/-- Changing a node changes nothing else. -/
theorem Edits.update {i : NodeId} {f : Entry → Entry}
    (hparent : ∀ e, s.get? i = some e → (f e).parent = e.parent)
    (howned : ∀ e, s.get? i = some e → ∀ c ∈ (f e).owned, c ∈ e.owned ∨ q c) :
    Edits q s (s.update i f) where
  roots i hi := .inl hi
  parts j c hc := by
    rw [mem_parts, get?_update] at hc
    rw [mem_parts]
    obtain ⟨e, he, hc⟩ := hc
    split at he
    · next hij =>
      subst hij
      obtain ⟨g, hg, rfl⟩ := Option.map_eq_some_iff.mp he
      exact (howned g hg c hc).imp_left fun hc => ⟨g, hg, hc⟩
    · exact .inl ⟨e, he, hc⟩
  size_eq := size_update s i f
  remembered_eq c := by
    rw [remembered, get?_update, remembered]
    split
    · next hic =>
      subst hic
      cases he : s.get? i with
      | none => rfl
      | some e => exact hparent e he
    · rfl

/-- Keeping a value edits nothing else. -/
theorem Edits.keep (q : NodeId → Prop) (s : Store) (v : Value) : Edits q s (s.keep v).2 :=
  ⟨⟨fun _ => .inl, fun _ _ => .inl⟩, rfl, fun _ => rfl⟩

/-- Changing a kept list edits only by what comes into it. -/
theorem Edits.mapKept {f : List Value → List Value}
    (hf : ∀ items, ∀ i ∈ Value.nodesOfItems (f items), i ∈ Value.nodesOfItems items ∨ q i)
    (s : Store) (id : Nat) : Edits q s (s.mapKept id f) := by
  have hget : ∀ j, (s.mapKept id f).get? j = (s.get? j).map (·.mapValues (·.mapKept id f)) :=
    fun j => Array.getElem?_map
  exact {
    roots := fun _ => .inl
    parts := fun j c hc => by
      rw [mem_parts, hget] at hc
      rw [mem_parts]
      obtain ⟨e, he, hc⟩ := hc
      obtain ⟨g, hg, rfl⟩ := Option.map_eq_some_iff.mp he
      exact (Entry.owned_mapKept hf hc).imp_left fun hc => ⟨g, hg, hc⟩
    size_eq := Array.size_map
    remembered_eq := fun c => by
      rw [remembered, hget, remembered]
      cases s.get? c <;> rfl }

/-- Releasing a name edits nothing else. -/
theorem Edits.release (q : NodeId → Prop) (s : Store) (name : String) :
    Edits q s (s.release name) where
  roots i hi := by
    obtain ⟨pair, hpair, hi⟩ := List.mem_filterMap.mp hi
    exact .inl (List.mem_filterMap.mpr ⟨pair, (List.mem_filter.mp hpair).1, hi⟩)
  parts _ _ := .inl
  size_eq := rfl
  remembered_eq _ := rfl

/-- Holding a node by a name edits only by that node. -/
theorem Edits.hold {node : Option NodeId} (h : ∀ i ∈ node, q i) (s : Store) (name : String) :
    Edits q s (s.hold name node) where
  roots i hi := by
    rw [roots, Store.hold] at hi
    simp only [List.filterMap_cons] at hi
    cases node with
    | none => exact (Edits.release q s name).roots i hi
    | some j =>
      rcases List.mem_cons.mp hi with rfl | hi
      · exact .inr (h i rfl)
      · exact (Edits.release q s name).roots i hi
  parts _ _ := .inl
  size_eq := rfl
  remembered_eq _ := rfl

/-- Planting trees adds ways to their nodes and to the nodes that they mention. -/
theorem Grown.adds {p : NodeId → Prop} {tops : List NodeId} (h : Grown p s t tops) :
    Adds (fun i => s.size ≤ i ∨ p i) s t where
  roots i hi := by
    rw [h.rest] at hi
    exact .inl hi
  parts j i hi := by
    rw [mem_parts] at hi ⊢
    obtain ⟨e, he, hi⟩ := hi
    rcases Nat.lt_or_ge j s.size with hlt | hge
    · exact .inl ⟨e, h.old j hlt ▸ he, hi⟩
    · rcases h.mentions j e hge he i hi with hc | hp
      · exact .inr (.inl (h.parts_new j e hge he i hc).1)
      · exact .inr (.inr hp)

/-! ### Assigning attributes and changing lists -/

/-- Assigning an attribute adds ways to the nodes of the value. -/
theorem edits_assign {i : NodeId} {name : String} {v : Value} (h : v.Within q) :
    Gives (Edits q s) (s.assign i name v) := by
  refine (Gives.any _).bind fun e _ => ?_
  by_cases hf : (Attribute.following? e.shape.kind name).isSome
  · simp only [hf, if_true]
    exact .error _
  · simp only [hf]
    refine .ok ((Edits.keep q s v).trans (.update (fun e _ => Entry.parent_assign e name _) ?_))
    intro e _ c hc
    refine (Entry.owned_assign hc).imp_right fun hc => h c ?_
    rwa [← Value.nodes_keep v s.nextList]

/-- The nodes in an attribute of an entry are owned by it. -/
theorem Entry.nodes_own {e : Entry} {a : Attribute} {v : Value} (h : e.own a = some (.value v)) :
    ∀ i ∈ v.nodes, i ∈ e.owned := by
  intro i hi
  rw [mem_owned]
  cases a with
  | text field =>
    obtain ⟨w, hw, h⟩ := Option.map_eq_some_iff.mp h
    cases h
    exact .inr (.inr (.inl ⟨v, Shape.mem_values_of_field? hw, hi⟩))
  | part field =>
    obtain ⟨part, hpart, h⟩ := Option.map_eq_some_iff.mp h
    cases h
    cases part with
    | none => simp [Value.ofNode?, Value.nodes] at hi
    | some c =>
      rw [Value.ofNode?, Value.nodes, List.mem_singleton] at hi
      exact .inl (hi ▸ Shape.mem_parts_of_part? hpart)
  | list field =>
    obtain ⟨parts, hparts, h⟩ := Option.map_eq_some_iff.mp h
    cases h
    rw [Value.nodes_ofNodes] at hi
    exact .inl (Shape.mem_parts_of_list? hparts hi)
  | sourceLocation =>
    rw [own] at h
    split at h <;> cases h
    simp [Value.nodes] at hi
  | rawData =>
    rw [own] at h
    split at h <;> cases h
    simp [Value.nodes] at hi
  | textAttribute =>
    obtain ⟨field, -, h⟩ := Option.map_eq_some_iff.mp h
    cases h
    simp [Value.nodes] at hi
  | noParameters =>
    rw [own] at h
    split at h <;> cases h
    simp [Value.nodes] at hi
  | _ => cases h

/-- The nodes in the name of a shape are in one of its values. -/
theorem nodes_nameOf {shape : Shape NodeId} {v : Value} (h : shape.nameOf = .ok v) {i : NodeId}
    (hi : i ∈ v.nodes) : ∃ w ∈ shape.values, i ∈ w.nodes := by
  rw [Shape.nameOf] at h
  split at h
  · unfold Shape.pathName at h
    split at h
    · cases h
      simp [Value.nodes] at hi
    · split at h <;> cases h
      simp [Value.nodes] at hi
  · next hname =>
    cases h
    exact ⟨v, Shape.mem_values_of_field? hname, hi⟩
  · cases h

/-- What a node has by a name holds nodes that it owns, unless it follows from something else. -/
theorem nodes_stored {i : NodeId} {name : String} {v : Value}
    (h : s.stored i name = .ok (.value v)) : ∀ c ∈ v.nodes, c ∈ s.parts i := by
  intro c hc
  rw [mem_parts]
  cases he : s.get? i with
  | none => simp [stored, get, he, bind, Except.bind] at h
  | some e =>
    refine ⟨e, rfl, ?_⟩
    simp only [stored, get, he, bind, Except.bind] at h
    split at h
    · next w hw =>
      cases h
      exact Entry.mem_owned.mpr (.inr (.inr (.inr (.inl ⟨_, Value.mem_of_lookup hw, hc⟩))))
    · cases hn : e.shape.nameOf with
      | error _ =>
        rw [hn] at h
        cases h
      | ok w =>
        rw [hn] at h
        cases h
        exact Entry.mem_owned.mpr (.inr (.inr (.inl (nodes_nameOf hn hc))))
    · cases ho : e.own _ with
      | none =>
        rw [ho] at h
        cases h
      | some w =>
        rw [ho] at h
        cases h
        exact Entry.nodes_own ho c hc
    · cases h

/-- The members of a list hold nodes of the list. -/
theorem nodesOfItems_of_items? {v : Value} {items : List Value} (h : v.items? = some items) :
    Value.nodesOfItems items = v.nodes := by
  cases v <;> cases h <;> rfl

/-- A list that a node has by a name, and that does not follow from something else, is stored. -/
theorem stored_of_listNamed {i : NodeId} {name : String} {v : Value} {e : Entry}
    (hl : s.listNamed i name = .ok v) (he : s.get i = .ok e)
    (hf : Attribute.following? e.shape.kind name = none) : s.stored i name = .ok (.value v) := by
  simp only [listNamed, content, he, hf, bind, Except.bind] at hl
  cases hs : s.stored i name with
  | error _ => simp [hs] at hl
  | ok c =>
    cases c with
    | mark _ => simp only [hs] at hl; cases hl
    | value w =>
      simp only [hs] at hl
      split at hl <;> cases hl
      rfl

/-- Changing a list in place adds ways to the nodes that are new in it. -/
theorem edits_changeList {f : List Value → List Value}
    (hf : ∀ items, ∀ i ∈ Value.nodesOfItems (f items), i ∈ Value.nodesOfItems items ∨ q i)
    (i : NodeId) (name : String) : Gives (Edits q s) (s.changeList i name f) := by
  intro t ht
  rw [changeList] at ht
  cases hl : s.listNamed i name with
  | error _ => simp [hl, bind, Except.bind] at ht
  | ok list =>
    cases he : s.get i with
    | error _ => simp [listNamed, content, he, bind, Except.bind] at hl
    | ok e =>
      simp only [hl, he, bind, Except.bind] at ht
      split at ht
      · cases ht
        exact .mapKept hf s _
      · split at ht
        · cases ht
          exact .refl q s
        · next hfollow =>
          cases ht
          have hstored := stored_of_listNamed hl he (by simpa using hfollow)
          refine .update (fun e _ => Entry.parent_assign e name _) fun g hg c hc => ?_
          rcases Entry.owned_assign hc with hc | hc
          · exact .inl hc
          · refine (hf _ c hc).imp_left fun hc => ?_
            -- the members are nodes of the list, which the node owns already
            have hmem : c ∈ list.nodes := by
              cases hi : list.items? with
              | none => simp [hi, Value.nodesOfItems] at hc
              | some items => rwa [hi, Option.getD_some, nodesOfItems_of_items? hi] at hc
            obtain ⟨g', hg', hc⟩ := mem_parts.mp (nodes_stored hstored c hmem)
            rw [hg] at hg'
            cases hg'
            exact hc

/-- Putting a value at the end of a list adds ways to the nodes of the value. -/
theorem edits_append {v : Value} (h : v.Within q) (i : NodeId) (name : String) :
    Gives (Edits q s) (s.append i name v) := by
  refine edits_changeList (fun items c hc => ?_) i name
  rw [Value.mem_nodesOfItems] at hc ⊢
  obtain ⟨w, hw, hc⟩ := hc
  rcases List.mem_append.mp hw with hw | hw
  · exact .inl ⟨w, hw, hc⟩
  · rw [List.mem_singleton.mp hw] at hc
    exact .inr (h c hc)

end Store

end FeatureTree
