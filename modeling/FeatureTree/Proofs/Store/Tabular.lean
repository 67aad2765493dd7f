import FeatureTree.Proofs.Schema.Worded
import FeatureTree.Proofs.Store.Context
import FeatureTree.Proofs.Store.RowLists
import Mathlib.Data.List.InsertIdx

/-!
# Stores in which tables are made of rows of cells

Whatever a program does with the nodes of a store, examples go on to list rows, rows go on to list
cells, and cells go on to hold what can be looked up, as long as the program itself puts nothing
else in these places: what it makes is read from text or of that sort, and so is what it assigns to
the rows, cells and values of nodes or adds to them. In such a store the rows of all examples can be
read.

## Main results

* `Node.isTabular_of_read`: what is read from text is made of rows of cells
* `Store.IsTabular.perform`: operations keep stores tabular
* `Store.IsTabular.exists_listsRows`: examples in such stores list their rows
-/

namespace FeatureTree

/-! ### Trees -/

namespace Shape

variable {α β : Type} {isOf : α → Kind → Prop}

/-- The parts of tables and examples that are meant to be rows are rows, those of rows are cells,
and a cell holds what can be looked up. -/
def IsTabular (isOf : α → Kind → Prop) : Shape α → Prop
  | .table rows | .example _ _ rows => ∀ r ∈ rows, isOf r .row
  | .row cells => ∀ c ∈ cells, isOf c .cell
  | .cell v => v.isKey = true
  | _ => True

/-- A tabular shape is so by any weaker measure of kinds. -/
theorem IsTabular.imp {isOf' : α → Kind → Prop} {s : Shape α} (h : s.IsTabular isOf)
    (himp : ∀ a ∈ s.parts, ∀ k, isOf a k → isOf' a k) : s.IsTabular isOf' := by
  cases s <;> first
    | trivial
    | exact fun a ha => himp a (by simp [parts, children, ha]) _ (h a ha)

/-- A shape is tabular if the kinds of the mapped parts say so. -/
theorem isTabular_map {isOf : β → Kind → Prop} {f : α → β} {s : Shape α}
    (h : s.IsTabular fun a => isOf (f a)) : (s.map f).IsTabular isOf := by
  cases s <;> first | trivial | exact h | exact List.forall_mem_map.mpr h

/-- A mapped tabular shape was tabular before. -/
theorem IsTabular.of_map {isOf : β → Kind → Prop} {f : α → β} {s : Shape α}
    (h : (s.map f).IsTabular isOf) : s.IsTabular fun a => isOf (f a) := by
  cases s <;> first | trivial | exact h | exact List.forall_mem_map.mp h

/-- An empty shape is tabular. -/
theorem isTabular_empty (kind : Kind) : (empty kind : Shape α).IsTabular isOf := by
  cases kind <;> first | trivial | rfl | exact fun _ h => nomatch h

/-- What is no value of a cell can be changed. -/
theorem IsTabular.setField {s t : Shape α} {field : TextField} {v : Value} (h : s.IsTabular isOf)
    (hfield : field ≠ .value) (ht : s.setField field v = some t) :
    t.IsTabular isOf ∧ t.kind = s.kind := by
  cases field <;> cases s <;> first
    | exact absurd rfl hfield
    | (cases ht <;> exact ⟨by trivial, rfl⟩)

/-- Setting a single part keeps a shape tabular and of its kind. -/
theorem IsTabular.setPart {s t : Shape α} {field : PartField} {part : Option α}
    (h : s.IsTabular isOf) (ht : s.setPart field part = some t) :
    t.IsTabular isOf ∧ t.kind = s.kind := by
  cases field <;> cases s <;> cases ht <;> exact ⟨by trivial, rfl⟩

/-- Lists that are not of rows or cells can be changed. -/
theorem IsTabular.setList {s t : Shape α} {field : ListField} {parts : List α}
    (h : s.IsTabular isOf) (hrows : field ≠ .rows) (hcells : field ≠ .cells)
    (ht : s.setList field parts = some t) : t.IsTabular isOf ∧ t.kind = s.kind := by
  refine ⟨?_, kind_of_setList ht⟩
  cases field <;> cases s <;> first
    | exact absurd rfl hrows
    | exact absurd rfl hcells
    | (cases ht <;> trivial)

end Shape

/-- A tree in which rows stand in the places of rows, cells in those of cells, and in which cells
hold what can be looked up. -/
inductive Node.IsTabular : Node → Prop
  | mk {o : Origin} {s : Shape Node} (shape : s.IsTabular fun n k => n.kind = k)
    (parts : ∀ n ∈ s.parts, IsTabular n) : IsTabular (.mk o s)

namespace Node

/-- The tree of what is written is tabular. -/
theorem isTabular_ofRecord {r : Record} (h : r.IsWritten) (language : Option Value) :
    (ofRecord language r).IsTabular := by
  induction h generalizing language with
  | @mk r _ _ htext places _ ih =>
    obtain ⟨text, htext⟩ := htext
    obtain ⟨inner, heq⟩ := ofRecord_eq language r
    rw [heq]
    refine .mk (Shape.isTabular_map ?_) ?_
    · simp only [kind_ofRecord]
      cases hk : r.kind <;> simp only [Record.shape, hk] <;>
        first
          | trivial
          | exact places.rows
          | exact places.cells
          | simp [Shape.IsTabular, htext, Value.isKey]
    · rw [Shape.parts_map, List.forall_mem_map]
      exact fun x hx => ih x (Record.mem_parts_of_mem_shape hx) inner

/-- A file built from a written document is tabular. -/
theorem isTabular_ofDocument {d : DocumentRecord} (h : d.IsWritten) (path : Text) :
    (ofDocument path d).IsTabular := by
  refine .mk trivial ?_
  simp only [Shape.parts, List.forall_mem_append, Option.mem_toList, Option.map_eq_some_iff,
    List.forall_mem_map]
  refine ⟨?_, fun x hx => isTabular_ofRecord (h.comments x hx) none⟩
  rintro _ ⟨x, hx, rfl⟩
  exact isTabular_ofRecord (h.feature x hx).2 none

/-- What is read from text is made of rows of cells. -/
theorem isTabular_of_read {default dialect : Value} {path source : Text} {kind : Kind} {n : Node}
    (h : read default dialect path source kind = .ok n) : n.IsTabular := by
  obtain ⟨_, _, d, hd, ⟨-, rfl⟩ | ⟨r, hr, -, rfl⟩⟩ := exists_of_read h
  · exact isTabular_ofDocument (DocumentRecord.isWritten_of_parse hd) path
  · exact isTabular_ofRecord
      (Fragment.isWritten_of_select? (DocumentRecord.isWritten_of_parse hd) hr) none

/-- A row of values that can be looked up. -/
theorem isTabular_ofValues {values : List Value} (h : ∀ v ∈ values, v.isKey = true) :
    (ofValues values).IsTabular := by
  refine .mk (fun n hn => ?_) fun n hn => ?_
  · obtain ⟨v, -, rfl⟩ := List.mem_map.mp hn
    rfl
  · obtain ⟨v, hv, rfl⟩ := List.mem_map.mp hn
    exact .mk (h v hv) (fun _ h => nomatch h)

/-- A row of texts. -/
theorem isTabular_ofTexts (texts : List Text) : (ofValues (texts.map .text)).IsTabular :=
  isTabular_ofValues (List.forall_mem_map.mpr fun _ _ => rfl)

end Node

/-! ### Stores -/

namespace Store

variable {s t u : Store} {i j : NodeId} {e f : Entry}

/-- A node is in the store and of a kind. -/
def IsOf (s : Store) (i : NodeId) (kind : Kind) : Prop :=
  ∃ e, s.get? i = some e ∧ e.shape.kind = kind

/-- The names of what is read of rows and of what is done with them. -/
def tableNames : List String := ["rows", "cells", "value", "add_row", "remove_row"]

/-- A node of a table is what it is meant to be, and nothing takes the place of that. -/
structure Entry.IsTabular (isOf : NodeId → Kind → Prop) (e : Entry) : Prop where
  shape : e.shape.IsTabular isOf
  plain : ∀ name ∈ tableNames, Value.lookup name e.given = none

/-- All nodes of tables are what they are meant to be. -/
def IsTabular (s : Store) : Prop := ∀ i e, s.get? i = some e → e.IsTabular s.IsOf

/-- Nodes keep their kinds. -/
def KindsKept (s t : Store) : Prop := ∀ i k, s.IsOf i k → t.IsOf i k

/-- A tabular entry stays one while kinds are kept. -/
theorem Entry.IsTabular.mono (h : e.IsTabular s.IsOf) (hkinds : s.KindsKept t) :
    e.IsTabular t.IsOf :=
  ⟨h.shape.imp fun i _ => hkinds i, h.plain⟩

/-- Changing a node to one of its kind. -/
theorem IsTabular.update {g : Entry → Entry} (h : s.IsTabular)
    (hg : ∀ e, s.get? i = some e → (g e).IsTabular s.IsOf ∧ (g e).shape.kind = e.shape.kind) :
    (s.update i g).IsTabular ∧ s.KindsKept (s.update i g) := by
  have hkinds : s.KindsKept (s.update i g) := by
    rintro j k ⟨e, he, hk⟩
    rw [IsOf, get?_update]
    split
    · next hij =>
      subst hij
      exact ⟨g e, by rw [he]; rfl, (hg e he).2.trans hk⟩
    · exact ⟨e, he, hk⟩
  refine ⟨fun j e he => ?_, hkinds⟩
  rw [get?_update] at he
  split at he
  · next hij =>
    subst hij
    obtain ⟨f, hf, rfl⟩ := Option.map_eq_some_iff.mp he
    exact (hg f hf).1.mono hkinds
  · exact (h j e he).mono hkinds

/-- Setting a parent keeps a store tabular and all kinds. -/
theorem IsTabular.setParent (h : s.IsTabular) (parent : Option NodeId) (c : NodeId) :
    (s.setParent parent c).IsTabular ∧ s.KindsKept (s.setParent parent c) :=
  h.update fun e he => ⟨⟨(h c e he).shape, (h c e he).plain⟩, rfl⟩

/-- Names, the dialect and the identities of lists play no part in it. -/
theorem IsTabular.of_entries (h : s.IsTabular) (he : t.entries = s.entries) : t.IsTabular := by
  obtain ⟨entries, held, dialect, nextList⟩ := t
  subst he
  exact h

/-- Changing a kept list keeps a store tabular. -/
theorem IsTabular.mapKept (h : s.IsTabular) (id : Nat) (g : List Value → List Value) :
    (s.mapKept id g).IsTabular := by
  have hget : ∀ j, (s.mapKept id g).get? j = (s.get? j).map (·.mapValues (·.mapKept id g)) :=
    fun j => Array.getElem?_map
  have hkinds : s.KindsKept (s.mapKept id g) := by
    rintro j k ⟨e, he, rfl⟩
    refine ⟨_, by rw [hget, he]; rfl, ?_⟩
    cases hs : e.shape <;> simp [Entry.mapValues, hs, Shape.mapValues, Shape.kind]
  intro j e he
  rw [hget] at he
  obtain ⟨f, hf, rfl⟩ := Option.map_eq_some_iff.mp he
  obtain ⟨hshape, hplain⟩ := (h j f hf).mono hkinds
  refine ⟨?_, fun name hname => Value.lookup_map_eq_none (hplain name hname)⟩
  cases hs : f.shape <;> rw [hs] at hshape <;>
    simp only [Entry.mapValues, hs, Shape.mapValues] <;> first | trivial | exact hshape | skip
  rw [Value.mapKept_of_isKey hshape]
  exact hshape

/-! ### Planting -/

/-- What was planted is tabular, if the trees are. -/
def PlantsTabular (s t : Store) : Prop :=
  ∀ j e, s.size ≤ j → t.get? j = some e → e.IsTabular t.IsOf

/-- Growing keeps all kinds. -/
theorem kindsKept_of_grown {p : NodeId → Prop} {tops : List NodeId} (h : Grown p s t tops) :
    s.KindsKept t := fun i _ ⟨e, he, hk⟩ => ⟨e, (h.old i (get?_lt he)).trans he, hk⟩

/-- Planting nodes one by one keeps a store tabular, if planting each does. -/
theorem plantsTabular_mapM {ns : List Node}
    (h : ∀ n ∈ ns, ∀ s : Store, s.PlantsTabular (planting n s).2) (s : Store) :
    s.PlantsTabular (ns.mapM planting s).2 := by
  induction ns generalizing s with
  | nil =>
    intro j e hj he
    have he : s.get? j = some e := he
    rw [get?_of_le hj] at he
    cases he
  | cons n ns ih =>
    rw [List.forall_mem_cons] at h
    rw [List.mapM_cons]
    intro j e hj he
    have hgrown : Grown (fun _ => True) (planting n s).2 (ns.mapM planting (planting n s).2).2 _ :=
      grown_mapM_planting (fun n _ s => grown_plant n.within_any s) _
    rcases Nat.lt_or_ge j (planting n s).2.size with hlt | hge
    · exact (h.1 s j e hj (hgrown.old j hlt ▸ he)).mono (kindsKept_of_grown hgrown)
    · exact ih h.2 (planting n s).2 j e hge he

/-- The top of a planted tree is of the kind of the tree. -/
theorem isOf_plant (n : Node) (s : Store) : (s.plant n).2.IsOf (s.plant n).1 n.kind := by
  obtain ⟨e, pairs, he, -, hs, hn, -⟩ := (represents_plant n s).inv
  exact ⟨e, he, by rw [hs, Shape.kind_map, Node.kind, hn, Shape.kind_map]⟩

/-- Planting a tabular node keeps a store tabular. -/
theorem plantsTabular_plant {n : Node} (h : n.IsTabular) (s : Store) :
    s.PlantsTabular (s.plant n).2 := by
  induction h generalizing s with
  | @mk o shape hshape _ ih =>
    have hplanted := plantsTabular_mapM ih s
    have hparts : ((shape.mapM planting s).1.parts, (shape.mapM planting s).2)
        = shape.parts.mapM planting s := congrFun (Shape.parts_mapM planting shape) s
    have hgrown : Grown (fun _ => True) s (shape.parts.mapM planting s).2
        (shape.parts.mapM planting s).1 :=
      grown_mapM_planting (fun n _ s => grown_plant n.within_any s) s
    rw [← hparts] at hplanted hgrown
    have htop := represents_plant (.mk o shape) s
    rw [plant_mk] at htop ⊢
    generalize (shape.mapM planting s).2 = t at hplanted hgrown htop ⊢
    generalize he : ({ shape := (shape.mapM planting s).1, line := o.line, capsule := o.capsule } :
      Entry) = e at htop ⊢
    have hparts : e.shape.parts = (shape.mapM planting s).1.parts := he ▸ rfl
    have hlt : ∀ c ∈ e.shape.parts, c < t.size := fun c hc =>
      (hgrown.tops_new c (hparts ▸ hc)).2
    have hget := get?_addOwner e t hlt
    have hkinds : t.KindsKept (addOwner e t).2 := by
      rintro j k ⟨f, hf, hk⟩
      rw [IsOf, hget, if_neg (Nat.ne_of_lt (get?_lt hf)), hf]
      split <;> exact ⟨_, rfl, hk⟩
    intro j f hj hf
    rcases entry_addOwner hlt hf with ⟨-, rfl⟩ | ⟨g, hg, hs, hgiven, -⟩
    · obtain ⟨e', pairs, he', -, hs, hn, -, hrep⟩ := htop.inv
      have he' : (addOwner f t).2.get? t.size = some e' := he'
      rw [hget, if_pos rfl] at he'
      obtain rfl := Option.some.inj he'
      have hpairs : pairs.IsTabular fun x k => x.2.kind = k := by
        have hshape : (Node.mk o shape).shape.IsTabular fun n k => n.kind = k := hshape
        rw [hn] at hshape
        exact hshape.of_map
      refine ⟨hs ▸ Shape.isTabular_map (hpairs.imp fun x hx k hk => ?_), he ▸ fun _ _ => rfl⟩
      obtain ⟨g, qairs, hg, -, hgs, hgn, -⟩ := (hrep x hx).inv
      exact ⟨g, hg, by rw [← hk, hgs, Shape.kind_map, Node.kind, hgn, Shape.kind_map]⟩
    · have hg' := (hplanted j g hj hg).mono hkinds
      exact ⟨hs ▸ hg'.shape, hgiven ▸ hg'.plain⟩

/-- Tabular trees can be planted. -/
theorem IsTabular.plant {n : Node} (h : s.IsTabular) (hn : n.IsTabular) :
    (s.plant n).2.IsTabular ∧ s.KindsKept (s.plant n).2 := by
  have hgrown := grown_plant n.within_any s
  refine ⟨fun j e he => ?_, kindsKept_of_grown hgrown⟩
  rcases Nat.lt_or_ge j s.size with hlt | hge
  · exact (h j e (hgrown.old j hlt ▸ he)).mono (kindsKept_of_grown hgrown)
  · exact plantsTabular_plant hn s j e hge he

/-! ### Assignments -/

namespace Entry

variable {isOf : NodeId → Kind → Prop} {v : Value}

/-- Withholding a name gives nothing else. -/
theorem lookup_withhold (e : Entry) {name key : String} (h : Value.lookup key e.given = none) :
    Value.lookup key (e.withhold name).given = none := by
  rw [Value.lookup, lookup_eq_none_iff_not_mem] at h ⊢
  exact fun hmem => h (by
    obtain ⟨x, hx, rfl⟩ := List.mem_map.mp hmem
    exact List.mem_map_of_mem (List.mem_of_mem_filter hx))

/-- What is assigned where a kind has a place for it changes nothing of a table, unless it is put in
the place of rows, cells or values. -/
theorem IsTabular.fill? {a : Attribute} (h : e.IsTabular isOf) (ha : a.name ∉ tableNames)
    (hf : e.fill? a v = some f) : f.IsTabular isOf ∧ f.shape.kind = e.shape.kind := by
  have hshape : ∀ {shape : Shape NodeId}, shape.IsTabular isOf ∧ shape.kind = e.shape.kind →
      ({ e with shape } : Entry).IsTabular isOf ∧ shape.kind = e.shape.kind :=
    fun hs => ⟨⟨hs.1, h.plain⟩, hs.2⟩
  unfold Entry.fill? at hf
  split at hf
  · next field v =>
    obtain ⟨_, hset, rfl⟩ := Option.map_eq_some_iff.mp hf
    refine hshape (h.shape.setField ?_ hset)
    rintro rfl
    exact ha (by decide)
  · obtain ⟨_, hset, rfl⟩ := Option.map_eq_some_iff.mp hf
    exact hshape (h.shape.setPart hset)
  · obtain ⟨_, hset, rfl⟩ := Option.map_eq_some_iff.mp hf
    exact hshape (h.shape.setPart hset)
  · next field v =>
    obtain ⟨_, -, hf⟩ := Option.bind_eq_some_iff.mp hf
    obtain ⟨_, hset, hf⟩ := Option.bind_eq_some_iff.mp hf
    cases hf
    refine hshape (h.shape.setList ?_ ?_ hset) <;>
    · rintro rfl
      exact ha (by decide)
  · cases hf
    exact ⟨⟨h.shape, h.plain⟩, rfl⟩
  · cases hf
    exact ⟨⟨h.shape, h.plain⟩, rfl⟩
  · cases hf

/-- Clearing an attribute that is none of a table keeps an entry tabular and of its kind. -/
theorem IsTabular.vacate {a : Attribute} (h : e.IsTabular isOf) (ha : a.name ∉ tableNames) :
    (e.vacate a).IsTabular isOf ∧ (e.vacate a).shape.kind = e.shape.kind := by
  have hset : ∀ {o : Option (Shape NodeId)},
      (∀ t, o = some t → t.IsTabular isOf ∧ t.kind = e.shape.kind) →
      ({ e with shape := o.getD e.shape } : Entry).IsTabular isOf
        ∧ (o.getD e.shape).kind = e.shape.kind := by
    rintro (_ | t) ho
    · exact ⟨h, rfl⟩
    · exact ⟨⟨(ho t rfl).1, h.plain⟩, (ho t rfl).2⟩
  cases a with
  | part field => exact hset fun t ht => h.shape.setPart ht
  | list field =>
    refine hset fun t ht => h.shape.setList ?_ ?_ ht <;>
    · rintro rfl
      exact ha (by decide)
  | _ => exact ⟨⟨h.shape, h.plain⟩, rfl⟩

/-- Giving something under a name that is none of a table keeps an entry tabular. -/
theorem IsTabular.give {name : String} (h : e.IsTabular isOf) (hname : name ∉ tableNames)
    (v : Value) : (e.give name v).IsTabular isOf := by
  refine ⟨h.shape, fun key hkey => ?_⟩
  have hne : key ≠ name := fun heq => hname (heq ▸ hkey)
  exact (Value.lookup_put_of_ne hne v e.given).trans (h.plain key hkey)

/-- Withholding a name keeps an entry tabular. -/
theorem IsTabular.withhold (h : e.IsTabular isOf) (name : String) :
    (e.withhold name).IsTabular isOf :=
  ⟨h.shape, fun key hkey => lookup_withhold e (h.plain key hkey)⟩

/-- What is assigned by another name changes nothing of a table. -/
theorem IsTabular.assign {name : String} (h : e.IsTabular isOf) (hname : name ∉ tableNames)
    (v : Value) : (e.assign name v).IsTabular isOf
      ∧ (e.assign name v).shape.kind = e.shape.kind := by
  rw [Entry.assign]
  split
  · exact ⟨h.give hname v, rfl⟩
  · next a ha =>
    obtain rfl : a.name = name := by simpa using List.find?_some ha
    split
    · next f hf =>
      obtain ⟨hf, hkind⟩ := h.fill? hname hf
      exact ⟨hf.withhold _, hkind⟩
    · obtain ⟨hf, hkind⟩ := h.vacate hname
      exact ⟨hf.give hname v, hkind⟩

/-- A node is given, by a name of tables, what it is meant to have by it. -/
theorem IsTabular.assign_placed (h : e.IsTabular isOf) (a : Attribute) (shape : Shape NodeId)
    (hf : e.fill? a v = some { e with shape }) (hshape : shape.IsTabular isOf)
    (hkind : shape.kind = e.shape.kind) :
    (e.assign a.name v).IsTabular isOf ∧ (e.assign a.name v).shape.kind = e.shape.kind := by
  have hplaced : ({ e with shape } : Entry).IsTabular isOf := ⟨hshape, h.plain⟩
  rw [Entry.assign, Attribute.ofName?_name]
  simp only [hf]
  exact ⟨hplaced.withhold _, hkind⟩

end Entry

/-! ### Operations -/

/-- A value is what a node is meant to have by a name of tables, or the name is none of these. -/
inductive Suits (s : Store) (i : NodeId) : String → Value → Prop
  | other {name : String} {v : Value} : name ∉ tableNames → Suits s i name v
  | value {v : Value} : s.IsOf i .cell → v.isKey = true → Suits s i (Attribute.text .value).name v
  | cells {v : Value} {cells : List NodeId} : s.IsOf i .row → v.onlyNodes? = some cells →
      (∀ c ∈ cells, s.IsOf c .cell) → Suits s i (Attribute.list .cells).name v
  | rows {kind : Kind} {v : Value} {rows : List NodeId} : kind ∈ [Kind.table, .example] →
      s.IsOf i kind → v.onlyNodes? = some rows → (∀ r ∈ rows, s.IsOf r .row) →
      Suits s i (Attribute.list .rows).name v

end Store

open Store

/-- What is made has cells that can be looked up, and stands for what is written if it is made from
records. -/
def Making.IsTabular : Making → Prop
  | .cell v => v.isKey = true
  | .row values => ∀ items, values.members = .ok items → ∀ v ∈ items, v.isKey = true
  | .record kind r => { r with kind : Record }.IsWritten
  | .document _ d => d.IsWritten
  | _ => True

/-- An operation puts into tables only what belongs there. -/
def Operation.KeepsTables (s : Store) : Operation → Prop
  | .make what _ => what.IsTabular
  | .assign i name v => s.Suits i name v
  | .append i name v => s.Suits i name (.list [v])
  | _ => True

namespace Value

/-- A value that cannot be changed in place has no lists to keep. -/
theorem keep_of_isKey {v : Value} (h : v.isKey = true) (n : Nat) : v.keep n = (v, n) := by
  cases v <;> first | rfl | cases h

/-- Items that cannot be changed in place have no lists to keep. -/
theorem keepItems_of_isKey {items : List Value} (h : ∀ v ∈ items, v.isKey = true) (n : Nat) :
    keepItems items n = (items, n) := by
  induction items with
  | nil => rfl
  | cons v items ih =>
    rw [List.forall_mem_cons] at h
    rw [keepItems]
    simp only [bind, StateT.bind, keep_of_isKey h.1, ih h.2]
    rfl

/-- A list of nodes stays one when it is kept. -/
theorem onlyNodes?_keep {v : Value} {is : List Nat} (h : v.onlyNodes? = some is) (n : Nat) :
    (v.keep n).1.onlyNodes? = some is := by
  have hitems : ∀ js : List Nat, ∀ n, keepItems (js.map .node) n = (js.map .node, n) := by
    intro js
    induction js with
    | nil => exact fun _ => rfl
    | cons j js ih =>
      intro n
      rw [List.map_cons, keepItems]
      simp only [bind, StateT.bind, ih]
      rfl
  obtain ⟨items, hi, hitem⟩ := Option.bind_eq_some_iff.mp h
  cases v <;> cases hi
  · obtain rfl := eq_of_onlyNodes hitem
    rw [keep]
    simp only [bind, StateT.bind, hitems]
    exact h
  · exact h

end Value

namespace Making

variable {what : Making}

/-- What is made stays tabular after its lists are kept. -/
theorem IsTabular.keep (h : what.IsTabular) (s : Store) : (what.keep s).1.IsTabular := by
  cases what with
  | cell v =>
    have hkeep : (v.keep s.nextList).1 = v := congrArg Prod.fst (Value.keep_of_isKey h s.nextList)
    exact (congrArg Value.isKey hkeep).trans h
  | row values =>
    intro items hitems
    cases values with
    | list values =>
      have hvalues : ∀ v ∈ values, v.isKey = true := h values rfl
      have hkeep : (Value.keepItems values s.nextList).1 = items := Except.ok.inj hitems
      rw [← hkeep, Value.keepItems_of_isKey hvalues]
      exact hvalues
    | kept id values => exact h items hitems
    | text t => exact h items hitems
    | table fields =>
      obtain rfl := Except.ok.inj hitems
      exact List.forall_mem_map.mpr fun _ _ => rfl
    | _ => cases hitems
  | _ => exact h

/-- What is tabular makes a tabular node. -/
theorem IsTabular.node {default : Value} {n : Node} (h : what.IsTabular)
    (hn : what.node default = .ok n) : n.IsTabular := by
  cases what with
  | empty kind =>
    cases hn
    exact .mk (Shape.isTabular_empty kind) (by cases kind <;> exact fun _ h => nomatch h)
  | cell v =>
    cases hn
    exact .mk h fun _ h => nomatch h
  | featureFile path | directory path =>
    cases hn
    exact .mk trivial fun _ h => nomatch h
  | row values =>
    rw [Making.node] at hn
    cases hitems : values.members with
    | error _ =>
      rw [hitems] at hn
      cases hn
    | ok items =>
      rw [hitems] at hn
      cases hn
      exact Node.isTabular_ofValues (h items hitems)
  | text kind dialect path source => exact Node.isTabular_of_read hn
  | record kind r =>
    rw [Making.node, Node.build] at hn
    split at hn
    · cases hn
      exact Node.isTabular_ofRecord h none
    · cases hn
  | document path d =>
    rw [Making.node, Node.buildFile] at hn
    split at hn
    · cases hn
      exact Node.isTabular_ofDocument h path
    · cases hn

end Making

namespace Store

variable {s t u : Store} {i c : NodeId} {e f : Entry} {v : Value} {name : String}

/-- A node of a kind has a shape of that kind. -/
theorem IsOf.kind {kind : Kind} (h : s.IsOf i kind) (he : s.get? i = some e) :
    e.shape.kind = kind := by
  obtain ⟨f, hf, hkind⟩ := h
  rwa [Option.some.inj (he.symm.trans hf)]

/-- What suits a node can be assigned to it. -/
theorem Suits.assign (hs : s.IsTabular) (h : s.Suits i name v) (he : s.get? i = some e) :
    (e.assign name (s.keep v).1).IsTabular s.IsOf
      ∧ (e.assign name (s.keep v).1).shape.kind = e.shape.kind := by
  have htabular := hs i e he
  cases h with
  | other hname => exact htabular.assign hname _
  | value hcell hkey =>
    have hkind := hcell.kind he
    have hkeep : (s.keep v).1 = v := congrArg Prod.fst (Value.keep_of_isKey hkey s.nextList)
    rw [hkeep]
    cases hshape : e.shape <;> rw [hshape] at hkind <;> cases hkind
    rw [← hshape]
    exact htabular.assign_placed _ (.cell v) (by rw [Entry.fill?, hshape]; rfl) hkey
      (by rw [hshape]; rfl)
  | @cells _ cells hrow hcells hall =>
    have hkind := hrow.kind he
    have hcells : (s.keep v).1.onlyNodes? = some cells := Value.onlyNodes?_keep hcells s.nextList
    cases hshape : e.shape <;> rw [hshape] at hkind <;> cases hkind
    rw [← hshape]
    exact htabular.assign_placed _ (.row cells) (by rw [Entry.fill?, hshape, hcells]; rfl) hall
      (by rw [hshape]; rfl)
  | @rows kind _ rows hkinds hrows hlist hall =>
    have hkind := hrows.kind he
    have hlist : (s.keep v).1.onlyNodes? = some rows := Value.onlyNodes?_keep hlist s.nextList
    have hplaced : ∀ shape, e.shape.setList .rows rows = some shape → shape.IsTabular s.IsOf →
        (e.assign (Attribute.list .rows).name (s.keep v).1).IsTabular s.IsOf
          ∧ (e.assign (Attribute.list .rows).name (s.keep v).1).shape.kind = e.shape.kind :=
      fun shape hset hshape => htabular.assign_placed _ shape
        (by rw [Entry.fill?, hlist]; simp only [bind, Option.bind, hset]; rfl) hshape
        (Shape.kind_of_setList hset)
    rw [← hkind] at hkinds
    cases hshape : e.shape <;> rw [hshape] at hkinds hplaced <;>
      simp only [Shape.kind, List.mem_cons, List.not_mem_nil, reduceCtorEq, or_self] at hkinds <;>
      exact hplaced _ rfl (by exact hall)

/-- Attaching a node keeps a store tabular and all kinds. -/
theorem IsTabular.adopt {parent child : NodeId} (hs : s.IsTabular)
    (h : s.adopt parent child = .ok t) : t.IsTabular ∧ s.KindsKept t := by
  rcases adopt_inv h with ⟨-, rfl⟩ | ⟨-, rfl⟩
  · exact ⟨hs, fun _ _ => id⟩
  · exact hs.setParent _ _

/-- Detaching a node keeps a store tabular. -/
theorem IsTabular.disown (hs : s.IsTabular) (parent child : NodeId) :
    (s.disown parent child).IsTabular := by
  rcases disown_inv s parent child with h | ⟨-, h⟩ <;> rw [h]
  · exact hs
  · exact (hs.setParent _ _).1

/-- Lists by other names than those of tables can be changed in place. -/
theorem IsTabular.changeList {g : List Value → List Value} (hs : s.IsTabular)
    (hname : name ∉ tableNames) (h : s.changeList i name g = .ok t) : t.IsTabular := by
  obtain ⟨list, -, h⟩ := bind_ok h
  split at h
  · cases h
    exact hs.mapKept _ g
  · obtain ⟨e, he, h⟩ := bind_ok h
    split at h
    · cases h
      exact hs
    · cases h
      exact (hs.update fun e he => (hs i e he).assign hname _).1

/-- Where rows or cells are listed, other ones can be listed. -/
theorem IsTabular.changeList_placed {field : ListField} {g : List Value → List Value}
    {parts parts' : List NodeId} {shape : Shape NodeId} (hs : s.IsTabular)
    (hname : (Attribute.list field).name ∈ tableNames) (he : s.get? i = some e)
    (hl : e.shape.list? field = some parts) (hset : e.shape.setList field parts' = some shape)
    (hg : g (parts.map .node) = parts'.map .node) (hshape : shape.IsTabular s.IsOf)
    (h : s.changeList i (Attribute.list field).name g = .ok t) : t.IsTabular := by
  rw [changeList_of_not_given he ((hs i e he).plain _ hname) hl hset hg] at h
  cases h
  refine (hs.update fun f hf => ?_).1
  obtain rfl := Option.some.inj (he.symm.trans hf)
  exact ⟨⟨hshape, (hs i e he).plain⟩, Shape.kind_of_setList hset⟩

/-- What suits a node can be put at the end of a list that it has. -/
theorem IsTabular.append (hs : s.IsTabular) (hsuits : s.Suits i name (.list [v]))
    (h : s.append i name v = .ok t) : t.IsTabular := by
  have hnode : ∀ {parts}, (Value.list [v]).onlyNodes? = some parts → [v] = parts.map .node :=
    fun h => Value.eq_of_onlyNodes h
  generalize hw : Value.list [v] = w at hsuits
  cases hsuits with
  | other hname => exact hs.changeList hname h
  | value _ hkey =>
    rw [← hw] at hkey
    cases hkey
  | @cells _ cells hrow hcells hall =>
    obtain ⟨e, he, hkind⟩ := hrow
    have hshape := (hs i e he).shape
    cases heq : e.shape <;> rw [heq] at hkind hshape <;> cases hkind
    exact hs.changeList_placed (by decide) he (by rw [heq]; rfl) (by rw [heq]; rfl)
      (by rw [hnode (hw ▸ hcells), List.map_append])
      (by exact List.forall_mem_append.mpr ⟨hshape, hall⟩) h
  | @rows kind _ rows hkinds hrows hlist hall =>
    obtain ⟨e, he, rfl⟩ := hrows
    have hshape := (hs i e he).shape
    have hplaced : ∀ old shape, e.shape.list? .rows = some old →
        e.shape.setList .rows (old ++ rows) = some shape → shape.IsTabular s.IsOf → t.IsTabular :=
      fun old shape hl hset hshape => hs.changeList_placed (by decide) he hl hset
        (by rw [hnode (hw ▸ hlist), List.map_append]) hshape h
    cases heq : e.shape <;> rw [heq] at hkinds hshape hplaced <;>
      simp only [Shape.kind, List.mem_cons, List.not_mem_nil, reduceCtorEq, or_self] at hkinds <;>
      exact hplaced _ _ rfl rfl (List.forall_mem_append.mpr ⟨hshape, hall⟩)

/-- Assigning a value that suits a node keeps a store tabular. -/
theorem IsTabular.assign (hs : s.IsTabular) (hsuits : s.Suits i name v)
    (h : s.assign i name v = .ok t) : t.IsTabular := by
  obtain ⟨e, -, h⟩ := bind_ok h
  by_cases hfollows : (Attribute.following? e.shape.kind name).isSome
  · simp only [hfollows, if_true] at h
    cases h
  · simp only [hfollows] at h
    cases h
    have hkeep : (s.keep v).2.IsTabular := hs.of_entries rfl
    have hisOf : (s.keep v).2.IsOf = s.IsOf := rfl
    refine (hkeep.update fun e he => ?_).1
    rw [hisOf]
    exact hsuits.assign hs he

/-- Adding to a list that is none of a table keeps a store tabular. -/
theorem IsTabular.addTo {directory child : NodeId} {field : ListField} (hs : s.IsTabular)
    (hname : (Attribute.list field).name ∉ tableNames) (h : s.addTo directory field child = .ok t) :
    t.IsTabular := by
  obtain ⟨_, -, h⟩ := bind_ok h
  split at h
  · cases h
  · obtain ⟨_, -, h⟩ := bind_ok h
    obtain ⟨u, hu, h⟩ := bind_ok h
    exact (hs.adopt hu).1.changeList hname h

/-- Only a table of examples can be asked for its rows. -/
theorem isOf_of_needExamples {operation : String} (h : s.needExamples i operation = .ok ()) :
    s.IsOf i .example := by
  obtain ⟨_, -, h⟩ := bind_ok h
  obtain ⟨e, he, h⟩ := bind_ok h
  split at h
  · cases h
  · next hkind => exact ⟨e, get_eq_ok.mp he, not_not.mp hkind⟩

/-- Adding a row keeps a store tabular. -/
theorem IsTabular.addRow {row : NodeId} {data : RowData} (hs : s.IsTabular)
    (h : s.addRow i data = .ok (row, t)) : t.IsTabular := by
  obtain ⟨_, hneed, -⟩ := bind_ok h
  obtain ⟨texts, u, w, hplant, hadopt, happend⟩ := addRow_inv h
  have hplanted := hs.plant (Node.isTabular_ofTexts texts)
  have hrow : (s.plant (Node.ofValues (texts.map .text))).2.IsOf _ .row :=
    isOf_plant (Node.ofValues (texts.map .text)) s
  rw [hplant] at hplanted hrow
  obtain ⟨hw, hkinds⟩ := hplanted.1.adopt hadopt
  exact hw.append (.rows (by simp) (hkinds _ _ (hplanted.2 _ _ (isOf_of_needExamples hneed))) rfl
    (by simpa using hkinds _ _ hrow)) happend

/-- Removing a row keeps a store tabular. -/
theorem IsTabular.removeRow {data : RowData} (hs : s.IsTabular) (h : s.removeRow i data = .ok t) :
    t.IsTabular := by
  obtain ⟨_, hneed, h⟩ := bind_ok h
  obtain ⟨_, -, h⟩ := bind_ok h
  obtain ⟨_, -, h⟩ := bind_ok h
  obtain ⟨_, -, h⟩ := bind_ok h
  obtain ⟨found, -, h⟩ := bind_ok h
  split at h
  · next n row =>
    obtain ⟨u, hu, h⟩ := bind_ok h
    cases h
    obtain ⟨e, he, hkind⟩ := isOf_of_needExamples hneed
    have hshape := (hs i e he).shape
    cases heq : e.shape <;> rw [heq] at hkind hshape <;> cases hkind
    refine (hs.changeList_placed (by decide) he (by rw [heq]; rfl) (by rw [heq]; rfl)
      (List.eraseIdx_map ..) (by exact fun r hr => hshape r (List.mem_of_mem_eraseIdx hr))
      hu).disown i row
  · cases h
    exact hs

/-- Operations that put into tables only what belongs there keep stores tabular. -/
theorem IsTabular.perform {op : Operation} (hs : s.IsTabular) (hop : op.KeepsTables s)
    (h : s.perform op = .ok t) : t.IsTabular := by
  cases op with
  | make what name =>
    have hwhat : what.IsTabular := hop
    obtain ⟨n, u, hn, rfl, rfl⟩ := make_inv h
    have hkeep : (what.keep s).2.IsTabular := hs.of_entries (by cases what <;> rfl)
    exact (hkeep.plant ((hwhat.keep s).node hn)).1.of_entries rfl
  | hold | release | speak =>
    cases h
    exact hs.of_entries rfl
  | addFeatureFile directory file =>
    obtain ⟨_, -, h⟩ := bind_ok h
    exact hs.addTo (by decide) h
  | addDirectory directory inner =>
    obtain ⟨_, -, h⟩ := bind_ok h
    exact hs.addTo (by decide) h
  | addRow i data name =>
    obtain ⟨⟨row, u⟩, hu, h⟩ := bind_ok h
    cases h
    cases name <;> exact (hs.addRow hu).of_entries rfl
  | removeRow i data => exact hs.removeRow h
  | adopt parent child => exact (hs.adopt h).1
  | disown parent child =>
    cases h
    exact hs.disown parent child
  | assign i name v => exact hs.assign hop h
  | append i name v => exact hs.append hop h

/-! ### What is read of tables -/

/-- A cell of a tabular store has a value that cannot be changed in place. -/
theorem IsTabular.exists_value (hs : s.IsTabular) (hc : s.IsOf c .cell) :
    ∃ v, s.ask (.node c) (.text .value) = .ok v ∧ v.isKey = true := by
  obtain ⟨e, he, hkind⟩ := hc
  have hcell := hs c e he
  have hshape := hcell.shape
  cases heq : e.shape <;> rw [heq] at hkind hshape <;> cases hkind
  refine ⟨_, ?_, hshape⟩
  rw [ask, askFor, stored_of_not_given he (hcell.plain _ (by decide)) (by simp), Entry.own, heq]
  rfl

/-- Rows have values that can be looked up. -/
theorem IsTabular.exists_values (hs : s.IsTabular) {r : NodeId} (hr : s.IsOf r .row) :
    ∃ values, s.valuesOf (.node r) = .ok (.list values) ∧ ∀ v ∈ values, v.isKey = true := by
  obtain ⟨e, he, hkind⟩ := hr
  have hrow := hs r e he
  have hshape := hrow.shape
  cases heq : e.shape <;> rw [heq] at hkind hshape <;> cases hkind
  next cells =>
  have hlisted : s.listed r .cells = .ok (cells.map .node) := by
    rw [listed, valueOf, stored_of_not_given he (hrow.plain _ (by decide)) (by simp), Entry.own,
      heq]
    rfl
  obtain ⟨values, hvalues⟩ := exists_forall₂ fun c hc => hs.exists_value (hshape c hc)
  have hasked : (cells.map Value.node).mapM (s.ask · (.text .value)) = .ok values :=
    mapM_of_forall₂ (List.forall₂_map_left_iff.mpr (hvalues.imp fun _ _ h => h.1))
  refine ⟨values, ?_, fun v hv => ?_⟩
  · simp only [valuesOf, get_eq_ok.mpr he, heq, Shape.kind, rowValues, hlisted, hasked, bind,
      Except.bind, if_true]
    rfl
  · obtain ⟨c, -, hc⟩ := exists_left_of_forall₂ hvalues hv
    exact hc.2

/-- Examples list their rows, and their parameters can be looked up. -/
theorem IsTabular.exists_listsRows (hs : s.IsTabular) (hi : s.IsOf i .example) :
    ∃ rows, s.ListsRows i rows ∧ ∀ r ∈ rows, ∀ p ∈ r.2, p.isKey = true := by
  obtain ⟨e, he, hkind⟩ := hi
  have hexamples := hs i e he
  have hshape := hexamples.shape
  cases heq : e.shape <;> rw [heq] at hkind hshape <;> cases hkind
  next title tags ids =>
  obtain ⟨values, hvalues⟩ := exists_forall₂ fun r hr => hs.exists_values (hshape r hr)
  obtain ⟨hlength, hzip⟩ := List.forall₂_iff_zip.mp hvalues
  have hsubset : ["rows", "add_row", "remove_row"] ⊆ tableNames := by simp [tableNames]
  have hplain : ∀ name ∈ ["rows", "add_row", "remove_row"], Value.lookup name e.given = none :=
    fun name hname => hexamples.plain name (hsubset hname)
  exact ⟨ids.zip values, ⟨⟨e, title, tags, he,
    by rw [heq, List.map_fst_zip (Nat.le_of_eq hlength)], hplain⟩, fun r hr => (hzip hr).1⟩,
    fun r hr => (hzip hr).2⟩

end Store

end FeatureTree
