import FeatureTree.Proofs.Lists
import FeatureTree.Proofs.Schema.Parsed
import FeatureTree.Reading
import FeatureTree.Store.Basic

/-!
# The nodes that data mentions

Values can hold nodes, and so can records and trees that are made of values. What is said here of
the nodes in some data is that they all satisfy a condition. Decoding a tree of the current schema
hands on values that stood in it, so it brings no node into a record that was not in the tree, and
text that was parsed brings none at all.

## Main results

* `Node.within_ofRecord`: a tree mentions no more nodes than its record
* `Schema.Current.document_gives`: a record mentions no more nodes than the tree it was decoded from
* `Node.read_gives`: a node that was read from text mentions no nodes
-/

namespace FeatureTree

/-! ### Conditions on what a computation gives -/

/-- Whatever a computation gives satisfies a condition. -/
def Gives {α : Type} (q : α → Prop) (x : Except Fault α) : Prop := ∀ a, x = .ok a → q a

namespace Gives

variable {α β : Type} {q : α → Prop} {r : β → Prop}

/-- A result that is good is good. -/
theorem ok {a : α} (h : q a) : Gives q (.ok a) := by
  rintro _ ⟨⟩
  exact h

/-- A failure gives nothing bad. -/
theorem error (f : Fault) : Gives q (.error f) := nofun

/-- What follows a good result gives good results, if it does so from good ones. -/
theorem bind {x : Except Fault α} {f : α → Except Fault β} (hx : Gives q x)
    (hf : ∀ a, q a → Gives r (f a)) : Gives r (x >>= f) := by
  cases x with
  | error _ => exact error _
  | ok a => exact hf a (hx a rfl)

/-- What a function makes of a good result is good, if the function keeps it so. -/
theorem map {x : Except Fault α} {f : α → β} (hx : Gives q x) (hf : ∀ a, q a → r (f a)) :
    Gives r (f <$> x) := by
  cases x with
  | error _ => exact error _
  | ok a => exact ok (hf a (hx a rfl))

/-- What is good is good by any weaker measure. -/
theorem mono {p : α → Prop} {x : Except Fault α} (hx : Gives q x) (h : ∀ a, q a → p a) :
    Gives p x := fun a ha => h a (hx a ha)

/-- Nothing is asked of what is given. -/
theorem any (x : Except Fault α) : Gives (fun _ => True) x := fun _ _ => trivial

/-- Computations that each give good results give a list of them. -/
theorem mapM {f : α → Except Fault β} {xs : List α} (h : ∀ x ∈ xs, Gives r (f x)) :
    Gives (fun ys => ∀ y ∈ ys, r y) (xs.mapM f) := by
  induction xs with
  | nil => exact ok (by simp)
  | cons x xs ih =>
    rw [List.mapM_cons]
    refine (h x (by simp)).bind fun y hy => ?_
    refine (ih fun z hz => h z (by simp [hz])).bind fun ys hys => ok ?_
    simpa using ⟨hy, hys⟩

/-- What is let through by a filter was there before. -/
theorem filterM {p : α → Except Fault Bool} {xs : List α} (h : ∀ x ∈ xs, q x) :
    Gives (fun ys => ∀ y ∈ ys, q y) (xs.filterM p) := by
  have hloop : ∀ (xs acc : List α), (∀ x ∈ xs, q x) → (∀ x ∈ acc, q x) →
      Gives (fun ys => ∀ y ∈ ys, q y) (xs.filterAuxM p acc) := by
    intro xs
    induction xs with
    | nil => exact fun acc _ hacc => ok hacc
    | cons x xs ih =>
      intro acc hxs hacc
      rw [List.forall_mem_cons] at hxs
      refine (any (p x)).bind fun b _ => ih _ hxs.2 ?_
      cases b with
      | false => exact hacc
      | true => exact List.forall_mem_cons.mpr ⟨hxs.1, hacc⟩
  exact (hloop xs [] h (by simp)).bind fun ys hys => ok (by simpa using hys)

end Gives

/-! ### Values -/

namespace Value

/-- Every node in a value satisfies a condition. -/
def Within (p : NodeId → Prop) (v : Value) : Prop := ∀ i ∈ v.nodes, p i

variable {p : NodeId → Prop}

/-- The nodes in items are the nodes in one of them. -/
theorem mem_nodesOfItems {i : NodeId} {items : List Value} :
    i ∈ nodesOfItems items ↔ ∃ v ∈ items, i ∈ v.nodes := by
  induction items with
  | nil => exact iff_of_false List.not_mem_nil (by simp)
  | cons v items ih => exact List.mem_append.trans ((or_congr_right ih).trans (by simp))

/-- The nodes in fields are the nodes in one of their values. -/
theorem mem_nodesOfFields {i : NodeId} {fields : List (String × Value)} :
    i ∈ nodesOfFields fields ↔ ∃ f ∈ fields, i ∈ f.2.nodes := by
  induction fields with
  | nil => exact iff_of_false List.not_mem_nil (by simp)
  | cons f fields ih => exact List.mem_append.trans ((or_congr_right ih).trans (by simp))

/-- Nothing mentions no node. -/
@[simp] theorem within_null : Within p .null := List.forall_mem_nil _

/-- A text mentions no node. -/
@[simp] theorem within_text (t : Text) : Within p (.text t) := List.forall_mem_nil _

/-- An integer mentions no node. -/
@[simp] theorem within_int (i : Int) : Within p (.int i) := List.forall_mem_nil _

/-- A node mentions itself. -/
@[simp] theorem within_node {i : NodeId} : Within p (.node i) ↔ p i := List.forall_mem_singleton

/-- A list mentions what its items do. -/
@[simp] theorem within_list {items : List Value} :
    Within p (.list items) ↔ ∀ v ∈ items, v.Within p :=
  ⟨fun h v hv i hi => h i (mem_nodesOfItems.mpr ⟨v, hv, hi⟩), fun h i hi => by
    obtain ⟨v, hv, hi⟩ := mem_nodesOfItems.mp hi
    exact h v hv i hi⟩

/-- A kept list mentions what its items do. -/
@[simp] theorem within_kept {id : Nat} {items : List Value} :
    Within p (.kept id items) ↔ ∀ v ∈ items, v.Within p := within_list

/-- A table mentions what its values do. -/
@[simp] theorem within_table {fields : List (String × Value)} :
    Within p (.table fields) ↔ ∀ f ∈ fields, f.2.Within p :=
  ⟨fun h f hf i hi => h i (mem_nodesOfFields.mpr ⟨f, hf, hi⟩), fun h i hi => by
    obtain ⟨f, hf, hi⟩ := mem_nodesOfFields.mp hi
    exact h f hf i hi⟩

/-- What mentions only some nodes mentions only more of them. -/
theorem Within.mono {q : NodeId → Prop} {v : Value} (h : v.Within p) (hpq : ∀ i, p i → q i) :
    v.Within q := fun i hi => hpq i (h i hi)

/-- The items of a value mention no other nodes. -/
theorem Within.items {v : Value} {items : List Value} (h : v.Within p)
    (hi : v.items? = some items) : ∀ w ∈ items, w.Within p := by
  cases v <;> simp_all [items?]

/-- What is found in a table is one of its fields. -/
theorem mem_of_lookup {α : Type} {key : String} {v : α} {fields : List (String × α)}
    (h : lookup key fields = some v) : (key, v) ∈ fields :=
  mem_of_lookup_eq_some h

/-- What is found in a table mentions no other nodes. -/
theorem Within.lookup {fields : List (String × Value)} (h : Within p (.table fields)) {key : String}
    {v : Value} (hv : Value.lookup key fields = some v) : v.Within p :=
  within_table.mp h _ (mem_of_lookup hv)

/-! ### Reading fields -/

/-- What a field gives mentions no other nodes. -/
theorem Within.get {v : Value} (h : v.Within p) (key : String) : Gives (Within p) (v.get key) := by
  cases v with
  | table fields =>
    refine .ok ?_
    cases hl : Value.lookup key fields with
    | none => simp
    | some w => exact h.lookup hl
  | _ => exact .error _

/-- What is present in a field mentions no other nodes. -/
theorem Within.getPresent? {v : Value} (h : v.Within p) (key : String) :
    Gives (fun o => ∀ w ∈ o, Within p w) (v.getPresent? key) := by
  refine (h.get key).map fun w hw => ?_
  split <;> simp [hw]

/-- An empty text in place of nothing mentions no other nodes. -/
theorem Within.orEmptyText {v : Value} (h : v.Within p) : v.orEmptyText.Within p := by
  rw [Value.orEmptyText]
  split
  · exact h
  · exact within_text []

/-- What is read from a field for any value mentions no other nodes. -/
theorem Within.getAny {v : Value} (h : v.Within p) (key : String) :
    Gives (Within p) (v.getAny key) :=
  (h.get key).bind fun _ hw => .ok hw.orEmptyText

/-- The members of a value mention no other nodes. -/
theorem Within.members {v : Value} (h : v.Within p) :
    Gives (fun items => ∀ w ∈ items, Within p w) v.members := by
  cases v with
  | list items | kept id items => exact .ok (by simpa using h)
  | text t => exact .ok (by simp)
  | table fields =>
    refine .ok fun w hw => ?_
    obtain ⟨f, -, rfl⟩ := List.mem_map.mp hw
    exact within_text _
  | _ => exact .error _

/-- The members of a value that may be nothing mention no other nodes. -/
theorem Within.membersOrEmpty {v : Value} (h : v.Within p) :
    Gives (fun items => ∀ w ∈ items, Within p w) v.membersOrEmpty := by
  rw [Value.membersOrEmpty]
  split
  · exact h.members
  · exact .ok (by simp)

/-- The members in a field mention no other nodes. -/
theorem Within.getMembers {v : Value} (h : v.Within p) (key : String) :
    Gives (fun items => ∀ w ∈ items, Within p w) (v.getMembers key) :=
  (h.get key).bind fun _ hw => hw.membersOrEmpty

end Value

/-! ### Records and trees -/

namespace Record

/-- Everything that a record has in the place of a text, its line and the data it was made from. -/
def values (r : Record) : List Value :=
  [r.line, r.name, r.description, r.text, r.contentType, r.language, r.capsule.data]

/-- The records inside a record. -/
def parts (r : Record) : List Record :=
  r.tags ++ r.children ++ r.steps ++ r.examples ++ r.rows ++ r.cells ++ r.block.toList ++ r.comments

/-- Every node in a record and the records inside it satisfies a condition. -/
inductive Within (p : NodeId → Prop) : Record → Prop where
  | mk {r : Record} (values : ∀ v ∈ r.values, v.Within p) (parts : ∀ x ∈ r.parts, Within p x) :
      Within p r

/-- The values of a record mention no other nodes. -/
theorem Within.values {p : NodeId → Prop} {r : Record} (h : r.Within p) :
    ∀ v ∈ r.values, v.Within p := by
  cases h
  assumption

/-- The parts of a record mention no other nodes. -/
theorem Within.parts {p : NodeId → Prop} {r : Record} (h : r.Within p) :
    ∀ x ∈ r.parts, x.Within p := by
  cases h
  assumption

end Record

namespace DocumentRecord

/-- Every node in the record of a document satisfies a condition. -/
structure Within (p : NodeId → Prop) (d : DocumentRecord) : Prop where
  feature : ∀ r ∈ d.feature, r.Within p
  comments : ∀ r ∈ d.comments, r.Within p
  capsule : d.capsule.data.Within p

end DocumentRecord

namespace Node

/-- Every node that a tree mentions in its values satisfies a condition. -/
inductive Within (p : NodeId → Prop) : Node → Prop where
  | mk {o : Origin} {shape : Shape Node} (line : o.line.Within p)
      (capsule : ∀ c ∈ o.capsule, c.data.Within p) (values : ∀ v ∈ shape.values, v.Within p)
      (parts : ∀ n ∈ shape.parts, Within p n) : Within p (.mk o shape)

variable {p : NodeId → Prop}

/-- A description in its normal form mentions no other nodes. -/
theorem within_normalDescription {v : Value} (h : v.Within p) :
    (normalDescription v).Within p := by
  cases v with
  | text t => exact Value.within_text _
  | _ => exact h

/-- Nodes that are chosen by kind are among the nodes. -/
theorem mem_of_mem_ofKinds {kinds : List Kind} {n : Node} {ns : List Node}
    (h : n ∈ ofKinds kinds ns) : n ∈ ns := (List.mem_filter.mp h).1

/-- A tree mentions no more nodes than its record. -/
theorem within_ofRecord {r : Record} (h : r.Within p) (language : Option Value) :
    (ofRecord language r).Within p := by
  induction h generalizing language with
  | @mk r values _ ih =>
    obtain ⟨kind, line, keyword, name, description, text, contentType, own, tags, children, steps,
      examples, rows, cells, block, comments, capsule⟩ := r
    simp only [Record.values, List.mem_cons, List.not_mem_nil, or_false, forall_eq_or_imp,
      forall_eq] at values
    obtain ⟨hline, hname, hdescription, htext, hcontentType, hlanguage, hcapsule⟩ := values
    have hnormal := within_normalDescription hdescription
    refine .mk hline (by simpa using hcapsule) ?_ ?_
    · clear ih
      cases kind <;> simp_all [Shape.values, Title.values]
    · simp only [Record.parts, List.mem_append, Option.mem_toList] at ih
      -- the trees of each list of records, attached under whatever language
      have hrecords : ∀ l (rs : List Record), (∀ x ∈ rs, ∀ l, (ofRecord l x).Within p) →
          ∀ n ∈ ofRecords l rs, n.Within p := by
        intro l rs hrs n hn
        rw [ofRecords_eq_map] at hn
        obtain ⟨x, hx, rfl⟩ := List.mem_map.mp hn
        exact hrs x hx l
      have htags := fun l => hrecords l tags fun x hx => ih x (by simp [hx])
      have hchildren := fun l => hrecords l children fun x hx => ih x (by simp [hx])
      have hsteps := fun l => hrecords l steps fun x hx => ih x (by simp [hx])
      have hexamples := fun l => hrecords l examples fun x hx => ih x (by simp [hx])
      have hrows := fun l => hrecords l rows fun x hx => ih x (by simp [hx])
      have hcells := fun l => hrecords l cells fun x hx => ih x (by simp [hx])
      have hcomments := fun l => hrecords l comments fun x hx => ih x (by simp [hx])
      have hblock : ∀ l, ∀ n ∈ ofBlock l block, n.Within p := by
        intro l n hn
        cases block with
        | none => simp [ofBlock] at hn
        | some x =>
          obtain rfl : ofRecord l x = n := by simpa [ofBlock] using hn
          exact ih x (by simp) l
      have hkinds : ∀ l kinds, ∀ n ∈ ofKinds kinds (ofRecords l children), n.Within p :=
        fun l kinds n hn => hchildren l n (mem_of_mem_ofKinds hn)
      have hlast : ∀ l kinds, ∀ n ∈ (ofKinds kinds (ofRecords l children)).getLast?, n.Within p :=
        fun l kinds n hn => hkinds l kinds n (List.mem_of_getLast? hn)
      have hhead : ∀ l kinds, ∀ n ∈ (ofKinds kinds (ofRecords l children)).head?, n.Within p :=
        fun l kinds n hn => hkinds l kinds n (List.mem_of_head? hn)
      cases kind <;>
        simp only [Shape.parts, Shape.children, List.forall_mem_append,
          Option.mem_toList, List.append_nil]
      case row => exact hcells _
      case table => exact hrows _
      case step => exact hblock _
      case background => exact hsteps _
      case scenario => exact ⟨htags _, hsteps _⟩
      case outline => exact ⟨⟨htags _, hsteps _⟩, hexamples _⟩
      case «example» => exact ⟨htags _, hrows _⟩
      case rule => exact ⟨⟨htags _, hlast _ _⟩, hkinds _ _⟩
      case feature => exact ⟨⟨⟨htags _, hlast _ _⟩, hkinds _ _⟩, hkinds _ _⟩
      case featureFile => exact ⟨hhead _ _, hcomments _⟩
      all_goals simp

/-- The file of a document mentions no more nodes than the record of the document. -/
theorem within_ofDocument {d : DocumentRecord} (h : d.Within p) (path : Text) :
    (ofDocument path d).Within p := by
  refine .mk (by simp) (by simpa using h.capsule) (by simp [Shape.values]) ?_
  intro n hn
  simp only [Shape.parts, List.mem_append, Option.mem_toList,
    Option.map_eq_some_iff, List.mem_map] at hn
  rcases hn with ⟨r, hr, rfl⟩ | ⟨r, hr, rfl⟩
  · exact within_ofRecord (h.feature r hr) none
  · exact within_ofRecord (h.comments r hr) none

/-- A row of values mentions the nodes in the values. -/
theorem within_ofValues {values : List Value} (h : ∀ v ∈ values, v.Within p) :
    (ofValues values).Within p := by
  refine .mk (by simp) (by simp) (by simp [Shape.values]) ?_
  intro n hn
  obtain ⟨v, hv, rfl⟩ := List.mem_map.mp hn
  exact .mk (by simp) (by simp) (by simpa [Shape.values] using h v hv)
    (by simp [Shape.parts, Shape.children])

/-- A node built from a record mentions no other nodes. -/
theorem build_gives {r : Record} (h : r.Within p) : Gives (Within p) (build r) := by
  rw [build]
  split
  · exact .ok (within_ofRecord h none)
  · exact .error _

/-- A file built from a document mentions no other nodes. -/
theorem buildFile_gives {d : DocumentRecord} (h : d.Within p) (path : Text) :
    Gives (Within p) (buildFile path d) := by
  rw [buildFile]
  split
  · exact .ok (within_ofDocument h path)
  · exact .error _

end Node

/-! ### Decoding trees of the current schema -/

namespace Schema

variable {p : NodeId → Prop} {v : Value}

/-- Records read one by one mention no other nodes. -/
theorem decodeAll_gives {decode : Value → Except Fault Record}
    (hd : ∀ v : Value, v.Within p → Gives (Record.Within p) (decode v)) {vs : List Value}
    (h : ∀ v ∈ vs, v.Within p) :
    Gives (fun rs => ∀ r ∈ rs, Record.Within p r) (decodeAll decode vs) :=
  Gives.mapM fun v hv => hd v (h v hv)

/-- The line of a value mentions no other nodes. -/
theorem lineOf_gives (h : v.Within p) : Gives (Value.Within p) (lineOf v) := by
  refine (h.getPresent? "location").bind fun location hl => ?_
  cases location with
  | none => exact .ok (by simp)
  | some w => exact (hl w rfl).get "line"

/-- The record of a tag mentions no other nodes. -/
theorem tag_gives (schema : SchemaVersion) (h : v.Within p) :
    Gives (Record.Within p) (tag schema v) :=
  (lineOf_gives h).bind fun line hline => (h.getAny "name").bind fun name hname =>
    .ok (.mk (by simp [Record.values, hline, hname, h]) (by simp [Record.parts]))

/-- The record of a comment mentions no other nodes. -/
theorem comment_gives (schema : SchemaVersion) (h : v.Within p) :
    Gives (Record.Within p) (comment schema v) :=
  (lineOf_gives h).bind fun line hline => (Gives.any _).bind fun text _ =>
    .ok (.mk (by simp [Record.values, hline, h]) (by simp [Record.parts]))

/-- The record of a cell mentions no other nodes. -/
theorem cell_gives (schema : SchemaVersion) (h : v.Within p) :
    Gives (Record.Within p) (cell schema v) :=
  (lineOf_gives h).bind fun line hline => (h.getAny "value").bind fun text htext =>
    .ok (.mk (by simp [Record.values, hline, htext, h]) (by simp [Record.parts]))

/-- The record of a row mentions no other nodes. -/
theorem row_gives (schema : SchemaVersion) (h : v.Within p) :
    Gives (Record.Within p) (row schema v) := by
  refine (h.getMembers "cells").bind fun items hitems => ?_
  refine (decodeAll_gives (fun _ => cell_gives schema) hitems).bind fun cells hcells => ?_
  exact (lineOf_gives h).bind fun line hline =>
    .ok (.mk (by simp [Record.values, hline, h]) (by simpa [Record.parts] using hcells))

/-- The record of a table mentions no other nodes. -/
theorem table_gives (schema : SchemaVersion) (h : v.Within p) :
    Gives (Record.Within p) (table schema v) := by
  refine (lineOf_gives h).bind fun line hline => ?_
  refine (h.getMembers "rows").bind fun items hitems => ?_
  exact (decodeAll_gives (fun _ => row_gives schema) hitems).bind fun rows hrows =>
    .ok (.mk (by simp [Record.values, hline, h]) (by simpa [Record.parts] using hrows))

/-- The record of a doc string mentions no other nodes. -/
theorem docString_gives (schema : SchemaVersion) (h : v.Within p) :
    Gives (Record.Within p) (docString schema v) := by
  refine (lineOf_gives h).bind fun line hline => ?_
  refine (h.getAny "content").bind fun text htext => ?_
  refine (h.getPresent? "mediaType").bind fun mediaType hmedia => ?_
  have hdone : ∀ contentType : Value, contentType.Within p → Record.Within p
      { kind := .docString, line, text, contentType, capsule := ⟨schema, v⟩ } := fun w hw =>
    .mk (by simp [Record.values, hline, htext, hw, h]) (by simp [Record.parts])
  cases mediaType with
  | none => exact (h.getAny "contentType").bind fun w hw => .ok (hdone w hw)
  | some w => exact .ok (hdone w (hmedia w rfl))

/-- Of a titled part: no node is mentioned outside the condition, and tags are all that is
inside. -/
structure Titled (p : NodeId → Prop) (r : Record) : Prop where
  values : ∀ v ∈ r.values, v.Within p
  tags : ∀ t ∈ r.tags, t.Within p
  parts : r.parts = r.tags

/-- What is read of a title mentions no other nodes. -/
theorem titled_gives (schema : SchemaVersion) (kind : Kind) (h : v.Within p) :
    Gives (Titled p) (titled schema kind v) := by
  refine (lineOf_gives h).bind fun line hline => ?_
  refine (Gives.any _).bind fun keyword _ => ?_
  refine (h.getAny "name").bind fun name hname => ?_
  refine (h.getAny "description").bind fun description hdescription => ?_
  refine (h.getMembers "tags").bind fun items hitems => ?_
  exact (decodeAll_gives (fun _ => tag_gives schema) hitems).bind fun tags htags =>
    .ok ⟨by simp [Record.values, hline, hname, hdescription, h], htags, by simp [Record.parts]⟩

/-- The record of a table of examples mentions no other nodes. -/
theorem examples_gives (schema : SchemaVersion) (h : v.Within p) :
    Gives (Record.Within p) (examples schema v) := by
  refine (titled_gives schema .example h).bind fun part hpart => ?_
  refine (h.getPresent? "tableHeader").bind fun header hheader => ?_
  refine (h.getMembers "tableBody").bind fun body hbody => ?_
  have hall : ∀ w ∈ header.toList ++ body, w.Within p := by
    rw [List.forall_mem_append]
    exact ⟨by simpa using hheader, hbody⟩
  refine (decodeAll_gives (fun _ => row_gives schema) hall).bind fun rows hrows => .ok ?_
  have hparts := hpart.parts
  have htags := hpart.tags
  simp only [Record.parts] at hparts
  refine .mk hpart.values ?_
  simp_all [Record.parts, or_imp, forall_and]

/-- The record of a step mentions no other nodes, if its block does not. -/
theorem step_gives (schema : SchemaVersion) {block : Value → Except Fault (Option Record)}
    (hblock : ∀ v : Value, v.Within p → Gives (fun b => ∀ r ∈ b, Record.Within p r) (block v))
    (h : v.Within p) : Gives (Record.Within p) (step schema block v) := by
  refine (lineOf_gives h).bind fun line hline => ?_
  refine (Gives.any _).bind fun keyword _ => ?_
  refine (h.getAny "text").bind fun text htext => ?_
  exact (hblock v h).bind fun b hb =>
    .ok (.mk (by simp [Record.values, hline, htext, h]) (by simpa [Record.parts] using hb))

/-- The record of a section mentions no other nodes, if the blocks of steps do not. -/
theorem sectionPart_gives (schema : SchemaVersion) {block : Value → Except Fault (Option Record)}
    (hblock : ∀ v : Value, v.Within p → Gives (fun b => ∀ r ∈ b, Record.Within p r) (block v))
    (kind : Kind) (h : v.Within p) : Gives (Record.Within p) (sectionPart schema block kind v) := by
  refine (titled_gives schema kind h).bind fun part hpart => ?_
  refine (h.getMembers "steps").bind fun steps hsteps => ?_
  refine (decodeAll_gives (fun _ => step_gives schema hblock) hsteps).bind fun steps hsteps => ?_
  refine (h.getMembers "examples").bind fun items hitems => ?_
  refine (decodeAll_gives (fun _ => examples_gives schema) hitems).bind fun examples hexamples =>
    .ok ?_
  have hparts := hpart.parts
  have htags := hpart.tags
  simp only [Record.parts] at hparts
  refine .mk hpart.values ?_
  simp_all [Record.parts, or_imp]

namespace Current

/-- The block of a step mentions no other nodes. -/
theorem block_gives (v : Value) (h : v.Within p) :
    Gives (fun b => ∀ r ∈ b, Record.Within p r) (block v) := by
  refine (h.getPresent? "docString").bind fun s hs => ?_
  cases s with
  | some w => exact (docString_gives _ (hs w rfl)).map fun r hr => by simpa using hr
  | none =>
    refine (h.getPresent? "dataTable").bind fun t ht => ?_
    cases t with
    | some w => exact (table_gives _ (ht w rfl)).map fun r hr => by simpa using hr
    | none => exact .ok (by simp)

/-- The record of a scenario mentions no other nodes. -/
theorem scenario_gives (words : List Text) (h : v.Within p) :
    Gives (Record.Within p) (scenario words v) := by
  refine (Gives.any _).bind fun examples _ => (Gives.any _).bind fun keyword _ => ?_
  exact sectionPart_gives _ block_gives _ h

mutual

/-- The record of a wrapped child mentions no other nodes. -/
theorem child_gives (words : List Text) :
    (v : Value) → v.Within p → Gives (Record.Within p) (child words v)
  | .table fields, h => by
    rw [child]
    split
    · next w hw => exact sectionPart_gives _ block_gives _ (h.lookup hw)
    · split
      · next r hr => exact ruleIn_gives words fields h r hr
      · split
        · next w hw => exact scenario_gives words (h.lookup hw)
        · exact .error _
  | .null, _ | .bool _, _ | .int _, _ | .float _, _ | .text _, _ | .list _, _ | .node _, _
  | .kept _ _, _ => by
    rw [child]
    · exact .error _
    · simp

/-- The record of a rule in some fields mentions no other nodes. -/
theorem ruleIn_gives (words : List Text) :
    (fields : List (String × Value)) → Value.Within p (.table fields) → ∀ r,
      ruleIn words fields = some r → Gives (Record.Within p) r
  | [], _, r, hr => by simp [ruleIn] at hr
  | (key, v) :: fields, h, r, hr => by
    rw [Value.within_table, List.forall_mem_cons] at h
    rw [ruleIn] at hr
    split at hr
    · cases hr
      exact rule_gives words v h.1
    · exact ruleIn_gives words fields (Value.within_table.mpr h.2) r hr

/-- The record of a rule mentions no other nodes. -/
theorem rule_gives (words : List Text) :
    (v : Value) → v.Within p → Gives (Record.Within p) (rule words v)
  | .table fields, h => by
    rw [rule]
    refine (titled_gives _ .rule h).bind fun part hpart => ?_
    refine (childrenIn_gives words fields h).bind fun children hchildren => .ok ?_
    have hparts := hpart.parts
    have htags := hpart.tags
    simp only [Record.parts] at hparts
    refine .mk hpart.values ?_
    simp_all [Record.parts, or_imp]
  | .null, _ | .bool _, _ | .int _, _ | .float _, _ | .text _, _ | .list _, _ | .node _, _
  | .kept _ _, _ => by
    rw [rule]
    · exact .error _
    · simp

/-- The records of the children in some fields mention no other nodes. -/
theorem childrenIn_gives (words : List Text) :
    (fields : List (String × Value)) → Value.Within p (.table fields) →
      Gives (fun rs => ∀ r ∈ rs, Record.Within p r) (childrenIn words fields)
  | [], _ => .ok (by simp)
  | (key, v) :: fields, h => by
    rw [Value.within_table, List.forall_mem_cons] at h
    rw [childrenIn]
    split
    · exact childrenOf_gives words v h.1
    · exact childrenIn_gives words fields (Value.within_table.mpr h.2)

/-- The records of children mention no other nodes. -/
theorem childrenOf_gives (words : List Text) :
    (v : Value) → v.Within p →
      Gives (fun rs => ∀ r ∈ rs, Record.Within p r) (childrenOf words v)
  | .list items, h | .kept _ items, h => by
    rw [childrenOf]
    exact childList_gives words items (Value.within_list.mp h)
  | .null, _ | .bool _, _ | .int _, _ | .float _, _ | .text _, _ | .table _, _ | .node _, _ => by
    rw [childrenOf]
    · refine (Gives.any _).bind fun members _ => ?_
      cases members with
      | nil => exact .ok (by simp)
      | cons stray _ => exact .error _
    · simp
    · simp

/-- The records of a list of children mention no other nodes. -/
theorem childList_gives (words : List Text) :
    (items : List Value) → (∀ v ∈ items, v.Within p) →
      Gives (fun rs => ∀ r ∈ rs, Record.Within p r) (childList words items)
  | [], _ => .ok (by simp)
  | v :: items, h => by
    rw [childList]
    rw [List.forall_mem_cons] at h
    refine (child_gives words v h.1).bind fun r hr => ?_
    exact (childList_gives words items h.2).bind fun rs hrs => .ok (by simpa using ⟨hr, hrs⟩)

end

/-- The record of a feature mentions no other nodes. -/
theorem feature_gives (h : v.Within p) : Gives (Record.Within p) (feature v) := by
  refine (h.getPresent? "children").bind fun children hchildren => ?_
  refine (titled_gives _ .feature h).bind fun part hpart => ?_
  refine (h.getAny "language").bind fun language hlanguage => ?_
  refine (Gives.any _).bind fun words _ => ?_
  have hc : (children.getD .null).Within p := by cases children <;> simp_all
  refine (childrenOf_gives words _ hc).bind fun rs hrs => .ok ?_
  have hparts := hpart.parts
  have htags := hpart.tags
  have hvalues := hpart.values
  simp only [Record.parts] at hparts
  refine .mk ?_ ?_
  · simp_all [Record.values]
  · simp_all [Record.parts, or_imp]

/-- The record of a document mentions no more nodes than the tree that it was decoded from. -/
theorem document_gives (h : v.Within p) : Gives (DocumentRecord.Within p) (document v) := by
  refine (h.getPresent? "feature").bind fun held hheld => ?_
  have hrest : ∀ feature : Option Record, (∀ r ∈ feature, r.Within p) →
      Gives (DocumentRecord.Within p) (do
        let comments ← decodeAll (comment .currentAst) (← v.getMembers "comments")
        return ⟨feature, comments, ⟨.currentAst, v⟩⟩) := by
    intro feature hfeature
    refine (h.getMembers "comments").bind fun items hitems => ?_
    exact (decodeAll_gives (fun _ => comment_gives _) hitems).bind fun comments hcomments =>
      .ok ⟨hfeature, hcomments, h⟩
  cases held with
  | none => exact hrest none (by simp)
  | some w =>
    have hf : Gives (fun o => ∀ r ∈ o, Record.Within p r) (some <$> feature w) :=
      (feature_gives (hheld w rfl)).map fun r hr => by simpa using hr
    exact hf.bind hrest

end Current

end Schema

/-! ### What was parsed from text -/

namespace Ast

variable (p : NodeId → Prop) {α β : Type}

/-- Whatever number the count stands at, the result satisfies a condition. -/
def Numbers (q : α → Prop) (x : Numbering α) : Prop := ∀ n, q (x n).1

/-- A good value that takes no number is good. -/
theorem Numbers.pure {q : α → Prop} {a : α} (h : q a) : Numbers q (Pure.pure a) := fun _ => h

/-- What follows a good value is good, if it is so from good ones. -/
theorem Numbers.bind {q : α → Prop} {r : β → Prop} {x : Numbering α} {f : α → Numbering β}
    (hx : Numbers q x) (hf : ∀ a, q a → Numbers r (f a)) : Numbers r (x >>= f) :=
  fun n => hf _ (hx n) _

/-- Numbering a list gives good values, if numbering each thing does. -/
theorem Numbers.mapM {r : β → Prop} {f : α → Numbering β} (h : ∀ x, Numbers r (f x))
    (xs : List α) : Numbers (fun ys => ∀ y ∈ ys, r y) (xs.mapM f) := by
  induction xs with
  | nil => exact .pure (by simp)
  | cons x xs ih =>
    rw [List.mapM_cons]
    refine (h x).bind fun y hy => ih.bind fun ys hys => .pure ?_
    simpa using ⟨hy, hys⟩

/-- A number mentions no node. -/
theorem numbers_nextNumber : Numbers (Value.Within p) nextNumber := fun _ => by
  simp [nextNumber]

/-- A location mentions no node. -/
@[simp] theorem within_locationTree (l : Location) : (locationTree l).Within p := by
  simp [locationTree]

/-- An optional field mentions what its value does. -/
theorem within_optionalField {p : NodeId → Prop} {name : String} {v : Option Value}
    (h : ∀ w ∈ v, w.Within p) : ∀ f ∈ optionalField name v, f.2.Within p := by
  cases v <;> simp_all [optionalField]

/-- The fields of a heading mention no node. -/
theorem Heading.within_fields (h : Heading) : ∀ f ∈ h.fields, f.2.Within p := by
  simp [fields]

/-- The tree of a tag mentions no node. -/
theorem Tag.numbers_toTree (t : Tag) : Numbers (Value.Within p) t.toTree :=
  (numbers_nextNumber p).bind fun id hid => .pure (by simp [hid])

/-- The tree of a cell mentions no node. -/
theorem Cell.within_toTree (c : Cell) : c.toTree.Within p := by simp [toTree]

/-- The tree of a row mentions no node. -/
theorem Row.numbers_toTree (r : Row) : Numbers (Value.Within p) r.toTree :=
  (numbers_nextNumber p).bind fun id hid => .pure (by simp [hid, Cell.within_toTree])

/-- The tree of a table mentions no node. -/
theorem numbers_tableTree (rows : List Row) :
    Numbers (fun o => ∀ v ∈ o, Value.Within p v) (tableTree rows) := by
  cases rows with
  | nil => exact .pure (by simp)
  | cons first rest =>
    exact (Numbers.mapM (Row.numbers_toTree p) _).bind fun values hvalues =>
      .pure (by simpa using hvalues)

/-- The tree of a doc string mentions no node. -/
theorem DocString.within_toTree (s : DocString) : s.toTree.Within p := by
  rw [toTree, Value.within_table, List.forall_mem_append]
  refine ⟨by simp, within_optionalField ?_⟩
  split <;> simp

/-- The tree of a step mentions no node. -/
theorem Step.numbers_toTree (s : Step) : Numbers (Value.Within p) s.toTree := by
  refine (numbers_tableTree p s.table).bind fun table htable => ?_
  refine (numbers_nextNumber p).bind fun id hid => .pure ?_
  rw [Value.within_table, List.forall_mem_append, List.forall_mem_append]
  refine ⟨⟨by simp [hid], within_optionalField htable⟩, within_optionalField ?_⟩
  cases s.docString <;> simp [DocString.within_toTree]

/-- The tree of a background mentions no node. -/
theorem Background.numbers_toTree (b : Background) : Numbers (Value.Within p) b.toTree := by
  refine (Numbers.mapM (Step.numbers_toTree p) b.steps).bind fun steps hsteps => ?_
  refine (numbers_nextNumber p).bind fun id hid => .pure ?_
  rw [Value.within_table, List.forall_mem_append, List.forall_mem_cons]
  exact ⟨⟨hid, b.heading.within_fields p⟩, by simpa using hsteps⟩

/-- The tree of a table of examples mentions no node. -/
theorem Examples.numbers_toTree (e : Examples) : Numbers (Value.Within p) e.toTree := by
  refine (Numbers.mapM (Row.numbers_toTree p) e.rows).bind fun rows hrows => ?_
  refine (Numbers.mapM (Tag.numbers_toTree p) e.tags).bind fun tags htags => ?_
  refine (numbers_nextNumber p).bind fun id hid => .pure ?_
  rw [Value.within_table]
  simp only [List.forall_mem_append, List.forall_mem_cons]
  refine ⟨⟨⟨hid, Value.within_list.mpr htags, e.heading.within_fields p⟩,
    within_optionalField fun v hv => hrows v (List.mem_of_mem_head? hv)⟩, ?_⟩
  simpa using fun v hv => hrows v (List.mem_of_mem_tail hv)

/-- The tree of a scenario mentions no node. -/
theorem Scenario.numbers_toTree (s : Scenario) : Numbers (Value.Within p) s.toTree := by
  refine (Numbers.mapM (Step.numbers_toTree p) s.steps).bind fun steps hsteps => ?_
  refine (Numbers.mapM (Examples.numbers_toTree p) s.examples).bind fun examples hexamples => ?_
  refine (Numbers.mapM (Tag.numbers_toTree p) s.tags).bind fun tags htags => ?_
  refine (numbers_nextNumber p).bind fun id hid => .pure ?_
  rw [Value.within_table]
  simp only [List.forall_mem_append, List.forall_mem_cons]
  exact ⟨⟨hid, Value.within_list.mpr htags, s.heading.within_fields p⟩,
    Value.within_list.mpr hsteps, Value.within_list.mpr hexamples, by simp⟩

/-- The trees of the sections of a body mention no node. -/
theorem Body.numbers_toTrees (b : Body) :
    Numbers (fun vs => ∀ v ∈ vs, Value.Within p v) b.toTrees := by
  have hscenarios : ∀ background : Option Value, (∀ v ∈ background, v.Within p) →
      Numbers (fun vs => ∀ v ∈ vs, Value.Within p v) (do
        let scenarios ← b.scenarios.mapM Scenario.toTree
        return (background.map fun v => Value.table [("background", v)]).toList
          ++ scenarios.map fun v => .table [("scenario", v)]) := by
    intro background hbackground
    refine (Numbers.mapM (Scenario.numbers_toTree p) b.scenarios).bind fun scenarios hs => .pure ?_
    cases background <;> simp_all
  have hbackground : Numbers (fun o => ∀ v ∈ o, Value.Within p v)
      (b.background.mapM Background.toTree) := by
    cases b.background with
    | none => exact .pure (by simp)
    | some x => exact (x.numbers_toTree p).bind fun v hv => .pure (by simpa using hv)
  exact hbackground.bind hscenarios

/-- The tree of a rule mentions no node. -/
theorem Rule.numbers_toTree (r : Rule) : Numbers (Value.Within p) r.toTree := by
  refine (r.body.numbers_toTrees p).bind fun children hchildren => ?_
  refine (Numbers.mapM (Tag.numbers_toTree p) r.tags).bind fun tags htags => ?_
  refine (numbers_nextNumber p).bind fun id hid => .pure ?_
  rw [Value.within_table]
  simp only [List.forall_mem_append, List.forall_mem_cons]
  exact ⟨⟨hid, Value.within_list.mpr htags, r.heading.within_fields p⟩,
    Value.within_list.mpr hchildren, by simp⟩

/-- The tree of a feature mentions no node. -/
theorem Feature.numbers_toTree (f : Feature) : Numbers (Value.Within p) f.toTree := by
  refine (f.body.numbers_toTrees p).bind fun sections hsections => ?_
  refine (Numbers.mapM (Rule.numbers_toTree p) f.rules).bind fun rules hrules => ?_
  refine (Numbers.mapM (Tag.numbers_toTree p) f.tags).bind fun tags htags => .pure ?_
  rw [Value.within_table]
  simp only [List.forall_mem_append, List.forall_mem_cons]
  refine ⟨⟨Value.within_list.mpr htags, Value.within_text _, f.heading.within_fields p⟩, ?_,
    by simp⟩
  rw [Value.within_list, List.forall_mem_append]
  exact ⟨hsections, by simpa using hrules⟩

/-- The tree of a comment mentions no node. -/
theorem Comment.within_toTree (c : Comment) : c.toTree.Within p := by simp [toTree]

/-- The tree of a document mentions no nodes at all. -/
theorem Document.within_toTree (d : Document) : d.toTree.Within p := by
  rw [toTree, Value.within_table, List.forall_mem_append]
  refine ⟨within_optionalField ?_, by simp [Comment.within_toTree]⟩
  cases hf : d.feature with
  | none => exact fun v hv => nomatch hv
  | some f =>
    rintro v ⟨⟩
    exact f.numbers_toTree p 0

end Ast

/-- What holds of the records of a document, and of the records inside one of which it holds, holds
of what is picked out of the document. -/
theorem Fragment.of_select? {p : Record → Prop} {d : DocumentRecord} {kind : Kind} {r : Record}
    (hparts : ∀ r, p r → ∀ x ∈ r.parts, p x) (hfeature : ∀ r ∈ d.feature, p r)
    (hcomments : ∀ r ∈ d.comments, p r) (h : select? d kind = some r) : p r := by
  have hbind : ∀ {o : Option Record} {g : Record → Option Record} {x : Record},
      (∀ y, o = some y → p y) → (∀ y x, g y = some x → x ∈ y.parts) → o.bind g = some x → p x := by
    intro o g x ho hg hx
    obtain ⟨y, hy, hx⟩ := Option.bind_eq_some_iff.mp hx
    exact hparts y (ho y hy) x (hg y x hx)
  have hsection : ∀ y, firstSection? d = some y → p y := fun y hy =>
    hbind hfeature (fun y x hx => by simp [Record.parts, List.mem_of_head? hx]) hy
  have hstep : ∀ y, ((firstSection? d).bind (·.steps.head?)) = some y → p y :=
    fun y hy => hbind hsection (fun y x hx => by simp [Record.parts, List.mem_of_head? hx]) hy
  have hblock : ∀ y, firstBlock? d = some y → p y := by
    intro y hy
    have hassoc : firstBlock? d
        = ((firstSection? d).bind (·.steps.head?)).bind (·.block) := by
      rw [Option.bind_assoc]
      rfl
    exact hbind hstep (fun y x hx => by simp [Record.parts, hx]) (hassoc ▸ hy)
  have hrow : ∀ y, ((firstBlock? d).bind (·.rows.head?)) = some y → p y :=
    fun y hy => hbind hblock (fun y x hx => by simp [Record.parts, List.mem_of_head? hx]) hy
  cases kind with
  | cell =>
    have hassoc : select? d .cell
        = ((firstBlock? d).bind (·.rows.head?)).bind (·.cells.head?) := by
      rw [Option.bind_assoc]
      rfl
    exact hbind hrow (fun y x hx => by simp [Record.parts, List.mem_of_head? hx]) (hassoc ▸ h)
  | row => exact hrow r h
  | table | docString => exact hblock r h
  | step => exact hstep r h
  | background | scenario | outline | rule => exact hsection r h
  | «example» =>
    exact hbind hsection (fun y x hx => by simp [Record.parts, List.mem_of_head? hx]) h
  | tag => exact hbind hfeature (fun y x hx => by simp [Record.parts, List.mem_of_head? hx]) h
  | comment => exact hcomments r (List.mem_of_head? h)
  | feature => exact hfeature r h
  | featureFile | directory => cases h

namespace Node

variable {p : NodeId → Prop}

/-- The record of a document that was parsed from text mentions no nodes. -/
theorem parse_gives (p : NodeId → Prop) (default dialect : Value) (file source : Text) :
    Gives (·.Within p) (DocumentRecord.parse default dialect file source) := by
  rw [DocumentRecord.parse]
  split
  · exact .error _
  · next d _ =>
    cases hd : Ast.Document.parse d source with
    | error _ => exact .error _
    | ok document =>
      have hdetect := document.normalize_toTree.1
      simp only [Schema.normalize, hdetect, bind, Except.bind, Schema.decode]
      exact Schema.Current.document_gives (document.within_toTree p)

/-- A node that was read from text mentions no nodes. -/
theorem read_gives (p : NodeId → Prop) (default dialect : Value) (path source : Text)
    (kind : Kind) : Gives (Within p) (read default dialect path source kind) := by
  rw [read]
  split
  · exact (parse_gives p default dialect _ source).bind fun d hd => buildFile_gives hd path
  · refine (Gives.any _).bind fun keywords _ => ?_
    refine (parse_gives p default dialect _ _).bind fun d hd => ?_
    split
    · next r hr =>
      split
      · have hparts : ∀ x : Record, x.Within p → ∀ y ∈ x.parts, y.Within p :=
          fun _ => Record.Within.parts
        exact build_gives (Fragment.of_select? hparts hd.feature hd.comments hr)
      · exact .error _
    · exact .error _

end Node

end FeatureTree
