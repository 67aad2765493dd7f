import FeatureTree.Proofs.Store.Operations
import FeatureTree.Proofs.Schema.Worded
import Mathlib.Data.List.Basic
import Mathlib.Logic.Relation

/-!
# What the text of a node does not depend on

A node that has no keyword of its own goes by one that the nodes above it and the dialect decide on.
If neither the node nor any below it lacks one, nothing above it plays a part in its text. Such a
text stays the same while the default dialect changes, names let go of nodes, nodes are attached and
detached, attributes of other nodes are assigned, and even while data and places are assigned to the
node itself.

An operation is looked at by the nodes it touches, which are those that it changes something of that
is rendered. It spares all others, so a run that touches nothing at or under a node leaves the text
of the node alone.

## Main results

* `Store.spares_perform`: an operation spares the nodes that it does not touch
* `Store.Worded.text_eq`: the text of a node with keywords is the same where all that is at or under
  it is spared
* `Store.text_of_runs`: a run that touches nothing at or under such a node leaves its text alone,
  and all nodes that are read from text are such nodes
-/

namespace FeatureTree

/-! ### Values and attributes -/

namespace Value

variable {key : String} {g : Value → Value} {fields : List (String × Value)}

/-- A field that is not there is not there after the values are changed. -/
theorem lookup_map_eq_none (h : lookup key fields = none) :
    lookup key (fields.map fun (name, v) => (name, g v)) = none := by
  rw [lookup, lookup_eq_none_iff_not_mem] at h ⊢
  simpa using h

/-- What cannot be changed in place is not changed with a list. -/
theorem mapKept_of_isKey {v : Value} (h : v.isKey = true) (id : Nat) (f : List Value → List Value) :
    v.mapKept id f = v := by
  cases v <;> first | rfl | cases h

end Value

/-- A shape whose parts stay as they are is the same shape. -/
theorem Shape.map_self {α : Type} (s : Shape α) : (s.map fun a => a) = s := by
  cases s <;> simp [map]

/-- A shape whose values all stay as they are is the same shape. -/
theorem Shape.mapValues_of_forall {α : Type} {s : Shape α} {g : Value → Value}
    (h : ∀ v ∈ s.values, g v = v) : s.mapValues g = s := by
  cases s <;> simp_all [mapValues, values, Title.values, Title.map]

namespace Attribute

/-- An attribute is known by its name. -/
theorem name_injective {a b : Attribute} (h : a.name = b.name) : a = b :=
  Option.some.inj (by rw [← ofName?_name a, h, ofName?_name])

/-- What is known of where a node comes from, and nothing is rendered from. -/
def IsOrigin (a : Attribute) : Prop := a = .sourceLocation ∨ a = .rawData

end Attribute

/-- An operation can change something that is rendered of a node: it changes a list of the node, or
assigns something to it that is not data or a place. -/
def Operation.Touches : Operation → NodeId → Prop
  | .addFeatureFile i _, j | .addDirectory i _, j | .addRow i _ _, j | .removeRow i _, j
  | .append i _ _, j => j = i
  | .assign i name _, j => j = i ∧ ∀ a : Attribute, a.IsOrigin → name ≠ a.name
  | _, _ => False

/-- A tree is read from text, or loaded from files of text. -/
inductive Node.IsParsed : Node → Prop
  | read {default dialect : Value} {path source : Text} {kind : Kind} {n : Node}
    (h : Node.read default dialect path source kind = .ok n) : IsParsed n
  | document {w : Workspace} {default : Value} {path : Text} {dialect config : Option Value}
    {n : Node} (h : Load.document w default path dialect config = .ok n) : IsParsed n
  | directory {w : Workspace} {default : Value} {path : Text} {config : Value} {n : Node}
    (h : Load.fromPath w default path config = .ok n) : IsParsed n

/-- Every parsed node is worded. -/
theorem Node.IsParsed.isWorded {n : Node} (h : n.IsParsed) : n.IsWorded := by
  cases h with
  | read h => exact isWorded_of_read h
  | document h => exact Load.isWorded_document h
  | directory h =>
    obtain ⟨plan, -, h⟩ := bind_ok h
    obtain ⟨t, -, h⟩ := bind_ok h
    exact Load.isWorded_directory plan _ t _ _ h

namespace Store

variable {s t u : Store} {i j : NodeId} {e f : Entry}

/-! ### Nodes with keywords -/

/-- Nothing was given in the place of what a node is rendered from, and nothing of that can be
changed in place. -/
structure Entry.IsSettled (e : Entry) : Prop where
  unhidden : e.Unhidden
  keys : ∀ v ∈ e.shape.values, v.isKey = true

/-- A node has a keyword if its kind has one, and so have all nodes below it. -/
inductive Worded (s : Store) : NodeId → Prop
  | mk {i : NodeId} {e : Entry} (entry : s.get? i = some e) (settled : e.IsSettled)
    (keyword : ∀ v, e.shape.field? .keyword = some v → v.isPresent = true)
    (parts : ∀ c ∈ e.shape.parts, Worded s c) : Worded s i

/-- A node is another one, or is listed by it or by a node below it. -/
abbrev AtOrUnder (s : Store) : NodeId → NodeId → Prop := Relation.ReflTransGen s.Lists

/-- A node that stands for a tree with keywords has keywords. -/
theorem Represents.worded {n : Node} (h : s.Represents i n) (hn : n.IsWorded) : s.Worded i := by
  induction h with
  | @mk i e o pairs entry plain shape _ _ ih =>
    obtain ⟨keyword, texts, parts⟩ := hn
    rw [Shape.values_map] at texts
    rw [Shape.parts_map] at parts
    refine .mk entry ⟨.of_plain plain, fun v hv => ?_⟩ (fun v hv => ?_) fun c hc => ?_
    · rw [shape, Shape.values_map] at hv
      obtain ⟨t, rfl⟩ := texts v hv
      rfl
    · exact keyword v (by rwa [shape, Shape.field?_map, ← Shape.field?_map Prod.snd] at hv)
    · rw [shape, Shape.parts_map] at hc
      obtain ⟨x, hx, rfl⟩ := List.mem_map.mp hc
      exact ih x hx (parts _ (List.mem_map_of_mem hx))

/-- A node at or under one with keywords has keywords. -/
theorem Worded.of_atOrUnder (h : s.Worded i) (hj : s.AtOrUnder i j) : s.Worded j := by
  induction hj with
  | refl => exact h
  | tail _ hlists ih =>
    obtain ⟨e, he, hc⟩ := hlists
    cases ih with
    | mk entry _ _ parts =>
      obtain rfl := Option.some.inj (he.symm.trans entry)
      exact parts _ hc

/-! ### Nodes that are spared -/

/-- What nodes are rendered from is the same in the second store, but for some nodes and for those
that are not settled. -/
def Spares (touched : NodeId → Prop) (s t : Store) : Prop :=
  ∀ j e, ¬ touched j → s.get? j = some e → e.IsSettled →
    ∃ f, t.get? j = some f ∧ f.IsSettled ∧ f.shape = e.shape

variable {touched : NodeId → Prop}

namespace Spares

/-- A store that keeps all old entries spares them. -/
theorem of_get?_eq (h : ∀ j < s.size, t.get? j = s.get? j) : Spares touched s t :=
  fun j e _ he hsettled => ⟨e, (h j (get?_lt he)).trans he, hsettled, rfl⟩

/-- A store spares itself. -/
theorem refl (touched : NodeId → Prop) (s : Store) : Spares touched s s := of_get?_eq fun _ _ => rfl

/-- What two steps spare one after the other is spared by both. -/
theorem trans (h : Spares touched s t) (h' : Spares touched t u) : Spares touched s u := by
  intro j e hj he hsettled
  obtain ⟨f, hf, hsettled, hshape⟩ := h j e hj he hsettled
  obtain ⟨g, hg, hsettled, hshape'⟩ := h' j f hj hf hsettled
  exact ⟨g, hg, hsettled, hshape'.trans hshape⟩

/-- Changing a node spares the others, and the node if it stays settled and keeps its shape. -/
theorem update {g : Entry → Entry} (h : ¬ touched i → ∀ e, s.get? i = some e → e.IsSettled →
    (g e).IsSettled ∧ (g e).shape = e.shape) : Spares touched s (s.update i g) := by
  intro j e hj he hsettled
  rw [get?_update]
  split
  · next hij =>
    subst hij
    exact ⟨g e, by rw [he]; rfl, h hj e he hsettled⟩
  · exact ⟨e, he, hsettled, rfl⟩

/-- Attaching and detaching spares all nodes. -/
theorem setParent (s : Store) (parent : Option NodeId) (c : NodeId) :
    Spares touched s (s.setParent parent c) :=
  update fun _ _ _ hsettled => ⟨⟨⟨hsettled.unhidden.text, hsettled.unhidden.part,
    hsettled.unhidden.list, hsettled.unhidden.kind, hsettled.unhidden.rendering⟩,
    hsettled.keys⟩, rfl⟩

/-- A store that has grown spares what it had. -/
theorem grown {p : NodeId → Prop} {tops : List NodeId} (h : Grown p s t tops) :
    Spares touched s t :=
  of_get?_eq h.old

end Spares

/-! ### What operations touch -/

namespace Entry

/-- What is known of the origin of a node hides nothing of the node. -/
theorem Unhidden.of_origin {a : Attribute} (h : e.Unhidden) (ha : a.IsOrigin)
    (hother : ∀ key ≠ a.name, Value.lookup key f.given = Value.lookup key e.given) :
    f.Unhidden := by
  have hne : ∀ b : Attribute, ¬ b.IsOrigin → Value.lookup b.name e.given = none →
      Value.lookup b.name f.given = none := fun b hb hnone =>
    (hother b.name fun heq => hb (by rwa [Attribute.name_injective heq])).trans hnone
  have hrendering : "to_text" ≠ a.name := by
    rcases ha with rfl | rfl <;> decide
  exact ⟨fun field => hne _ (by simp [Attribute.IsOrigin]) (h.text field),
    fun field => hne _ (by simp [Attribute.IsOrigin]) (h.part field),
    fun field => hne _ (by simp [Attribute.IsOrigin]) (h.list field),
    hne _ (by simp [Attribute.IsOrigin]) h.kind, (hother _ hrendering).trans h.rendering⟩

/-- Data and places that are assigned to a node change nothing that is rendered of it. -/
theorem IsSettled.assign_origin {a : Attribute} (h : e.IsSettled) (ha : a.IsOrigin) (v : Value) :
    (e.assign a.name v).IsSettled ∧ (e.assign a.name v).shape = e.shape := by
  have hwithhold : ∀ key ≠ a.name,
      Value.lookup key (e.given.filter (·.1 != a.name)) = Value.lookup key e.given :=
    fun key hkey => by
      rw [Value.lookup, lookup_filter_ne, if_neg (by simpa using hkey), Value.lookup]
  have hgive : ∀ key ≠ a.name,
      Value.lookup key (Value.put a.name v e.given) = Value.lookup key e.given :=
    fun key hkey => Value.lookup_put_of_ne hkey v e.given
  have hsettled : ∀ {f : Entry}, f.shape = e.shape →
      (∀ key ≠ a.name, Value.lookup key f.given = Value.lookup key e.given) →
      f.IsSettled ∧ f.shape = e.shape := fun hshape hother =>
    ⟨⟨h.unhidden.of_origin ha hother, hshape ▸ h.keys⟩, hshape⟩
  rw [assign, Attribute.ofName?_name]
  rcases ha with rfl | rfl <;> cases v <;> first
    | exact hsettled rfl hwithhold
    | exact hsettled rfl hgive

/-- A settled entry stays settled and keeps its shape when a kept list changes. -/
theorem IsSettled.mapKept (h : e.IsSettled) (id : Nat) (g : List Value → List Value) :
    (e.mapValues (·.mapKept id g)).IsSettled
      ∧ (e.mapValues (·.mapKept id g)).shape = e.shape := by
  have hshape : (e.mapValues (·.mapKept id g)).shape = e.shape :=
    Shape.mapValues_of_forall fun v hv => Value.mapKept_of_isKey (h.keys v hv) id g
  refine ⟨⟨?_, hshape ▸ h.keys⟩, hshape⟩
  obtain ⟨htext, hpart, hlist, hkind, hrendering⟩ := h.unhidden
  exact ⟨fun field => Value.lookup_map_eq_none (htext field),
    fun field => Value.lookup_map_eq_none (hpart field),
    fun field => Value.lookup_map_eq_none (hlist field), Value.lookup_map_eq_none hkind,
    Value.lookup_map_eq_none hrendering⟩

end Entry

namespace Spares

/-- Changing a kept list spares all nodes. -/
theorem mapKept (s : Store) (id : Nat) (g : List Value → List Value) :
    Spares touched s (s.mapKept id g) := by
  intro j e _ he hsettled
  have hget : (s.mapKept id g).get? j = (s.get? j).map (·.mapValues (·.mapKept id g)) :=
    Array.getElem?_map
  exact ⟨_, by rw [hget, he]; rfl, hsettled.mapKept id g⟩

/-- Changing a list in place spares the nodes that do not have the list by its name. -/
theorem changeList {name : String} {g : List Value → List Value} (hi : touched i)
    (h : s.changeList i name g = .ok t) : Spares touched s t := by
  obtain ⟨list, -, h⟩ := bind_ok h
  split at h
  · cases h
    exact .mapKept s _ g
  · obtain ⟨_, -, h⟩ := bind_ok h
    split at h
    · cases h
      exact .refl _ _
    · cases h
      exact .update fun hnot => absurd hi hnot

/-- Assigning to a touched node, or to where a node comes from, spares the other nodes. -/
theorem assign {name : String} {v : Value}
    (hi : touched i ∨ ∃ a : Attribute, a.IsOrigin ∧ name = a.name)
    (h : s.assign i name v = .ok t) : Spares touched s t := by
  obtain ⟨e, -, h⟩ := bind_ok h
  by_cases hfollows : (Attribute.following? e.shape.kind name).isSome
  · simp only [hfollows, if_true] at h
    cases h
  · simp only [hfollows] at h
    cases h
    have hkeep : Spares touched s (s.keep v).2 := .of_get?_eq fun _ _ => rfl
    refine hkeep.trans (.update fun hnot e _ hsettled => ?_)
    obtain ⟨a, ha, rfl⟩ := hi.resolve_left hnot
    exact hsettled.assign_origin ha _

/-- Attaching a node spares all nodes. -/
theorem adopt {parent child : NodeId} (h : s.adopt parent child = .ok t) : Spares touched s t := by
  rcases adopt_inv h with ⟨-, rfl⟩ | ⟨-, rfl⟩
  · exact .refl _ _
  · exact .setParent s _ _

/-- Detaching a node spares all nodes. -/
theorem disown (s : Store) (parent child : NodeId) : Spares touched s (s.disown parent child) := by
  rcases disown_inv s parent child with h | ⟨-, h⟩
  · rw [h]
    exact .refl _ _
  · rw [h]
    exact .setParent s none child

/-- Adding to a directory that is touched spares the other nodes. -/
theorem addTo {directory child : NodeId} {field : ListField} (hi : touched directory)
    (h : s.addTo directory field child = .ok t) : Spares touched s t := by
  obtain ⟨_, -, h⟩ := bind_ok h
  split at h
  · cases h
  · obtain ⟨_, -, h⟩ := bind_ok h
    obtain ⟨u, hu, h⟩ := bind_ok h
    exact (adopt hu).trans (changeList hi h)

/-- Removing a row of a touched node spares the other nodes. -/
theorem removeRow {data : RowData} (hi : touched i) (h : s.removeRow i data = .ok t) :
    Spares touched s t := by
  obtain ⟨_, -, h⟩ := bind_ok h
  obtain ⟨_, -, h⟩ := bind_ok h
  obtain ⟨_, -, h⟩ := bind_ok h
  obtain ⟨_, -, h⟩ := bind_ok h
  obtain ⟨found, -, h⟩ := bind_ok h
  split at h
  · next n row =>
    obtain ⟨u, hu, h⟩ := bind_ok h
    cases h
    exact (changeList hi hu).trans (.disown u i row)
  · cases h
    exact .refl _ _

end Spares

/-- An operation spares the nodes that it does not touch. -/
theorem spares_perform {op : Operation} (h : s.perform op = .ok t) : Spares op.Touches s t := by
  cases op with
  | make what name =>
    obtain ⟨n, u, -, rfl, rfl⟩ := make_inv h
    have hkeep : Spares (Operation.make what name).Touches s (what.keep s).2 :=
      .of_get?_eq fun _ _ => by cases what <;> rfl
    exact (hkeep.trans (.grown (grown_plant n.within_any _))).trans (.of_get?_eq fun _ _ => rfl)
  | hold | release | speak =>
    cases h
    exact .of_get?_eq fun _ _ => rfl
  | addFeatureFile directory file | addDirectory directory inner =>
    obtain ⟨_, -, h⟩ := bind_ok h
    exact .addTo rfl h
  | addRow i data name =>
    obtain ⟨⟨row, x⟩, hx, h⟩ := bind_ok h
    obtain ⟨u, w, hgrown, -, hw, happend⟩ := exists_grown_of_addRow (fun _ => True) hx
    have hspares : Spares (Operation.addRow i data name).Touches s x :=
      ((Spares.grown hgrown).trans (.adopt hw)).trans (.changeList rfl happend)
    cases name <;> cases h
    · exact hspares
    · exact hspares.trans (.of_get?_eq fun _ _ => rfl)
  | removeRow i data =>
    exact .removeRow rfl h
  | adopt parent child => exact .adopt h
  | disown parent child =>
    cases h
    exact .disown s parent child
  | assign i name v =>
    by_cases horigin : ∃ a : Attribute, a.IsOrigin ∧ name = a.name
    · exact .assign (.inr horigin) h
    · exact .assign (.inl ⟨rfl, fun a ha heq => horigin ⟨a, ha, heq⟩⟩) h
  | append i name v => exact .changeList rfl h

/-! ### Texts -/

variable {n : Node}

/-- An operation spares what it does not touch. -/
theorem Spares.next (s : Store) (op : Operation) : Spares op.Touches s (s.next op) := by
  cases h : s.perform op with
  | error fault =>
    rw [next_of_error h]
    exact .refl _ s
  | ok t =>
    rw [next_of_ok h]
    exact spares_perform h

namespace Worded

/-- What is at or under a node with keywords stays there, with its keywords, as long as all of it is
spared. -/
theorem of_spares (h : s.Worded i) (hspares : Spares touched s t)
    (hout : ∀ j, s.AtOrUnder i j → ¬ touched j) : t.Worded i := by
  induction h with
  | @mk i e entry settled keyword _ ih =>
    obtain ⟨f, hf, hsettled, hshape⟩ := hspares i e (hout i .refl) entry settled
    refine .mk hf hsettled (hshape ▸ keyword) fun c hc => ?_
    rw [hshape] at hc
    exact ih c hc fun j hj => hout j (.head ⟨e, entry, hc⟩ hj)

/-- A node with keywords, all of which is spared, is written from one tree before and after. -/
theorem exists_writes (h : s.Worded i) (hspares : Spares touched s t)
    (hout : ∀ j, s.AtOrUnder i j → ¬ touched j) : ∃ n, s.Writes i n ∧ t.Writes i n := by
  induction h with
  | @mk i e entry settled keyword _ ih =>
    obtain ⟨f, hf, hsettled, hshape⟩ := hspares i e (hout i .refl) entry settled
    have hparts : ∀ c ∈ e.shape.parts, ∃ m, s.Writes c m ∧ t.Writes c m := fun c hc =>
      ih c hc fun j hj => hout j (.head ⟨e, entry, hc⟩ hj)
    have : Nonempty Node := ⟨.mk {} (.table [])⟩
    choose! tree htree using hparts
    -- the tree of the node has its shape, with their trees in the place of the parts
    let pairs : Shape (NodeId × Node) := e.shape.map fun c => (c, tree c)
    have hfst : pairs.map Prod.fst = e.shape := by
      rw [Shape.map_map, Shape.map_self]
    have hmem : ∀ x ∈ pairs.parts, s.Writes x.1 x.2 ∧ t.Writes x.1 x.2 := by
      rw [Shape.parts_map, List.forall_mem_map]
      exact htree
    have hwrites : ∀ {u : Store} {g : Entry}, u.get? i = some g → g.IsSettled →
        g.shape = e.shape → (∀ x ∈ pairs.parts, u.Writes x.1 x.2) →
        u.Writes i (.mk {} (pairs.map Prod.snd)) := fun {u g} hg hsettled hshape hparts => by
      refine .mk pairs ((e.shape.field? .keyword).getD .null) hg hsettled.unhidden ?_
        (fun v hv => ?_) (by rw [Shape.values_map]; exact settled.keys) hparts
      · rw [hfst, hshape, Shape.withKeyword_self]
      · rw [Shape.field?_map] at hv
        have hpresent := keyword v hv
        exact ⟨keywordOf_of_present hg hsettled.unhidden (hshape ▸ hv) hpresent, hpresent⟩
    exact ⟨_, hwrites entry settled rfl fun x hx => (hmem x hx).1,
      hwrites hf hsettled hshape fun x hx => (hmem x hx).2⟩

/-- The text of a node with keywords is the same as long as all that is at or under it is spared. -/
theorem text_eq (h : s.Worded i) (hspares : Spares touched s t)
    (hout : ∀ j, s.AtOrUnder i j → ¬ touched j) : t.text i = s.text i := by
  obtain ⟨n, hs, ht⟩ := h.exists_writes hspares hout
  rw [text_of_writes hs .null, text_of_writes ht .null]

end Worded

/-! ### Runs -/

/-- The stores that operations lead to which are of a sort where they are done. -/
inductive Runs (sort : Store → Operation → Prop) (s : Store) : Store → Prop
  | refl : Runs sort s s
  | step {t : Store} (op : Operation) : Runs sort s t → sort t op → Runs sort s (t.next op)

/-- An operation touches nothing at or under a node. -/
def KeepsOutOf (i : NodeId) (s : Store) (op : Operation) : Prop :=
  ∀ j, s.AtOrUnder i j → ¬ op.Touches j

/-- Runs that keep out of a node and what is below it leave it worded and its text as it was. -/
theorem Worded.of_runs (h : s.Worded i) (hrun : s.Runs (KeepsOutOf i) t) :
    t.Worded i ∧ t.text i = s.text i := by
  induction hrun with
  | refl => exact ⟨h, rfl⟩
  | @step t op _ hout ih =>
    obtain ⟨hworded, htext⟩ := ih
    exact ⟨hworded.of_spares (.next t op) hout, (hworded.text_eq (.next t op) hout).trans htext⟩

/-- The text of a node that has a keyword, as have all nodes below it, is the same after a run that
touches nothing at or under the node. All nodes of a tree that is read from text are such nodes. -/
theorem text_of_runs :
    (∀ {s t : Store} {i : NodeId}, s.Worded i → s.Runs (KeepsOutOf i) t → t.text i = s.text i)
      ∧ ∀ (s : Store) {n : Node}, n.IsParsed → ∀ i, (s.plant n).2.AtOrUnder (s.plant n).1 i →
        (s.plant n).2.Worded i := by
  refine ⟨fun h hrun => (h.of_runs hrun).2, fun s n hn i hi => ?_⟩
  exact ((represents_plant n s).worded hn.isWorded).of_atOrUnder hi

/-- A feature with a background that has a step. -/
def spokenFeature : Node :=
  .mk {} (.feature ⟨.text "Feature".toList, .text [], .text []⟩ (.text "en".toList) []
    (some (.mk {} (.background ⟨.text "Background".toList, .text [], .text []⟩
      [.mk {} (.step (.text "Given".toList) (.text ['a']) none)]))) [] [])

/-- The text of the step stays while the default dialect and the language of the feature change,
data is assigned to the step, and the step is detached. -/
theorem text_of_runs_spokenFeature :
    let s := (({} : Store).plant spokenFeature).2
    let t := (((s.next (.speak (.text "fr".toList))).next
      (.assign 2 "language" (.text "fr".toList))).next (.assign 0 "raw_data" (.int 1))).next
      (.disown 1 0)
    s.Worded 0 ∧ s.Runs (KeepsOutOf 0) t ∧ t.text 0 = s.text 0 := by
  intro s t
  let step : Entry := { shape := .step (.text "Given".toList) (.text ['a']) none, parent := some 1 }
  have hworded : s.Worded 0 := by
    refine .mk (e := step) rfl ⟨.of_plain rfl, ?_⟩ (fun v hv => by cases hv; rfl)
      fun c hc => by cases hc
    simp only [step, Shape.values, List.forall_mem_cons]
    exact ⟨rfl, rfl, by simp⟩
  -- the step has no parts, so nothing but the step itself is at or under it
  have halone : ∀ j, (s.next (.speak (.text "fr".toList))).AtOrUnder 0 j → j = 0 := by
    intro j hj
    rcases Relation.ReflTransGen.cases_head hj with rfl | ⟨c, ⟨e, he, hc⟩, -⟩
    · rfl
    · obtain rfl : step = e := Option.some.inj he
      cases hc
  have hrun : s.Runs (KeepsOutOf 0) t := by
    refine .step _ (.step _ (.step _ (.step _ .refl ?_) ?_) ?_) ?_
    · exact fun j _ => id
    · rintro j hj ⟨rfl, -⟩
      cases halone 2 hj
    · rintro j - ⟨-, hother⟩
      exact hother .rawData (.inr rfl) rfl
    · exact fun j _ => id
  exact ⟨hworded, hrun, text_of_runs.1 hworded hrun⟩

end Store

end FeatureTree
