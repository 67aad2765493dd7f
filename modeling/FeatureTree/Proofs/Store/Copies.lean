import FeatureTree.Proofs.Equality.Symmetry
import FeatureTree.Proofs.Schema.Fitting
import FeatureTree.Proofs.Store.Parents
import FeatureTree.Proofs.Store.Represents
import FeatureTree.Proofs.Store.WaysUp

/-!
# Nodes are copies of records

A record that fits is made into a node by copying it: every record inside it becomes one node, which
has what the record says, lists the copies of the records that the record holds, in their order, and
is the parent of those. The copies of the records inside a record make up a tree, so that walking
the node comes by each of them once.

## Main results

* `Store.keeps_plant`: the store in which the tree of a record was planted keeps the record
* `Store.Keeps.exists_tree`: the nodes that keep a record and those inside it form a tree
* `Store.exists_copies_of_make`: making a node from a record that fits copies all of the record
-/

namespace FeatureTree

namespace Shape

variable {α β γ : Type}

/-- Shapes that agree once their parts are changed hold their parts in the same places. -/
theorem exists_zip {f : α → γ} {g : β → γ} {p : Shape α} {q : Shape β} (h : p.map f = q.map g) :
    ∃ z : Shape (α × β), z.map Prod.fst = p ∧ z.map Prod.snd = q
      ∧ ∀ x ∈ z.parts, f x.1 = g x.2 := by
  cases p <;> cases q <;> first | cases h; done | simp only [map] at h
  case row =>
    obtain ⟨z, rfl, rfl, hz⟩ := exists_zip_list (row.inj h)
    exact ⟨.row z, rfl, rfl, hz⟩
  case table =>
    obtain ⟨z, rfl, rfl, hz⟩ := exists_zip_list (table.inj h)
    exact ⟨.table z, rfl, rfl, hz⟩
  case step =>
    obtain ⟨rfl, rfl, hb⟩ := step.inj h
    obtain ⟨z, rfl, rfl, hz⟩ := exists_zip_option hb
    exact ⟨.step _ _ z, rfl, rfl, hz⟩
  case background =>
    obtain ⟨rfl, hs⟩ := background.inj h
    obtain ⟨z, rfl, rfl, hz⟩ := exists_zip_list hs
    exact ⟨.background _ z, rfl, rfl, hz⟩
  case scenario =>
    obtain ⟨rfl, ht, hs⟩ := scenario.inj h
    obtain ⟨z, rfl, rfl, hz⟩ := exists_zip_list ht
    obtain ⟨z', rfl, rfl, hz'⟩ := exists_zip_list hs
    exact ⟨.scenario _ z z', rfl, rfl, List.forall_mem_append.mpr ⟨hz, hz'⟩⟩
  case outline =>
    obtain ⟨rfl, ht, hs, he⟩ := outline.inj h
    obtain ⟨z, rfl, rfl, hz⟩ := exists_zip_list ht
    obtain ⟨z', rfl, rfl, hz'⟩ := exists_zip_list hs
    obtain ⟨z'', rfl, rfl, hz''⟩ := exists_zip_list he
    exact ⟨.outline _ z z' z'', rfl, rfl,
      List.forall_mem_append.mpr ⟨List.forall_mem_append.mpr ⟨hz, hz'⟩, hz''⟩⟩
  case «example» =>
    obtain ⟨rfl, ht, hr⟩ := example.inj h
    obtain ⟨z, rfl, rfl, hz⟩ := exists_zip_list ht
    obtain ⟨z', rfl, rfl, hz'⟩ := exists_zip_list hr
    exact ⟨.example _ z z', rfl, rfl, List.forall_mem_append.mpr ⟨hz, hz'⟩⟩
  case rule =>
    obtain ⟨rfl, ht, hb, hs⟩ := rule.inj h
    obtain ⟨z, rfl, rfl, hz⟩ := exists_zip_list ht
    obtain ⟨z', rfl, rfl, hz'⟩ := exists_zip_option hb
    obtain ⟨z'', rfl, rfl, hz''⟩ := exists_zip_list hs
    exact ⟨.rule _ z z' z'', rfl, rfl,
      List.forall_mem_append.mpr ⟨List.forall_mem_append.mpr ⟨hz, hz'⟩, hz''⟩⟩
  case feature =>
    obtain ⟨rfl, rfl, ht, hb, hs, hr⟩ := feature.inj h
    obtain ⟨z, rfl, rfl, hz⟩ := exists_zip_list ht
    obtain ⟨z', rfl, rfl, hz'⟩ := exists_zip_option hb
    obtain ⟨z'', rfl, rfl, hz''⟩ := exists_zip_list hs
    obtain ⟨z₃, rfl, rfl, hz₃⟩ := exists_zip_list hr
    exact ⟨.feature _ _ z z' z'' z₃, rfl, rfl, List.forall_mem_append.mpr
      ⟨List.forall_mem_append.mpr ⟨List.forall_mem_append.mpr ⟨hz, hz'⟩, hz''⟩, hz₃⟩⟩
  case featureFile =>
    obtain ⟨rfl, hf, hc⟩ := featureFile.inj h
    obtain ⟨z, rfl, rfl, hz⟩ := exists_zip_option hf
    obtain ⟨z', rfl, rfl, hz'⟩ := exists_zip_list hc
    exact ⟨.featureFile _ z z', rfl, rfl, List.forall_mem_append.mpr ⟨hz, hz'⟩⟩
  case directory =>
    obtain ⟨rfl, hf, hd⟩ := directory.inj h
    obtain ⟨z, rfl, rfl, hz⟩ := exists_zip_list hf
    obtain ⟨z', rfl, rfl, hz'⟩ := exists_zip_list hd
    exact ⟨.directory _ z z', rfl, rfl, List.forall_mem_append.mpr ⟨hz, hz'⟩⟩
  case cell =>
    obtain rfl := cell.inj h
    exact ⟨.cell _, rfl, rfl, by simp [parts, children]⟩
  case tag =>
    obtain rfl := tag.inj h
    exact ⟨.tag _, rfl, rfl, by simp [parts, children]⟩
  case docString =>
    obtain ⟨rfl, rfl⟩ := docString.inj h
    exact ⟨.docString _ _, rfl, rfl, by simp [parts, children]⟩
  case comment =>
    obtain rfl := comment.inj h
    exact ⟨.comment _, rfl, rfl, by simp [parts, children]⟩

/-- A single part of a mapped shape is the mapped part. -/
theorem part?_map (f : α → β) (s : Shape α) (field : PartField) :
    (s.map f).part? field = (s.part? field).map (Option.map f) := by
  cases field <;> cases s <;> rfl

end Shape

namespace Store

variable {s t : Store} {i j : NodeId} {r : Record} {e : Entry}

/-! ### Nodes that keep records -/

/-- A node was given nothing and has what a record says, and nodes stand in it where records stand
in the record. -/
structure Matches (s : Store) (i : NodeId) (e : Entry) (r : Record)
    (pairs : Shape (NodeId × Record)) : Prop where
  entry : s.get? i = some e
  plain : e.given = []
  line : e.line = r.line
  capsule : e.capsule = some r.capsule
  shape : e.shape = pairs.map Prod.fst
  record : r.shape = pairs.map Prod.snd

/-- A node keeps a record: it has what the record says, and the nodes that it lists are attached to
it and keep the records inside the record. They differ and come before it. -/
inductive Keeps (s : Store) : NodeId → Record → Prop
  | mk {i : NodeId} {e : Entry} {r : Record} {pairs : Shape (NodeId × Record)}
    (same : s.Matches i e r pairs) (distinct : (pairs.parts.map Prod.fst).Nodup)
    (attached : ∀ x ∈ pairs.parts, x.1 < i ∧ s.remembered x.1 = some i)
    (parts : ∀ x ∈ pairs.parts, Keeps s x.1 x.2) : Keeps s i r

/-- A node that stands in a store for one built from a record keeps the record. -/
theorem Stands.keeps {n : Node} (h : s.Stands i n) {language : Option Value}
    (hn : n = Node.ofRecord language r) : s.Keeps i r := by
  induction h generalizing r language with
  | @mk i e o pairs entry plain line capsule shape distinct attached _ ih =>
    obtain ⟨inner, heq⟩ := Node.ofRecord_eq language r
    obtain ⟨rfl, hshape⟩ := Node.mk.inj (hn.trans heq)
    -- next to each node that is listed stands the record that its tree is of
    obtain ⟨z, rfl, hsnd, hz⟩ := Shape.exists_zip hshape
    have hparts : ∀ x ∈ z.parts, x.1 ∈ (z.map Prod.fst).parts := fun x hx => by
      rw [Shape.parts_map]
      exact List.mem_map_of_mem hx
    have hfst : e.shape = (z.map fun x => (x.1.1, x.2)).map Prod.fst := by
      rw [shape, Shape.map_map, Shape.map_map]
    have hrecord : r.shape = (z.map fun x => (x.1.1, x.2)).map Prod.snd := by
      rw [← hsnd, Shape.map_map]
    refine .mk ⟨entry, plain, line, capsule, hfst, hrecord⟩ ?_ ?_ ?_
    · rw [Shape.parts_map, List.map_map] at distinct ⊢
      exact distinct
    · rw [Shape.parts_map, List.forall_mem_map]
      exact fun x hx => attached x.1 (hparts x hx)
    · rw [Shape.parts_map, List.forall_mem_map]
      exact fun x hx => ih x.1 (hparts x hx) (hz x hx)

/-- The store in which the tree of a record was planted keeps the record. -/
theorem keeps_plant (language : Option Value) (r : Record) (s : Store) :
    let planted := s.plant (Node.ofRecord language r)
    planted.2.Keeps planted.1 r := (stands_plant _ s).keeps rfl

/-- Names play no part in it. -/
theorem Keeps.of_entries (h : s.Keeps i r) (he : t.entries = s.entries) : t.Keeps i r := by
  obtain ⟨entries, held, dialect, nextList⟩ := t
  subst he
  induction h with
  | mk same distinct attached _ ih =>
    exact .mk ⟨same.entry, same.plain, same.line, same.capsule, same.shape, same.record⟩ distinct
      attached ih

/-! ### What such a node says -/

namespace Matches

variable {pairs : Shape (NodeId × Record)}

/-- A record that fits lists nothing but children. -/
theorem children_parts (h : s.Matches i e r pairs) (hfits : r.Fits) :
    pairs.children = pairs.parts := by
  have hlength := congrArg List.length hfits.children_shape
  rw [h.record, Shape.children_map, Shape.parts_map] at hlength
  cases pairs with
  | featureFile path held comments => simpa [Shape.children, Shape.parts] using hlength
  | _ => rfl

/-- The children of a copy are the copies of the children. -/
theorem children_eq (h : s.Matches i e r pairs) :
    s.children i = .ok ((pairs.children.map Prod.fst).map .node) := by
  rw [children_of_plain h.entry h.plain, h.shape, Shape.children_map]

/-- The parts of a copy are copies of the parts of its record. -/
theorem records_eq (h : s.Matches i e r pairs) : pairs.parts.map Prod.snd = r.shape.parts := by
  rw [h.record, Shape.parts_map]

/-- A copy has the kind of its record. -/
theorem hasKind_eq (h : s.Matches i e r pairs) : s.hasKind [r.kind] i = .ok true := by
  have hkind : e.shape.kind = r.kind := by
    rw [h.shape, Shape.kind_map, ← Shape.kind_map Prod.snd, ← h.record, r.kind_shape]
  rw [hasKind_of_plain h.entry h.plain, hkind, List.contains_cons, beq_self_eq_true, Bool.true_or]

/-- A copy answers with the texts of its record. -/
theorem ask_text (h : s.Matches i e r pairs) {field : TextField} (hfield : r.kind.has field) :
    s.ask (.node i) (.text field) = .ok (r.texts field) := by
  have hvalue := valueOf_text_of_plain h.entry h.plain field
  rw [h.shape, Shape.ask_map, ← congrFun (Shape.ask_map Prod.snd pairs), ← h.record,
    Record.ask_shape hfield] at hvalue
  exact hvalue

/-- A copy has the line of its record. -/
theorem sourceLine_eq (h : s.Matches i e r pairs) : s.sourceLine i = .ok r.line := by
  simp only [sourceLine, get, h.entry, h.plain, bind, Except.bind, Value.lookup]
  exact congrArg Except.ok h.line

/-- A list of the node and that of the record hold in their order what stands in the same place. -/
theorem exists_list (h : s.Matches i e r pairs) {field : ListField}
    (hfield : r.kind.hasList field) : ∃ xs : List (NodeId × Record), (∀ x ∈ xs, x ∈ pairs.parts)
      ∧ s.listed i field = .ok ((xs.map Prod.fst).map .node) ∧ xs.map Prod.snd = r.lists field := by
  have hlist := Record.list?_shape hfield
  rw [h.record, Shape.list?_map] at hlist
  obtain ⟨xs, hxs, hsnd⟩ := Option.map_eq_some_iff.mp hlist
  have hl : e.shape.list? field = some (xs.map Prod.fst) := by
    rw [h.shape, Shape.list?_map, hxs]
    rfl
  refine ⟨xs, fun x => Shape.mem_parts_of_list? hxs, ?_, hsnd⟩
  rw [listed, valueOf_list_of_plain h.entry h.plain hl]
  rfl

/-- So do a single part of the node and that of the record. -/
theorem exists_part (h : s.Matches i e r pairs) {field : PartField}
    (hfield : r.kind.hasPart field) :
    ∃ x : Option (NodeId × Record), (∀ y ∈ x, y ∈ pairs.parts)
      ∧ s.valueOf i (.part field) = .ok (Value.ofNode? (x.map Prod.fst))
      ∧ x.map Prod.snd = r.singles field := by
  have hpart := Record.part?_shape hfield
  rw [h.record, Shape.part?_map] at hpart
  obtain ⟨x, hx, hsnd⟩ := Option.map_eq_some_iff.mp hpart
  have hp : e.shape.part? field = some (x.map Prod.fst) := by
    rw [h.shape, Shape.part?_map, hx]
    rfl
  refine ⟨x, fun y hy => Shape.mem_parts_of_part? (hx.trans (congrArg some hy)), ?_, hsnd⟩
  rw [valueOf, stored_of_plain h.entry h.plain (by simp), Entry.own, hp]
  rfl

/-- The copies of parts are parts of the copy. -/
theorem mem_parts_of_mem (h : s.Matches i e r pairs) {x : NodeId × Record} (hx : x ∈ pairs.parts) :
    x.1 ∈ s.parts i := by
  refine mem_parts.mpr ⟨e, h.entry, Entry.mem_owned.mpr (.inl ?_)⟩
  rw [h.shape, Shape.parts_map]
  exact List.mem_map_of_mem hx

end Matches

/-! ### The tree of a record and the nodes that keep it -/

/-- A node keeps a record, where the nodes that it lists stand next to the records inside it among
some copies of records. -/
def KeepsAmong (s : Store) (copies : List (Record × NodeId)) (r : Record) (i : NodeId) : Prop :=
  ∃ e pairs, s.Matches i e r pairs
    ∧ ∀ x ∈ pairs.parts, (x.2, x.1) ∈ copies ∧ s.remembered x.1 = some i

/-- What is kept among some copies is kept among more of them. -/
theorem KeepsAmong.mono {copies copies' : List (Record × NodeId)} (h : s.KeepsAmong copies r i)
    (hsub : ∀ x ∈ copies, x ∈ copies') : s.KeepsAmong copies' r i := by
  obtain ⟨e, pairs, same, attached⟩ := h
  exact ⟨e, pairs, same, fun x hx => ⟨hsub _ (attached x hx).1, (attached x hx).2⟩⟩

/-- What a node remembers, if it comes after the node. -/
def laterOwner (s : Store) (i : NodeId) : Option NodeId := (s.remembered i).filter (i < ·)

/-- A tree of records and nodes copies a record: its labels are the record and all records inside
it, each next to a node that keeps it, and it is what going down from the node gives. -/
structure IsCopy (s : Store) (i : NodeId) (r : Record) (tree : Rose (Record × NodeId)) : Prop where
  label : tree.label = (r, i)
  unrolls : s.Unrolls i (tree.map Prod.snd)
  all : (tree.preorder.map Prod.fst).Perm r.all
  hangs : (tree.map Prod.snd).Hangs s.laterOwner
  keeps : ∀ x ∈ tree.preorder, s.KeepsAmong tree.preorder x.1 x.2
  reaches : s.Reaches i → ∀ x ∈ tree.preorder, s.Reaches x.2

/-- Trees that copy the records inside a record make up, below the node that lists their tops, a
tree that copies the record. -/
theorem IsCopy.node {pairs : Shape (NodeId × Record)} {trees : List (Rose (Record × NodeId))}
    (same : s.Matches i e r pairs) (distinct : (pairs.parts.map Prod.fst).Nodup)
    (attached : ∀ x ∈ pairs.parts, x.1 < i ∧ s.remembered x.1 = some i) (hfits : r.Fits)
    (htrees : List.Forall₂ (fun x tree => s.IsCopy x.1 x.2 tree) pairs.parts trees) :
    s.IsCopy i r (.node (r, i) trees) := by
  have hcopy : ∀ tree ∈ trees, ∃ x ∈ pairs.parts, s.IsCopy x.1 x.2 tree := fun tree htree =>
    exists_left_of_forall₂ htrees htree
  have hlabels : (trees.map (Rose.map Prod.snd)).map Rose.label = pairs.parts.map Prod.fst := by
    rw [List.map_map]
    refine map_eq_of_forall₂ (htrees.imp fun x tree h => ?_)
    rw [Function.comp_apply, Rose.label_map, h.label]
  have hbelow : ∀ tree ∈ trees, ∀ x ∈ tree.preorder, x ∈ (Rose.node (r, i) trees).preorder := by
    intro tree htree x hx
    rw [Rose.preorder_node]
    exact List.mem_cons_of_mem _ (List.mem_flatMap.mpr ⟨tree, htree, hx⟩)
  have hcases : ∀ {p : Record × NodeId → Prop}, p (r, i) →
      (∀ tree ∈ trees, ∀ x ∈ tree.preorder, p x) →
      ∀ x ∈ (Rose.node (r, i) trees).preorder, p x := by
    intro p htop h
    rw [Rose.preorder_node, List.forall_mem_cons, List.forall_mem_flatMap]
    exact ⟨htop, h⟩
  exact {
    label := rfl
    unrolls := by
      rw [Rose.map_node]
      refine .mk ?_ (List.forall_mem_map.mpr fun tree htree => ?_)
      · rw [same.children_eq, same.children_parts hfits, ← hlabels, List.map_map]
        rfl
      · obtain ⟨x, -, hx⟩ := hcopy tree htree
        rw [hx.unrolls.label_eq]
        exact hx.unrolls
    all := by
      rw [Rose.preorder_node, List.map_cons, r.all_eq, List.map_flatMap]
      have hall : (trees.flatMap fun tree => tree.preorder.map Prod.fst).Perm
          (r.shape.parts.flatMap Record.all) := by
        rw [← same.records_eq, List.flatMap_map]
        exact perm_flatMap_of_forall₂ (htrees.imp fun _ _ h => h.all)
      exact (hall.trans (hfits.perm_parts.flatMap_right _)).cons r
    hangs := by
      rw [Rose.map_node]
      refine .mk (hlabels ▸ distinct) (List.forall_mem_map.mpr fun tree htree => ?_)
        (List.forall_mem_map.mpr fun tree htree => ?_)
      · obtain ⟨x, hx, hcopy⟩ := hcopy tree htree
        obtain ⟨hlt, hremembered⟩ := attached x hx
        rw [Rose.label_map, hcopy.label, laterOwner, hremembered]
        simpa using hlt
      · obtain ⟨x, -, hcopy⟩ := hcopy tree htree
        exact hcopy.hangs
    keeps := by
      refine hcases ⟨e, pairs, same, fun x hx => ⟨?_, (attached x hx).2⟩⟩ fun tree htree x hx => ?_
      · obtain ⟨tree, htree, hcopy⟩ := exists_right_of_forall₂ htrees hx
        exact hbelow tree htree _ (hcopy.label ▸ tree.label_mem_preorder)
      · obtain ⟨y, -, hcopy⟩ := hcopy tree htree
        exact (hcopy.keeps x hx).mono (hbelow tree htree)
    reaches := by
      refine fun hi => hcases hi fun tree htree x hx => ?_
      obtain ⟨y, hy, hcopy⟩ := hcopy tree htree
      have hown := same.mem_parts_of_mem hy
      exact hcopy.reaches (.owned hi (lt_of_remembered (attached y hy).2) hown) x hx }

/-- The nodes that keep a record that fits and the records inside it form a tree, which copies the
record. -/
theorem Keeps.exists_tree (h : s.Keeps i r) (hfits : r.Fits) : ∃ tree, s.IsCopy i r tree := by
  induction h with
  | @mk i e r pairs same distinct attached _ ih =>
    have hinner : ∀ x ∈ pairs.parts, x.2.Fits := fun x hx =>
      hfits.parts _ (hfits.perm_parts.mem_iff.mp (same.records_eq ▸ List.mem_map_of_mem hx))
    obtain ⟨trees, htrees⟩ := exists_forall₂ fun x hx => ih x hx (hinner x hx)
    exact ⟨_, .node same distinct attached hfits htrees⟩

/-! ### Main statement -/

/-- A copy of a record is attached to a node. -/
def IsAttached (s : Store) (copies : List (Record × NodeId)) (i : NodeId) (r : Record)
    (j : NodeId) : Prop :=
  (r, j) ∈ copies ∧ s.parent? j = some i

/-- A node is a copy of a record: it has the kind, the texts, the line and the capsule of the
record; for each list and single part of its kind it lists copies of the records that the record
holds, in their order; and it is the parent of those and of its children. -/
structure Copies (s : Store) (copies : List (Record × NodeId)) (r : Record) (i : NodeId) :
    Prop where
  kind : s.hasKind [r.kind] i = .ok true
  texts : ∀ field, r.kind.has field → s.ask (.node i) (.text field) = .ok (r.texts field)
  line : s.sourceLine i = .ok r.line
  capsule : ∃ e, s.get? i = some e ∧ e.capsule = some r.capsule
  lists : ∀ field, r.kind.hasList field → ∃ js : List NodeId, s.listed i field = .ok (js.map .node)
    ∧ List.Forall₂ (s.IsAttached copies i) (r.lists field) js
  singles : ∀ field, r.kind.hasPart field → ∃ o, s.valueOf i (.part field) = .ok (Value.ofNode? o)
    ∧ Option.Rel (s.IsAttached copies i) (r.singles field) o
  children : ∃ js : List NodeId, s.children i = .ok (js.map .node) ∧ ∀ j ∈ js, s.parent? j = some i

/-- A node that keeps a record among copies, and is reached, is one of its copies. -/
theorem KeepsAmong.copies {copies : List (Record × NodeId)} (h : s.KeepsAmong copies r i)
    (hi : s.Reaches i) : s.Copies copies r i := by
  obtain ⟨e, pairs, same, attached⟩ := h
  have hattached : ∀ x ∈ pairs.parts, s.IsAttached copies i x.2 x.1 := fun x hx =>
    ⟨(attached x hx).1, parent?_eq_some_iff.mpr ⟨(attached x hx).2, hi⟩⟩
  exact {
    kind := same.hasKind_eq
    texts := fun _ => same.ask_text
    line := same.sourceLine_eq
    capsule := ⟨e, same.entry, same.capsule⟩
    lists := fun field hfield => by
      obtain ⟨xs, hxs, hlisted, hsnd⟩ := same.exists_list hfield
      refine ⟨_, hlisted, ?_⟩
      rw [← hsnd, List.forall₂_map_left_iff, List.forall₂_map_right_iff]
      exact List.forall₂_same.mpr fun x hx => hattached x (hxs x hx)
    singles := fun field hfield => by
      obtain ⟨x, hx, hvalue, hsnd⟩ := same.exists_part hfield
      refine ⟨_, hvalue, ?_⟩
      rw [← hsnd]
      cases x with
      | none => exact .none
      | some x => exact .some (hattached x (hx x rfl))
    children := ⟨_, same.children_eq, List.forall_mem_map.mpr fun x hx =>
      (hattached x (Shape.mem_parts_of_mem_children hx)).2⟩ }

/-- The nodes that a walk comes by are the copies of a record and of all records inside it: each is
a copy of one of these records, and none is come by twice. -/
structure WalksCopies (s : Store) (i : NodeId) (r : Record) (order : Rose.Order)
    (copies : List (Record × NodeId)) : Prop where
  walk : s.walk i (.text order.name.toList) = .ok (copies.map Prod.snd)
  distinct : (copies.map Prod.snd).Nodup
  all : (copies.map Prod.fst).Perm r.all
  top : (r, i) ∈ copies
  copies : ∀ x ∈ copies, s.Copies copies x.1 x.2

/-- Going up by owners that were made later never comes back. -/
theorem not_transGen_laterOwner (s : Store) (i : NodeId) :
    ¬ Relation.TransGen (fun c p => s.laterOwner c = some p) i i := by
  have hlt : ∀ {i j}, Relation.TransGen (fun c p => s.laterOwner c = some p) i j → i < j := by
    intro i j h
    have hstep : ∀ {c p}, s.laterOwner c = some p → c < p := fun h => by
      simpa using (Option.filter_eq_some_iff.mp h).2
    induction h with
    | single h => exact hstep h
    | tail _ h ih => exact Nat.lt_trans ih (hstep h)
  exact fun h => Nat.lt_irrefl _ (hlt h)

/-- A tree that copies a record is what a walk goes through, in any order. -/
theorem IsCopy.exists_walksCopies {tree : Rose (Record × NodeId)} (h : s.IsCopy i r tree)
    (hi : s.Reaches i) (order : Rose.Order) : ∃ copies, s.WalksCopies i r order copies := by
  have hperm := tree.perm_inOrder order
  have hnodup : (tree.preorder.map Prod.snd).Nodup := by
    rw [← Rose.preorder_map]
    exact h.hangs.nodup_preorder s.not_transGen_laterOwner
  have htop : (r, i) ∈ tree.preorder := h.label ▸ tree.label_mem_preorder
  obtain ⟨e, pairs, same, -⟩ := h.keeps _ htop
  -- no node is gone to twice, so the tree is not deeper than the store has nodes
  have hheight : (tree.map Prod.snd).height ≤ s.size + 1 := by
    have hle := (tree.map Prod.snd).height_le_length_preorder
    have hlength := LeadsUp.length_le_of_lt (s := s) hnodup fun j hj => by
      obtain ⟨x, hx, rfl⟩ := List.mem_map.mp hj
      exact (h.reaches hi x hx).lt
    rw [Rose.preorder_map] at hle
    omega
  refine ⟨tree.inOrder order, ?_⟩
  exact {
    walk := by
      rw [walk_of_unrolls same.entry same.plain h.unrolls hheight, Rose.inOrder_map]
    distinct := (hperm.map _).nodup_iff.mpr hnodup
    all := (hperm.map _).trans h.all
    top := hperm.mem_iff.mpr htop
    copies := fun x hx => by
      have hx := hperm.mem_iff.mp hx
      exact ((h.keeps x hx).mono fun y => hperm.mem_iff.mpr).copies (h.reaches hi x hx) }

/-- Making a node from a record that fits succeeds and copies the record: whatever the order of a
walk, it comes by one node for each record. The top has no parent. -/
theorem exists_copies_of_make (s : Store) (name : String) {r : Record} (h : r.Fits) :
    ∃ t i, s.perform (.make (.record r.kind r) name) = .ok t ∧ t.held? name = some (some i)
      ∧ t.parent? i = none ∧ ∀ order, ∃ copies, t.WalksCopies i r order copies := by
  obtain ⟨i, u, hplant⟩ : ∃ i u, s.plant (Node.ofRecord none r) = (i, u) := ⟨_, _, rfl⟩
  have hgrown := grown_plant (Node.ofRecord none r).within_any s
  have hkeeps : (u.hold name (some i)).Keeps i r := by
    have hkeeps := keeps_plant none r s
    rw [hplant] at hkeeps
    exact hkeeps.of_entries rfl
  rw [hplant] at hgrown
  obtain ⟨tree, htree⟩ := hkeeps.exists_tree h
  have hreach : (u.hold name (some i)).Reaches i :=
    .held (hgrown.tops_new i (by simp)).2 (by simp [roots, hold])
  refine ⟨u.hold name (some i), i, ?_, held?_hold .., parent?_of_free ?_, fun order => ?_⟩
  · rw [perform_make_record h.isSound, hplant]
  · exact hgrown.tops_free i (by simp)
  · exact htree.exists_walksCopies hreach order

/-- A record of a feature is made into a copy of it. -/
theorem exists_copies_of_make_feature :
    let capsule : Capsule := ⟨.currentAst, .null⟩
    let tag : Record := { kind := .tag, line := .int 2, name := .text ['@', 't'], capsule }
    let step : Record :=
      { kind := .step, line := .int 4, keyword := ['*', ' '], text := .text ['a'], capsule }
    let scenario : Record :=
      { kind := .scenario, line := .int 3, tags := [tag], steps := [step], capsule }
    let background : Record :=
      { kind := .background, line := .int 5, description := .text [' ', 'b'], capsule }
    let r : Record :=
      { kind := .feature, language := .text ['e', 'n'], children := [scenario, background],
        capsule }
    r.Fits ∧ ∃ t i, ({} : Store).perform (.make (.record r.kind r) "f") = .ok t
      ∧ t.held? "f" = some (some i) ∧ t.parent? i = none
      ∧ ∀ order, ∃ copies, t.WalksCopies i r order copies := by
  intro capsule tag step scenario background r
  have hall : ∀ x ∈ [tag, step, scenario, background, r], x.Fills ∧ x.Places := by
    simp only [List.forall_mem_cons, List.not_mem_nil, false_imp_iff, implies_true, and_true, tag,
      step, scenario, background, r]
    refine ⟨⟨?_, ?_⟩, ⟨?_, ?_⟩, ⟨?_, ?_⟩, ⟨?_, ?_⟩, ?_, ?_⟩ <;> constructor <;>
      simp [Kind.has, Kind.hasList, Kind.hasPart, Shape.empty, Shape.field?, Shape.list?,
        Shape.part?, Shape.title?, Record.childrenOf]
  have hmk : ∀ x ∈ [tag, step, scenario, background, r], (∀ y ∈ x.parts, y.Fits) → x.Fits :=
    fun x hx => .mk (hall x hx).1 (hall x hx).2
  have htag := hmk tag (by simp) (by simp [tag, Record.parts])
  have hstep := hmk step (by simp) (by simp [step, Record.parts])
  have hscenario := hmk scenario (by simp) (by simp [scenario, Record.parts, htag, hstep])
  have hbackground := hmk background (by simp) (by simp [background, Record.parts])
  have hr := hmk r (by simp) (by simp [r, Record.parts, hscenario, hbackground])
  exact ⟨hr, exists_copies_of_make {} "f" hr⟩

end Store

end FeatureTree
