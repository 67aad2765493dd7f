import FeatureTree.Proofs.Store.Links

/-!
# Operations on a store, and what a run of them leads to

A program makes nodes, gives them names, attaches and detaches them and changes their attributes,
one operation after the other. An operation works with nodes that the program can get at: those that
names hold, and what they own. An operation that fails changes nothing.

A node that is out of reach stays out of reach, whatever is done: no operation hands out a way to a
node that was there before and had none.

## Main results

* `Store.Reaches.of_adds`: a change that adds ways to nodes in reach only brings nothing back
* `Store.adds_perform`: every operation is such a change
* `Store.Reaches.of_next`: what is in reach after an operation was in reach before, or is new
-/

namespace FeatureTree

/-- A node that is to be made: empty, of values, read from text, or built from records. -/
inductive Making where
  | empty (kind : Kind)
  | cell (value : Value)
  | featureFile (path : Value)
  | directory (path : Value)
  /-- A row of new cells for the members of a value. -/
  | row (values : Value)
  | text (kind : Kind) (dialect : Value) (path source : Text)
  /-- A node of a kind from a record, whatever the kind of the record. -/
  | record (kind : Kind) (r : Record)
  | document (path : Text) (d : DocumentRecord)

namespace Making

/-- The tree that is to be made, where a dialect holds by default. -/
def node (default : Value) : Making → Except Fault Node
  | .empty kind => .ok (.mk {} (.empty kind))
  | .cell value => .ok (.mk {} (.cell value))
  | .featureFile path => .ok (.mk {} (.featureFile path none []))
  | .directory path => .ok (.mk {} (.directory path [] []))
  | .row values => Node.ofValues <$> values.members
  | .text kind dialect path source => Node.read default dialect path source kind
  | .record kind r => Node.build { r with kind }
  | .document path d => Node.buildFile path d

/-- Lists among the values that are handed over can be changed in place from then on. -/
def keep (s : Store) : Making → Making × Store
  | .cell value => let (value, s) := s.keep value; (.cell value, s)
  | .featureFile path => let (path, s) := s.keep path; (.featureFile path, s)
  | .directory path => let (path, s) := s.keep path; (.directory path, s)
  | .row values => let (values, s) := s.keep values; (.row values, s)
  | what => (what, s)

/-- Every node that is handed over for the making satisfies a condition. -/
def Within (p : NodeId → Prop) : Making → Prop
  | .cell v | .featureFile v | .directory v | .row v => v.Within p
  | .record _ r => r.Within p
  | .document _ d => d.Within p
  | .empty _ | .text _ _ _ _ => True

variable {p q : NodeId → Prop} {what : Making}

/-- A tree that is made mentions no more nodes than what it is made from. -/
theorem node_gives (default : Value) (h : what.Within p) :
    Gives (Node.Within p) (what.node default) := by
  cases what with
  | empty kind =>
    refine .ok (.mk (by simp) (by simp) ?_ ?_)
    · cases kind <;> simp [Shape.empty, Shape.values, Title.values]
    · cases kind <;> simp [Shape.empty, Shape.parts, Shape.children]
  | cell v | featureFile v | directory v =>
    have hv : v.Within p := h
    exact .ok (.mk (by simp) (by simp) (by simpa [Shape.values] using hv)
      (by simp [Shape.parts, Shape.children]))
  | row v => exact (Value.Within.members h).map fun items hitems => Node.within_ofValues hitems
  | text kind dialect path source => exact Node.read_gives p default dialect path source kind
  | record kind r => exact Node.build_gives (.mk h.values h.parts)
  | document path d => exact Node.buildFile_gives h path

/-- What is made mentions no other nodes after its lists are kept. -/
theorem within_keep (h : what.Within p) (s : Store) : (what.keep s).1.Within p := by
  have hkeep : ∀ {v : Value}, v.Within p → (s.keep v).1.Within p := fun {v} hv i hi =>
    hv i (Value.nodes_keep v s.nextList ▸ hi)
  cases what with
  | cell v | featureFile v | directory v | row v => exact hkeep h
  | _ => exact h

/-- Keeping the lists of what is made edits nothing else. -/
theorem edits_keep (q : NodeId → Prop) (what : Making) (s : Store) :
    Store.Edits q s (what.keep s).2 := by
  cases what with
  | cell v | featureFile v | directory v | row v => exact .keep q s v
  | _ => exact .refl q s

end Making

/-- Every node in data for a row satisfies a condition. -/
def RowData.Within (p : NodeId → Prop) : RowData → Prop
  | .mapping pairs => ∀ pair ∈ pairs, pair.1.Within p ∧ pair.2.Within p
  | .sequence items => ∀ v ∈ items, v.Within p
  | .unsupported _ => True

/-- What a program can do with the nodes of a store. -/
inductive Operation where
  /-- Makes a node and lets a name hold it. -/
  | make (what : Making) (name : String)
  /-- Lets a name hold a node or nothing, instead of what it held before. -/
  | hold (name : String) (node : Option NodeId)
  /-- Forgets a name. -/
  | release (name : String)
  /-- Changes the dialect that holds where none is named. -/
  | speak (dialect : Value)
  | addFeatureFile (directory file : NodeId)
  | addDirectory (directory inner : NodeId)
  /-- Adds a row to examples, and may let a name hold the row. -/
  | addRow (examples : NodeId) (data : RowData) (name : Option String)
  | removeRow (examples : NodeId) (data : RowData)
  | adopt (parent child : NodeId)
  | disown (parent child : NodeId)
  | assign (node : NodeId) (name : String) (v : Value)
  | append (node : NodeId) (name : String) (v : Value)

namespace Operation

/-- Every node that an operation works with satisfies a condition. -/
def Within (p : NodeId → Prop) : Operation → Prop
  | .make what _ => what.Within p
  | .hold _ node => ∀ i ∈ node, p i
  | .release _ | .speak _ => True
  | .addFeatureFile i j | .addDirectory i j | .adopt i j | .disown i j => p i ∧ p j
  | .addRow i data _ | .removeRow i data => p i ∧ data.Within p
  | .assign i _ v | .append i _ v => p i ∧ v.Within p

/-- Nodes are made, put into directories, given rows and let go of, but not attached or changed by
hand. -/
def IsOrderly : Operation → Prop
  | .adopt _ _ | .disown _ _ | .assign _ _ _ | .append _ _ _ => False
  | _ => True

end Operation

namespace Store

/-- What an operation does. -/
def perform (s : Store) : Operation → Except Fault Store
  | .make what name => do
    let (what, s) := what.keep s
    let (i, s) := s.plant (← what.node s.dialect)
    return s.hold name (some i)
  | .hold name node => .ok (s.hold name node)
  | .release name => .ok (s.release name)
  | .speak dialect => .ok { s with dialect }
  | .addFeatureFile directory file => s.addFeatureFile directory file
  | .addDirectory directory inner => s.addDirectory directory inner
  | .addRow i data name => do
    let (row, s) ← s.addRow i data
    return (name.map fun name => s.hold name (some row)).getD s
  | .removeRow i data => s.removeRow i data
  | .adopt parent child => s.adopt parent child
  | .disown parent child => .ok (s.disown parent child)
  | .assign i name v => s.assign i name v
  | .append i name v => s.append i name v

/-- The store after an operation, which is the same store if the operation fails. -/
def next (s : Store) (op : Operation) : Store :=
  match s.perform op with
  | .ok t => t
  | .error _ => s

/-- The stores that a run leads to, from an empty one, by operations of a sort that work with nodes
in reach. -/
inductive Reached (sort : Operation → Prop) : Store → Prop where
  | start (dialect : Value) : Reached sort { dialect }
  | step {s : Store} (op : Operation) : Reached sort s → sort op → op.Within s.Reaches →
      Reached sort (s.next op)

/-- The stores that a run leads to by operations that are of a sort where they are done. -/
inductive ReachedBy (sort : Store → Operation → Prop) : Store → Prop where
  | start (dialect : Value) : ReachedBy sort { dialect }
  | step {s : Store} (op : Operation) : ReachedBy sort s → sort s op → op.Within s.Reaches →
      ReachedBy sort (s.next op)

/-- Stores reached by operations of one sort in each store are reached by operations of a weaker
sort. -/
theorem ReachedBy.reached {sort : Store → Operation → Prop} {sort' : Operation → Prop} {s : Store}
    (h : s.ReachedBy sort) (hsort : ∀ s op, sort s op → sort' op) : s.Reached sort' := by
  induction h with
  | start dialect => exact .start dialect
  | step op _ hop hwithin ih => exact ih.step op (hsort _ op hop) hwithin

/-! ### What each operation is made of -/

variable {s t u : Store} {p q : NodeId → Prop}

/-- Attaching a node that has a parent does nothing, and one that has none sets it. -/
theorem adopt_inv {parent child : NodeId} (h : s.adopt parent child = .ok t) :
    (s.parent? child = some parent ∧ t = s)
      ∨ (s.parent? child = none ∧ t = s.setParent (some parent) child) := by
  rw [adopt] at h
  split at h
  · next hn =>
    cases h
    exact .inr ⟨hn, rfl⟩
  · next current hc =>
    split at h
    · next heq =>
      cases h
      exact .inl ⟨heq ▸ hc, rfl⟩
    · cases h

/-- Detaching a node does nothing, or takes its parent away. -/
theorem disown_inv (s : Store) (parent child : NodeId) :
    s.disown parent child = s
      ∨ (s.parent? child = some parent ∧ s.disown parent child = s.setParent none child) := by
  rw [disown]
  split
  · next h => exact .inr ⟨h, rfl⟩
  · exact .inl rfl

/-- Adding to a directory attaches the node and then edits by that node only. -/
theorem addTo_inv {directory child : NodeId} {field : ListField}
    (h : s.addTo directory field child = .ok t) :
    ∃ u, s.adopt directory child = .ok u ∧ Edits (· = child) u t := by
  obtain ⟨e, -, h⟩ := bind_ok h
  split at h
  · cases h
  · obtain ⟨_, -, h⟩ := bind_ok h
    obtain ⟨u, hu, h⟩ := bind_ok h
    exact ⟨u, hu, edits_append (by simp) directory _ t h⟩

/-- Adding a file attaches it and then edits by that file only. -/
theorem addFeatureFile_inv {directory file : NodeId} (h : s.addFeatureFile directory file = .ok t) :
    ∃ u, s.adopt directory file = .ok u ∧ Edits (· = file) u t := by
  obtain ⟨_, -, h⟩ := bind_ok h
  exact addTo_inv h

/-- Adding a directory attaches it and then edits by that directory only. -/
theorem addDirectory_inv {directory inner : NodeId} (h : s.addDirectory directory inner = .ok t) :
    ∃ u, s.adopt directory inner = .ok u ∧ Edits (· = inner) u t := by
  obtain ⟨_, -, h⟩ := bind_ok h
  exact addTo_inv h

/-- A row is added by planting it, attaching it and putting it at the end of the rows. -/
theorem addRow_inv {i row : NodeId} {data : RowData} (h : s.addRow i data = .ok (row, t)) :
    ∃ (texts : List Text) (u w : Store),
      s.plant (Node.ofValues (texts.map .text)) = (row, u) ∧ u.adopt i row = .ok w
        ∧ w.append i (Attribute.list .rows).name (.node row) = .ok t := by
  obtain ⟨_, -, h⟩ := bind_ok h
  obtain ⟨rows, -, h⟩ := bind_ok h
  split at h
  · obtain ⟨_, -, h⟩ := bind_ok h
    obtain ⟨_, -, h⟩ := bind_ok h
    cases h
  · obtain ⟨texts, -, h⟩ := bind_ok h
    obtain ⟨w, hw, h⟩ := bind_ok h
    obtain ⟨x, hx, h⟩ := bind_ok h
    cases h
    exact ⟨texts, _, w, rfl, hw, hx⟩

/-- A row that is added is the top of a planted tree, attached to the examples. -/
theorem exists_grown_of_addRow {i row : NodeId} {data : RowData} (q : NodeId → Prop)
    (h : s.addRow i data = .ok (row, t)) :
    ∃ u w : Store, Grown q s u [row] ∧ Ascends s u ∧ u.adopt i row = .ok w
      ∧ w.append i (Attribute.list .rows).name (.node row) = .ok t := by
  obtain ⟨texts, u, w, hplant, hw, happend⟩ := addRow_inv h
  have hwithin : (Node.ofValues (texts.map .text)).Within q := Node.within_ofValues (by simp)
  have hgrown := grown_plant hwithin s
  have hascends := ascends_plant hwithin s
  rw [hplant] at hgrown hascends
  exact ⟨u, w, hgrown, hascends, hw, happend⟩

/-- Data takes a row out of examples: it is the first one that holds the values of the data. -/
def TakesOut (s : Store) (i : NodeId) (data : RowData) (row : NodeId) : Prop :=
  ∃ values rows members n, s.rowTexts i data = .ok values ∧ s.argumentRows i = .ok rows
    ∧ rows.members = .ok members ∧ s.findRow values 1 members = .ok (some (n, .node row))

/-- Erasing an item brings no nodes in. -/
theorem mem_nodesOfItems_eraseIdx (n : Nat) (items : List Value) :
    ∀ i ∈ Value.nodesOfItems (items.eraseIdx n), i ∈ Value.nodesOfItems items ∨ False := by
  intro i hi
  rw [Value.mem_nodesOfItems] at hi
  obtain ⟨v, hv, hi⟩ := hi
  exact .inl (Value.mem_nodesOfItems.mpr ⟨v, List.mem_of_mem_eraseIdx hv, hi⟩)

/-- A row is removed by taking it out of the rows and detaching it. -/
theorem removeRow_inv {i : NodeId} {data : RowData} (h : s.removeRow i data = .ok t) :
    t = s ∨ ∃ row u, s.TakesOut i data row ∧ Edits (fun _ => False) s u ∧ t = u.disown i row := by
  obtain ⟨_, -, h⟩ := bind_ok h
  obtain ⟨values, hvalues, h⟩ := bind_ok h
  obtain ⟨rows, hrows, h⟩ := bind_ok h
  obtain ⟨members, hmembers, h⟩ := bind_ok h
  obtain ⟨found, hfound, h⟩ := bind_ok h
  split at h
  · next n row =>
    obtain ⟨u, hu, h⟩ := bind_ok h
    cases h
    exact .inr ⟨row, u, ⟨values, rows, members, n, hvalues, hrows, hmembers, hfound⟩,
      edits_changeList (mem_nodesOfItems_eraseIdx n) i _ u hu, rfl⟩
  · cases h
    exact .inl rfl

/-! ### Nothing comes back into reach -/

/-- A node that is in reach, or was not there before. -/
def Known (s : Store) (i : NodeId) : Prop := s.size ≤ i ∨ s.Reaches i

/-- A change that adds ways to known nodes only brings nothing back into reach. -/
theorem Reaches.of_adds (h : Adds s.Known s t) {i : NodeId} (hr : t.Reaches i) :
    i < s.size → s.Reaches i := by
  have hknown : ∀ {i}, i < s.size → s.Known i → s.Reaches i := fun hi hk =>
    hk.resolve_left (Nat.not_le.mpr hi)
  induction hr with
  | held _ hm =>
    intro hi
    rcases h.roots _ hm with hm | hm
    · exact .held hi hm
    · exact hknown hi hm
  | @owned j i _ _ hm ih =>
    intro hi
    rcases h.parts j _ hm with hm | hm
    · obtain ⟨e, he, -⟩ := mem_parts.mp hm
      exact .owned (ih (get?_lt he)) hi hm
    · exact hknown hi hm

/-- Adding some nodes is adding no more than any further ones. -/
theorem Adds.mono (h : Adds p s t) (hpq : ∀ i, p i → q i) : Adds q s t :=
  ⟨fun i hi => (h.roots i hi).imp_right (hpq i), fun j i hi => (h.parts j i hi).imp_right (hpq i)⟩

/-- Attaching a node adds no parts. -/
theorem adds_adopt {parent child : NodeId} (h : s.adopt parent child = .ok t) : Adds q s t := by
  rcases adopt_inv h with ⟨-, rfl⟩ | ⟨-, rfl⟩
  · exact .refl q _
  · exact .setParent q s _ _

/-- Detaching a node adds no parts. -/
theorem adds_disown (s : Store) (parent child : NodeId) : Adds q s (s.disown parent child) := by
  rcases disown_inv s parent child with h | ⟨-, h⟩
  · rw [h]
    exact .refl q s
  · rw [h]
    exact .setParent q s none child

/-- Making a node plants its tree in a store with the same nodes, and lets a name hold the top. -/
theorem make_inv {what : Making} {name : String} (h : s.perform (.make what name) = .ok t) :
    ∃ n u, (what.keep s).1.node (what.keep s).2.dialect = .ok n
      ∧ (what.keep s).2.plant n = u ∧ t = u.2.hold name (some u.1) := by
  obtain ⟨n, hn, h⟩ := bind_ok h
  cases h
  exact ⟨n, _, hn, rfl, rfl⟩

/-- Making a node of the kind of its record plants the tree of the record. -/
theorem perform_make_record {r : Record} (h : r.isSound = true) (name : String) :
    s.perform (.make (.record r.kind r) name)
      = .ok ((s.plant (Node.ofRecord none r)).2.hold name
          (some (s.plant (Node.ofRecord none r)).1)) := by
  have hbuild : Node.build r = .ok (Node.ofRecord none r) := if_pos h
  -- a record is a recursive type, so that only `cases` shows that it is made of its fields
  have hself : (Making.record r.kind r).node s.dialect = Node.build r := by
    cases r
    rfl
  simp only [perform, Making.keep, hself, hbuild, bind, Except.bind, pure, Except.pure]

/-- Every operation adds ways to known nodes only. -/
theorem adds_perform {op : Operation} (hop : op.Within s.Reaches) (h : s.perform op = .ok t) :
    Adds s.Known s t := by
  have hknown : ∀ {c : NodeId}, s.Reaches c → ∀ i, i = c → s.Known i := by
    rintro c hc _ rfl
    exact .inr hc
  cases op with
  | make what name =>
    obtain ⟨n, u, hn, rfl, rfl⟩ := make_inv h
    have hgrown := grown_plant (Making.node_gives _ (Making.within_keep hop s) n hn)
      (what.keep s).2
    have hkeep := Making.edits_keep s.Known what s
    have hadds : Adds s.Known (what.keep s).2 _ := hgrown.adds.mono fun i hi => by
      rwa [hkeep.size_eq] at hi
    refine (hkeep.toAdds.trans hadds).trans (Edits.hold ?_ _ name).toAdds
    rintro i ⟨⟩
    exact .inl (hkeep.size_eq ▸ (hgrown.tops_new _ (by simp)).1)
  | hold name node =>
    cases h
    exact (Edits.hold (fun i hi => .inr (hop i hi)) s name).toAdds
  | release name =>
    cases h
    exact (Edits.release _ s name).toAdds
  | speak dialect =>
    cases h
    exact ⟨fun _ => .inl, fun _ _ => .inl⟩
  | addFeatureFile directory file =>
    obtain ⟨u, hu, ht⟩ := addFeatureFile_inv h
    exact (adds_adopt hu).trans (ht.toAdds.mono (hknown hop.2))
  | addDirectory directory inner =>
    obtain ⟨u, hu, ht⟩ := addDirectory_inv h
    exact (adds_adopt hu).trans (ht.toAdds.mono (hknown hop.2))
  | addRow i data name =>
    obtain ⟨⟨row, x⟩, hx, h⟩ := bind_ok h
    obtain ⟨u, w, hgrown, -, hw, happend⟩ := exists_grown_of_addRow s.Reaches hx
    have hedits : Edits (· = row) w x := edits_append (by simp) i _ x happend
    have hrow : s.Known row := .inl (hgrown.tops_new row (by simp)).1
    have hadds : Adds s.Known s x := by
      refine (hgrown.adds.trans (adds_adopt hw)).trans (hedits.toAdds.mono ?_)
      rintro _ rfl
      exact hrow
    cases name with
    | none =>
      cases h
      exact hadds
    | some name =>
      cases h
      refine hadds.trans (Edits.hold ?_ x name).toAdds
      rintro _ ⟨⟩
      exact hrow
  | removeRow i data =>
    rcases removeRow_inv h with rfl | ⟨row, u, -, hu, rfl⟩
    · exact .refl _ _
    · exact (hu.toAdds.mono nofun).trans (adds_disown u i row)
  | adopt parent child => exact adds_adopt h
  | disown parent child =>
    cases h
    exact adds_disown s parent child
  | assign i name v => exact (edits_assign hop.2 t h).toAdds.mono fun _ => .inr
  | append i name v => exact (edits_append hop.2 i name t h).toAdds.mono fun _ => .inr

/-- After an operation that succeeds the store is what it gives. -/
theorem next_of_ok {op : Operation} (h : s.perform op = .ok t) : s.next op = t := by
  rw [next, h]

/-- After an operation that fails the store is what it was. -/
theorem next_of_error {op : Operation} {f : Fault} (h : s.perform op = .error f) :
    s.next op = s := by
  rw [next, h]

/-- What is in reach after an operation was in reach before, unless the operation made it. -/
theorem Reaches.of_next {op : Operation} (hop : op.Within s.Reaches) {i : NodeId}
    (hr : (s.next op).Reaches i) (hi : i < s.size) : s.Reaches i := by
  cases h : s.perform op with
  | error f =>
    rwa [next_of_error h] at hr
  | ok t =>
    rw [next_of_ok h] at hr
    exact hr.of_adds (adds_perform hop h) hi

end Store

end FeatureTree
