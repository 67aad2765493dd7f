import FeatureTree.Proofs.Store.Acyclic
import FeatureTree.Proofs.Store.ExampleRows

/-!
# Rows that are added and rows that are removed

Examples list their rows, and the rows are attached to them. A row that is added is a new node
behind the others; the row that is removed is the first one after the row of parameters that holds
the values of the data, and no other row notices. Adding and removing turn data into values in the
same way, so a row that is added can be removed by the same data, unless an earlier row holds the
same values: then that one goes, and what the rows of arguments hold is the same, but for its order.

The same node may stand among the rows more than once, and examples and rows may have been given
whatever else, as long as nothing takes the place of the rows and of what is done with them.

## Main results

* `Store.HasRows.exists_addRow`: what adding a row does
* `Store.HasRows.exists_removeRow`: what removing a row does
* `Store.addRow_removeRow`: adding and removing by the same data
-/

namespace FeatureTree

namespace Store

variable {s t u : Store} {i c : NodeId} {e : Entry} {data : RowData} {texts : List Text}

/-! ### Lists whose place nothing takes -/

/-- A list of nodes is what a node has by its name, unless something else was given in its place. -/
theorem listNamed_of_not_given {field : ListField} {parts : List NodeId} (he : s.get? i = some e)
    (hg : Value.lookup (Attribute.list field).name e.given = none)
    (hl : e.shape.list? field = some parts) :
    s.listNamed i (Attribute.list field).name = .ok (.list (parts.map .node)) := by
  simp only [listNamed, content, get_eq_ok.mpr he, following?_list, bind, Except.bind,
    stored_of_not_given he hg (by simp), Entry.own, hl]
  rfl

/-- Changing a list of nodes changes the list in the shape, unless something else was given in its
place. -/
theorem changeList_of_not_given {field : ListField} {parts parts' : List NodeId}
    {shape : Shape NodeId} {f : List Value → List Value} (he : s.get? i = some e)
    (hg : Value.lookup (Attribute.list field).name e.given = none)
    (hl : e.shape.list? field = some parts) (hs : e.shape.setList field parts' = some shape)
    (hf : f (parts.map .node) = parts'.map .node) :
    s.changeList i (Attribute.list field).name f = .ok (s.update i ({ · with shape })) := by
  have hget : s.get i = .ok e := get_eq_ok.mpr he
  have hlist := listNamed_of_not_given he hg hl
  have hgiven : e.given.filter (·.1 != (Attribute.list field).name) = e.given := by
    rw [List.filter_eq_self]
    intro g hmem
    have hne := lookup_eq_none_iff_not_mem.mp hg
    simpa using fun heq => hne (List.mem_map.mpr ⟨g, hmem, heq⟩)
  have hassign : e.assign (Attribute.list field).name (.list (parts'.map .node))
      = { e with shape } := by
    simp only [Entry.assign, Attribute.ofName?_name, Entry.fill?, onlyNodes?_ofNodes, hs, bind,
      Option.bind, pure, Entry.withhold, hgiven]
  simp only [changeList, hlist, hget, following?_list, bind, Except.bind, Value.items?,
    Option.getD_some, hf]
  refine congrArg Except.ok (update_congr fun g hg => ?_)
  rw [Option.some.inj (hg.symm.trans he), hassign]

/-! ### Comparing with texts -/

/-- Comparing a value with a text succeeds, and says whether it is that text. -/
theorem agreesBy_text (same : NodeId → NodeId → Except Fault Bool) (v : Value) (t : Text) :
    ∃ b, v.agreesBy same (.text t) = .ok b ∧ (b = true ↔ v = .text t) := by
  cases v with
  | text u => exact ⟨decide (u = t), rfl, by simp⟩
  | float x =>
    have hkey : Value.sameKey (.float x) (.text t) = false := by
      simp [Value.sameKey, Value.sameKey.number?]
    exact ⟨false, congrArg Except.ok hkey, by simp⟩
  | _ => exact ⟨false, rfl, by simp⟩

/-- Comparing values with texts always gives an answer: whether they are these texts. -/
theorem agreesBy_texts (same : NodeId → NodeId → Except Fault Bool) (values : List Value)
    (texts : List Text) : ∃ b, (Value.list values).agreesBy same (.list (texts.map .text)) = .ok b
      ∧ (b = true ↔ values = texts.map .text) := by
  have heach : ∀ (values : List Value) (texts : List Text), values.length = texts.length →
      ∃ b, Value.agreesEachBy same values (texts.map .text) = .ok b
        ∧ (b = true ↔ values = texts.map .text) := by
    intro values
    induction values with
    | nil =>
      intro texts hlength
      obtain rfl := List.length_eq_zero_iff.mp hlength.symm
      exact ⟨true, rfl, by simp⟩
    | cons v values ih =>
      intro texts hlength
      obtain ⟨t, texts, rfl⟩ := List.exists_cons_of_length_eq_add_one hlength.symm
      obtain ⟨first, hfirst, hiff⟩ := agreesBy_text same v t
      obtain ⟨rest, hrest, hrestIff⟩ := ih texts (Nat.succ.inj hlength)
      refine ⟨first && rest, ?_, by simp [hiff, hrestIff]⟩
      simp only [List.map_cons, Value.agreesEachBy, hfirst, hrest, bind, Except.bind]
      cases first <;> rfl
  rw [Value.agreesBy, Value.items?]
  by_cases hlength : values.length = (texts.map Value.text).length
  · simp only [hlength, if_true]
    exact heach values texts (by simpa using hlength)
  · simp only [hlength, if_false]
    exact ⟨false, rfl, by simpa using fun heq => hlength (congrArg List.length heq)⟩

/-- The search for a row goes to the first one that holds the values. -/
theorem findRow_cases (texts : List Text) {rows : List (NodeId × List Value)}
    (hrows : ∀ r ∈ rows, s.valuesOf (.node r.1) = .ok (.list r.2)) (k : Nat) :
    ((∀ r ∈ rows, r.2 ≠ texts.map .text)
        ∧ s.findRow texts k (rows.map fun r => .node r.1) = .ok none)
      ∨ ∃ before row after, rows = before ++ row :: after
        ∧ (∀ r ∈ before, r.2 ≠ texts.map .text) ∧ row.2 = texts.map .text
        ∧ s.findRow texts k (rows.map fun r => .node r.1)
          = .ok (some (k + before.length, .node row.1)) := by
  induction rows generalizing k with
  | nil => exact .inl ⟨by simp, rfl⟩
  | cons row rows ih =>
    rw [List.forall_mem_cons] at hrows
    obtain ⟨same, hsame, hiff⟩ := agreesBy_texts s.equals row.2 texts
    cases same with
    | true =>
      refine .inr ⟨[], row, rows, rfl, by simp, hiff.mp rfl, ?_⟩
      simp only [List.map_cons, findRow, hrows.1, hsame, bind, Except.bind]
      rfl
    | false =>
      have hne : row.2 ≠ texts.map .text := fun heq => Bool.noConfusion (hiff.mpr heq)
      have hnext : s.findRow texts k ((row :: rows).map fun r => .node r.1)
          = s.findRow texts (k + 1) (rows.map fun r => .node r.1) := by
        simp only [List.map_cons, findRow, hrows.1, hsame, bind, Except.bind]
        rfl
      rw [hnext]
      rcases ih hrows.2 (k + 1) with ⟨hnone, hfind⟩ | ⟨before, r, after, rfl, hbefore, hr, hfind⟩
      · exact .inl ⟨List.forall_mem_cons.mpr ⟨hne, hnone⟩, hfind⟩
      · refine .inr ⟨row :: before, r, after, rfl, List.forall_mem_cons.mpr ⟨hne, hbefore⟩, hr, ?_⟩
        rw [hfind, List.length_cons]
        exact congrArg (fun n => Except.ok (some (n, Value.node r.1))) (by omega)

/-! ### What is read of rows -/

/-- Nothing that the values of rows are read from was lost: every node is still there with what it
was given, and in another shape only if it is, and was, examples. -/
def Rereads (s t : Store) : Prop :=
  ∀ j e, s.get? j = some e → ∃ f, t.get? j = some f ∧ f.given = e.given
    ∧ (f.shape = e.shape ∨ (e.shape.kind = .example ∧ f.shape.kind = .example))

/-- What is reread after two steps is reread after both. -/
theorem Rereads.trans (h : Rereads s t) (h' : Rereads t u) : Rereads s u := by
  intro j e he
  obtain ⟨f, hf, hgiven, hshape⟩ := h j e he
  obtain ⟨g, hg, hgiven', hshape'⟩ := h' j f hf
  refine ⟨g, hg, hgiven'.trans hgiven, ?_⟩
  rcases hshape with hshape | ⟨hk, hk'⟩
  · rwa [← hshape]
  · rcases hshape' with hshape' | ⟨-, hk''⟩
    · exact .inr ⟨hk, hshape' ▸ hk'⟩
    · exact .inr ⟨hk, hk''⟩

/-- Growing leaves old rows readable. -/
theorem Grown.rereads {r : NodeId → Prop} {tops : List NodeId} (h : Grown r s t tops) :
    Rereads s t := fun j e he =>
  ⟨e, (h.old j (get?_lt he)).trans he, rfl, .inl rfl⟩

/-- Reshaping a table of examples leaves rows readable. -/
theorem Reshaped.rereads {shape : Shape NodeId} (h : Reshaped s t i shape)
    (he : s.get? i = some e) (hk : e.shape.kind = .example) (hk' : shape.kind = .example) :
    Rereads s t := by
  intro j g hg
  have hj := h.entries j
  rw [hg] at hj
  obtain ⟨f, hf, heq⟩ := Option.map_eq_some_iff.mp hj
  obtain ⟨hshape, hgiven⟩ := Prod.mk.inj heq
  refine ⟨f, hf, hgiven, ?_⟩
  rw [hshape]
  split
  · next hji =>
    obtain rfl : e = g := Option.some.inj (he.symm.trans (hji ▸ hg))
    exact .inr ⟨hk, hk'⟩
  · exact .inl rfl

/-- What rows and cells are asked for is still there. -/
theorem Rereads.stored (h : Rereads s t) {a : Attribute} {x : Content}
    (ha : a ∈ [Attribute.list .cells, .text .value, .values])
    (hx : s.stored i a.name = .ok x) : t.stored i a.name = .ok x := by
  have hname : a ≠ .text .name := by
    rintro rfl
    simp at ha
  obtain ⟨e, he, -⟩ := bind_ok hx
  obtain ⟨f, hf, hgiven, hshape⟩ := h i e (get_eq_ok.mp he)
  cases hl : Value.lookup a.name e.given with
  | some v =>
    rw [stored_of_given (get_eq_ok.mp he) hl] at hx
    rw [stored_of_given hf (hgiven ▸ hl), hx]
  | none =>
    have hown : f.own a = e.own a := by
      rcases hshape with hshape | ⟨hk, hk'⟩
      · simp only [List.mem_cons, List.not_mem_nil, or_false] at ha
        rcases ha with rfl | rfl | rfl <;> simp only [Entry.own, hshape]
      · cases hs : e.shape <;> rw [hs] at hk <;> cases hk
        cases hs' : f.shape <;> rw [hs'] at hk' <;> cases hk'
        simp only [List.mem_cons, List.not_mem_nil, or_false] at ha
        rcases ha with rfl | rfl | rfl <;>
          simp [Entry.own, hs, hs', Shape.list?, Shape.field?]
    rw [stored_of_not_given (get_eq_ok.mp he) hl hname] at hx
    rw [stored_of_not_given hf (hgiven ▸ hl) hname, hown, hx]

/-- What a row or a cell gave it gives again. -/
theorem Rereads.valueOf (h : Rereads s t) {a : Attribute} {x : Value}
    (ha : a ∈ [Attribute.list .cells, .text .value, .values]) (hx : s.valueOf i a = .ok x) :
    t.valueOf i a = .ok x := by
  cases hstored : s.stored i a.name with
  | error f =>
    rw [Store.valueOf, hstored] at hx
    cases hx
  | ok y =>
    rw [Store.valueOf, hstored] at hx
    rw [Store.valueOf, h.stored ha hstored, hx]

/-- A row has the same values again. -/
theorem Rereads.rowValues (h : Rereads s t) {values : List Value}
    (hvalues : s.rowValues i = .ok values) : t.rowValues i = .ok values := by
  obtain ⟨cells, hcells, hvalues⟩ := bind_ok hvalues
  obtain ⟨list, hlist, hmembers⟩ := bind_ok hcells
  have hcells : t.listed i .cells = .ok cells := by
    simp only [listed, h.valueOf (by simp) hlist, hmembers, bind, Except.bind]
  have hasked : cells.mapM (t.ask · (.text .value)) = .ok values := by
    refine mapM_of_forall₂ ((forall₂_of_mapM hvalues).imp fun v w hvw => ?_)
    cases v with
    | node k => exact h.valueOf (by simp) hvw
    | _ => cases hvw
  simp only [Store.rowValues, hcells, hasked, bind, Except.bind]

/-- The values of rows stay. -/
theorem Rereads.valuesOf (h : Rereads s t) {v w : Value} (hv : s.valuesOf v = .ok w) :
    t.valuesOf v = .ok w := by
  cases v with
  | node j =>
    obtain ⟨e, he, hv⟩ := bind_ok hv
    obtain ⟨f, hf, -, hshape⟩ := h j e (get_eq_ok.mp he)
    have hkind : f.shape.kind = e.shape.kind := by
      rcases hshape with hshape | ⟨hk, hk'⟩
      · rw [hshape]
      · rw [hk, hk']
    simp only [Store.valuesOf, get_eq_ok.mpr hf, hkind, bind, Except.bind]
    split at hv
    · next hk =>
      rw [if_pos hk]
      obtain ⟨values, hvalues, hv⟩ := bind_ok hv
      rw [h.rowValues hvalues]
      exact hv
    · next hk =>
      rw [if_neg hk]
      exact h.valueOf (by simp) hv
  | _ => cases hv

/-! ### Nothing but one node is another -/

/-- Every node is still there with what it was given, and is what it was, but for one node. -/
def SameBut (i : NodeId) (s t : Store) : Prop :=
  ∀ j e, s.get? j = some e → ∃ f, t.get? j = some f ∧ f.given = e.given
    ∧ (j ≠ i → f.shape = e.shape)

/-- A store is the same as itself. -/
theorem SameBut.refl (i : NodeId) (s : Store) : SameBut i s s := fun _ e he =>
  ⟨e, he, rfl, fun _ => rfl⟩

/-- Stores that are the same but for one node are so over two steps. -/
theorem SameBut.trans (h : SameBut i s t) (h' : SameBut i t u) : SameBut i s u := by
  intro j e he
  obtain ⟨f, hf, hgiven, hshape⟩ := h j e he
  obtain ⟨g, hg, hgiven', hshape'⟩ := h' j f hf
  exact ⟨g, hg, hgiven'.trans hgiven, fun hne => (hshape' hne).trans (hshape hne)⟩

/-- Growing leaves all old nodes the same. -/
theorem Grown.sameBut {r : NodeId → Prop} {tops : List NodeId} (h : Grown r s t tops) :
    SameBut i s t := fun j e he => ⟨e, (h.old j (get?_lt he)).trans he, rfl, fun _ => rfl⟩

/-- Reshaping a node leaves all others the same. -/
theorem Reshaped.sameBut {shape : Shape NodeId} (h : Reshaped s t i shape) : SameBut i s t := by
  intro j e he
  have hj := h.entries j
  rw [he] at hj
  obtain ⟨f, hf, heq⟩ := Option.map_eq_some_iff.mp hj
  obtain ⟨hshape, hgiven⟩ := Prod.mk.inj heq
  exact ⟨f, hf, hgiven, fun hne => hshape.trans (if_neg hne)⟩

/-- A node gets another shape and loses a part, which may have been attached elsewhere. -/
theorem reshaped_update_disown (s : Store) (i c : NodeId) (shape : Shape NodeId) :
    Reshaped s ((s.update i ({ · with shape })).disown i c) i shape := by
  have hupdate : Reshaped s (s.update i ({ · with shape })) i shape := by
    refine ⟨size_update .., fun j => ?_⟩
    rw [get?_update]
    by_cases hij : i = j
    · simp only [if_pos hij, if_pos hij.symm]
      cases s.get? j <;> rfl
    · simp only [if_neg hij, if_neg (Ne.symm hij)]
  rcases disown_inv (s.update i ({ · with shape })) i c with heq | ⟨-, heq⟩ <;> rw [heq]
  · exact hupdate
  · refine ⟨(size_update ..).trans hupdate.size_eq, fun j => ?_⟩
    rw [← hupdate.entries j, setParent, get?_update]
    split
    · cases (s.update i ({ · with shape })).get? j <;> rfl
    · rfl

/-! ### Examples with their rows -/

/-- Examples list some rows, each with its values, and nothing takes the place of the rows or of
what is done with them. -/
structure ListsRows (s : Store) (i : NodeId) (rows : List (NodeId × List Value)) : Prop where
  entry : ∃ e title tags, s.get? i = some e ∧ e.shape = .example title tags (rows.map Prod.fst)
    ∧ ∀ name ∈ ["rows", "add_row", "remove_row"], Value.lookup name e.given = none
  values : ∀ r ∈ rows, s.valuesOf (.node r.1) = .ok (.list r.2)

/-- Examples list some rows, which are attached to them. -/
structure HasRows (s : Store) (i : NodeId) (rows : List (NodeId × List Value)) : Prop
    extends ListsRows s i rows where
  attached : ∀ r ∈ rows, s.parent? r.1 = some i

/-- The parameters of examples with some rows: the values of the first one, if there is one. -/
def parametersOf (rows : List (NodeId × List Value)) : List Value :=
  (rows.head?.map Prod.snd).getD []

variable {rows rows' : List (NodeId × List Value)} {first : NodeId × List Value}

namespace ListsRows

/-- A table that lists rows answers with them. -/
theorem valueOf_rows (h : s.ListsRows i rows) :
    s.valueOf i (.list .rows) = .ok (Value.ofNodes (rows.map Prod.fst)) := by
  obtain ⟨e, title, tags, he, hs, hg⟩ := h.entry
  rw [valueOf, stored_of_not_given he (hg _ (by simp [Attribute.name])) (by simp), Entry.own, hs]
  rfl

/-- A table that lists rows has them under the name of its rows. -/
theorem listNamed_rows (h : s.ListsRows i rows) :
    s.listNamed i (Attribute.list .rows).name = .ok (Value.ofNodes (rows.map Prod.fst)) := by
  obtain ⟨e, title, tags, he, hs, hg⟩ := h.entry
  exact listNamed_of_not_given he (hg _ (by simp [Attribute.name])) (by rw [hs]; rfl)

/-- A table that lists rows lists them as nodes. -/
theorem listed_rows (h : s.ListsRows i rows) :
    s.listed i .rows = .ok ((rows.map Prod.fst).map .node) := by
  simp only [listed, h.valueOf_rows, bind, Except.bind]
  rfl

/-- A table that lists rows can be asked to add and to remove some. -/
theorem needExamples (h : s.ListsRows i rows) {operation : String}
    (hop : operation ∈ ["add_row", "remove_row"]) : s.needExamples i operation = .ok () := by
  obtain ⟨e, title, tags, he, hs, hg⟩ := h.entry
  have hcalls := calls_of_not_given he (hg operation (List.mem_cons_of_mem _ hop))
  simp only [Store.needExamples, hcalls, get_eq_ok.mpr he, hs, bind, Except.bind]
  rfl

/-- The parameters are the values of the first row. -/
theorem parameters (h : s.ListsRows i (first :: rows)) :
    s.parameters i = .ok (.list first.2) := by
  have hfirst : s.parameterRow i = .ok (.node first.1) := by
    simp only [parameterRow, h.valueOf_rows, bind, Except.bind, Value.ofNodes, List.map_cons]
    rfl
  simp only [Store.parameters, hfirst, bind, Except.bind]
  exact h.values first List.mem_cons_self

/-- The parameters are the values of the first row, and there are none if there is no row. -/
theorem parameters_eq (h : s.ListsRows i rows) :
    s.parameters i = .ok (.list (parametersOf rows)) := by
  cases rows with
  | nil =>
    simp only [Store.parameters, parameterRow, h.valueOf_rows, bind, Except.bind]
    rfl
  | cons first rows => exact h.parameters

/-- What is read of rows stays where nothing but the examples is another. -/
theorem rereads (h : s.ListsRows i rows) (h' : t.ListsRows i rows') (hsame : SameBut i s t) :
    Rereads s t := by
  intro j e he
  obtain ⟨f, hf, hgiven, hshape⟩ := hsame j e he
  refine ⟨f, hf, hgiven, ?_⟩
  by_cases hj : j = i
  · subst hj
    obtain ⟨_, _, _, he', hs, -⟩ := h.entry
    obtain ⟨_, _, _, hf', hs', -⟩ := h'.entry
    obtain rfl := Option.some.inj (he.symm.trans he')
    obtain rfl := Option.some.inj (hf.symm.trans hf')
    exact .inr ⟨by rw [hs]; rfl, by rw [hs']; rfl⟩
  · exact .inl (hshape hj)

/-- Data stands for the same texts wherever the first row holds the same and the contents of the
data are written in the same way. -/
theorem rowTexts_eq (h : s.ListsRows i (first :: rows)) (h' : t.ListsRows i (first :: rows'))
    (hwritten : ∀ v ∈ data.contents, t.written v = s.written v) :
    t.rowTexts i data = s.rowTexts i data :=
  rowTexts_congr h.parameters h'.parameters hwritten

/-- Examples list other rows once their list is changed. -/
theorem of_reshaped {title : Title} {tags : List NodeId} (h : s.ListsRows i rows)
    (ht : Reshaped s t i (.example title tags (rows'.map Prod.fst)))
    (hrows : ∀ r ∈ rows', s.valuesOf (.node r.1) = .ok (.list r.2)) :
    t.ListsRows i rows' ∧ Rereads s t := by
  obtain ⟨e, _, _, he, hs, hg⟩ := h.entry
  have hrereads := ht.rereads he (by rw [hs]; rfl) rfl
  have hi := ht.entries i
  rw [he, Option.map_some, if_pos rfl] at hi
  obtain ⟨f, hf, heq⟩ := Option.map_eq_some_iff.mp hi
  obtain ⟨hshape, hgiven⟩ := Prod.mk.inj heq
  exact ⟨⟨⟨f, title, tags, hf, hshape, hgiven ▸ hg⟩, fun r hr => hrereads.valuesOf (hrows r hr)⟩,
    hrereads⟩

end ListsRows

/-! ### Adding a row -/

/-- What is in reach stays so when trees are planted. -/
theorem Reaches.of_grown {r : NodeId → Prop} {tops : List NodeId} (hg : Grown r s t tops)
    (h : s.Reaches i) : t.Reaches i := by
  refine h.of_subset hg.le (fun j hj => ?_) fun j k hk => ?_
  · rw [hg.rest]
    exact hj
  · obtain ⟨e, he, hk⟩ := mem_parts.mp hk
    exact mem_parts.mpr ⟨e, (hg.old j (get?_lt he)).trans he, hk⟩

/-- Growing changes nothing about the rows of a table. -/
theorem ListsRows.of_grown {r : NodeId → Prop} {tops : List NodeId} (h : s.ListsRows i rows)
    (hg : Grown r s t tops) : t.ListsRows i rows := by
  obtain ⟨e, title, tags, he, hentry⟩ := h.entry
  exact ⟨⟨e, title, tags, (hg.old i (get?_lt he)).trans he, hentry⟩,
    fun r hr => hg.rereads.valuesOf (h.values r hr)⟩

/-- A row of texts that was planted has these texts as its values. -/
theorem valuesOf_plant_ofValues (texts : List Text) (s : Store) :
    (s.plant (Node.ofValues (texts.map .text))).2.valuesOf
        (.node (s.plant (Node.ofValues (texts.map .text))).1)
      = .ok (.list (texts.map .text)) := by
  have hrow : Node.ofValues (texts.map .text) = Plain.rowNode texts := by
    simp [Node.ofValues, Plain.rowNode, Plain.cellNode, Function.comp_def]
  have hrepresents := represents_plant (Node.ofValues (texts.map .text)) s
  rw [hrow] at hrepresents ⊢
  exact hrepresents.valuesOf_row

/-- A row of texts that is planted is new, attached to nothing, and has these texts as its
values. -/
theorem exists_plant_ofValues (texts : List Text) (s : Store) :
    ∃ row u, s.plant (Node.ofValues (texts.map .text)) = (row, u)
      ∧ Grown (fun _ => True) s u [row] ∧ s.size ≤ row ∧ row < u.size ∧ u.parent? row = none
      ∧ u.valuesOf (.node row) = .ok (.list (texts.map .text)) := by
  have hgrown := grown_plant (Node.within_any (Node.ofValues (texts.map .text))) s
  have hvalues := valuesOf_plant_ofValues texts s
  obtain ⟨row, u, hplant⟩ : ∃ row u, s.plant (Node.ofValues (texts.map .text)) = (row, u) :=
    ⟨_, _, rfl⟩
  rw [hplant] at hgrown hvalues
  obtain ⟨hle, hlt⟩ := hgrown.tops_new row (List.mem_singleton_self row)
  refine ⟨row, u, hplant, hgrown, hle, hlt, Option.eq_none_iff_forall_ne_some.mpr fun p hp => ?_,
    hvalues⟩
  have hp := remembered_of_parent? hp
  rw [hgrown.tops_free row (List.mem_singleton_self row)] at hp
  cases hp

/-- Examples with a row of parameters take a row in whatever data stands for: it is new, stands
behind the others, holds the texts of the data and is attached to the examples. No node that was
there before is attached or detached, and nothing but the list of rows is another. -/
theorem ListsRows.exists_addRow (h : s.ListsRows i (first :: rows))
    (htexts : s.rowTexts i data = .ok texts) :
    ∃ row t, s.addRow i data = .ok (row, t) ∧ s.size ≤ row
      ∧ t.ListsRows i (first :: rows ++ [(row, texts.map .text)])
      ∧ (∀ c < s.size, t.remembered c = s.remembered c) ∧ t.remembered row = some i
      ∧ (s.Reaches i → t.Reaches i) ∧ SameBut i s t := by
  obtain ⟨e, title, tags, he, hs, hg⟩ := h.entry
  obtain ⟨row, u, hplant, hgrown, hle, hlt, hfree, hvalues⟩ := exists_plant_ofValues texts s
  -- the row is attached, and then stands at the end of the list
  have hadopt : u.adopt i row = .ok (u.setParent (some i) row) := adopt_of_none hfree
  have hi : (u.setParent (some i) row).get? i = some e := by
    have hne : row ≠ i := fun heq => Nat.not_lt.mpr hle (heq ▸ get?_lt he)
    rw [setParent, get?_update, if_neg hne, hgrown.old i (get?_lt he), he]
  obtain ⟨shape, hshape⟩ : ∃ shape, shape = Shape.example title tags
      ((first :: rows ++ [(row, texts.map Value.text)]).map Prod.fst) := ⟨_, rfl⟩
  obtain ⟨t, ht⟩ : ∃ t, (u.setParent (some i) row).update i ({ · with shape }) = t := ⟨_, rfl⟩
  have happend : (u.setParent (some i) row).append i (Attribute.list .rows).name (.node row)
      = .ok t := by
    rw [← ht, hshape]
    exact changeList_of_not_given hi (hg _ (by simp [Attribute.name])) (by rw [hs]; rfl)
      (by rw [hs]; rfl) (by simp)
  have hadd : s.addRow i data = .ok (row, t) := by
    have hneed : s.needExamples i "add_row" = .ok () := h.needExamples (by simp)
    have hpresent : (Value.ofNodes ((first :: rows).map Prod.fst)).isPresent = true := rfl
    simp only [Store.addRow, hneed, h.valueOf_rows, hpresent, htexts, hplant, hadopt, happend, bind,
      Except.bind]
    rfl
  obtain ⟨hreshaped, hremembered⟩ := reshaped_adopt shape hlt hadopt
  have hreaches : s.Reaches i → t.Reaches i := fun hi =>
    ht ▸ ((reaches_setParent u (some i) row).mpr (hi.of_grown hgrown)).of_reshaped
  rw [ht] at hreshaped hremembered
  have hold : ∀ c < s.size, t.remembered c = s.remembered c := by
    intro c hc
    have hne : c ≠ row := fun heq => Nat.not_lt.mpr hle (heq ▸ hc)
    rw [hremembered, if_neg hne, hgrown.remembered_old hc]
  have hu := h.of_grown hgrown
  obtain ⟨hlists, -⟩ := hu.of_reshaped (hshape ▸ hreshaped)
    (List.forall_mem_append.mpr ⟨hu.values, by simpa using hvalues⟩)
  exact ⟨row, t, hadd, hle, hlists, hold, (hremembered row).trans (if_pos rfl), hreaches,
    hgrown.sameBut.trans hreshaped.sameBut⟩

/-- A row that is added to examples whose rows are attached to them is attached, too, and what is
read of the other rows stays. -/
theorem HasRows.exists_addRow (h : s.HasRows i (first :: rows))
    (htexts : s.rowTexts i data = .ok texts) :
    ∃ row t, s.addRow i data = .ok (row, t) ∧ s.size ≤ row
      ∧ t.HasRows i (first :: rows ++ [(row, texts.map .text)])
      ∧ (∀ c < s.size, t.remembered c = s.remembered c) ∧ Rereads s t := by
  obtain ⟨row, t, hadd, hle, hlists, hold, hrow, hreaches, hsame⟩ :=
    h.toListsRows.exists_addRow htexts
  have hi : t.Reaches i :=
    hreaches (parent?_eq_some_iff.mp (h.attached first List.mem_cons_self)).2
  refine ⟨row, t, hadd, hle, ⟨hlists, List.forall_mem_append.mpr ⟨fun r hr => ?_, fun r hr => ?_⟩⟩,
    hold, h.toListsRows.rereads hlists hsame⟩
  · have hr := remembered_of_parent? (h.attached r hr)
    exact parent?_eq_some_iff.mpr ⟨(hold r.1 (lt_of_remembered hr)).trans hr, hi⟩
  · obtain rfl := List.mem_singleton.mp hr
    exact parent?_eq_some_iff.mpr ⟨hrow, hi⟩

/-! ### Removing a row -/

/-- The first row of arguments that holds some values is taken out of examples, if there is one: the
other rows stay in their order, and only the row that is taken out is detached. -/
inductive Removes (s : Store) (i : NodeId) (first : NodeId × List Value)
    (rows : List (NodeId × List Value)) (values : List Value) : Store → Prop where
  | nothing (absent : ∀ r ∈ rows, r.2 ≠ values) : Removes s i first rows values s
  | row {before after : List (NodeId × List Value)} {row : NodeId × List Value} {t : Store}
    (split : rows = before ++ row :: after) (absent : ∀ r ∈ before, r.2 ≠ values)
    (holds : row.2 = values) (lists : t.ListsRows i (first :: (before ++ after)))
    (remembered : ∀ c, t.remembered c = if c = row.1 then none else s.remembered c)
    (attached : ∀ c, c ≠ row.1 → s.parent? c = some i → t.parent? c = some i) :
    Removes s i first rows values t

/-- The search for the row to be removed goes to the first row of arguments that holds the texts of
the data. Removing it takes it out of the list and detaches it, if it is attached; the other rows
stay in their order, and nothing else is another. -/
theorem ListsRows.exists_removeRow (h : s.ListsRows i (first :: rows))
    (htexts : s.rowTexts i data = .ok texts) :
    ((∀ r ∈ rows, r.2 ≠ texts.map .text) ∧ s.removeRow i data = .ok s)
      ∨ ∃ before row after shape, rows = before ++ row :: after
        ∧ (∀ r ∈ before, r.2 ≠ texts.map .text) ∧ row.2 = texts.map .text
        ∧ s.removeRow i data = .ok ((s.update i ({ · with shape })).disown i row.1)
        ∧ ((s.update i ({ · with shape })).disown i row.1).ListsRows i (first :: (before ++ after))
        ∧ SameBut i s ((s.update i ({ · with shape })).disown i row.1) := by
  obtain ⟨e, title, tags, he, hs, hg⟩ := h.entry
  have hneed : s.needExamples i "remove_row" = .ok () := h.needExamples (by simp)
  have harguments : s.argumentRows i = .ok (.list (rows.map fun r => .node r.1)) := by
    simp only [argumentRows, h.valueOf_rows, Value.ofNodes, bind, Except.bind, List.map_map]
    rfl
  rcases findRow_cases texts (List.forall_mem_cons.mp h.values).2 1 with
    ⟨habsent, hfind⟩ | ⟨before, row, after, hsplit, habsent, hholds, hfind⟩
  · exact .inl ⟨habsent, removeRow_of_not_found hneed htexts harguments rfl hfind⟩
  · obtain ⟨shape, hshape⟩ : ∃ shape,
        shape = Shape.example title tags ((first :: (before ++ after)).map Prod.fst) := ⟨_, rfl⟩
    have hchange : s.changeList i (Attribute.list .rows).name (·.eraseIdx (1 + before.length))
        = .ok (s.update i ({ · with shape })) := by
      refine changeList_of_not_given he (hg _ (by simp [Attribute.name])) (by rw [hs]; rfl)
        (by rw [hs, hshape]; rfl) ?_
      simp [hsplit, Nat.add_comm 1, List.eraseIdx_append_of_length_le]
    have hremove : s.removeRow i data
        = .ok ((s.update i ({ · with shape })).disown i row.1) := by
      simp only [removeRow, hneed, htexts, harguments, Value.members, hfind, hchange, bind,
        Except.bind]
      rfl
    have hsub : ∀ r ∈ first :: (before ++ after), r ∈ first :: rows := by
      rw [hsplit]
      exact List.cons_subset_cons first (List.Sublist.subset (by simp))
    have hreshaped := reshaped_update_disown s i row.1 shape
    obtain ⟨t, ht⟩ : ∃ t, (s.update i ({ · with shape })).disown i row.1 = t := ⟨_, rfl⟩
    rw [ht] at hremove hreshaped
    obtain ⟨hlists, -⟩ := h.of_reshaped (hshape ▸ hreshaped) fun r hr => h.values r (hsub r hr)
    exact .inr ⟨before, row, after, shape, hsplit, habsent, hholds, ht ▸ hremove, ht ▸ hlists,
      ht ▸ hreshaped.sameBut⟩

/-- Data without texts removes no row: the attempt fails as turning the data into texts does. -/
theorem ListsRows.removeRow_of_error {fault : Fault} (h : s.ListsRows i rows)
    (hfault : s.rowTexts i data = .error fault) : s.removeRow i data = .error fault := by
  have hneed : s.needExamples i "remove_row" = .ok () := h.needExamples (by simp)
  simp only [removeRow, hneed, hfault, bind, Except.bind]

/-- Data without texts adds no row to examples that have rows. -/
theorem ListsRows.addRow_of_error {fault : Fault} (h : s.ListsRows i (first :: rows))
    (hfault : s.rowTexts i data = .error fault) : s.addRow i data = .error fault := by
  have hneed : s.needExamples i "add_row" = .ok () := h.needExamples (by simp)
  have hpresent : (Value.ofNodes ((first :: rows).map Prod.fst)).isPresent = true := rfl
  simp only [addRow, hneed, h.valueOf_rows, hpresent, hfault, bind, Except.bind]
  rfl

/-- Removing a row by whatever data stands for takes the first row of arguments with the texts of
the data out, if there is one, and else does nothing. -/
theorem HasRows.exists_removeRow (h : s.HasRows i (first :: rows))
    (htexts : s.rowTexts i data = .ok texts) :
    ∃ t, s.removeRow i data = .ok t ∧ s.Removes i first rows (texts.map .text) t := by
  rcases h.toListsRows.exists_removeRow htexts with
    ⟨habsent, hremove⟩ | ⟨before, row, after, shape, hsplit, habsent, hholds, hremove, hlists, -⟩
  · exact ⟨s, hremove, .nothing habsent⟩
  · have hparent := parent?_eq_some_iff.mp
      (h.attached row (List.mem_cons_of_mem _ (hsplit ▸ by simp)))
    obtain ⟨-, hremembered⟩ := reshaped_disown shape hparent.2 hparent.1
    refine ⟨_, hremove, .row hsplit habsent hholds hlists hremembered fun c hne hc => ?_⟩
    have hi : (s.update i ({ · with shape })).Reaches i := hparent.2.of_reshaped
    have hreaches : ((s.update i ({ · with shape })).disown i row.1).Reaches i := by
      rcases disown_inv (s.update i ({ · with shape })) i row.1 with heq | ⟨-, heq⟩ <;> rw [heq]
      · exact hi
      · exact (reaches_setParent _ none row.1).mpr hi
    exact parent?_eq_some_iff.mpr
      ⟨(hremembered c).trans ((if_neg hne).trans (remembered_of_parent? hc)), hreaches⟩

/-! ### Adding and removing -/

/-- Where a row of some values was put behind others and the first row with these values is taken
out, what is left holds the same values as before, and is the same rows just if no earlier row held
the values. -/
theorem exists_kept_of_removes {row : NodeId × List Value}
    (h : t.Removes i first (rows ++ [row]) row.2 u) (hnew : row.1 ∉ rows.map Prod.fst) :
    ∃ kept, u.ListsRows i (first :: kept) ∧ (kept.map Prod.snd).Perm (rows.map Prod.snd)
      ∧ (kept.map Prod.fst = rows.map Prod.fst ↔ ∀ r ∈ rows, r.2 ≠ row.2) := by
  cases h with
  | nothing absent => exact absurd rfl (absent row (by simp))
  | @row before after taken _ split absent holds lists =>
    refine ⟨before ++ after, lists, ?_⟩
    rcases List.eq_nil_or_concat after with rfl | ⟨after, last, rfl⟩
    · obtain ⟨rfl, -⟩ := List.append_inj' split rfl
      simpa using absent
    · rw [List.concat_eq_append, ← List.cons_append, ← List.append_assoc] at split
      obtain ⟨rfl, hlast⟩ := List.append_inj' split rfl
      obtain rfl := List.cons.inj hlast |>.1
      constructor
      · simp only [List.concat_eq_append, List.map_append, List.map_cons, List.map_nil, holds]
        exact (List.perm_append_singleton _ _).append_left _
      · constructor
        · intro heq
          refine absurd ?_ hnew
          rw [← heq]
          simp
        · intro hne
          exact absurd holds (hne taken (by simp))

/-- Examples with the parameter `n` and one row of arguments, which holds `1`. -/
def oneArgument : Store :=
  ((({} : Store).plant
    (.mk {} (.example {} [] [Plain.rowNode [['n']], Plain.rowNode [['1']]]))).2).hold "e" (some 4)

/-- The table of one argument has a header and a row. -/
theorem hasRows_oneArgument :
    oneArgument.HasRows 4 [(1, [.text ['n']]), (3, [.text ['1']])] := by
  have hreaches : oneArgument.Reaches 4 := .held (by decide) (by decide)
  refine ⟨⟨⟨_, {}, [], rfl, rfl, fun _ _ => rfl⟩, ?_⟩, ?_⟩
  · simp only [List.forall_mem_cons, List.not_mem_nil, false_imp_iff, implies_true, and_true]
    exact ⟨rfl, rfl⟩
  · simp only [List.forall_mem_cons, List.not_mem_nil, false_imp_iff, implies_true, and_true]
    exact ⟨parent?_eq_some_iff.mpr ⟨rfl, hreaches⟩, parent?_eq_some_iff.mpr ⟨rfl, hreaches⟩⟩

end Store

end FeatureTree
