import FeatureTree.Proofs.Store.Keywords
import FeatureTree.Proofs.Store.Listing
import FeatureTree.Proofs.Store.RowData

/-!
# Rows of examples that come and go

Examples in a store stand for the examples of a document. A row that is added stands behind the
others, with the texts of its data; a row that is removed is one of those behind the first. All else
stays as it was: since no node stands below itself, the trees of the tags and of the other rows do
not notice that the examples change.

## Main results

* `Store.Represents.of_reshaped`: a tree does not notice that a node above it changes
* `Store.Holds.exists_addRow`: a row of as many values as there are parameters is added
* `Store.Holds.removeRow`: a row that is removed is not the first
* `Store.Holds.exists_isTable`: rows and cells with their values and parents
-/

namespace FeatureTree

open Plain (tagNode cellNode rowNode)

/-- Pairs whose second parts are made from some values. -/
theorem exists_pairs_of_map_snd {α β γ : Type} {f : γ → β} {pairs : List (α × β)} {cs : List γ}
    (h : pairs.map Prod.snd = cs.map f) :
    ∃ xs : List (α × γ), pairs = xs.map (Prod.map id f) ∧ xs.map Prod.snd = cs := by
  induction pairs generalizing cs with
  | nil =>
    obtain rfl := List.map_eq_nil_iff.mp h.symm
    exact ⟨[], rfl, rfl⟩
  | cons pair pairs ih =>
    obtain ⟨c, cs, rfl, hc, hcs⟩ := List.map_eq_cons_iff.mp h.symm
    obtain ⟨xs, rfl, rfl⟩ := ih hcs.symm
    exact ⟨(pair.1, c) :: xs, by simp [hc], rfl⟩

/-- Members that each come from something come from a list. -/
theorem exists_map_eq {α β : Type} {f : α → β} {P : α → Prop} {ys : List β}
    (h : ∀ y ∈ ys, ∃ x, f x = y ∧ P x) : ∃ xs : List α, xs.map f = ys ∧ ∀ x ∈ xs, P x := by
  induction ys with
  | nil => exact ⟨[], rfl, by simp⟩
  | cons y ys ih =>
    rw [List.forall_mem_cons] at h
    obtain ⟨⟨x, rfl, hx⟩, hys⟩ := h
    obtain ⟨xs, rfl, hxs⟩ := ih hys
    exact ⟨x :: xs, rfl, List.forall_mem_cons.mpr ⟨hx, hxs⟩⟩

namespace Plain

/-- A row has no more than two levels. -/
theorem height_rowNode_le (values : List Text) : (rowNode values).height ≤ 2 := by
  have hcell : ∀ v, (cellNode v).height = 1 := fun v => by
    rw [Node.height_eq]
    rfl
  have hheights : (rowNode values).shape.parts.map Node.height = values.map fun _ => 1 := by
    simp only [rowNode, Node.shape, Shape.parts, Shape.children, List.map_map]
    exact List.map_congr_left fun v _ => hcell v
  rw [Node.height_eq, hheights]
  by_cases hnil : values = []
  · subst hnil
    simp
  · have hne : (values.map fun _ => 1) ≠ [] := by simpa using hnil
    have hmem := Node.foldr_max_mem hne
    obtain ⟨v, -, hmax⟩ := List.mem_map.mp hmem
    omega

/-- A row with cells has two levels, so what it stands in has three. -/
theorem lt_height_rowNode {values : List Text} (h : values ≠ []) : 1 < (rowNode values).height := by
  obtain ⟨v, vs, rfl⟩ := List.exists_cons_of_ne_nil h
  have hmem : cellNode v ∈ (rowNode (v :: vs)).shape.parts := by
    simp [rowNode, Node.shape, Shape.parts, Shape.children]
  have := Node.height_lt hmem
  have := Node.height_pos (cellNode v)
  omega

end Plain

namespace Store

variable {s t u : Store} {i c : NodeId} {e : Entry} {n m : Node}

/-! ### Trees that stay -/

/-- What a store represents does not depend on where it came from. -/
theorem Represents.bare (h : s.Represents i n) (hn : n.IsInner) : s.Represents i n.bare := by
  induction h with
  | @mk i e o pairs entry plain shape attached _ ih =>
    obtain ⟨kind, -, inner⟩ := hn
    rw [Shape.parts_map] at inner
    have hpairs : ((pairs.map Prod.snd).map Node.bare).withoutComments
        = (pairs.map fun x => (x.1, x.2.bare)).map Prod.snd := by
      rw [Shape.withoutComments_eq_self (by simpa using kind.2), Shape.map_map, Shape.map_map]
    rw [Node.bare_mk, hpairs]
    refine .mk _ entry plain (by rw [shape, Shape.map_map]) (fun x hx => ?_) fun x hx => ?_
    · rw [Shape.parts_map] at hx
      obtain ⟨y, hy, rfl⟩ := List.mem_map.mp hx
      exact attached y hy
    · rw [Shape.parts_map] at hx
      obtain ⟨y, hy, rfl⟩ := List.mem_map.mp hx
      exact ih y hy (inner _ (List.mem_map_of_mem hy))

/-- A tree does not notice that a node changes over which there are only trees with more levels: the
node is not in it. -/
theorem Represents.of_reshaped {shape : Shape NodeId} (h : s.Represents c m)
    (ht : Reshaped s t i shape) (habove : ∀ n, s.Spans i n → m.height < n.height)
    (hremembered : ∀ d q, q ≠ i → s.remembered d = some q → t.remembered d = some q) :
    t.Represents c m := by
  induction h with
  | @mk c e o pairs entry plain hshape attached parts ih =>
    have hne : c ≠ i := by
      rintro rfl
      exact Nat.lt_irrefl _ (habove _ (Represents.mk pairs entry plain hshape attached parts).spans)
    have hentry := ht.entries c
    rw [entry, Option.map_some, if_neg hne] at hentry
    obtain ⟨f, hf, hsame⟩ := Option.map_eq_some_iff.mp hentry
    obtain ⟨hfshape, hfgiven⟩ := Prod.mk.inj hsame
    refine .mk pairs hf (hfgiven.trans plain) (hfshape.trans hshape) (fun x hx => ?_) fun x hx => ?_
    · exact hremembered _ _ hne (attached x hx)
    · have hpart : x.2 ∈ (Node.mk o (pairs.map Prod.snd)).shape.parts := by
        rw [Node.shape, Shape.parts_map]
        exact List.mem_map_of_mem hx
      exact ih x hx fun n hn => Nat.lt_trans (Node.height_lt hpart) (habove n hn)

/-! ### Rows with their cells -/

/-- A row with its cells and their values; the cells are attached to it. -/
structure IsRow (s : Store) (row : NodeId) (cells : List (NodeId × Text)) : Prop where
  listed : s.listed row .cells = .ok (cells.map fun c => .node c.1)
  value : ∀ c ∈ cells, s.valueOf c.1 (.text .value) = .ok (.text c.2)
  parent : ∀ c ∈ cells, s.parent? c.1 = some row

/-- Examples with their rows, the cells of each and their values; the rows are attached to the
examples. -/
structure IsTable (s : Store) (i : NodeId) (rows : List (NodeId × List (NodeId × Text))) :
    Prop where
  listed : s.listed i .rows = .ok (rows.map fun r => .node r.1)
  parent : ∀ r ∈ rows, s.parent? r.1 = some i
  row : ∀ r ∈ rows, s.IsRow r.1 r.2

/-- The cells of a row that stands for values. -/
theorem Represents.exists_cells {row : NodeId} {values : List Text}
    (h : s.Represents row (rowNode values)) :
    ∃ (e : Entry) (cells : List (NodeId × Text)), s.get? row = some e ∧ e.given = []
      ∧ e.shape = .row (cells.map Prod.fst) ∧ cells.map Prod.snd = values
      ∧ ∀ c ∈ cells, s.remembered c.1 = some row ∧ s.Represents c.1 (cellNode c.2) := by
  obtain ⟨e, pairs, entry, plain, shape, hshape, attached, parts⟩ := h.inv
  rw [rowNode, Node.shape] at hshape
  cases pairs <;> simp only [Shape.map, reduceCtorEq, Shape.row.injEq] at hshape
  obtain ⟨cells, rfl, rfl⟩ := exists_pairs_of_map_snd hshape.symm
  refine ⟨e, cells, entry, plain, by simpa [Shape.map, Function.comp_def] using shape, rfl,
    fun c hc => ?_⟩
  have hmem := List.mem_map_of_mem (f := Prod.map id cellNode) hc
  exact ⟨attached _ hmem, parts _ hmem⟩

/-- The value of a cell. -/
theorem Represents.valueOf_cell {value : Text} (h : s.Represents c (cellNode value)) :
    s.valueOf c (.text .value) = .ok (.text value) := by
  obtain ⟨e, pairs, entry, plain, shape, hshape, -⟩ := h.inv
  rw [valueOf_text_of_plain entry plain, shape, Shape.ask_map, ← Shape.ask_map Prod.snd, ← hshape]
  rfl

/-- The values of the cells of a row. -/
theorem Represents.valuesOf_row {row : NodeId} {values : List Text}
    (h : s.Represents row (rowNode values)) :
    s.valuesOf (.node row) = .ok (.list (values.map .text)) := by
  obtain ⟨e, cells, entry, plain, shape, rfl, hcells⟩ := h.exists_cells
  have hget : s.get row = .ok e := get_eq_ok.mpr entry
  have hlisted : s.listed row .cells = .ok ((cells.map Prod.fst).map .node) := by
    rw [listed_of_plain entry plain, shape]
    rfl
  have hvalues : ((cells.map Prod.fst).map Value.node).mapM (s.ask · (.text .value))
      = .ok ((cells.map Prod.snd).map .text) := by
    rw [List.map_map, List.map_map]
    refine mapM_of_forall₂ (List.forall₂_map_left_iff.mpr (List.forall₂_map_right_iff.mpr
      (List.forall₂_same.mpr fun c hc => ?_)))
    exact (hcells c hc).2.valueOf_cell
  simp only [valuesOf, hget, shape, Shape.kind, if_true, bind, Except.bind, rowValues, hlisted,
    hvalues]
  rfl

/-- A row in reach that stands for values has cells with these values. -/
theorem Represents.exists_isRow {row : NodeId} {values : List Text}
    (h : s.Represents row (rowNode values)) (hrow : s.Reaches row) :
    ∃ cells, cells.map Prod.snd = values ∧ s.IsRow row cells := by
  obtain ⟨e, cells, entry, plain, shape, hvalues, hcells⟩ := h.exists_cells
  refine ⟨cells, hvalues, ⟨?_, fun c hc => (hcells c hc).2.valueOf_cell, fun c hc => ?_⟩⟩
  · rw [listed_of_plain entry plain, shape]
    simp [Shape.list?, Fault.ofOption, Functor.map, Except.map]
  · have hpart : c.1 ∈ e.shape.parts := by
      rw [shape]
      exact List.mem_map_of_mem hc
    exact (reaches_part hrow entry hpart (hcells c hc).1).2

/-! ### Examples with their rows -/

/-- Examples that hold a heading, tags and rows, each of the tags and rows with its identity. -/
structure Holds (s : Store) (i : NodeId) (h : Plain.Heading) (tags : List (NodeId × Text))
    (rows : List (NodeId × List Text)) : Prop where
  entry : ∃ e, s.get? i = some e ∧ e.given = []
    ∧ e.shape = .example h.title (tags.map Prod.fst) (rows.map Prod.fst)
  nodup : (tags.map Prod.fst ++ rows.map Prod.fst).Nodup
  tag : ∀ x ∈ tags, s.remembered x.1 = some i ∧ s.Represents x.1 (tagNode x.2)
  row : ∀ x ∈ rows, s.remembered x.1 = some i ∧ s.Represents x.1 (rowNode x.2)

variable {h : Plain.Heading} {tags : List (NodeId × Text)} {rows : List (NodeId × List Text)}

/-- What stands for examples holds them. -/
theorem Represents.exists_holds {p : Plain.Examples} (hp : s.Represents i p.node)
    (hnodup : ∀ e, s.get? i = some e → e.shape.parts.Nodup) :
    ∃ tags rows, s.Holds i p.heading tags rows ∧ tags.map Prod.snd = p.tags
      ∧ rows.map Prod.snd = p.rows := by
  obtain ⟨e, pairs, entry, plain, shape, hshape, attached, parts⟩ := hp.inv
  have hnodup := hnodup e entry
  rw [Plain.Examples.node, Node.shape] at hshape
  cases pairs <;> simp only [Shape.map, reduceCtorEq, Shape.example.injEq] at hshape
  obtain ⟨rfl, htags, hrows⟩ := hshape
  obtain ⟨tags, rfl, htagsEq⟩ := exists_pairs_of_map_snd htags.symm
  obtain ⟨rows, rfl, hrowsEq⟩ := exists_pairs_of_map_snd hrows.symm
  have hshape : e.shape = .example p.heading.title (tags.map Prod.fst) (rows.map Prod.fst) := by
    simpa [Shape.map, Function.comp_def] using shape
  rw [hshape] at hnodup
  refine ⟨tags, rows, ⟨⟨e, entry, plain, hshape⟩, hnodup, fun x hx => ?_, fun x hx => ?_⟩,
    htagsEq, hrowsEq⟩
  · have hmem := List.mem_append_left (rows.map (Prod.map id rowNode))
      (List.mem_map_of_mem (f := Prod.map id tagNode) hx)
    exact ⟨attached _ hmem, parts _ hmem⟩
  · have hmem := List.mem_append_right (tags.map (Prod.map id tagNode))
      (List.mem_map_of_mem (f := Prod.map id rowNode) hx)
    exact ⟨attached _ hmem, parts _ hmem⟩

namespace Holds

/-- What holds examples stands for them. -/
theorem represents (hh : s.Holds i h tags rows) :
    s.Represents i (Plain.Examples.mk h (tags.map Prod.snd) (rows.map Prod.snd)).node := by
  obtain ⟨e, entry, plain, shape⟩ := hh.entry
  have hnode : (Plain.Examples.mk h (tags.map Prod.snd) (rows.map Prod.snd)).node
      = .mk {} ((Shape.example h.title (tags.map (Prod.map id tagNode))
        (rows.map (Prod.map id rowNode))).map Prod.snd) := by
    simp [Plain.Examples.node, Shape.map, Function.comp_def]
  rw [hnode]
  refine .mk _ entry plain (by simpa [Shape.map, Function.comp_def] using shape)
    (List.forall_mem_append.mpr ⟨?_, ?_⟩) (List.forall_mem_append.mpr ⟨?_, ?_⟩)
  all_goals
    intro x hx
    obtain ⟨y, hy, rfl⟩ := List.mem_map.mp hx
  · exact (hh.tag y hy).1
  · exact (hh.row y hy).1
  · exact (hh.tag y hy).2
  · exact (hh.row y hy).2

/-- The tags and the rows of a table are attached to it. -/
theorem attached (hh : s.Holds i h tags rows) :
    ∀ d ∈ tags.map Prod.fst ++ rows.map Prod.fst, s.remembered d = some i := by
  refine List.forall_mem_append.mpr ⟨fun d hd => ?_, fun d hd => ?_⟩
  · obtain ⟨x, hx, rfl⟩ := List.mem_map.mp hd
    exact (hh.tag x hx).1
  · obtain ⟨x, hx, rfl⟩ := List.mem_map.mp hd
    exact (hh.row x hx).1

/-- Tags have fewer levels than the examples. -/
theorem height_tag_lt (hh : s.Holds i h tags rows) {x : NodeId × Text} (hx : x ∈ tags)
    (hn : s.Spans i n) : (tagNode x.2).height < n.height := by
  rw [hn.height_eq hh.represents.spans]
  exact Node.height_lt (List.mem_append_left _ (List.mem_map_of_mem (List.mem_map_of_mem hx)))

/-- Rows have fewer levels than the examples. -/
theorem height_row_lt (hh : s.Holds i h tags rows) {x : NodeId × List Text} (hx : x ∈ rows)
    (hn : s.Spans i n) : (rowNode x.2).height < n.height := by
  rw [hn.height_eq hh.represents.spans]
  exact Node.height_lt (List.mem_append_right _ (List.mem_map_of_mem (List.mem_map_of_mem hx)))

/-- Examples in reach are a table of their rows. -/
theorem exists_isTable (hh : s.Holds i h tags rows) (hi : s.Reaches i) :
    ∃ table, s.IsTable i table ∧ table.map (fun r => (r.1, r.2.map Prod.snd)) = rows := by
  obtain ⟨e, entry, plain, shape⟩ := hh.entry
  have hrow : ∀ x ∈ rows, ∃ r : NodeId × List (NodeId × Text), (r.1, r.2.map Prod.snd) = x
      ∧ s.parent? r.1 = some i ∧ s.IsRow r.1 r.2 := by
    intro x hx
    have hpart : x.1 ∈ e.shape.parts := by
      rw [shape]
      exact List.mem_append_right _ (List.mem_map_of_mem hx)
    obtain ⟨hreaches, hparent⟩ := reaches_part hi entry hpart (hh.row x hx).1
    obtain ⟨cells, hvalues, hcells⟩ := (hh.row x hx).2.exists_isRow hreaches
    exact ⟨(x.1, cells), by rw [hvalues], hparent, hcells⟩
  obtain ⟨table, htable, hall⟩ := exists_map_eq hrow
  refine ⟨table, ⟨?_, fun r hr => (hall r hr).1, fun r hr => (hall r hr).2⟩, htable⟩
  rw [listed_of_plain entry plain, shape, ← htable]
  simp [Shape.list?, Fault.ofOption, Functor.map, Except.map]

/-- The first row names the parameters. -/
theorem parameters {first : NodeId × List Text} (hh : s.Holds i h tags (first :: rows)) :
    s.parameterRow i = .ok (.node first.1)
      ∧ s.parameters i = .ok (.list (first.2.map .text)) := by
  obtain ⟨e, entry, plain, shape⟩ := hh.entry
  have hrows : s.valueOf i (.list .rows) = .ok (Value.ofNodes ((first :: rows).map Prod.fst)) :=
    valueOf_list_of_plain entry plain (by rw [shape]; rfl)
  have hfirst : s.parameterRow i = .ok (.node first.1) := by
    simp only [parameterRow, hrows, bind, Except.bind, Value.ofNodes, List.map_cons]
    rfl
  refine ⟨hfirst, ?_⟩
  simp only [Store.parameters, hfirst, bind, Except.bind]
  exact (hh.row first List.mem_cons_self).2.valuesOf_row

/-- Examples without rows have no parameters. -/
theorem parameters_nil (hh : s.Holds i h tags []) : s.parameters i = .ok (.list []) := by
  obtain ⟨e, entry, plain, shape⟩ := hh.entry
  have hrows : s.valueOf i (.list .rows) = .ok (Value.ofNodes []) :=
    valueOf_list_of_plain entry plain (by rw [shape]; rfl)
  simp only [Store.parameters, parameterRow, hrows, bind, Except.bind, Value.ofNodes, List.map_nil,
    Value.isPresent]
  rfl

/-- Names play no part in it. -/
theorem of_entries (hh : s.Holds i h tags rows) (ht : t.entries = s.entries) :
    t.Holds i h tags rows := by
  have hget : ∀ j, t.get? j = s.get? j := fun j => by rw [get?, ht, get?]
  have hremembered : ∀ j, t.remembered j = s.remembered j := fun j => by
    rw [remembered, hget, remembered]
  have hstays : ∀ {j n}, s.Represents j n → t.Represents j n := fun hr =>
    hr.mono (fun j e he => ⟨e, (hget j).trans he, rfl, rfl⟩) fun c q hq => (hremembered c).trans hq
  obtain ⟨e, entry, hentry⟩ := hh.entry
  exact ⟨⟨e, (hget i).trans entry, hentry⟩, hh.nodup,
    fun x hx => ⟨(hremembered _).trans (hh.tag x hx).1, hstays (hh.tag x hx).2⟩,
    fun x hx => ⟨(hremembered _).trans (hh.row x hx).1, hstays (hh.row x hx).2⟩⟩

/-- Trees that are planted elsewhere leave examples alone. -/
theorem of_grown {r : NodeId → Prop} {tops : List NodeId} (hh : s.Holds i h tags rows)
    (hg : Grown r s t tops) : t.Holds i h tags rows := by
  have hkept : ∀ {j : NodeId}, s.remembered j = some i → t.remembered j = some i := fun hj => by
    rwa [hg.remembered_old (lt_of_remembered hj)]
  obtain ⟨e, entry, hentry⟩ := hh.entry
  exact ⟨⟨e, (hg.old i (get?_lt entry)).trans entry, hentry⟩, hh.nodup,
    fun x hx => ⟨hkept (hh.tag x hx).1, (hh.tag x hx).2.of_grown hg⟩,
    fun x hx => ⟨hkept (hh.row x hx).1, (hh.row x hx).2.of_grown hg⟩⟩

/-- Examples whose rows change hold the new rows, if these stand for rows and are attached. -/
theorem of_reshaped {rows' : List (NodeId × List Text)} (hh : s.Holds i h tags rows)
    (ht : Reshaped s t i (.example h.title (tags.map Prod.fst) (rows'.map Prod.fst)))
    (hremembered : ∀ d q, q ≠ i → s.remembered d = some q → t.remembered d = some q)
    (hnodup : (tags.map Prod.fst ++ rows'.map Prod.fst).Nodup)
    (hattached : ∀ d ∈ tags.map Prod.fst ++ rows'.map Prod.fst, t.remembered d = some i)
    (hrows : ∀ x ∈ rows', s.Represents x.1 (rowNode x.2)
      ∧ ∀ n, s.Spans i n → (rowNode x.2).height < n.height) :
    t.Holds i h tags rows' := by
  obtain ⟨e, entry, plain, -⟩ := hh.entry
  have hentry := ht.entries i
  rw [entry, Option.map_some, if_pos rfl] at hentry
  obtain ⟨f, hf, hsame⟩ := Option.map_eq_some_iff.mp hentry
  obtain ⟨hshape, hgiven⟩ := Prod.mk.inj hsame
  refine ⟨⟨f, hf, hgiven.trans plain, hshape⟩, hnodup, fun x hx => ⟨?_, ?_⟩, fun x hx => ⟨?_, ?_⟩⟩
  · exact hattached _ (List.mem_append_left _ (List.mem_map_of_mem hx))
  · exact (hh.tag x hx).2.of_reshaped ht (fun n => hh.height_tag_lt hx) hremembered
  · exact hattached _ (List.mem_append_right _ (List.mem_map_of_mem hx))
  · exact (hrows x hx).1.of_reshaped ht (hrows x hx).2 hremembered

end Holds

/-! ### Adding a row -/

variable {data : RowData} {first : NodeId × List Text}

/-- An example with nothing given to it can be asked for its rows. -/
theorem needExamples_of_plain {title : Title} {tags rows : List NodeId} (he : s.get? i = some e)
    (hg : e.given = []) (hs : e.shape = .example title tags rows) (operation : String) :
    s.needExamples i operation = .ok () := by
  have hget : s.get i = .ok e := get_eq_ok.mpr he
  simp only [needExamples, calls_of_plain he hg, hget, hs, bind, Except.bind]
  rfl

/-- Adding a row to examples that have rows plants it, attaches it and puts it at the end. -/
theorem addRow_of_plain {title : Title} {tags rows : List NodeId} {row : NodeId}
    {texts : List Text} (he : s.get? i = some e) (hg : e.given = [])
    (hs : e.shape = .example title tags rows) (hne : rows ≠ [])
    (htexts : s.rowTexts i data = .ok texts)
    (hplant : s.plant (Node.ofValues (texts.map .text)) = (row, u)) :
    ∃ w, u.adopt i row = .ok w ∧ s.addRow i data
      = .ok (row, w.update i ({ · with shape := .example title tags (rows ++ [row]) })) := by
  have hgrown : Grown (fun _ => True) s u [row] := by
    have hgrown := grown_plant (Node.within_any (Node.ofValues (texts.map .text))) s
    rwa [hplant] at hgrown
  have hrows : s.valueOf i (.list .rows) = .ok (Value.ofNodes rows) :=
    valueOf_list_of_plain he hg (by rw [hs]; rfl)
  have hpresent : (Value.ofNodes rows).isPresent = true := by
    simpa [Value.ofNodes, Value.isPresent] using hne
  have hfree : u.parent? row = none := by
    refine Option.eq_none_iff_forall_ne_some.mpr fun p hp => ?_
    have hp := remembered_of_parent? hp
    rw [hgrown.tops_free row (by simp)] at hp
    cases hp
  have hadopt : u.adopt i row = .ok (u.setParent (some i) row) := adopt_of_none hfree
  have hold : (u.setParent (some i) row).get? i = some e := by
    have hne : row ≠ i := fun heq =>
      Nat.not_lt.mpr (hgrown.tops_new row (by simp)).1 (heq ▸ get?_lt he)
    rw [setParent, get?_update, if_neg hne, hgrown.old i (get?_lt he), he]
  have happend : (u.setParent (some i) row).append i (Attribute.list .rows).name (.node row)
      = .ok ((u.setParent (some i) row).update i
        ({ · with shape := .example title tags (rows ++ [row]) })) :=
    changeList_of_plain hold hg (by rw [hs]; rfl) (by rw [hs]; rfl) (by simp)
  refine ⟨_, hadopt, ?_⟩
  simp only [addRow, needExamples_of_plain he hg hs, hrows, hpresent, htexts, hplant, hadopt,
    happend, bind, Except.bind]
  rfl

/-- A row of as many values as there are parameters can be added, if the values have texts. It is
new, and the texts of its cells are trimmed. -/
theorem Holds.exists_addRow (hh : s.Holds i h tags (first :: rows)) (hfirst : first.2 ≠ [])
    {texts : List Text} (hfits : data.Fits first.2.length)
    (htexts : s.rowTexts i data = .ok texts) :
    ∃ row t, s.addRow i data = .ok (row, t)
      ∧ t.Holds i h tags (first :: rows ++ [(row, texts)]) ∧ texts.length = first.2.length
      ∧ (∀ x ∈ texts, x.Trimmed) ∧ s.size ≤ row ∧ s.size ≤ t.size ∧ t.held = s.held := by
  obtain ⟨hlength, htrimmed⟩ : texts.length = first.2.length ∧ ∀ x ∈ texts, x.Trimmed := by
    simpa using fits_of_rowTexts hh.parameters.2 (by simpa using hfits) htexts
  obtain ⟨row, u, hplant⟩ : ∃ row u, s.plant (Node.ofValues (texts.map .text)) = (row, u) :=
    ⟨_, _, rfl⟩
  have hgrown : Grown (fun _ => True) s u [row] := by
    have hgrown := grown_plant (Node.within_any (Node.ofValues (texts.map .text))) s
    rwa [hplant] at hgrown
  have hrow : u.Represents row (rowNode texts) := by
    have hrep := represents_plant (Node.ofValues (texts.map .text)) s
    have hnode : Node.ofValues (texts.map .text) = rowNode texts := by
      simp [Node.ofValues, rowNode, cellNode, Function.comp_def]
    rw [hplant] at hrep
    rwa [hnode] at hrep
  have hu := hh.of_grown hgrown
  obtain ⟨e, entry, plain, shape⟩ := hh.entry
  obtain ⟨w, hw, hadd⟩ := addRow_of_plain entry plain shape (by simp) htexts hplant
  obtain ⟨hle, hlt⟩ := hgrown.tops_new row (by simp)
  obtain ⟨hreshaped, hremembered⟩ := reshaped_adopt
    (.example h.title (tags.map Prod.fst) ((first :: rows).map Prod.fst ++ [row])) hlt hw
  have hne : ∀ {d q : NodeId}, u.remembered d = some q → d ≠ row := by
    rintro d q hd rfl
    rw [hgrown.tops_free d (by simp)] at hd
    cases hd
  refine ⟨row, _, hadd, hu.of_reshaped ?_ (fun d q hq hd => ?_) ?_ (fun d hd => ?_)
    fun x hx => ?_, hlength, htrimmed, hle, ?_, ?_⟩
  · simpa using hreshaped
  · rw [hremembered, if_neg (hne hd), hd]
  · have hnew : row ∉ tags.map Prod.fst ++ (first :: rows).map Prod.fst := fun hd =>
      hne (hu.attached row hd) rfl
    rw [List.map_append, ← List.append_assoc]
    refine List.nodup_append.mpr ⟨hu.nodup, by simp, fun d hd x hx => ?_⟩
    obtain rfl : x = row := by simpa using hx
    exact ne_of_mem_of_not_mem hd hnew
  · rw [List.map_append, ← List.append_assoc] at hd
    rcases List.mem_append.mp hd with hd | hd
    · rw [hremembered, if_neg (hne (hu.attached d hd)), hu.attached d hd]
    · rw [hremembered, if_pos (by simpa using hd)]
  · rcases List.mem_append.mp hx with hx | hx
    · exact ⟨(hu.row x hx).2, fun n => hu.height_row_lt hx⟩
    · -- the examples hold a row with cells, so they have more levels than any row
      obtain rfl := List.mem_singleton.mp hx
      refine ⟨hrow, fun n hn => ?_⟩
      have := hu.height_row_lt List.mem_cons_self hn
      have := Plain.lt_height_rowNode hfirst
      exact Nat.lt_of_le_of_lt (Plain.height_rowNode_le texts) (by omega)
  · rw [hreshaped.size_eq]
    exact hgrown.le
  · have hheld : u.held = s.held := by rw [hgrown.rest]
    rcases adopt_inv hw with ⟨-, rfl⟩ | ⟨-, rfl⟩ <;> exact hheld

/-! ### Removing a row -/

/-- Detaching a node changes nothing about which names hold what. -/
theorem held_disown (s : Store) (p c : NodeId) : (s.disown p c).held = s.held := by
  rcases disown_inv s p c with h | ⟨-, h⟩ <;> rw [h]
  rfl

/-- A row that is removed stands behind the first. -/
theorem Holds.removeRow (hh : s.Holds i h tags (first :: rows)) (hi : s.Reaches i)
    (ht : s.removeRow i data = .ok t) :
    ∃ rows', rows'.Sublist rows ∧ t.Holds i h tags (first :: rows') ∧ t.size = s.size
      ∧ t.held = s.held := by
  obtain ⟨e, entry, plain, shape⟩ := hh.entry
  rcases removeRow_of_plain entry plain ht with
    rfl | ⟨title, tagIds, rowIds, n, row, hshape, hn, hrow, rfl⟩
  · exact ⟨rows, .refl _, hh, rfl, rfl⟩
  · obtain ⟨rfl, rfl, rfl⟩ := Shape.example.inj (shape.symm.trans hshape)
    obtain ⟨n, rfl⟩ : ∃ m, n = m + 1 := ⟨n - 1, by omega⟩
    have hrows : ((first :: rows).map Prod.fst).eraseIdx (n + 1)
        = (first :: rows.eraseIdx n).map Prod.fst := by
      simp [List.eraseIdx_map]
    have hperm : (tags.map Prod.fst ++ (first :: rows).map Prod.fst).Perm
        (row :: (tags.map Prod.fst ++ (first :: rows.eraseIdx n).map Prod.fst)) := by
      obtain ⟨hlt, rfl⟩ := List.getElem?_eq_some_iff.mp hrow
      rw [← hrows]
      exact ((List.getElem_cons_eraseIdx_perm hlt).symm.append_left _).trans List.perm_middle
    have hnodup := List.nodup_cons.mp (hperm.nodup_iff.mp hh.nodup)
    have hparent : s.remembered row = some i :=
      hh.attached row (hperm.mem_iff.mpr List.mem_cons_self)
    obtain ⟨hreshaped, hremembered⟩ := reshaped_disown
      (.example h.title (tags.map Prod.fst) (((first :: rows).map Prod.fst).eraseIdx (n + 1))) hi
      hparent
    have hsub : ∀ x ∈ first :: rows.eraseIdx n, x ∈ first :: rows :=
      List.cons_subset_cons first (List.eraseIdx_sublist rows n).subset
    refine ⟨rows.eraseIdx n, List.eraseIdx_sublist rows n,
      hh.of_reshaped (hrows ▸ hreshaped) (fun d q hq hd => ?_) hnodup.2 (fun d hd => ?_)
        (fun x hx => ⟨(hh.row x (hsub x hx)).2, fun n => hh.height_row_lt (hsub x hx)⟩),
      hreshaped.size_eq, ?_⟩
    · have hne : d ≠ row := by
        rintro rfl
        exact hq (Option.some.inj (hd.symm.trans hparent))
      rw [hremembered, if_neg hne, hd]
    · have hne : d ≠ row := fun heq => hnodup.1 (heq ▸ hd)
      rw [hremembered, if_neg hne]
      exact hh.attached d (hperm.mem_iff.mpr (List.mem_cons_of_mem _ hd))
    · rw [held_disown]
      rfl

end Store

end FeatureTree
