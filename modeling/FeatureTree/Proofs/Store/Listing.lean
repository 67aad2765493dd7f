import FeatureTree.Proofs.Store.Parents
import Mathlib.Data.List.Perm.Basic

/-!
# Listing and remembering agree

A tree is held together twice over: a node lists its parts, and a part remembers the node that it
was attached to. As long as nodes are only made, put into directories, given rows and let go of, the
two agree among all nodes in reach. In particular no two nodes in reach list the same node.

The invariant is about nodes in reach because a node that is out of reach goes on to list its parts,
which can be attached elsewhere by then. While an operation is under way it is kept up for the nodes
that the operation makes, too.

## Main results

* `Store.tidy_next`: an orderly operation keeps listing and remembering in agreement
* `Store.parent?_iff_listed`: the parent of a node in reach is the node in reach that lists it
-/

namespace FeatureTree

namespace Store

variable {s t u : Store} {live : NodeId → Prop} {c p q i : NodeId} {e : Entry}

/-! ### Lists of nodes that were given nothing -/

/-- A list of nodes has nothing else in it. -/
theorem onlyNodes?_ofNodes (is : List NodeId) :
    (Value.list (is.map .node)).onlyNodes? = some is := by
  rw [Value.onlyNodes?]
  simp only [Value.items?, Option.bind_some]
  induction is with
  | nil => rfl
  | cons i is ih => simp [List.mapM_cons, ih]

/-- A shape that has a list can be given another one. -/
theorem exists_setList {shape : Shape NodeId} {field : ListField} {parts : List NodeId}
    (h : shape.list? field = some parts) (parts' : List NodeId) :
    ∃ shape', shape.setList field parts' = some shape' := by
  cases field <;> cases shape <;> first | exact ⟨_, rfl⟩ | cases h

/-- Updates that do the same to the entry of a node are the same. -/
theorem update_congr {f g : Entry → Entry} (h : ∀ e, s.get? i = some e → f e = g e) :
    s.update i f = s.update i g := by
  have : s.entries.modify i f = s.entries.modify i g := by
    apply Array.ext_getElem?
    intro j
    rw [Array.getElem?_modify, Array.getElem?_modify]
    split
    · next hij =>
      subst hij
      cases he : s.entries[i]? with
      | none => rfl
      | some e => simp [h e he]
    · rfl
  rw [update, update, this]

/-- Changing a list of nodes of a node that was given nothing changes the list in its shape. -/
theorem changeList_of_plain {field : ListField} {parts parts' : List NodeId} {shape : Shape NodeId}
    {f : List Value → List Value} (he : s.get? i = some e) (hg : e.given = [])
    (hl : e.shape.list? field = some parts) (hs : e.shape.setList field parts' = some shape)
    (hf : f (parts.map .node) = parts'.map .node) :
    s.changeList i (Attribute.list field).name f = .ok (s.update i ({ · with shape })) := by
  have hget : s.get i = .ok e := by rw [get, he]
  have hlist : s.listNamed i (Attribute.list field).name = .ok (.list (parts.map .node)) := by
    simp only [listNamed, content, hget, following?_list, bind, Except.bind,
      stored_of_plain he hg (a := .list field) (by simp), Entry.own, hl]
    rfl
  have hassign : e.assign (Attribute.list field).name (.list (parts'.map .node))
      = { e with shape } := by
    simp only [Entry.assign, Attribute.ofName?_name, Entry.fill?, onlyNodes?_ofNodes, hs, bind,
      Option.bind, pure]
    rw [Entry.withhold, hg]
    rfl
  simp only [changeList, hlist, hget, following?_list, bind, Except.bind, Value.items?,
    Option.getD_some, hf]
  refine congrArg Except.ok (update_congr fun g hg => ?_)
  rw [he] at hg
  cases hg
  rw [hassign]

/-- Of the parts of a node, just those in the list that was changed come and go. -/
theorem count_parts_of_setList {shape shape' : Shape NodeId} {field : ListField}
    {xs ys : List NodeId} (hl : shape.list? field = some xs)
    (hs : shape.setList field ys = some shape') (a : NodeId) :
    shape'.parts.count a + xs.count a = shape.parts.count a + ys.count a := by
  cases field <;> cases shape <;> cases hl <;> cases hs <;>
    simp [Shape.parts, Shape.children, List.count_append] <;> omega

/-- Appending to a list adds one part. -/
theorem perm_parts_of_append {shape shape' : Shape NodeId} {field : ListField} {xs : List NodeId}
    (hl : shape.list? field = some xs) (hs : shape.setList field (xs ++ [c]) = some shape') :
    shape'.parts.Perm (c :: shape.parts) := by
  rw [List.perm_iff_count]
  intro a
  have := count_parts_of_setList hl hs a
  simp only [List.count_append, List.count_cons, List.count_nil] at this ⊢
  omega

/-- Erasing from a list takes one part away. -/
theorem perm_parts_of_eraseIdx {shape shape' : Shape NodeId} {field : ListField} {xs : List NodeId}
    {n : Nat} (hl : shape.list? field = some xs)
    (hs : shape.setList field (xs.eraseIdx n) = some shape') (hn : xs[n]? = some c) :
    shape.parts.Perm (c :: shape'.parts) := by
  obtain ⟨hlt, rfl⟩ := List.getElem?_eq_some_iff.mp hn
  rw [List.perm_iff_count]
  intro a
  have := count_parts_of_setList hl hs a
  have hcount := (List.getElem_cons_eraseIdx_perm hlt).count_eq a
  simp only [List.count_cons] at hcount ⊢
  omega

/-! ### The invariant -/

/-- Listing and remembering agree among some nodes. -/
structure Tidy (live : NodeId → Prop) (s : Store) : Prop where
  /-- No node was given anything. -/
  plain : ∀ i e, s.get? i = some e → e.given = []
  listed_lt : ∀ n c, s.Lists n c → c < s.size
  parents : s.ParentsKept
  /-- No row is listed twice by examples, so that a row that is taken out is listed no more. -/
  nodup : ∀ i e, s.get? i = some e → e.shape.kind = .example → e.shape.parts.Nodup
  agree : ∀ n c, live n → (s.remembered c = some n ↔ s.Lists n c)

/-- A store is tidy for fewer nodes, too. -/
theorem Tidy.mono {live' : NodeId → Prop} (h : Tidy live s) (hl : ∀ n, live' n → live n) :
    Tidy live' s where
  plain := h.plain
  listed_lt := h.listed_lt
  parents := h.parents
  nodup := h.nodup
  agree n c hn := h.agree n c (hl n hn)

/-- Names play no part in it. -/
theorem Tidy.of_entries (h : Tidy live s) (he : t.entries = s.entries) : Tidy live t := by
  obtain ⟨entries, held, dialect, nextList⟩ := t
  subst he
  exact ⟨h.plain, h.listed_lt, h.parents, h.nodup, h.agree⟩

/-- Planted trees are tidy, and what was there before stays so. -/
theorem Tidy.grown {r : NodeId → Prop} {tops : List NodeId} (h : Tidy s.Reaches s)
    (hg : Grown r s t tops) : Tidy s.Known t where
  plain j e he := by
    rcases Nat.lt_or_ge j s.size with hlt | hge
    · exact h.plain j e (hg.old j hlt ▸ he)
    · exact hg.plain j e hge he
  listed_lt n c hl := by
    rcases Nat.lt_or_ge n s.size with hlt | hge
    · exact Nat.lt_of_lt_of_le (h.listed_lt n c ((hg.lists_old hlt).mp hl)) hg.le
    · exact (hg.lists_new hge hl).2
  parents c p hp := by
    rcases Nat.lt_or_ge c s.size with hlt | hge
    · exact Nat.lt_of_lt_of_le (h.parents c p (hg.remembered_old hlt ▸ hp)) hg.le
    · exact ((hg.links c p hge).mp hp).2.lt
  nodup j e he hk := by
    rcases Nat.lt_or_ge j s.size with hlt | hge
    · exact h.nodup j e (hg.old j hlt ▸ he) hk
    · exact hg.parts_nodup j e hge he
  agree n c hn := by
    rcases Nat.lt_or_ge n s.size with hlt | hge
    · have hlive := hn.resolve_left (Nat.not_le.mpr hlt)
      rw [hg.lists_old hlt, ← h.agree n c hlive]
      rcases Nat.lt_or_ge c s.size with hc | hc
      · rw [hg.remembered_old hc]
      · -- a new node is attached to new nodes only, and was not listed before
        constructor
        · intro hr
          exact absurd ((hg.links c n hc).mp hr).1 (Nat.not_le.mpr hlt)
        · intro hr
          exact absurd (lt_of_remembered hr) (Nat.not_lt.mpr hc)
    · rcases Nat.lt_or_ge c s.size with hc | hc
      · constructor
        · intro hr
          rw [hg.remembered_old hc] at hr
          exact absurd (h.parents c n hr) (Nat.not_lt.mpr hge)
        · intro hl
          exact absurd (hg.lists_new hge hl).1 (Nat.not_le.mpr hc)
      · rw [hg.links c n hc]
        exact ⟨fun hl => hl.2, fun hl => ⟨hge, hl⟩⟩

/-- The second store is the first one with another shape for one node, whatever is remembered. -/
structure Reshaped (s t : Store) (i : NodeId) (shape : Shape NodeId) : Prop where
  size_eq : t.size = s.size
  entries : ∀ j, (t.get? j).map (fun e => (e.shape, e.given))
    = (s.get? j).map fun e => (if j = i then shape else e.shape, e.given)

/-- Reshaping a node changes no entry but its shape. -/
theorem Reshaped.entry {shape : Shape NodeId} (h : Reshaped s t i shape) {j : NodeId} {f : Entry}
    (hf : t.get? j = some f) : ∃ e, s.get? j = some e ∧ f.given = e.given
      ∧ f.shape = if j = i then shape else e.shape := by
  have := h.entries j
  rw [hf] at this
  obtain ⟨e, he, heq⟩ := Option.map_eq_some_iff.mp this.symm
  obtain ⟨hs, hg⟩ := Prod.mk.inj heq
  exact ⟨e, he, hg.symm, hs.symm⟩

/-- Reshaping a node changes only what this node lists. -/
theorem Reshaped.lists_iff {shape : Shape NodeId} (h : Reshaped s t i shape)
    (he : s.get? i = some e) (n d : NodeId) :
    t.Lists n d ↔ if n = i then d ∈ shape.parts else s.Lists n d := by
  have hentries := h.entries n
  constructor
  · rintro ⟨f, hf, hd⟩
    obtain ⟨g, hg, -, hs⟩ := h.entry hf
    rw [hs] at hd
    split at hd
    · next hn => rwa [if_pos hn]
    · next hn =>
      rw [if_neg hn]
      exact ⟨g, hg, hd⟩
  · intro hd
    have hsome : ∀ g, s.get? n = some g → ∃ f, t.get? n = some f
        ∧ f.shape = if n = i then shape else g.shape := by
      intro g hg
      rw [hg] at hentries
      obtain ⟨f, hf, heq⟩ := Option.map_eq_some_iff.mp hentries
      exact ⟨f, hf, (Prod.mk.inj heq).1⟩
    split at hd
    · next hn =>
      subst hn
      obtain ⟨f, hf, hs⟩ := hsome e he
      exact ⟨f, hf, by rwa [hs, if_pos rfl]⟩
    · next hn =>
      obtain ⟨g, hg, hd⟩ := hd
      obtain ⟨f, hf, hs⟩ := hsome g hg
      exact ⟨f, hf, by rwa [hs, if_neg hn]⟩

/-- A node that comes to be listed and to remember the node that lists it, where no other node in
question lists it. -/
theorem Tidy.attach {shape : Shape NodeId} (h : Tidy live s) (he : s.get? p = some e)
    (hc : c < s.size) (ht : Reshaped s t p shape)
    (hremembered : ∀ d, t.remembered d = if d = c then some p else s.remembered d)
    (hparts : ∀ d, d ∈ shape.parts ↔ d ∈ e.shape.parts ∨ d = c)
    (hnodup : shape.kind = .example → shape.parts.Nodup)
    (honly : ∀ n, live n → s.Lists n c → n = p) : Tidy live t := by
  have hlists : ∀ n d, t.Lists n d ↔ s.Lists n d ∨ (n = p ∧ d = c) := by
    intro n d
    rw [ht.lists_iff he]
    split
    · next hn =>
      subst hn
      rw [hparts]
      constructor
      · rintro (hd | hd)
        · exact .inl ⟨e, he, hd⟩
        · exact .inr ⟨rfl, hd⟩
      · rintro (⟨g, hg, hd⟩ | ⟨-, hd⟩)
        · rw [he] at hg
          cases hg
          exact .inl hd
        · exact .inr hd
    · next hn => simp [hn]
  exact {
    plain := fun j f hf => by
      obtain ⟨g, hg, hgiven, -⟩ := ht.entry hf
      rw [hgiven, h.plain j g hg]
    listed_lt := fun n d hl => by
      rw [ht.size_eq]
      rcases (hlists n d).mp hl with hl | ⟨-, rfl⟩
      · exact h.listed_lt n d hl
      · exact hc
    parents := fun d q hq => by
      rw [ht.size_eq]
      rw [hremembered] at hq
      split at hq
      · cases hq
        exact get?_lt he
      · exact h.parents d q hq
    nodup := fun j f hf hk => by
      obtain ⟨g, hg, -, hs⟩ := ht.entry hf
      rw [hs] at hk ⊢
      split at hk
      · next hj =>
        rw [if_pos hj]
        exact hnodup hk
      · next hj =>
        rw [if_neg hj]
        exact h.nodup j g hg hk
    agree := fun n d hn => by
      rw [hremembered, hlists]
      by_cases hd : d = c
      · subst hd
        simp only [if_true, Option.some.injEq, and_true]
        constructor
        · rintro rfl
          exact .inr rfl
        · rintro (hl | rfl)
          · exact (honly n hn hl).symm
          · rfl
      · simp only [hd, if_false, and_false, or_false]
        exact h.agree n d hn }

/-- A node that comes to be listed and remembered no more by the one node that listed it. -/
theorem Tidy.detach {shape : Shape NodeId} (h : Tidy live s) (he : s.get? p = some e)
    (hp : live p) (ht : Reshaped s t p shape)
    (hremembered : ∀ d, t.remembered d = if d = c then none else s.remembered d)
    (hc : c ∈ e.shape.parts) (hparts : ∀ d, d ∈ shape.parts ↔ d ∈ e.shape.parts ∧ d ≠ c)
    (hnodup : shape.kind = .example → shape.parts.Nodup) : Tidy live t := by
  have hremembers : s.remembered c = some p := (h.agree p c hp).mpr ⟨e, he, hc⟩
  have hlists : ∀ n d, t.Lists n d ↔ s.Lists n d ∧ ¬ (n = p ∧ d = c) := by
    intro n d
    rw [ht.lists_iff he]
    split
    · next hn =>
      subst hn
      rw [hparts]
      constructor
      · rintro ⟨hd, hne⟩
        exact ⟨⟨e, he, hd⟩, fun ⟨_, hdc⟩ => hne hdc⟩
      · rintro ⟨⟨g, hg, hd⟩, hne⟩
        rw [he] at hg
        cases hg
        exact ⟨hd, fun hdc => hne ⟨rfl, hdc⟩⟩
    · next hn => simp [hn]
  exact {
    plain := fun j f hf => by
      obtain ⟨g, hg, hgiven, -⟩ := ht.entry hf
      rw [hgiven, h.plain j g hg]
    listed_lt := fun n d hl => by
      rw [ht.size_eq]
      exact h.listed_lt n d ((hlists n d).mp hl).1
    parents := fun d q hq => by
      rw [ht.size_eq]
      rw [hremembered] at hq
      split at hq
      · cases hq
      · exact h.parents d q hq
    nodup := fun j f hf hk => by
      obtain ⟨g, hg, -, hs⟩ := ht.entry hf
      rw [hs] at hk ⊢
      split at hk
      · next hj =>
        rw [if_pos hj]
        exact hnodup hk
      · next hj =>
        rw [if_neg hj]
        exact h.nodup j g hg hk
    agree := fun n d hn => by
      rw [hremembered, hlists]
      by_cases hd : d = c
      · subst hd
        simp only [if_true, and_true, reduceCtorEq, false_iff, not_and, not_not]
        intro hl
        rw [(h.agree n d hn).mpr hl] at hremembers
        exact Option.some.inj hremembers
      · simp only [hd, if_false, and_false, not_false_eq_true, and_true]
        exact h.agree n d hn }

/-! ### Operations -/

/-- Attaching a node and giving the node that takes it another shape. -/
theorem reshaped_adopt (shape : Shape NodeId) (hc : c < s.size) (h : s.adopt p c = .ok u) :
    Reshaped s (u.update p ({ · with shape })) p shape
      ∧ ∀ d, (u.update p ({ · with shape })).remembered d
        = if d = c then some p else s.remembered d := by
  have hsize : u.size = s.size ∧ ∀ j, ((u.get? j).map fun e => (e.shape, e.given))
      = (s.get? j).map fun e => (e.shape, e.given) := by
    rcases adopt_inv h with ⟨-, rfl⟩ | ⟨-, rfl⟩
    · exact ⟨rfl, fun _ => rfl⟩
    · refine ⟨size_update .., fun j => ?_⟩
      rw [setParent, get?_update]
      split
      · cases s.get? j <;> rfl
      · rfl
  have hremembered : ∀ d, u.remembered d = if d = c then some p else s.remembered d := by
    intro d
    rcases adopt_inv h with ⟨hp, rfl⟩ | ⟨-, rfl⟩
    · split
      · next hd => rw [hd, remembered_of_parent? hp]
      · rfl
    · exact remembered_setParent s _ hc d
  refine ⟨⟨(size_update ..).trans hsize.1, fun j => ?_⟩, fun d => ?_⟩
  · have hj := hsize.2 j
    rw [get?_update]
    by_cases hpj : p = j
    · subst hpj
      cases hu : u.get? p <;> cases hs : s.get? p <;> simp_all
    · rw [if_neg hpj, hj]
      simp [Ne.symm hpj]
  · rw [← hremembered]
    exact (Edits.update (q := fun _ => True) (f := ({ · with shape })) (fun _ _ => rfl)
      fun _ _ _ _ => .inr trivial).remembered_eq d

/-- Getting an entry succeeds just if it is there. -/
theorem get_eq_ok : s.get i = .ok e ↔ s.get? i = some e := by
  rw [get]
  cases s.get? i <;> simp

/-- A list that a node has by a name, and that was given nothing, is one of its shape. -/
theorem exists_list?_of_listNamed {field : ListField} {list : Value}
    (hl : s.listNamed i (Attribute.list field).name = .ok list) (he : s.get? i = some e)
    (hg : e.given = []) : ∃ parts, e.shape.list? field = some parts := by
  have hs := stored_of_listNamed hl (get_eq_ok.mpr he) (following?_list _ _)
  rw [stored_of_plain he hg (by simp), Entry.own] at hs
  cases hp : e.shape.list? field with
  | none =>
    rw [hp] at hs
    cases hs
  | some parts => exact ⟨parts, rfl⟩

/-- Attaching a node to one that was given nothing, and putting it at the end of a list of that. -/
theorem exists_of_adopt_append {field : ListField} (he : s.get? p = some e) (hg : e.given = [])
    (hu : s.adopt p c = .ok u)
    (ht : u.append p (Attribute.list field).name (.node c) = .ok t) :
    ∃ parts shape, e.shape.list? field = some parts
      ∧ e.shape.setList field (parts ++ [c]) = some shape
      ∧ t = u.update p ({ · with shape }) := by
  obtain ⟨g, hget, hshape, hgiven⟩ : ∃ g, u.get? p = some g ∧ g.shape = e.shape ∧ g.given = [] := by
    rcases adopt_inv hu with ⟨-, rfl⟩ | ⟨-, rfl⟩
    · exact ⟨e, he, rfl, hg⟩
    · rw [setParent, get?_update, he]
      split
      · exact ⟨_, rfl, rfl, hg⟩
      · exact ⟨e, rfl, rfl, hg⟩
  obtain ⟨list, hlist, -⟩ := bind_ok ht
  obtain ⟨parts, hparts⟩ := exists_list?_of_listNamed hlist hget hgiven
  obtain ⟨shape, hs⟩ := exists_setList hparts (parts ++ [c])
  have happend : u.append p (Attribute.list field).name (.node c)
      = .ok (u.update p ({ · with shape })) :=
    changeList_of_plain hget hgiven hparts hs (by simp)
  rw [hshape] at hparts hs
  exact ⟨parts, shape, hparts, hs, Except.ok.inj (ht.symm.trans happend)⟩

/-- Attaching a node and putting it at the end of a list of the node that takes it. -/
theorem tidy_adopt_append {field : ListField} (h : Tidy live s) (hc : c < s.size)
    (hu : s.adopt p c = .ok u)
    (ht : u.append p (Attribute.list field).name (.node c) = .ok t) (he : s.get? p = some e)
    (honly : ∀ n, live n → s.Lists n c → n = p)
    (hnew : e.shape.kind = .example → c ∉ e.shape.parts) : Tidy live t ∧ t.size = s.size := by
  obtain ⟨parts, shape, hparts, hs, rfl⟩ := exists_of_adopt_append he (h.plain p e he) hu ht
  obtain ⟨hreshaped, hremembered⟩ := reshaped_adopt shape hc hu
  have hperm := perm_parts_of_append hparts hs
  refine ⟨h.attach he hc hreshaped hremembered (fun d => ?_) (fun hk => ?_) honly,
    hreshaped.size_eq⟩
  · rw [hperm.mem_iff, List.mem_cons, or_comm]
  · rw [Shape.kind_of_setList hs] at hk
    rw [hperm.nodup_iff, List.nodup_cons]
    exact ⟨hnew hk, h.nodup p e he hk⟩

/-- Only directories take nodes in: they attach them and list them last. -/
theorem exists_of_addTo {field : ListField} (h : s.addTo p field c = .ok t) :
    ∃ e u, s.get? p = some e ∧ e.shape.kind = .directory ∧ s.adopt p c = .ok u
      ∧ u.append p (Attribute.list field).name (.node c) = .ok t := by
  obtain ⟨e, he, h⟩ := bind_ok h
  split at h
  · cases h
  · next hkind =>
    obtain ⟨-, -, h⟩ := bind_ok h
    obtain ⟨u, hu, h⟩ := bind_ok h
    exact ⟨e, u, get_eq_ok.mp he, not_ne_iff.mp hkind, hu, h⟩

/-- Putting a node into a directory. -/
theorem tidy_addTo {field : ListField} (h : Tidy s.Reaches s) (hc : s.Reaches c)
    (ht : s.addTo p field c = .ok t) : Tidy s.Reaches t ∧ t.size = s.size := by
  obtain ⟨e, u, he, hkind, hu, ht⟩ := exists_of_addTo ht
  refine tidy_adopt_append h hc.lt hu ht he (fun n hn hl => ?_) fun hk => ?_
  · -- another node in reach that lists the node would be its parent
    have hparent := parent?_eq_some_iff.mpr ⟨(h.agree n c hn).mpr hl, hn⟩
    rcases adopt_inv hu with ⟨hp, -⟩ | ⟨hp, -⟩
    · exact Option.some.inj (hparent.symm.trans hp)
    · rw [hparent] at hp
      cases hp
  · rw [hkind] at hk
    cases hk

/-- Adding a row to examples. The new row is listed by them as it comes to remember them. -/
theorem tidy_addRow {row : NodeId} {data : RowData} (h : Tidy s.Reaches s) (hi : s.Reaches i)
    (ht : s.addRow i data = .ok (row, t)) : Tidy s.Known t := by
  obtain ⟨u, w, hgrown, -, hw, happend⟩ := exists_grown_of_addRow (fun _ => True) ht
  have htidy := h.grown hgrown
  have hfree : ∀ n, s.Known n → ¬ u.Lists n row := fun n hn hl => by
    have := (htidy.agree n row hn).mpr hl
    rw [hgrown.tops_free row (by simp)] at this
    cases this
  obtain ⟨e, he⟩ := get?_of_lt (Nat.lt_of_lt_of_le hi.lt hgrown.le)
  exact (tidy_adopt_append htidy (hgrown.tops_new row (by simp)).2 hw happend he
    (fun n hn hl => absurd hl (hfree n hn)) fun _ hc => hfree i (.inr hi) ⟨e, he, hc⟩).1

/-- A row that was found stands at its place, counted from where the search began. -/
theorem getElem?_of_findRow {values : List Text} {rows : List Value} {k n : Nat} {v : Value}
    (h : s.findRow values k rows = .ok (some (n, v))) : k ≤ n ∧ rows[n - k]? = some v := by
  induction rows generalizing k with
  | nil => cases h
  | cons row rows ih =>
    obtain ⟨held, -, h⟩ := bind_ok h
    obtain ⟨same, -, h⟩ := bind_ok h
    split at h
    · cases h
      simp
    · obtain ⟨hle, hrow⟩ := ih h
      refine ⟨by omega, ?_⟩
      obtain ⟨m, rfl⟩ := Nat.exists_eq_add_of_le hle
      have hm : k + 1 + m - k = m + 1 := by omega
      rw [hm, List.getElem?_cons_succ]
      simpa using hrow

/-- A node stays in reach when another shape is given to it: the first way to it does not lead
through it. -/
theorem Reaches.of_reshaped {f : Entry → Entry} (h : s.Reaches i) : (s.update i f).Reaches i := by
  have hsize := size_update s i f
  have hway : ∀ {j}, s.Reaches j → (s.update i f).Reaches j ∨ (s.update i f).Reaches i := by
    intro j hj
    induction hj with
    | held hj hm => exact .inl (.held (hsize ▸ hj) hm)
    | @owned j k _ hk hm ih =>
      rcases ih with hj | hi
      · by_cases hij : i = j
        · exact .inr (hij ▸ hj)
        · refine .inl (.owned hj (hsize ▸ hk) ?_)
          rwa [parts, get?_update, if_neg hij]
      · exact .inr hi
  exact (hway h).elim id id

/-- Giving a node another shape and letting go of a node that remembers it. -/
theorem reshaped_disown (shape : Shape NodeId) (hi : s.Reaches i) (hc : s.remembered c = some i) :
    Reshaped s ((s.update i ({ · with shape })).disown i c) i shape
      ∧ ∀ d, ((s.update i ({ · with shape })).disown i c).remembered d
        = if d = c then none else s.remembered d := by
  have hedits : Edits (fun _ => True) s (s.update i ({ · with shape })) :=
    .update (fun _ _ => rfl) fun _ _ _ _ => .inr trivial
  have hparent : (s.update i ({ · with shape })).parent? c = some i :=
    parent?_eq_some_iff.mpr ⟨(hedits.remembered_eq c).trans hc, hi.of_reshaped⟩
  have hlt : c < (s.update i ({ · with shape })).size := by
    rw [size_update]
    exact lt_of_remembered hc
  rw [disown, if_pos hparent]
  refine ⟨⟨by rw [setParent, size_update, size_update], fun j => ?_⟩, fun d => ?_⟩
  · rw [setParent, get?_update, get?_update]
    by_cases hij : i = j
    · subst hij
      by_cases hr : c = i <;> cases s.get? i <;> simp [hr]
    · by_cases hr : c = j <;> cases s.get? j <;> simp [hr, hij, Ne.symm hij]
  · rw [remembered_setParent _ none hlt, hedits.remembered_eq]

/-- Only examples can be given rows. -/
theorem exists_shape_of_needExamples {operation : String} (he : s.get? i = some e)
    (h : s.needExamples i operation = .ok ()) :
    ∃ title tags rows, e.shape = .example title tags rows := by
  obtain ⟨⟨⟩, -, h⟩ := bind_ok h
  obtain ⟨g, hg, h⟩ := bind_ok h
  obtain rfl : e = g := Option.some.inj (he.symm.trans (get_eq_ok.mp hg))
  split at h
  · cases h
  · next hk =>
    cases hs : e.shape <;> simp [hs, Shape.kind] at hk
    exact ⟨_, _, _, rfl⟩

/-- Removing a row changes nothing, or takes a row of arguments, which is not the first row, out of
the rows and lets go of it. -/
theorem removeRow_of_plain {data : RowData} (he : s.get? i = some e) (hg : e.given = [])
    (h : s.removeRow i data = .ok t) :
    t = s ∨ ∃ title tags rows n row, e.shape = .example title tags rows ∧ 1 ≤ n
      ∧ rows[n]? = some row
      ∧ t = (s.update i
        ({ · with shape := .example title tags (rows.eraseIdx n) })).disown i row := by
  obtain ⟨⟨⟩, hneed, h⟩ := bind_ok h
  obtain ⟨values, -, h⟩ := bind_ok h
  obtain ⟨arguments, hrows, h⟩ := bind_ok h
  obtain ⟨members, hmembers, h⟩ := bind_ok h
  obtain ⟨found, hfound, h⟩ := bind_ok h
  split at h
  · next n row =>
    right
    obtain ⟨u, hu, h⟩ := bind_ok h
    obtain rfl : u.disown i row = t := Except.ok.inj h
    obtain ⟨title, tags, rows, hshape⟩ := exists_shape_of_needExamples he hneed
    have hl : e.shape.list? .rows = some rows := by rw [hshape]; rfl
    -- the search goes through the rows behind the first
    have hv := valueOf_list_of_plain he hg hl
    simp only [argumentRows, hv, Value.ofNodes, bind, Except.bind] at hrows
    obtain rfl : Value.list (rows.map .node).tail = arguments := Except.ok.inj hrows
    obtain rfl : (rows.map Value.node).tail = members := Except.ok.inj hmembers
    obtain ⟨hle, hget⟩ := getElem?_of_findRow hfound
    rw [List.getElem?_tail, Nat.sub_add_cancel hle, List.getElem?_map] at hget
    obtain ⟨c, hrow, hnode⟩ := Option.map_eq_some_iff.mp hget
    obtain rfl : c = row := Value.node.inj hnode
    have hs : e.shape.setList .rows (rows.eraseIdx n)
        = some (.example title tags (rows.eraseIdx n)) := by rw [hshape]; rfl
    have hchange : s.changeList i (Attribute.list .rows).name (·.eraseIdx n)
        = .ok (s.update i ({ · with shape := .example title tags (rows.eraseIdx n) })) :=
      changeList_of_plain he hg hl hs (List.eraseIdx_map ..)
    obtain rfl := Except.ok.inj (hchange.symm.trans hu)
    exact ⟨title, tags, rows, n, c, hshape, hle, hrow, rfl⟩
  · exact .inl (Except.ok.inj h).symm

/-- Removing a row from examples. -/
theorem tidy_removeRow {data : RowData} (h : Tidy s.Reaches s) (hi : s.Reaches i)
    (ht : s.removeRow i data = .ok t) : Tidy s.Reaches t ∧ t.size = s.size := by
  obtain ⟨e, he⟩ := get?_of_lt hi.lt
  rcases removeRow_of_plain he (h.plain i e he) ht with
    rfl | ⟨title, tags, rows, n, row, hshape, -, hrow, rfl⟩
  · exact ⟨h, rfl⟩
  · have hl : e.shape.list? .rows = some rows := by rw [hshape]; rfl
    have hs : e.shape.setList .rows (rows.eraseIdx n)
        = some (.example title tags (rows.eraseIdx n)) := by rw [hshape]; rfl
    have hperm := perm_parts_of_eraseIdx hl hs hrow
    have hmem : row ∈ e.shape.parts := hperm.mem_iff.mpr List.mem_cons_self
    have hnodup := hperm.nodup_iff.mp (h.nodup i e he (by rw [hshape]; rfl))
    obtain ⟨hreshaped, hremembered⟩ :=
      reshaped_disown (.example title tags (rows.eraseIdx n)) hi
        ((h.agree i row hi).mpr ⟨e, he, hmem⟩)
    refine ⟨h.detach he hi hreshaped hremembered hmem (fun d => ?_)
      fun _ => (List.nodup_cons.mp hnodup).2, hreshaped.size_eq⟩
    rw [hperm.mem_iff, List.mem_cons]
    constructor
    · intro hd
      exact ⟨.inr hd, fun hdr => (List.nodup_cons.mp hnodup).1 (hdr ▸ hd)⟩
    · rintro ⟨hd | hd, hne⟩
      · exact absurd hd hne
      · exact hd

/-- What is in reach depends on the nodes and the names alone. -/
theorem reaches_congr (he : t.entries = s.entries) (hh : t.held = s.held) :
    t.Reaches i ↔ s.Reaches i := by
  have hway : ∀ {s t : Store}, t.entries = s.entries → t.held = s.held → ∀ {i}, t.Reaches i →
      s.Reaches i := by
    intro s t he hh i hi
    induction hi with
    | held hi hm =>
      refine .held ?_ ?_
      · rwa [size, he] at hi
      · rwa [roots, hh] at hm
    | owned _ hi hm ih =>
      refine .owned ih ?_ ?_
      · rwa [size, he] at hi
      · rwa [parts, get?, he] at hm
  exact ⟨hway he hh, hway he.symm hh.symm⟩

/-- An orderly operation keeps listing and remembering in agreement. -/
theorem tidy_next {op : Operation} (h : Tidy s.Reaches s) (horderly : op.IsOrderly)
    (hop : op.Within s.Reaches) : Tidy (s.next op).Reaches (s.next op) := by
  cases hperform : s.perform op with
  | error f =>
    rw [next_of_error hperform]
    exact h
  | ok t =>
    rw [next_of_ok hperform]
    have hknown : ∀ n, t.Reaches n → s.Known n := fun n hn => by
      rcases Nat.lt_or_ge n s.size with hlt | hge
      · exact .inr (hn.of_adds (adds_perform hop hperform) hlt)
      · exact .inl hge
    have hback : t.size = s.size → ∀ n, t.Reaches n → s.Reaches n := fun hsize n hn =>
      (hknown n hn).resolve_left (Nat.not_le.mpr (hsize ▸ hn.lt))
    cases op with
    | make what name =>
      obtain ⟨n, u, hn, rfl, rfl⟩ := make_inv hperform
      have hentries : (what.keep s).2.entries = s.entries := by cases what <;> rfl
      have hheld : (what.keep s).2.held = s.held := by cases what <;> rfl
      have hreaches : ∀ n, (what.keep s).2.Reaches n ↔ s.Reaches n := fun n =>
        reaches_congr hentries hheld
      have hsize : (what.keep s).2.size = s.size := by rw [size, hentries, size]
      have hgrown := grown_plant (Making.node_gives _ (Making.within_keep hop s) n hn)
        (what.keep s).2
      have hkept := (h.of_entries hentries).mono fun n => (hreaches n).mp
      refine ((hkept.grown hgrown).mono fun n hn => ?_).of_entries rfl
      rw [Known, hsize, hreaches]
      exact hknown n hn
    | hold name node =>
      cases hperform
      exact (h.mono (hback rfl)).of_entries rfl
    | release name =>
      cases hperform
      exact (h.mono (hback rfl)).of_entries rfl
    | speak dialect =>
      cases hperform
      exact (h.mono (hback rfl)).of_entries rfl
    | addFeatureFile directory file =>
      obtain ⟨⟨⟩, -, ht⟩ := bind_ok hperform
      obtain ⟨ht, hsize⟩ := tidy_addTo h hop.2 ht
      exact ht.mono (hback hsize)
    | addDirectory directory inner =>
      obtain ⟨⟨⟩, -, ht⟩ := bind_ok hperform
      obtain ⟨ht, hsize⟩ := tidy_addTo h hop.2 ht
      exact ht.mono (hback hsize)
    | addRow i data name =>
      obtain ⟨⟨row, x⟩, hx, ht⟩ := bind_ok hperform
      have hx := tidy_addRow h hop.1 hx
      cases name with
      | none =>
        cases ht
        exact hx.mono hknown
      | some name =>
        cases ht
        exact (hx.mono hknown).of_entries rfl
    | removeRow i data =>
      obtain ⟨ht, hsize⟩ := tidy_removeRow h hop.1 hperform
      exact ht.mono (hback hsize)
    | _ => exact horderly.elim

/-- In every store that an orderly run leads to, listing and remembering agree. -/
theorem Reached.tidy (hs : s.Reached Operation.IsOrderly) : Tidy s.Reaches s := by
  induction hs with
  | start dialect =>
    have hnone : ∀ i, get? { dialect } i = none := fun i => by simp [get?]
    exact {
      plain := fun i e he => by simp [hnone] at he
      listed_lt := by
        rintro n c ⟨e, he, -⟩
        simp [hnone] at he
      parents := fun c p hp => by simp [remembered, hnone] at hp
      nodup := fun i e he => by simp [hnone] at he
      agree := fun n c hn => absurd hn.lt (Nat.not_lt_zero n) }
  | step op _ horderly hop ih => exact tidy_next ih horderly hop

/-! ### Children and parents -/

/-- A node stands among the children or among the comments of another one. -/
def IsListed (s : Store) (n c : NodeId) : Prop :=
  (∃ vs, s.children n = .ok vs ∧ .node c ∈ vs)
    ∨ ∃ vs, s.listed n .comments = .ok vs ∧ .node c ∈ vs

/-- The children and comments of a node that was given nothing are what it lists. -/
theorem isListed_iff (he : s.get? p = some e) (hg : e.given = []) :
    s.IsListed p c ↔ c ∈ e.shape.parts := by
  have hchildren : (∃ vs, s.children p = .ok vs ∧ .node c ∈ vs) ↔ c ∈ e.shape.children := by
    rw [children_of_plain he hg]
    simp
  have hcomments : (∃ vs, s.listed p .comments = .ok vs ∧ .node c ∈ vs)
      ↔ ∃ parts, e.shape.list? .comments = some parts ∧ c ∈ parts := by
    cases hl : e.shape.list? .comments with
    | none =>
      have hv : s.listed p .comments = .error .noAttribute := by
        rw [listed, valueOf, stored_of_plain he hg (by simp), Entry.own, hl]
        rfl
      simp [hv]
    | some parts =>
      have hv : s.listed p .comments = .ok (parts.map .node) := by
        rw [listed, valueOf_list_of_plain he hg hl]
        rfl
      simp [hv]
  rw [IsListed, hchildren, hcomments]
  cases hs : e.shape <;> simp [Shape.parts, Shape.children, Shape.list?]

/-- In every store that an orderly run leads to: the children of a node in reach can be asked for,
the parent of a node is the one in reach that lists it, and no two nodes in reach list the same. -/
theorem parent?_iff_isListed (hs : s.Reached Operation.IsOrderly) :
    (∀ n, s.Reaches n → ∃ vs, s.children n = .ok vs)
      ∧ (∀ n c, s.Reaches n → s.Reaches c → (s.parent? c = some n ↔ s.IsListed n c))
      ∧ ∀ n m c, s.Reaches n → s.Reaches m → s.IsListed n c → s.IsListed m c → n = m := by
  have htidy := hs.tidy
  have hagree : ∀ n c, s.Reaches n → (s.remembered c = some n ↔ s.IsListed n c) := by
    intro n c hn
    obtain ⟨e, he⟩ := get?_of_lt hn.lt
    rw [htidy.agree n c hn, isListed_iff he (htidy.plain n e he), Lists]
    simp [he]
  refine ⟨fun n hn => ?_, fun n c hn _ => ?_, fun n m c hn hm hc hc' => ?_⟩
  · obtain ⟨e, he⟩ := get?_of_lt hn.lt
    exact ⟨_, children_of_plain he (htidy.plain n e he)⟩
  · rw [parent?_eq_some_iff, ← hagree n c hn]
    exact ⟨fun h => h.1, fun h => ⟨h, hn⟩⟩
  · rw [← hagree n c hn] at hc
    rw [← hagree m c hm] at hc'
    exact Option.some.inj (hc.symm.trans hc')

/-- A directory with a file in it. -/
def fileInDirectory : Store :=
  let s := ({} : Store).next (.make (.directory (.text ['d'])) "directory")
  let s := s.next (.make (.featureFile (.text ['f'])) "file")
  s.next (.addFeatureFile 0 1)

/-- A file that was put in a directory has it as its parent and is listed there. -/
theorem parent?_iff_isListed_fileInDirectory :
    fileInDirectory.Reached Operation.IsOrderly ∧ fileInDirectory.parent? 1 = some 0
      ∧ fileInDirectory.IsListed 0 1 := by
  have hempty : Reached Operation.IsOrderly ({} : Store) := .start _
  have hdirectory := hempty.step (.make (.directory (.text ['d'])) "directory") trivial
    (Value.within_text _)
  have hfile := hdirectory.step (.make (.featureFile (.text ['f'])) "file") trivial
    (Value.within_text _)
  have hreached : fileInDirectory.Reached Operation.IsOrderly :=
    hfile.step (.addFeatureFile 0 1) trivial
      ⟨.held (by decide) (by decide), .held (by decide) (by decide)⟩
  have hentry : fileInDirectory.get? 0
      = some { shape := .directory (.text ['d']) [1] [] } := by rfl
  have hlisted : fileInDirectory.IsListed 0 1 := (isListed_iff hentry rfl).mpr (by decide)
  refine ⟨hreached, ?_, hlisted⟩
  exact ((parent?_iff_isListed hreached).2.1 0 1 (.held (by decide) (by decide))
    (.held (by decide) (by decide))).mpr hlisted

end Store

end FeatureTree
