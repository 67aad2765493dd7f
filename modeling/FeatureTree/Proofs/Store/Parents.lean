import FeatureTree.Proofs.Store.Operations

/-!
# How the parent of a node changes

The parent of a node is the node that it remembers, as long as that is in reach. An operation can
change what a node remembers in two ways only: a node without a parent is attached, or a node is
detached from its own parent. Besides that a parent goes when it gets out of reach. So no node goes
from one parent to another in a single operation, whatever the operation is.

## Main results

* `Store.relinks_perform`: what an operation does to what nodes remember
* `Store.parentChange_next`: the four ways in which a parent can come out of an operation
* `Store.parent?_next`: the parent of a node is never exchanged, attaching a node that has another
  parent is refused, and attaching a node whose parent is gone succeeds
-/

namespace FeatureTree

/-! ### Attaching and detaching operations -/

namespace Operation

/-- An operation attaches a node to another: it is asked to, or it makes both, or it makes the node
as a row for the other. -/
def Attaches (s : Store) (p c : NodeId) : Operation → Prop
  | .adopt parent child | .addFeatureFile parent child | .addDirectory parent child =>
    parent = p ∧ child = c
  | .make _ _ => s.size ≤ c ∧ s.size ≤ p
  | .addRow i _ _ => s.size ≤ c ∧ (p = i ∨ s.size ≤ p)
  | _ => False

/-- An operation detaches a node from another: it is asked to, or it takes the node out of the rows
of the other. -/
def Detaches (s : Store) (p c : NodeId) : Operation → Prop
  | .disown parent child => parent = p ∧ child = c
  | .removeRow i data => i = p ∧ s.TakesOut i data c
  | _ => False

end Operation

namespace Store

variable {s t u : Store} {op : Operation} {c p q : NodeId}

/-- What an operation that succeeds does to what nodes remember. -/
inductive Relinks (s : Store) (op : Operation) (t : Store) : Prop where
  | same (size : t.size = s.size) (remembered : ∀ d, t.remembered d = s.remembered d)
  | attach {p c : NodeId} (attaches : op.Attaches s p c) (lt : p < s.size)
      (free : s.parent? c = none) (size : t.size = s.size)
      (remembered : ∀ d, t.remembered d = if d = c then some p else s.remembered d)
  | detach {p c : NodeId} (detaches : op.Detaches s p c) (parent : s.parent? c = some p)
      (size : t.size = s.size)
      (remembered : ∀ d, t.remembered d = if d = c then none else s.remembered d)
  | grow (le : s.size ≤ t.size) (old : ∀ d, d < s.size → t.remembered d = s.remembered d)
      (new : ∀ d p, s.size ≤ d → t.remembered d = some p → op.Attaches s p d ∧ p < t.size)

/-- The parent of a node is the one it remembers. -/
theorem remembered_of_parent? (h : s.parent? c = some p) : s.remembered c = some p :=
  (parent?_eq_some_iff.mp h).1

/-- What is reached is in the store. -/
theorem Reaches.lt {i : NodeId} (h : s.Reaches i) : i < s.size := by
  cases h <;> assumption

/-- Attaching a node that is in the store. -/
theorem relinks_adopt (hp : p < s.size) (hc : c < s.size) (hattaches : op.Attaches s p c)
    (h : s.adopt p c = .ok u) {r : NodeId → Prop} (ht : Edits r u t) : Relinks s op t := by
  rcases adopt_inv h with ⟨-, rfl⟩ | ⟨hfree, rfl⟩
  · exact .same ht.size_eq ht.remembered_eq
  · refine .attach hattaches hp hfree (ht.size_eq.trans (size_update ..)) fun d => ?_
    rw [ht.remembered_eq, remembered_setParent s _ hc]

/-- Detaching a node after an edit relinks it alone. -/
theorem relinks_disown {r : NodeId → Prop} (hu : Edits r s u)
    (hparent : u.parent? c = some p → s.parent? c = some p ∧ op.Detaches s p c) :
    Relinks s op (u.disown p c) := by
  rcases disown_inv u p c with h | ⟨hp, h⟩
  · rw [h]
    exact .same hu.size_eq hu.remembered_eq
  · obtain ⟨hs, hd⟩ := hparent hp
    have hc : c < u.size := lt_of_remembered (remembered_of_parent? hp)
    rw [h]
    refine .detach hd hs ((size_update ..).trans hu.size_eq) fun d => ?_
    rw [remembered_setParent u none hc, hu.remembered_eq]

/-- Adding a row attaches new nodes only. -/
theorem relinks_addRow {i row : NodeId} {data : RowData} (hi : i < s.size)
    (h : s.addRow i data = .ok (row, t)) :
    s.size ≤ t.size ∧ (∀ d, d < s.size → t.remembered d = s.remembered d)
      ∧ ∀ d p, s.size ≤ d → t.remembered d = some p → (p = i ∨ s.size ≤ p) ∧ p < t.size := by
  obtain ⟨u, w, hgrown, -, hw, happend⟩ := exists_grown_of_addRow (fun _ => True) h
  have hedits : Edits (· = row) w t := edits_append (by simp) i _ t happend
  obtain ⟨hle, hlt⟩ := hgrown.tops_new row (by simp)
  obtain rfl : w = u.setParent (some i) row := by
    rcases adopt_inv hw with ⟨hp, -⟩ | ⟨-, rfl⟩
    · have := remembered_of_parent? hp
      rw [hgrown.tops_free row (by simp)] at this
      cases this
    · rfl
  have hremembered : ∀ d, t.remembered d = if d = row then some i else u.remembered d := fun d => by
    rw [hedits.remembered_eq, remembered_setParent u _ hlt]
  have hsize : t.size = u.size := by rw [hedits.size_eq, setParent, size_update]
  refine ⟨hsize ▸ hgrown.le, fun d hd => ?_, fun d p hd hp => ?_⟩
  · have hne : d ≠ row := fun e => Nat.not_lt.mpr hle (e ▸ hd)
    rw [hremembered, if_neg hne, hgrown.remembered_old hd]
  · rw [hremembered] at hp
    split at hp
    · cases hp
      exact ⟨.inl rfl, hsize ▸ Nat.lt_of_lt_of_le hi hgrown.le⟩
    · obtain ⟨hle, hl⟩ := (hgrown.links d p hd).mp hp
      exact ⟨.inr hle, hsize ▸ hl.lt⟩

/-- Whatever an operation does, it attaches nodes without a parent and detaches nodes from their own
parent. -/
theorem relinks_perform (hop : op.Within s.Reaches) (h : s.perform op = .ok t) :
    Relinks s op t := by
  cases op with
  | make what name =>
    obtain ⟨n, u, hn, rfl, rfl⟩ := make_inv h
    have hgrown := grown_plant (Making.node_gives _ (Making.within_keep hop s) n hn)
      (what.keep s).2
    have hkeep := Making.edits_keep (fun _ => True) what s
    refine .grow (hkeep.size_eq ▸ hgrown.le) (fun d hd => ?_) fun d p hd hp => ?_
    · rw [← hkeep.remembered_eq, ← hgrown.remembered_old (hkeep.size_eq ▸ hd)]
      rfl
    · rw [← hkeep.size_eq] at hd
      obtain ⟨hle, hl⟩ := (hgrown.links d p hd).mp hp
      exact ⟨⟨hkeep.size_eq ▸ hd, hkeep.size_eq ▸ hle⟩, hl.lt⟩
  | hold name node =>
    cases h
    exact .same rfl fun _ => rfl
  | release name =>
    cases h
    exact .same rfl fun _ => rfl
  | speak dialect =>
    cases h
    exact .same rfl fun _ => rfl
  | addFeatureFile directory file =>
    obtain ⟨u, hu, ht⟩ := addFeatureFile_inv h
    exact relinks_adopt hop.1.lt hop.2.lt ⟨rfl, rfl⟩ hu ht
  | addDirectory directory inner =>
    obtain ⟨u, hu, ht⟩ := addDirectory_inv h
    exact relinks_adopt hop.1.lt hop.2.lt ⟨rfl, rfl⟩ hu ht
  | addRow i data name =>
    obtain ⟨⟨row, x⟩, hx, h⟩ := bind_ok h
    obtain ⟨hle, hold, hnew⟩ := relinks_addRow hop.1.lt hx
    cases name with
    | none =>
      cases h
      exact .grow hle hold fun d p hd hp => ⟨⟨hd, (hnew d p hd hp).1⟩, (hnew d p hd hp).2⟩
    | some name =>
      cases h
      exact .grow hle hold fun d p hd hp => ⟨⟨hd, (hnew d p hd hp).1⟩, (hnew d p hd hp).2⟩
  | removeRow i data =>
    rcases removeRow_inv h with rfl | ⟨row, u, htakes, hu, rfl⟩
    · exact .same rfl fun _ => rfl
    · refine relinks_disown hu fun hp => ?_
      obtain ⟨hr, hi⟩ := parent?_eq_some_iff.mp hp
      have hr : s.remembered row = some i := hu.remembered_eq row ▸ hr
      exact ⟨parent?_eq_some_iff.mpr ⟨hr, hop.1⟩, rfl, htakes⟩
  | adopt parent child =>
    exact relinks_adopt hop.1.lt hop.2.lt ⟨rfl, rfl⟩ h (.refl (fun _ => True) t)
  | disown parent child =>
    cases h
    exact relinks_disown (.refl (fun _ => True) s) fun hp => ⟨hp, rfl, rfl⟩
  | assign i name v =>
    have ht := edits_assign hop.2 t h
    exact .same ht.size_eq ht.remembered_eq
  | append i name v =>
    have ht := edits_append hop.2 i name t h
    exact .same ht.size_eq ht.remembered_eq

/-! ### Parents -/

/-- Every node that is remembered as a parent is in the store. -/
def ParentsKept (s : Store) : Prop := ∀ c p, s.remembered c = some p → p < s.size

/-- An operation on reached nodes keeps the parents. -/
theorem parentsKept_next (hs : s.ParentsKept) (hop : op.Within s.Reaches) :
    (s.next op).ParentsKept := by
  cases h : s.perform op with
  | error f =>
    rw [next_of_error h]
    exact hs
  | ok t =>
    rw [next_of_ok h]
    intro d q hd
    cases relinks_perform hop h with
    | same size remembered =>
      rw [remembered] at hd
      exact size ▸ hs d q hd
    | attach attaches lt free size remembered =>
      rw [remembered] at hd
      split at hd
      · cases hd
        exact size ▸ lt
      · exact size ▸ hs d q hd
    | detach detaches parent size remembered =>
      rw [remembered] at hd
      split at hd
      · cases hd
      · exact size ▸ hs d q hd
    | grow le old new =>
      rcases Nat.lt_or_ge d s.size with hlt | hge
      · rw [old d hlt] at hd
        exact Nat.lt_of_lt_of_le (hs d q hd) le
      · exact (new d q hge hd).2

/-- What is remembered as a parent stays in the store, whatever is done. -/
theorem Reached.parentsKept {sort : Operation → Prop} (hs : s.Reached sort) : s.ParentsKept := by
  induction hs with
  | start dialect =>
    intro c p h
    simp [remembered, get?] at h
  | step op _ _ hop ih => exact parentsKept_next ih hop

/-- How the parent of a node comes out of an operation: as it was, given to a node that had none,
taken from a node by its parent, or gone because it is out of reach. -/
inductive ParentChange (s : Store) (op : Operation) (t : Store) (c : NodeId) : Prop where
  | kept (same : t.parent? c = s.parent? c)
  | attached {p : NodeId} (before : s.parent? c = none) (after : t.parent? c = some p)
      (attaches : op.Attaches s p c)
  | detached {p : NodeId} (before : s.parent? c = some p) (after : t.parent? c = none)
      (detaches : op.Detaches s p c)
  | lost {p : NodeId} (before : s.parent? c = some p) (after : t.parent? c = none)
      (gone : ¬ t.Reaches p)

/-- A parent comes out of an operation in one of four ways. -/
theorem parentChange_next (hs : s.ParentsKept) (hop : op.Within s.Reaches) (c : NodeId) :
    ParentChange s op (s.next op) c := by
  cases h : s.perform op with
  | error f =>
    rw [next_of_error h]
    exact .kept rfl
  | ok t =>
    rw [next_of_ok h]
    have hrelinks := relinks_perform hop h
    have hback : ∀ {p : NodeId}, s.remembered c = some p → t.Reaches p → s.parent? c = some p :=
      fun hp hr => parent?_eq_some_iff.mpr ⟨hp, hr.of_adds (adds_perform hop h) (hs c _ hp)⟩
    cases ht : t.parent? c with
    | some p =>
      obtain ⟨hp, hr⟩ := parent?_eq_some_iff.mp ht
      have hp : t.remembered c = some p := hp
      cases hrelinks with
      | same size remembered =>
        rw [remembered] at hp
        exact .kept (ht.trans (hback hp hr).symm)
      | attach attaches lt free size remembered =>
        rw [remembered] at hp
        split at hp
        · next hc =>
          subst hc
          cases hp
          exact .attached free ht attaches
        · exact .kept (ht.trans (hback hp hr).symm)
      | detach detaches parent size remembered =>
        rw [remembered] at hp
        split at hp
        · cases hp
        · exact .kept (ht.trans (hback hp hr).symm)
      | grow le old new =>
        rcases Nat.lt_or_ge c s.size with hlt | hge
        · rw [old c hlt] at hp
          exact .kept (ht.trans (hback hp hr).symm)
        · refine .attached ?_ ht (new c p hge hp).1
          rw [parent?, parentAmong, get?_of_le hge]
          rfl
    | none =>
      cases hc : s.parent? c with
      | none => exact .kept (ht.trans hc.symm)
      | some p =>
        have hp := remembered_of_parent? hc
        by_cases hr : t.Reaches p
        · -- the parent is still in reach, so it is not remembered any more
          have hne : t.remembered c ≠ some p := fun hp => by
            have := parent?_eq_some_iff.mpr ⟨hp, hr⟩
            rw [ht] at this
            cases this
          cases hrelinks with
          | same size remembered => exact absurd ((remembered c).trans hp) hne
          | @attach _ c' attaches lt free size remembered =>
            by_cases he : c = c'
            · subst he
              rw [hc] at free
              cases free
            · rw [remembered, if_neg he] at hne
              exact absurd hp hne
          | @detach _ c' detaches parent size remembered =>
            by_cases he : c = c'
            · subst he
              rw [hc] at parent
              cases parent
              exact .detached hc ht detaches
            · rw [remembered, if_neg he] at hne
              exact absurd hp hne
          | grow le old new => exact absurd ((old c (lt_of_remembered hp)).trans hp) hne
        · exact .lost hc ht hr

/-! ### Attempts to attach -/

/-- A node can be asked to take nodes into one of its lists: it is a directory that was left its
operation and has the list. -/
structure TakesIn (s : Store) (q : NodeId) (operation : String) (field : ListField) : Prop where
  calls : s.calls q operation = .ok ()
  kind : ∃ e, s.get q = .ok e ∧ e.shape.kind = .directory
  list : ∃ v, s.listNamed q (Attribute.list field).name = .ok v

end Store

namespace Operation

/-- A node attempts to attach another one. -/
def Attempts (s : Store) (q c : NodeId) : Operation → Prop
  | .adopt parent child => parent = q ∧ child = c
  | .addFeatureFile directory file =>
    directory = q ∧ file = c ∧ s.TakesIn q "add_feature_file" .featureFiles
  | .addDirectory directory inner =>
    directory = q ∧ inner = c ∧ s.TakesIn q "add_directory" .directories
  | _ => False

end Operation

namespace Store

variable {s t u : Store} {op : Operation} {c p q : NodeId}

/-- Adding to a node that takes in is attaching and then appending to its list. -/
theorem TakesIn.addTo_eq {operation : String} {field : ListField}
    (h : s.TakesIn q operation field) (c : NodeId) :
    s.addTo q field c = s.adopt q c >>= (·.append q (Attribute.list field).name (.node c)) := by
  obtain ⟨e, he, hkind⟩ := h.kind
  obtain ⟨v, hv⟩ := h.list
  simp only [addTo, he, hkind, hv, bind, Except.bind]
  rfl

/-- An attempt to attach is refused with the fault of attaching. -/
theorem perform_of_adopt_error {f : Fault} (hop : op.Attempts s q c)
    (h : s.adopt q c = .error f) : s.perform op = .error f := by
  cases op with
  | adopt parent child =>
    obtain ⟨rfl, rfl⟩ := hop
    exact h
  | addFeatureFile directory file =>
    obtain ⟨rfl, rfl, htakes⟩ := hop
    simp only [perform, addFeatureFile, htakes.calls, htakes.addTo_eq, h, bind, Except.bind]
  | addDirectory directory inner =>
    obtain ⟨rfl, rfl, htakes⟩ := hop
    simp only [perform, addDirectory, htakes.calls, htakes.addTo_eq, h, bind, Except.bind]
  | _ => exact hop.elim

/-- A node that has another parent cannot be attached. -/
theorem adopt_of_other (h : s.parent? c = some p) (hq : q ≠ p) :
    s.adopt q c = .error (s.attachedFault c p) := by
  simp [adopt, h, Ne.symm hq]

/-- Setting a parent changes nothing that is stored. -/
theorem stored_setParent (s : Store) (parent : Option NodeId) (d i : NodeId) (name : String) :
    (s.setParent parent d).stored i name = s.stored i name := by
  have hget : (s.setParent parent d).get? i
      = (s.get? i).map fun e => if d = i then { e with parent } else e := by
    rw [setParent, get?_update]
    split <;> simp
  have hown : ∀ (e : Entry) (a : Attribute), ({ e with parent } : Entry).own a = e.own a :=
    fun e a => by cases a <;> rfl
  simp only [stored, get, hget]
  cases s.get? i with
  | none => rfl
  | some e =>
    simp only [Option.map_some]
    split
    · simp only [bind, Except.bind, hown]
    · rfl

/-- No list follows from other attributes. -/
theorem following?_list (kind : Kind) (field : ListField) :
    Attribute.following? kind (Attribute.list field).name = none := by
  simp [Attribute.following?, Attribute.ofName?_name, Attribute.follows]

/-- Setting a parent changes no list. -/
theorem listNamed_setParent (s : Store) (parent : Option NodeId) (d i : NodeId)
    (field : ListField) : (s.setParent parent d).listNamed i (Attribute.list field).name
      = s.listNamed i (Attribute.list field).name := by
  have hget : (s.setParent parent d).get? i
      = (s.get? i).map fun e => if d = i then { e with parent } else e := by
    rw [setParent, get?_update]
    split <;> simp
  simp only [listNamed, content, following?_list, get, hget, bind, Except.bind, stored_setParent]
  cases s.get? i <;> rfl

/-- A list that a node has by a name can be added to. -/
theorem append_of_listNamed {i : NodeId} {name : String} {list : Value}
    (h : s.listNamed i name = .ok list) (v : Value) : ∃ t, s.append i name v = .ok t := by
  cases he : s.get i with
  | error _ => simp [listNamed, content, he, bind, Except.bind] at h
  | ok e =>
    simp only [append, changeList, h, he, bind, Except.bind]
    split
    · exact ⟨_, rfl⟩
    · split <;> exact ⟨_, rfl⟩

/-- An attempt to attach a node without a parent succeeds. -/
theorem perform_of_free (hop : op.Attempts s q c) (hc : c < s.size) (hfree : s.parent? c = none) :
    ∃ t, s.perform op = .ok t ∧ t.remembered c = some q := by
  have hadopt : s.adopt q c = .ok (s.setParent (some q) c) := adopt_of_none hfree
  have hremembered : (s.setParent (some q) c).remembered c = some q := by
    rw [remembered_setParent s _ hc, if_pos rfl]
  -- putting the node into the list of a directory leaves what it remembers alone
  have hlist : ∀ {operation field}, s.TakesIn q operation field →
      ∃ t, s.addTo q field c = .ok t ∧ t.remembered c = some q := by
    intro operation field htakes
    obtain ⟨list, hl⟩ := htakes.list
    rw [← listNamed_setParent s (some q) c] at hl
    obtain ⟨t, ht⟩ := append_of_listNamed hl (.node c)
    refine ⟨t, ?_, ?_⟩
    · simp only [htakes.addTo_eq, hadopt, bind, Except.bind, ht]
    · have hedits : Edits (· = c) (s.setParent (some q) c) t := edits_append (by simp) q _ t ht
      rw [hedits.remembered_eq, hremembered]
  cases op with
  | adopt parent child =>
    obtain ⟨rfl, rfl⟩ := hop
    exact ⟨_, hadopt, hremembered⟩
  | addFeatureFile directory file =>
    obtain ⟨rfl, rfl, htakes⟩ := hop
    obtain ⟨t, ht, hr⟩ := hlist htakes
    refine ⟨t, ?_, hr⟩
    simp only [perform, addFeatureFile, htakes.calls, ht, bind, Except.bind]
  | addDirectory directory inner =>
    obtain ⟨rfl, rfl, htakes⟩ := hop
    obtain ⟨t, ht, hr⟩ := hlist htakes
    refine ⟨t, ?_, hr⟩
    simp only [perform, addDirectory, htakes.calls, ht, bind, Except.bind]
  | _ => exact hop.elim

/-- Setting a parent changes no parts. -/
theorem parts_setParent (s : Store) (parent : Option NodeId) (c i : NodeId) :
    (s.setParent parent c).parts i = s.parts i := by
  rw [parts, setParent, get?_update, parts]
  split
  · cases s.get? i <;> rfl
  · rfl

/-- Attaching and detaching changes nothing about what is in reach. -/
theorem reaches_setParent (s : Store) (parent : Option NodeId) (c : NodeId) {i : NodeId} :
    (s.setParent parent c).Reaches i ↔ s.Reaches i := by
  have hsize : (s.setParent parent c).size = s.size := size_update ..
  constructor
  · intro h
    induction h with
    | held hi hm => exact .held (hsize ▸ hi) hm
    | owned _ hi hm ih => exact .owned ih (hsize ▸ hi) (parts_setParent s parent c _ ▸ hm)
  · intro h
    induction h with
    | held hi hm => exact .held (hsize.symm ▸ hi) hm
    | owned _ hi hm ih =>
      exact .owned ih (hsize.symm ▸ hi) ((parts_setParent s parent c _).symm ▸ hm)

/-! ### No parent is exchanged -/

/-- What an operation can do to the parent of a node, and what attempts to attach the node come to
before and after it. -/
structure ParentStep (s : Store) (op : Operation) (c : NodeId) : Prop where
  /-- The parent stays, or is given to a node without one, or is taken by the parent itself, or is
  out of reach afterwards. -/
  change : ParentChange s op (s.next op) c
  /-- No node goes from one parent to another. -/
  never_exchanged : ∀ p q, s.parent? c = some p → (s.next op).parent? c = some q → q = p
  /-- Attaching a node that has another parent is refused and changes nothing: it is said which node
  is attached to which, if both labels can be written. -/
  refused : ∀ p q, s.parent? c = some p → q ≠ p → op.Attempts s q c → s.next op = s ∧
    ((∃ child parent, s.label c = .ok child ∧ s.label p = .ok parent
        ∧ s.perform op = .error (.alreadyAttached child parent))
      ∨ ∃ f, (s.label c = .error f ∨ s.label p = .error f) ∧ s.perform op = .error f)
  /-- A node whose parent got out of reach or detached it has none. -/
  freed : ∀ p, s.parent? c = some p → ¬ (s.next op).Reaches p ∨ op = .disown p c →
    (s.next op).parent? c = none
  /-- Attaching a node that has no parent succeeds, whether it never had one or lost it. -/
  free : c < s.size → s.parent? c = none → ∀ q, op.Attempts s q c →
    s.perform op = .ok (s.next op) ∧ (s.next op).remembered c = some q
      ∧ (op = .adopt q c → (s.next op).parent? c = some q)

/-- In every store that a run leads to, and whatever is done next: the parent of a node is not
exchanged for another. -/
theorem parent?_next (hs : s.Reached fun _ => True) (hop : op.Within s.Reaches) (c : NodeId) :
    ParentStep s op c := by
  have hchange := parentChange_next hs.parentsKept hop c
  exact {
    change := hchange
    never_exchanged := by
      intro p q hp hq
      cases hchange with
      | kept same =>
        rw [same, hp] at hq
        exact (Option.some.inj hq).symm
      | attached before after attaches =>
        rw [hp] at before
        cases before
      | detached before after detaches =>
        rw [after] at hq
        cases hq
      | lost before after gone =>
        rw [after] at hq
        cases hq
    refused := by
      intro p q hp hq hattempt
      have herror := perform_of_adopt_error hattempt (adopt_of_other hp hq)
      refine ⟨next_of_error herror, ?_⟩
      rw [herror, attachedFault]
      cases hc : s.label c with
      | error f => exact .inr ⟨f, .inl rfl, rfl⟩
      | ok child =>
        cases hl : s.label p with
        | error f => exact .inr ⟨f, .inr rfl, rfl⟩
        | ok parent => exact .inl ⟨child, parent, rfl, rfl, rfl⟩
    freed := by
      rintro p hp (hgone | rfl)
      · cases hchange with
        | kept same => exact absurd (parent?_eq_some_iff.mp (same.trans hp)).2 hgone
        | attached before after attaches =>
          rw [hp] at before
          cases before
        | detached before after detaches => exact after
        | lost before after gone => exact after
      · have hc := lt_of_remembered (remembered_of_parent? hp)
        have hnext : s.next (.disown p c) = s.setParent none c := by
          simp [next, perform, disown, hp]
        rw [hnext, parent?, parentAmong]
        have := remembered_setParent s none hc c
        rw [remembered, if_pos rfl] at this
        rw [this]
        rfl
    free := by
      intro hc hfree q hattempt
      obtain ⟨t, ht, hr⟩ := perform_of_free hattempt hc hfree
      rw [next_of_ok ht]
      refine ⟨ht, hr, ?_⟩
      rintro rfl
      obtain rfl : s.setParent (some q) c = t := Except.ok.inj ((adopt_of_none hfree).symm.trans ht)
      exact parent?_eq_some_iff.mpr ⟨hr, (reaches_setParent s _ c).mpr hop.1⟩ }

/-- A step that is attached to a scenario, with another scenario beside them. -/
def stepOfFirst : Store :=
  let s := ({} : Store).next (.make (.empty .step) "step")
  let s := s.next (.make (.empty .scenario) "first")
  let s := s.next (.make (.empty .scenario) "second")
  s.next (.adopt 1 0)

/-- Two scenarios, the first of them with a step, make a store that is reached. -/
theorem reached_stepOfFirst : stepOfFirst.Reached fun _ => True := by
  have hempty : Reached (fun _ => True) ({} : Store) := .start _
  have hstep := hempty.step (.make (.empty .step) "step") trivial trivial
  have hfirst := hstep.step (.make (.empty .scenario) "first") trivial trivial
  have hsecond := hfirst.step (.make (.empty .scenario) "second") trivial trivial
  exact hsecond.step (.adopt 1 0) trivial
    ⟨.held (by decide) (by decide), .held (by decide) (by decide)⟩

/-- The step of the first scenario keeps its parent when it is attached to the second. -/
theorem parent?_next_stepOfFirst :
    stepOfFirst.Reached (fun _ => True)
      ∧ (Operation.adopt 2 0).Within stepOfFirst.Reaches
      ∧ ParentStep stepOfFirst (.adopt 2 0) 0 := by
  have hop : (Operation.adopt 2 0).Within stepOfFirst.Reaches :=
    ⟨.held (by decide) (by decide), .held (by decide) (by decide)⟩
  exact ⟨reached_stepOfFirst, hop, parent?_next reached_stepOfFirst hop 0⟩

/-- A node whose label cannot be written is not named in a fault: the scenario was given a text in
the place of where it was read from, and is asked for the line of that. -/
theorem adopt_of_unwritable :
    let s := stepOfFirst.next (.assign 1 "source_location" (.text ['x']))
    s.Reached (fun _ => True) ∧ (Operation.adopt 2 0).Within s.Reaches ∧ s.parent? 0 = some 1
      ∧ s.perform (.adopt 2 0) = .error .noAttribute := by
  intro s
  have hassign : (Operation.assign 1 "source_location" (.text ['x'])).Within stepOfFirst.Reaches :=
    ⟨.held (by decide) (by decide), by simp⟩
  have hreached : s.Reached fun _ => True :=
    reached_stepOfFirst.step _ trivial hassign
  have hop : (Operation.adopt 2 0).Within s.Reaches :=
    ⟨.held (by decide) (by decide), .held (by decide) (by decide)⟩
  have hparent : s.parent? 0 = some 1 :=
    parent?_eq_some_iff.mpr ⟨by decide, .held (by decide) (by decide)⟩
  obtain ⟨step, hstep⟩ : ∃ step, s.label 0 = .ok step := ⟨_, rfl⟩
  have hscenario : s.label 1 = .error .noAttribute := by rfl
  refine ⟨hreached, hop, hparent, ?_⟩
  rw [perform, adopt_of_other hparent (by decide), attachedFault, hstep, hscenario]

end Store

end FeatureTree
