import FeatureTree.Proofs.Store.MappedRows
import FeatureTree.Proofs.Store.Tabular
import FeatureTree.Store.Stepwise

/-!
# Operations that fail

Operations are done in steps, and what a step has changed stays changed when a later one fails. Yet
an operation that fails changes nothing that was there: what can be refused is refused before the
first change, and all that a failure can leave behind is a new row that nothing lists. For most
operations this is seen by doing them in one change, which is made or is not. Adding a row is left
then, where the row is made and attached before it is listed.

## Main results

* `Store.run_steps`: the steps of an operation do what the operation does, or fail as it does
* `Store.unchanged_of_leaves`: what a failing operation leaves behind takes nothing away
* `Store.failures_change_nothing`: so it is in all that a run leads to, and when operations fail
-/

namespace FeatureTree

namespace Store

variable {s t u : Store} {i : NodeId} {data : RowData} {fault : Fault}

namespace Stepwise

variable {α : Type}

/-! ### Steps that are one change -/

/-- Attaching is one change. -/
theorem adopt_eq_change (parent child : NodeId) :
    adopt parent child = change (·.adopt parent child) := by
  refine ext fun s => ?_
  rw [run_change, adopt, run_get_bind, Store.adopt]
  cases s.parent? child with
  | none => rfl
  | some current =>
    by_cases h : current = parent
    · simp only [h, ne_eq, not_true_eq_false, if_false, if_true, run_pure]
    · simp only [h, ne_eq, not_false_eq_true, if_false, if_true, run_get_bind, run_throw]

/-- A question and a change that depends on the answer come to one change. -/
theorem run_ask_bind_change {f : Store → Except Fault α} {x : α → Stepwise Unit}
    {g : α → Store → Except Fault Store}
    (h : ∀ a, f s = .ok a → (x a).run s = (change (g a)).run s) :
    (ask f >>= x).run s = (change fun s => f s >>= fun a => g a s).run s := by
  rw [run_ask_bind, run_change]
  cases hf : f s with
  | error _ => rfl
  | ok a => exact (h a hf).trans (run_change (g a) s)

/-- A node is attached and put at the end of a list that was found before: this list can be added
to. -/
theorem run_adopt_append {parent child : NodeId} {field : ListField} {list : Value}
    (h : s.listNamed parent (Attribute.list field).name = .ok list) :
    (do
      adopt parent child
      change (·.append parent (Attribute.list field).name (.node child)) : Stepwise Unit).run s
    = (change fun s => do
        (← s.adopt parent child).append parent (Attribute.list field).name (.node child)).run s
    := by
  rw [adopt_eq_change, run_bind, run_change, run_change]
  cases hu : s.adopt parent child with
  | error _ => rfl
  | ok u =>
    have hlist : u.listNamed parent (Attribute.list field).name = .ok list := by
      rcases adopt_inv hu with ⟨-, rfl⟩ | ⟨-, rfl⟩
      · exact h
      · exact (listNamed_setParent s _ child parent field).trans h
    obtain ⟨t, ht⟩ := append_of_listNamed hlist (.node child)
    simp only [bind, Except.bind, run_change, ht]

/-- Putting a node into a directory is one change. -/
theorem addTo_eq_change (directory : NodeId) (field : ListField) (child : NodeId) :
    addTo directory field child = change (·.addTo directory field child) := by
  refine ext fun s => run_ask_bind_change fun e _ => ?_
  by_cases hkind : e.shape.kind = .directory
  · simp only [hkind, ne_eq, not_true_eq_false, if_false]
    exact run_ask_bind_change fun list hlist => run_adopt_append hlist
  · simp only [hkind, ne_eq, not_false_eq_true, if_true]
    rfl

/-- Removing a row is one change: the row is detached when nothing can fail any more. -/
theorem removeRow_eq_change (i : NodeId) (data : RowData) :
    removeRow i data = change (·.removeRow i data) := by
  refine ext fun s => run_ask_bind_change fun _ _ => run_ask_bind_change fun _ _ =>
    run_ask_bind_change fun _ _ => run_ask_bind_change fun _ _ =>
      run_ask_bind_change fun found _ => ?_
  rcases found with _ | ⟨n, v⟩
  · rfl
  · cases v with
    | node row =>
      show (change _ >>= fun _ => modify _).run s = _
      rw [run_bind, run_change, run_change]
      cases hchange : s.changeList i (Attribute.list .rows).name (·.eraseIdx n) with
      | error _ => simp only [hchange, bind, Except.bind]
      | ok t =>
        simp only [hchange, bind, Except.bind]
        rfl
    | _ => rfl

/-- Adding a feature file is one change. -/
theorem addFeatureFile_eq_change (directory file : NodeId) :
    addFeatureFile directory file = change (·.addFeatureFile directory file) := by
  rw [addFeatureFile, addTo_eq_change]
  exact ext fun s => run_ask_bind_change fun _ _ => rfl

/-- Adding a directory is one change. -/
theorem addDirectory_eq_change (directory inner : NodeId) :
    addDirectory directory inner = change (·.addDirectory directory inner) := by
  rw [addDirectory, addTo_eq_change]
  exact ext fun s => run_ask_bind_change fun _ _ => rfl

/-! ### Adding a row -/

/-- Steps that do what an operation does, if that can be done, and else fail as it does and leave a
store that is related to the first one. -/
def Follows (left : Store → Prop) (x : Stepwise α) (s : Store) (result : Except Fault (α × Store)) :
    Prop :=
  match result with
  | .ok (a, t) => x.run s = (.ok a, t)
  | .error fault => ∃ t, x.run s = (.error fault, t) ∧ left t

/-- Asking the store and going on leaves what going on leaves. -/
theorem follows_ask_bind {β : Type} {left : Store → Prop} {f : Store → Except Fault β}
    {x : β → Stepwise α} {g : β → Except Fault (α × Store)} (hs : left s)
    (h : ∀ b, f s = .ok b → Follows left (x b) s (g b)) :
    Follows left (ask f >>= x) s (f s >>= g) := by
  cases hf : f s with
  | error fault =>
    refine ⟨s, ?_, hs⟩
    rw [run_ask_bind, hf]
  | ok b =>
    have hx : (ask f >>= x).run s = (x b).run s := by rw [run_ask_bind, hf]
    have hb := h b hf
    unfold Follows at hb ⊢
    rw [hx]
    exact hb

/-- Nothing is left behind, or a row that was made and attached, but that could not be listed. -/
def LeavesRow (s : Store) (i : NodeId) (t : Store) : Prop :=
  t = s ∨ ∃ (texts : List Text) (row : NodeId) (u : Store) (fault : Fault),
    s.plant (Node.ofValues (texts.map .text)) = (row, u) ∧ t = u.setParent (some i) row
      ∧ t.append i (Attribute.list .rows).name (.node row) = .error fault

/-- Adding a row. The one step that can still fail once the row is made is to put it at the end of
the rows, if they are not a list. -/
theorem follows_addRow (s : Store) (i : NodeId) (data : RowData) :
    Follows (LeavesRow s i) (addRow i data) s (s.addRow i data) := by
  have hs : LeavesRow s i s := .inl rfl
  refine follows_ask_bind hs fun _ _ => follows_ask_bind hs fun rows _ => ?_
  by_cases hpresent : rows.isPresent = true
  · simp only [hpresent, Bool.not_true, Bool.false_eq_true, if_false]
    refine follows_ask_bind hs fun texts _ => ?_
    obtain ⟨row, u, hplant, -, -, -, hfree, -⟩ := exists_plant_ofValues texts s
    have hadopt : u.adopt i row = .ok (u.setParent (some i) row) := adopt_of_none hfree
    have hrun : ∀ x : NodeId → Stepwise NodeId, (do
        let row ← modifyGet (·.plant (Node.ofValues (texts.map .text)))
        adopt i row
        x row : Stepwise NodeId).run s = (x row).run (u.setParent (some i) row) := fun x => by
      rw [run_bind, run_modifyGet, hplant]
      simp only [adopt_eq_change, run_bind, run_change, hadopt]
    unfold Follows
    rw [hrun, run_bind, run_change, hplant]
    simp only [hadopt, bind, Except.bind]
    cases happend : (u.setParent (some i) row).append i (Attribute.list .rows).name (.node row) with
    | error fault =>
      exact ⟨u.setParent (some i) row, rfl, .inr ⟨texts, row, u, fault, hplant, rfl, happend⟩⟩
    | ok t => rfl
  · simp only [hpresent, Bool.not_false, if_true]
    exact follows_ask_bind hs fun _ _ => follows_ask_bind hs fun _ _ => ⟨s, rfl, hs⟩

end Stepwise

end Store

open Store Stepwise

namespace Operation

/-- The steps of an operation. Operations that are not taken apart are done in one step. -/
def steps : Operation → Stepwise Unit
  | .addFeatureFile directory file => Stepwise.addFeatureFile directory file
  | .addDirectory directory inner => Stepwise.addDirectory directory inner
  | .addRow i data name => do
    let row ← Stepwise.addRow i data
    modify fun s => (name.map fun name => s.hold name (some row)).getD s
  | .removeRow i data => Stepwise.removeRow i data
  | .adopt parent child => Stepwise.adopt parent child
  | op => change (·.perform op)

/-- What an operation that fails can leave of a store. -/
def Leaves (s : Store) : Operation → Store → Prop
  | .addRow i _ _, t => LeavesRow s i t
  | _, t => t = s

end Operation

namespace Store

variable {s t u : Store} {op : Operation} {i c p q : NodeId} {data : RowData} {fault : Fault}

/-- The steps of an operation do what the operation does, if it can be done. If it fails, they fail
in the same way. -/
theorem run_steps (s : Store) (op : Operation) :
    (∃ t, s.perform op = .ok t ∧ op.steps.run s = (.ok (), t))
      ∨ ∃ fault t, s.perform op = .error fault ∧ op.steps.run s = (.error fault, t)
        ∧ op.Leaves s t := by
  have hchange : op.steps = change (·.perform op) → (∀ t, t = s → op.Leaves s t) →
      (∃ t, s.perform op = .ok t ∧ op.steps.run s = (.ok (), t))
        ∨ ∃ fault t, s.perform op = .error fault ∧ op.steps.run s = (.error fault, t)
          ∧ op.Leaves s t := by
    intro heq hleaves
    rw [heq, run_change]
    cases s.perform op with
    | ok t => exact .inl ⟨t, rfl, rfl⟩
    | error fault => exact .inr ⟨fault, s, rfl, rfl, hleaves s rfl⟩
  cases op with
  | addRow i data name =>
    have hfollows := follows_addRow s i data
    cases hadd : s.addRow i data with
    | ok result =>
      obtain ⟨row, t⟩ := result
      rw [hadd] at hfollows
      have hrun : (Stepwise.addRow i data).run s = (.ok row, t) := hfollows
      refine .inl ⟨(name.map fun name => t.hold name (some row)).getD t, ?_, ?_⟩
      · simp only [perform, hadd, bind, Except.bind]
        rfl
      · rw [Operation.steps, run_bind, hrun]
        rfl
    | error fault =>
      rw [hadd] at hfollows
      obtain ⟨t, hrun, hleaves⟩ := hfollows
      refine .inr ⟨fault, t, ?_, ?_, hleaves⟩
      · simp only [perform, hadd, bind, Except.bind]
      · rw [Operation.steps, run_bind, hrun]
  | addFeatureFile directory file =>
    exact hchange (addFeatureFile_eq_change directory file) fun _ => id
  | addDirectory directory inner =>
    exact hchange (addDirectory_eq_change directory inner) fun _ => id
  | removeRow i data => exact hchange (removeRow_eq_change i data) fun _ => id
  | adopt parent child => exact hchange (adopt_eq_change parent child) fun _ => id
  | _ => exact hchange rfl fun _ => id

/-! ### What is left behind -/

/-- Nothing of a store is another in a second one: every node has what it had, names hold what they
held, the same nodes are in reach, and they have the same parents. The second store may have more
nodes. -/
structure Unchanged (s t : Store) : Prop where
  old : ∀ j < s.size, t.get? j = s.get? j
  held : t.held = s.held
  dialect : t.dialect = s.dialect
  nextList : t.nextList = s.nextList
  reaches : ∀ j < s.size, (t.Reaches j ↔ s.Reaches j)
  parents : ∀ j < s.size, t.parent? j = s.parent? j

/-- A store is unchanged from itself. -/
theorem Unchanged.refl (s : Store) : s.Unchanged s :=
  ⟨fun _ _ => rfl, rfl, rfl, rfl, fun _ _ => .rfl, fun _ _ => rfl⟩

/-- Nodes that were there before have the parents that they had if what they remember is the same
and the same nodes are in reach. -/
theorem parent?_congr (h : t.remembered c = s.remembered c)
    (hreaches : ∀ p, s.remembered c = some p → (t.Reaches p ↔ s.Reaches p)) :
    t.parent? c = s.parent? c := by
  refine Option.ext fun p => ?_
  rw [parent?_eq_some_iff, parent?_eq_some_iff]
  have h : (t.get? c).bind (·.parent) = (s.get? c).bind (·.parent) := h
  rw [h]
  exact and_congr_right fun hp => hreaches p hp

/-- A row that nothing lists leaves everything unchanged. -/
theorem unchanged_of_leavesRow (hs : s.ParentsKept) (h : LeavesRow s i t) : s.Unchanged t := by
  rcases h with rfl | ⟨texts, row, u, -, hplant, rfl, -⟩
  · exact .refl t
  obtain ⟨row', u', hplant', hgrown, hle, hlt, -⟩ := exists_plant_ofValues texts s
  obtain ⟨rfl, rfl⟩ := Prod.mk.inj (hplant.symm.trans hplant')
  have hold : ∀ j < s.size, (u.setParent (some i) row).get? j = s.get? j := fun j hj => by
    have hne : row ≠ j := fun heq => Nat.not_le.mpr hj (heq ▸ hle)
    rw [setParent, get?_update, if_neg hne, hgrown.old j hj]
  have hadds : Adds s.Known s (u.setParent (some i) row) := by
    have hwithin : (Node.ofValues (texts.map .text)).Within s.Reaches :=
      Node.within_ofValues (by simp)
    have hgrown := grown_plant hwithin s
    rw [hplant] at hgrown
    exact hgrown.adds.trans (.setParent _ u _ row)
  have hreaches : ∀ j < s.size, ((u.setParent (some i) row).Reaches j ↔ s.Reaches j) :=
    fun j hj => ⟨fun h => h.of_adds hadds hj,
      fun h => (reaches_setParent u (some i) row).mpr (h.of_grown hgrown)⟩
  have hheld : u.held = s.held := by rw [hgrown.rest]
  have hdialect : u.dialect = s.dialect := by rw [hgrown.rest]
  have hnextList : u.nextList = s.nextList := by rw [hgrown.rest]
  refine ⟨hold, hheld, hdialect, hnextList, hreaches,
    fun j hj => parent?_congr ?_ fun p hp => hreaches p (hs j p hp)⟩
  rw [remembered, remembered, hold j hj]

/-- A store that an operation leaves as it was is unchanged. -/
theorem unchanged_of_leaves (hs : s.ParentsKept) (h : op.Leaves s t) : s.Unchanged t := by
  cases op with
  | addRow i data name => exact unchanged_of_leavesRow hs h
  | _ =>
    obtain rfl : t = s := h
    exact .refl t

/-! ### Runs in which operations fail -/

/-- The store after the steps of an operation, whether they fail or not. -/
def after (s : Store) (op : Operation) : Store := (op.steps.run s).2

/-- The stores that a run leads to, from an empty one, by operations that are of a sort where they
are done and work with nodes in reach. What the steps of an operation that fails leave behind is
there from then on. -/
inductive Arises (sort : Store → Operation → Prop) : Store → Prop where
  | start (dialect : Value) : Arises sort { dialect }
  | step {s : Store} (op : Operation) : Arises sort s → sort s op → op.Within s.Reaches →
      Arises sort (s.after op)

/-- What an operation leaves behind keeps the parents. -/
theorem parentsKept_of_leaves (hs : s.ParentsKept) (hop : op.Within s.Reaches)
    (h : op.Leaves s t) : t.ParentsKept := by
  have hsame : t = s → t.ParentsKept := fun heq => heq ▸ hs
  cases op with
  | addRow i data name =>
    rcases h with heq | ⟨texts, row, u, -, hplant, rfl, -⟩
    · exact hsame heq
    · obtain ⟨row', u', hplant', hgrown, -, hlt, -⟩ := exists_plant_ofValues texts s
      obtain ⟨rfl, rfl⟩ := Prod.mk.inj (hplant.symm.trans hplant')
      intro c p hp
      have hsize : (u.setParent (some i) row).size = u.size := size_update ..
      rw [hsize]
      rw [remembered_setParent u _ hlt] at hp
      split at hp
      · obtain rfl := Option.some.inj hp
        exact Nat.lt_of_lt_of_le (Reaches.lt hop.1) hgrown.le
      · rcases Nat.lt_or_ge c s.size with hc | hc
        · exact Nat.lt_of_lt_of_le (hs c p (hgrown.remembered_old hc ▸ hp)) hgrown.le
        · exact ((hgrown.links c p hc).mp hp).2.lt
  | _ => exact hsame h

/-- Every store that arises keeps the parents. -/
theorem Arises.parentsKept {sort : Store → Operation → Prop} (hs : s.Arises sort) :
    s.ParentsKept := by
  induction hs with
  | start dialect =>
    intro c p h
    simp [remembered, get?] at h
  | @step s op _ _ hop ih =>
    rcases run_steps s op with ⟨t, ht, hrun⟩ | ⟨fault, t, -, hrun, hleaves⟩
    · have hafter : s.after op = s.next op := by rw [after, hrun, next_of_ok ht]
      exact hafter ▸ parentsKept_next ih hop
    · have hafter : s.after op = t := by rw [after, hrun]
      exact hafter ▸ parentsKept_of_leaves ih hop hleaves

/-! ### When operations fail -/

/-- A node that can be attached can be put into a directory. -/
theorem exists_perform_of_adopt (hattempt : op.Attempts s q c) (hu : s.adopt q c = .ok u) :
    ∃ t, s.perform op = .ok t := by
  have hlist : ∀ {operation field}, s.TakesIn q operation field →
      ∃ t, s.addTo q field c = .ok t := by
    intro operation field htakes
    obtain ⟨list, hlist⟩ := htakes.list
    have hlist : u.listNamed q (Attribute.list field).name = .ok list := by
      rcases adopt_inv hu with ⟨-, rfl⟩ | ⟨-, rfl⟩
      · exact hlist
      · exact (listNamed_setParent s _ c q field).trans hlist
    obtain ⟨t, ht⟩ := append_of_listNamed hlist (.node c)
    exact ⟨t, by simp only [htakes.addTo_eq, hu, bind, Except.bind, ht]⟩
  cases op with
  | adopt parent child =>
    obtain ⟨rfl, rfl⟩ := hattempt
    exact ⟨u, hu⟩
  | addFeatureFile directory file =>
    obtain ⟨rfl, rfl, htakes⟩ := hattempt
    obtain ⟨t, ht⟩ := hlist htakes
    exact ⟨t, by simp only [perform, addFeatureFile, htakes.calls, ht, bind, Except.bind]⟩
  | addDirectory directory inner =>
    obtain ⟨rfl, rfl, htakes⟩ := hattempt
    obtain ⟨t, ht⟩ := hlist htakes
    exact ⟨t, by simp only [perform, addDirectory, htakes.calls, ht, bind, Except.bind]⟩
  | _ => exact hattempt.elim

/-- An attempt to attach a node fails just if the node has another parent. -/
theorem perform_error_iff (hattempt : op.Attempts s q c) :
    (∃ fault, s.perform op = .error fault) ↔ ∃ p, s.parent? c = some p ∧ p ≠ q := by
  constructor
  · rintro ⟨fault, hfault⟩
    by_contra hnone
    obtain ⟨u, hu⟩ := adopt_isOk_iff.mpr fun p hp => by_contra fun hne => hnone ⟨p, hp, hne⟩
    obtain ⟨t, ht⟩ := exists_perform_of_adopt hattempt hu
    rw [ht] at hfault
    cases hfault
  · rintro ⟨p, hp, hne⟩
    exact ⟨_, perform_of_adopt_error hattempt (adopt_of_other hp hne.symm)⟩

/-- Steps fail just if the operation does. -/
theorem steps_error_iff : (∃ fault t, op.steps.run s = (.error fault, t))
    ↔ ∃ fault, s.perform op = .error fault := by
  rcases run_steps s op with ⟨t, ht, hrun⟩ | ⟨fault, t, hfault, hrun, -⟩
  · simp [ht, hrun]
  · simp [hfault, hrun]

/-! ### Examples that list their rows -/

variable {rows : List (NodeId × List Value)} {first : NodeId × List Value}

namespace ListsRows

/-- What a row of examples that list their rows is put behind can be added to, so that no row is
left behind when adding fails. -/
theorem eq_of_leavesRow (h : s.ListsRows i rows) (hleaves : LeavesRow s i t) : t = s := by
  rcases hleaves with heq | ⟨texts, row, u, fault, hplant, rfl, happend⟩
  · exact heq
  · obtain ⟨row', u', hplant', hgrown, -⟩ := exists_plant_ofValues texts s
    obtain ⟨rfl, rfl⟩ := Prod.mk.inj (hplant.symm.trans hplant')
    have hlist : u.listNamed i (Attribute.list .rows).name
        = .ok (Value.ofNodes (rows.map Prod.fst)) := (h.of_grown hgrown).listNamed_rows
    obtain ⟨t, ht⟩ := append_of_listNamed
      ((listNamed_setParent u (some i) row i .rows).trans hlist) (.node row)
    rw [happend] at ht
    cases ht

/-- Without rows there is nothing to add a row to, whatever the data. -/
theorem addRow_nil (h : s.ListsRows i []) (data : RowData) :
    (∃ fault, s.addRow i data = .error fault)
      ∧ ((∀ e, s.get? i = some e → Value.lookup Attribute.noParameters.name e.given = none) →
        s.addRow i data = .error (.noParameters noParametersMessage)) := by
  have hneed : s.needExamples i "add_row" = .ok () := h.needExamples (by simp)
  have hadd : s.addRow i data = (do
      throw (.noParameters (← s.written (← s.valueOf i .noParameters)))) := by
    simp only [Store.addRow, hneed, h.valueOf_rows]
    cases s.valueOf i .noParameters with
    | error _ => rfl
    | ok v =>
      simp only [bind, Except.bind]
      cases s.written v <;> rfl
  constructor
  · rw [hadd]
    cases s.valueOf i .noParameters with
    | error fault => exact ⟨fault, rfl⟩
    | ok v =>
      cases hw : s.written v with
      | error fault => exact ⟨fault, by simp only [bind, Except.bind, hw]⟩
      | ok t => exact ⟨.noParameters t, by simp only [bind, Except.bind, hw]; rfl⟩
  · intro hgiven
    obtain ⟨e, title, tags, he, hs, -⟩ := h.entry
    have hvalue : s.valueOf i .noParameters = .ok (.text noParametersMessage) := by
      rw [valueOf, stored_of_not_given he (hgiven e he) (by simp), Entry.own, hs]
      rfl
    rw [hadd, hvalue]
    rfl

/-- Adding a row fails just if there are no rows or the data has no texts. -/
theorem addRow_error_iff (h : s.ListsRows i rows) :
    (∃ fault, s.addRow i data = .error fault)
      ↔ rows = [] ∨ s.LacksTexts (parametersOf rows) data := by
  cases rows with
  | nil => simpa using (h.addRow_nil data).1
  | cons first rows =>
    rw [← rowTexts_error_iff h.parameters_eq, or_iff_right (List.cons_ne_nil first rows)]
    constructor
    · rintro ⟨fault, hfault⟩
      cases htexts : s.rowTexts i data with
      | error fault => exact ⟨fault, rfl⟩
      | ok texts =>
        obtain ⟨row, t, hadd, -⟩ := h.exists_addRow htexts
        rw [hadd] at hfault
        cases hfault
    · rintro ⟨fault, hfault⟩
      exact ⟨fault, h.addRow_of_error hfault⟩

/-- Removing a row by data with texts does not fail. -/
theorem exists_removeRow_of_rowTexts {texts : List Text} (h : s.ListsRows i rows)
    (htexts : s.rowTexts i data = .ok texts) : ∃ t, s.removeRow i data = .ok t := by
  cases rows with
  | nil =>
    have harguments : s.argumentRows i = .ok (.list []) := by
      simp only [argumentRows, h.valueOf_rows, bind, Except.bind]
      rfl
    exact ⟨s, removeRow_of_not_found (h.needExamples (by simp)) htexts harguments rfl rfl⟩
  | cons first rows =>
    rcases h.exists_removeRow htexts with ⟨-, hremove⟩ | ⟨_, _, _, _, -, -, -, hremove, -⟩
    · exact ⟨s, hremove⟩
    · exact ⟨_, hremove⟩

/-- Removing a row fails just if the data has no texts. -/
theorem removeRow_error_iff (h : s.ListsRows i rows) :
    (∃ fault, s.removeRow i data = .error fault) ↔ s.LacksTexts (parametersOf rows) data := by
  rw [← rowTexts_error_iff h.parameters_eq]
  constructor
  · rintro ⟨fault, hfault⟩
    cases htexts : s.rowTexts i data with
    | error fault => exact ⟨fault, rfl⟩
    | ok texts =>
      obtain ⟨t, hremove⟩ := h.exists_removeRow_of_rowTexts htexts
      rw [hremove] at hfault
      cases hfault
  · rintro ⟨fault, hfault⟩
    exact ⟨fault, h.removeRow_of_error hfault⟩

end ListsRows

/-- When rows cannot be added to examples or removed from them, what is said then, and that nothing
is left behind. -/
structure RefusesRow (s : Store) (i : NodeId) (rows : List (NodeId × List Value)) (data : RowData) :
    Prop where
  /-- Adding fails just if there are no rows, whatever the data, or if the data has no texts. -/
  add : (∃ fault t, (Stepwise.addRow i data).run s = (.error fault, t))
    ↔ rows = [] ∨ s.LacksTexts (parametersOf rows) data
  /-- Removing fails just if the data has no texts. -/
  remove : (∃ fault t, (Stepwise.removeRow i data).run s = (.error fault, t))
    ↔ s.LacksTexts (parametersOf rows) data
  /-- If there are no rows, that is what is said, in the words that examples have for it. -/
  absent : rows = [] →
    (∀ e, s.get? i = some e → Value.lookup Attribute.noParameters.name e.given = none) →
    (Stepwise.addRow i data).run s = (.error (.noParameters noParametersMessage), s)
  /-- Else what is said is why the data has no texts. -/
  lacking : ∀ fault, s.rowTexts i data = .error fault →
    (rows ≠ [] → (Stepwise.addRow i data).run s = (.error fault, s))
      ∧ (Stepwise.removeRow i data).run s = (.error fault, s)
  /-- Of data that is neither a mapping nor a sequence, that is its kind. -/
  unsupported : ∀ kindName, data = .unsupported kindName →
    (rows ≠ [] → (Stepwise.addRow i data).run s = (.error (.unsupportedRow kindName), s))
      ∧ (Stepwise.removeRow i data).run s = (.error (.unsupportedRow kindName), s)

/-- How adding a row to examples that list their rows fails. -/
theorem ListsRows.run_addRow_error (h : s.ListsRows i rows)
    (hadd : s.addRow i data = .error fault) :
    (Stepwise.addRow i data).run s = (.error fault, s) := by
  have hfollows := follows_addRow s i data
  rw [hadd] at hfollows
  obtain ⟨t, hrun, hleaves⟩ := hfollows
  rw [hrun, h.eq_of_leavesRow hleaves]

/-- How examples that list their rows refuse to add and to remove rows. -/
theorem ListsRows.refusesRow (h : s.ListsRows i rows) (data : RowData) :
    s.RefusesRow i rows data := by
  have hremove : ∀ fault, s.removeRow i data = .error fault →
      (Stepwise.removeRow i data).run s = (.error fault, s) := fun fault hfault => by
    rw [removeRow_eq_change, run_change, hfault]
  have hlacking : ∀ fault, s.rowTexts i data = .error fault →
      (rows ≠ [] → (Stepwise.addRow i data).run s = (.error fault, s))
        ∧ (Stepwise.removeRow i data).run s = (.error fault, s) := fun fault hfault => by
    refine ⟨fun hne => ?_, hremove _ (h.removeRow_of_error hfault)⟩
    obtain ⟨first, rest, rfl⟩ := List.exists_cons_of_ne_nil hne
    exact h.run_addRow_error (h.addRow_of_error hfault)
  refine ⟨?_, ?_, ?_, hlacking, ?_⟩
  · rw [← h.addRow_error_iff]
    constructor
    · rintro ⟨fault, t, hrun⟩
      by_contra hnone
      cases hadd : s.addRow i data with
      | error fault => exact hnone ⟨fault, hadd⟩
      | ok result =>
        have hfollows := follows_addRow s i data
        rw [hadd] at hfollows
        have hok : (Stepwise.addRow i data).run s = (.ok result.1, result.2) := hfollows
        rw [hok] at hrun
        cases hrun
    · rintro ⟨fault, hfault⟩
      exact ⟨fault, s, h.run_addRow_error hfault⟩
  · rw [← h.removeRow_error_iff]
    constructor
    · rintro ⟨fault, t, hrun⟩
      rw [removeRow_eq_change, run_change] at hrun
      cases hremove : s.removeRow i data with
      | error fault => exact ⟨fault, rfl⟩
      | ok u =>
        rw [hremove] at hrun
        cases hrun
    · rintro ⟨fault, hfault⟩
      exact ⟨fault, s, hremove fault hfault⟩
  · rintro rfl hgiven
    exact h.run_addRow_error ((h.addRow_nil data).2 hgiven)
  · rintro kindName rfl
    exact hlacking _ (rowTexts_unsupported s i kindName)

/-- Stores stay tabular if all that is done keeps them so, even where it fails. -/
theorem Arises.isTabular {sort : Store → Operation → Prop} (hs : s.Arises sort)
    (hsort : ∀ s op, sort s op → op.KeepsTables s) : s.IsTabular := by
  induction hs with
  | start dialect =>
    intro i e he
    simp [get?] at he
  | @step s op _ hop _ ih =>
    rcases run_steps s op with ⟨t, ht, hrun⟩ | ⟨fault, t, -, hrun, hleaves⟩
    · rw [after, hrun]
      exact ih.perform (hsort s op hop) ht
    · rw [after, hrun]
      have hrow : ∀ i, LeavesRow s i t → t.IsTabular := by
        rintro i (rfl | ⟨texts, row, u, -, hplant, rfl, -⟩)
        · exact ih
        · have hu := (ih.plant (Node.isTabular_ofTexts texts)).1
          rw [hplant] at hu
          exact (hu.setParent _ row).1
      cases op with
      | addRow i data name => exact hrow i hleaves
      | _ =>
        obtain rfl : t = s := hleaves
        exact ih

/-- Examples that were made empty. -/
def noRows : Store := ({ dialect := .null } : Store).after (.make (.empty .example) "examples")

/-- Examples whose only row has a list as the value of its only cell. -/
def listParameter : Store :=
  [.make (.row (.list [.text ['x']])) "row", .assign 0 "value" (.list [.text ['x']]),
    .make (.empty .example) "examples", .append 2 "rows" (.node 1),
    Operation.adopt 2 1].foldl after { dialect := .null }

end Store

end FeatureTree
