import FeatureTree.Proofs.Config.Merging

/-!
# Merging in memory

Lists and tables can be changed in place, and one of them can stand in several places. In memory
each has an address, and what stands in a list or under a name is an address or something that
cannot change. There merging makes a copy of the one configuration and sets fields of this copy: a
table that stands in both is merged in the same way, anything else is copied first.

A run of this comes to what merging comes to, and everything that was in memory before is as it was.
The fields that are set are those of a table that the run has made, and no other part of the result
leads back to that table: this is the invariant of the run. How deep lists and tables may stand in
one another is bounded; a bound that is large enough for both configurations is large enough for
merging them.

## Main results

* `Config.exists_copy`: a copy is made of new lists and tables and holds the same
* `Config.exists_mergeTables`: a run of merging leaves alone what was there and holds the merged
  configuration
* `Config.merge_deep`: what merging comes to, its laws, and that its arguments stay as they are
-/

namespace FeatureTree

namespace Config

open Value (lookup put at? NamesOnce SameShape isTable)

/-- What stands in a list or under a name: the address of a list or a table, or a value that cannot
change. -/
inductive Ref where
  | value (v : Value)
  | address (i : Nat)

/-- A list or a table in memory. -/
inductive Cell where
  | list (items : List Ref)
  | table (fields : List (String × Ref))

/-- The lists and tables that there are, each at its address. -/
abbrev Memory := List Cell

/-- Something that is done in memory and may fail. -/
abbrev InMemory := StateT Memory Option

/-! ### What is done -/

/-- Makes a new list or table. -/
def allocate (c : Cell) : InMemory Ref := do
  let m ← get
  set (m ++ [c])
  return .address m.length

/-- The fields of a table; nothing for anything else. -/
def fieldsAt? (m : Memory) : Ref → Option (List (String × Ref))
  | .value _ => none
  | .address i =>
    match m[i]? with
    | some (.table fields) => some fields
    | _ => none

/-- Copies a value with all the lists and tables in it, so many levels deep at most. -/
def copy : Nat → Ref → InMemory Ref
  | _, .value v => return .value v
  | 0, .address _ => failure
  | n + 1, .address i => do
    match (← get)[i]? with
    | some (.list items) => allocate (.list (← items.mapM (copy n)))
    | some (.table fields) =>
      allocate (.table (← fields.mapM fun (name, r) => do return (name, ← copy n r)))
    | none => failure

/-- Gives a table a field. -/
def setField (table : Ref) (name : String) (r : Ref) : InMemory Unit := do
  match table, fieldsAt? (← get) table with
  | .address i, some fields => modify fun m => m.set i (.table (put name r fields))
  | _, _ => failure

/-- What a field becomes that is set over those of a table. If both what is there and what is set
are tables they are merged, else what is set is copied. -/
def newField (mergeInner : Ref → Ref → InMemory Ref) (copyInner : Ref → InMemory Ref)
    (result : Ref) (field : String × Ref) : InMemory Ref := do
  let m ← get
  match (fieldsAt? m result).bind (lookup field.1) with
  | some old =>
    if (fieldsAt? m field.2).isSome && (fieldsAt? m old).isSome then mergeInner old field.2
    else copyInner field.2
  | none => copyInner field.2

/-- Sets one field over those of a table. -/
def setOver (mergeInner : Ref → Ref → InMemory Ref) (copyInner : Ref → InMemory Ref) (result : Ref)
    (field : String × Ref) : InMemory Unit := do
  setField result field.1 (← newField mergeInner copyInner result field)

/-- Merges one table over another, so many levels deep at most. -/
def mergeTables : Nat → Ref → Ref → InMemory Ref
  | 0, _, _ => failure
  | n + 1, base, override => do
    let result ← copy (n + 1) base
    match fieldsAt? (← get) override with
    | some fields =>
      fields.forM (setOver (mergeTables n) (copy n) result)
      return result
    | none => failure

/-! ### What is held -/

/-- Whether what is at a reference stands for a value. Only addresses of a region are gone through,
and lists and tables stand in one another so many levels deep at most. -/
def Holds (region : Nat → Prop) (m : Memory) : Nat → Value → Ref → Prop
  | _, v, .value w => w = v ∧ v.isTable = false ∧ ∀ items, v ≠ .list items
  | 0, _, .address _ => False
  | n + 1, .list items, .address i =>
    region i ∧ ∃ refs, m[i]? = some (.list refs) ∧ List.Forall₂ (Holds region m n) items refs
  | n + 1, .table fields, .address i =>
    region i ∧ ∃ refs, m[i]? = some (.table refs)
      ∧ List.Forall₂ (fun f r => f.1 = r.1 ∧ Holds region m n f.2 r.2) fields refs
  | _ + 1, _, .address _ => False

variable {region region' : Nat → Prop} {m m' : Memory} {n i : Nat} {v : Value} {r : Ref}

/-- What is held is held wherever the same stands at the addresses that are gone through. -/
theorem Holds.mono (h : Holds region m n v r)
    (hsame : ∀ i c, region i → m[i]? = some c → region' i ∧ m'[i]? = some c) :
    Holds region' m' n v r := by
  induction n generalizing v r with
  | zero =>
    cases r with
    | value w => simpa [Holds] using h
    | address i => simp [Holds] at h
  | succ n ih =>
    cases r with
    | value w => simpa [Holds] using h
    | address i =>
      cases v with
      | list items =>
        obtain ⟨hi, refs, hcell, hmembers⟩ := h
        obtain ⟨hi, hcell⟩ := hsame i _ hi hcell
        exact ⟨hi, refs, hcell, hmembers.imp fun _ _ => ih⟩
      | table fields =>
        obtain ⟨hi, refs, hcell, hvalues⟩ := h
        obtain ⟨hi, hcell⟩ := hsame i _ hi hcell
        exact ⟨hi, refs, hcell, hvalues.imp fun _ _ h => ⟨h.1, ih h.2⟩⟩
      | _ => exact h.elim

/-- What stood at an address stands there when lists and tables have been made. -/
theorem getElem?_of_isPrefix {m m' : Memory} (hm : m <+: m') {i : Nat} {c : Cell}
    (h : m[i]? = some c) : m'[i]? = some c := by
  obtain ⟨made, rfl⟩ := hm
  rw [List.getElem?_append_left (List.getElem?_eq_some_iff.mp h).1, h]

/-- What is held stays held while lists and tables are made. -/
theorem Holds.of_isPrefix (h : Holds region m n v r) (hm : m <+: m') : Holds region m' n v r :=
  h.mono fun _ _ hi hc => ⟨hi, getElem?_of_isPrefix hm hc⟩

/-- What is held within some depth is held within any greater one. -/
theorem Holds.of_le {n' : Nat} (h : Holds region m n v r) (hn : n ≤ n') :
    Holds region m n' v r := by
  induction n generalizing n' v r with
  | zero =>
    cases r with
    | value w => simpa only [Holds] using h
    | address i => exact h.elim
  | succ n ih =>
    obtain ⟨n', rfl⟩ : ∃ k, n' = k + 1 := ⟨n' - 1, by omega⟩
    have hle : n ≤ n' := by omega
    cases r with
    | value w => simpa only [Holds] using h
    | address i =>
      cases v with
      | list items =>
        obtain ⟨hi, refs, hcell, hmembers⟩ := h
        exact ⟨hi, refs, hcell, hmembers.imp fun _ _ h => ih h hle⟩
      | table fields =>
        obtain ⟨hi, refs, hcell, hvalues⟩ := h
        exact ⟨hi, refs, hcell, hvalues.imp fun _ _ h => ⟨h.1, ih h.2 hle⟩⟩
      | _ => exact h.elim

/-- The cells that are gone through exist. -/
theorem Holds.below (h : Holds region m n v r) :
    Holds (fun i => region i ∧ i < m.length) m n v r :=
  h.mono fun _ _ hi hc => ⟨⟨hi, (List.getElem?_eq_some_iff.mp hc).1⟩, hc⟩

/-- A reference leads to a table if what it holds is one. -/
theorem Holds.isSome_fieldsAt? (h : Holds region m n v r) :
    (Config.fieldsAt? m r).isSome = v.isTable := by
  cases r with
  | value w =>
    obtain ⟨-, htable, -⟩ : w = v ∧ v.isTable = false ∧ _ := by simpa only [Holds] using h
    simp [Config.fieldsAt?, htable]
  | address i =>
    cases n with
    | zero => exact h.elim
    | succ n =>
      cases v with
      | list items =>
        obtain ⟨-, refs, hcell, -⟩ := h
        simp [Config.fieldsAt?, hcell, isTable]
      | table fields =>
        obtain ⟨-, refs, hcell, -⟩ := h
        simp [Config.fieldsAt?, hcell, isTable]
      | _ => exact h.elim

/-! ### Copying -/

/-- Two steps run one after the other. -/
theorem run_bind {α β : Type} {x : InMemory α} {f : α → InMemory β} {a : α}
    (h : x m = some (a, m')) : (x >>= f) m = f a m' := by
  change (x m).bind _ = _
  rw [h]
  rfl

/-- Going through a list in memory succeeds if each member can be handled in whatever memory has
been reached, and what is known of the results is not lost when more is made. -/
theorem exists_mapM {α β γ : Type} {f : α → InMemory β} {Q : γ → α → Prop}
    {P : Memory → γ → β → Prop} (mono : ∀ m m' v b, m <+: m' → P m v b → P m' v b)
    {vs : List γ} {as : List α} (hvs : List.Forall₂ Q vs as)
    (h : ∀ v a m', Q v a → m <+: m' →
      ∃ b m'', f a m' = some (b, m'') ∧ m' <+: m'' ∧ P m'' v b) :
    ∃ bs m', as.mapM f m = some (bs, m') ∧ m <+: m' ∧ List.Forall₂ (P m') vs bs := by
  induction hvs generalizing m with
  | nil => exact ⟨[], m, rfl, List.prefix_rfl, .nil⟩
  | @cons v a vs as hv _ ih =>
    obtain ⟨b, m₁, hb, hm₁, hP⟩ := h v a m hv List.prefix_rfl
    obtain ⟨bs, m₂, hbs, hm₂, hPs⟩ := ih fun v a m' hv hm' => h v a m' hv (hm₁.trans hm')
    refine ⟨b :: bs, m₂, ?_, hm₁.trans hm₂, .cons (mono m₁ m₂ v b hm₂ hP) hPs⟩
    rw [List.mapM_cons, run_bind hb, run_bind hbs]
    rfl

/-- A list is copied by copying its members and allocating a list of the copies. -/
theorem run_copy_list {refs copies : List Ref} (hcell : m[i]? = some (.list refs))
    (h : refs.mapM (copy n) m = some (copies, m')) :
    copy (n + 1) (.address i) m = some (.address m'.length, m' ++ [.list copies]) := by
  rw [copy, run_bind (a := m) rfl, hcell]
  exact run_bind h

/-- A table is copied by copying its values and allocating a table of the copies. -/
theorem run_copy_table {refs copies : List (String × Ref)} (hcell : m[i]? = some (.table refs))
    (h : refs.mapM (m := InMemory) (fun f => return (f.1, ← copy n f.2)) m = some (copies, m')) :
    copy (n + 1) (.address i) m = some (.address m'.length, m' ++ [.table copies]) := by
  rw [copy, run_bind (a := m) rfl, hcell]
  exact run_bind h

/-- Copying so many levels deep succeeds and leaves everything as it was. The copy is made of new
lists and tables and holds the same. -/
def Copies (region : Nat → Prop) (n : Nat) : Prop :=
  ∀ m v r, Holds region m n v r →
    ∃ r' m', copy n r m = some (r', m') ∧ m <+: m' ∧ Holds (m.length ≤ ·) m' n v r'

/-- Copying the values of a table gives a table that lives in new cells only. -/
theorem Copies.table {fields : Fields} (hn : Copies region n)
    (h : Holds region m (n + 1) (.table fields) (.address i)) :
    ∃ copies m', copy (n + 1) (.address i) m = some (.address m'.length, m' ++ [.table copies])
      ∧ m <+: m' ∧ List.Forall₂
        (fun f r => f.1 = r.1 ∧ Holds (m.length ≤ ·) m' n f.2 r.2) fields copies := by
  obtain ⟨-, refs, hcell, hvalues⟩ := h
  obtain ⟨copies, m', hcopies, hm', hheld⟩ := exists_mapM
    (f := fun f : String × Ref => return (f.1, ← copy n f.2)) (m := m)
    (P := fun m' (f : String × Value) r => f.1 = r.1 ∧ Holds (m.length ≤ ·) m' n f.2 r.2)
    (fun _ _ _ _ hm h => ⟨h.1, h.2.of_isPrefix hm⟩) hvalues fun f r m₁ ⟨hname, hr⟩ hm₁ => by
      obtain ⟨r', m₂, hcopy, hm₂, hr'⟩ := hn m₁ f.2 r.2 (hr.of_isPrefix hm₁)
      refine ⟨(r.1, r'), m₂, ?_, hm₂, hname, ?_⟩
      · rw [run_bind hcopy]
        rfl
      · exact hr'.mono fun _ _ hi hc => ⟨Nat.le_trans hm₁.length_le hi, hc⟩
  exact ⟨copies, m', run_copy_table hcell hcopies, hm', hheld⟩

/-- Lists and tables that are made of new ones are new. -/
theorem Holds.push_list {items : List Value} {copies : List Ref} (hm : m <+: m')
    (h : List.Forall₂ (Holds (m.length ≤ ·) m' n) items copies) :
    Holds (m.length ≤ ·) (m' ++ [.list copies]) (n + 1) (.list items) (.address m'.length) :=
  ⟨hm.length_le, copies, by simp, h.imp fun _ _ h => h.of_isPrefix (List.prefix_append _ _)⟩

/-- A table of copies that is allocated last holds what the copies hold. -/
theorem Holds.push_table {fields : Fields} {copies : List (String × Ref)} (hm : m <+: m')
    (h : List.Forall₂ (fun f r => f.1 = r.1 ∧ Holds (m.length ≤ ·) m' n f.2 r.2) fields copies) :
    Holds (m.length ≤ ·) (m' ++ [.table copies]) (n + 1) (.table fields) (.address m'.length) :=
  ⟨hm.length_le, copies, by simp,
    h.imp fun _ _ h => ⟨h.1, h.2.of_isPrefix (List.prefix_append _ _)⟩⟩

/-- Copying a tree of any height gives a copy that lives in new cells. -/
theorem copies (region : Nat → Prop) (n : Nat) : Copies region n := by
  induction n with
  | zero =>
    intro m v r h
    cases r with
    | value w => exact ⟨.value w, m, rfl, List.prefix_rfl, by simpa only [Holds] using h⟩
    | address i => exact h.elim
  | succ n ih =>
    intro m v r h
    cases r with
    | value w => exact ⟨.value w, m, rfl, List.prefix_rfl, by simpa only [Holds] using h⟩
    | address i =>
      cases v with
      | list items =>
        obtain ⟨-, refs, hcell, hmembers⟩ := h
        obtain ⟨copies, m', hcopies, hm', hheld⟩ := exists_mapM (f := copy n) (m := m)
          (P := fun m' => Holds (m.length ≤ ·) m' n) (fun _ _ _ _ hm h => h.of_isPrefix hm) hmembers
          fun v r m₁ hr hm₁ => by
            obtain ⟨r', m₂, hcopy, hm₂, hr'⟩ := ih m₁ v r (hr.of_isPrefix hm₁)
            exact ⟨r', m₂, hcopy, hm₂, hr'.mono fun _ _ hi hc =>
              ⟨Nat.le_trans hm₁.length_le hi, hc⟩⟩
        exact ⟨_, _, run_copy_list hcell hcopies, hm'.trans (List.prefix_append _ _),
          .push_list hm' hheld⟩
      | table fields =>
        obtain ⟨copies, m', hcopy, hm', hheld⟩ := ih.table h
        exact ⟨_, _, hcopy, hm'.trans (List.prefix_append _ _), .push_table hm' hheld⟩
      | _ => exact h.elim

/-! ### Setting fields -/

/-- A table is being made: it is new, nothing that was there before has changed, it has the fields
so far, and nothing in these leads back to it. -/
structure Makes (m : Memory) (n i : Nat) (fields : Fields) (m' : Memory) : Prop where
  kept : m <+: m'
  new : m.length ≤ i
  held : ∃ refs, m'[i]? = some (.table refs)
    ∧ List.Forall₂ (fun f r => f.1 = r.1 ∧ Holds (fun j => m.length ≤ j ∧ j ≠ i) m' n f.2 r.2)
      fields refs

/-- A copy of a table can be filled up. -/
theorem makes_copy {fields : Fields} (h : Holds region m (n + 1) (.table fields) r) :
    ∃ i m', copy (n + 1) r m = some (.address i, m') ∧ Makes m n i fields m' := by
  cases r with
  | value w => simp [Holds, isTable] at h
  | address j =>
    obtain ⟨copies, m', hcopy, hm', hheld⟩ := (copies region n).table h
    refine ⟨m'.length, m' ++ [.table copies], hcopy, hm'.trans (List.prefix_append _ _),
      hm'.length_le, copies, by simp, hheld.imp fun f r hf => ⟨hf.1, ?_⟩⟩
    exact (hf.2.below.of_isPrefix (List.prefix_append _ _)).mono fun j c hj hc =>
      ⟨⟨hj.1, Nat.ne_of_lt hj.2⟩, hc⟩

/-- What a merge makes lives in new cells. -/
theorem Makes.holds {fields : Fields} (h : Makes m n i fields m') :
    Holds (m.length ≤ ·) m' (n + 1) (.table fields) (.address i) := by
  obtain ⟨refs, hcell, hheld⟩ := h.held
  exact ⟨h.new, refs, hcell, hheld.imp fun _ _ hf =>
    ⟨hf.1, hf.2.mono fun _ _ hj hc => ⟨hj.1, hc⟩⟩⟩

/-- Looking up a name in two tables that agree finds things that agree, or nothing twice. -/
theorem lookup_of_forall₂ {H : Value → Ref → Prop} {fields : Fields} {refs : List (String × Ref)}
    (h : List.Forall₂ (fun f r => f.1 = r.1 ∧ H f.2 r.2) fields refs) (name : String) :
    (lookup name fields = none ∧ lookup name refs = none)
      ∨ ∃ v r, lookup name fields = some v ∧ lookup name refs = some r ∧ H v r := by
  induction h with
  | nil => exact .inl ⟨rfl, rfl⟩
  | @cons f r fields refs hfr _ ih =>
    obtain ⟨key, v⟩ := f
    obtain ⟨key', r⟩ := r
    obtain ⟨rfl, hvr⟩ := hfr
    by_cases hkey : name = key
    · exact .inr ⟨v, r, by simp [lookup, hkey], by simp [lookup, hkey], hvr⟩
    · simpa [lookup, List.lookup_cons, beq_eq_false_iff_ne.mpr hkey] using ih

/-- Two tables that agree still do when things that agree are put into them under one name. -/
theorem put_of_forall₂ {H : Value → Ref → Prop} {fields : Fields} {refs : List (String × Ref)}
    (h : List.Forall₂ (fun f r => f.1 = r.1 ∧ H f.2 r.2) fields refs) (name : String)
    (hvr : H v r) :
    List.Forall₂ (fun f r => f.1 = r.1 ∧ H f.2 r.2) (put name v fields) (put name r refs) := by
  induction h with
  | nil => exact .cons ⟨rfl, hvr⟩ .nil
  | @cons f r fields refs hfr hrest ih =>
    obtain ⟨key, v⟩ := f
    obtain ⟨key', r⟩ := r
    obtain ⟨rfl, hfr⟩ := hfr
    by_cases hkey : key = name
    · simpa [put, hkey] using ⟨hvr, hrest⟩
    · simpa [put, hkey] using ⟨hfr, ih⟩

/-- The table that is being made can be given a field that holds something newer. -/
theorem Makes.exists_setField {fields : Fields} {m'' : Memory} (h : Makes m n i fields m')
    (hm : m' <+: m'') (hr : Holds (m'.length ≤ ·) m'' n v r) (name : String) :
    ∃ done, setField (.address i) name r m'' = some ((), done)
      ∧ Makes m n i (put name v fields) done := by
  obtain ⟨refs, hcell, hheld⟩ := h.held
  have hi : i < m'.length := (List.getElem?_eq_some_iff.mp hcell).1
  have hcell' := getElem?_of_isPrefix hm hcell
  have hset : ∀ j c, j ≠ i → m''[j]? = some c →
      (m''.set i (.table (put name r refs)))[j]? = some c :=
    fun j c hj hc => by rw [List.getElem?_set_ne hj.symm, hc]
  have hold : List.Forall₂ (fun (f : String × Value) (r' : String × Ref) => f.1 = r'.1
      ∧ Holds (fun j => m.length ≤ j ∧ j ≠ i) (m''.set i (.table (put name r refs))) n f.2 r'.2)
      fields refs :=
    hheld.imp fun _ _ hf =>
      ⟨hf.1, (hf.2.of_isPrefix hm).mono fun j c hj hc => ⟨hj, hset j c hj.2 hc⟩⟩
  have hnew : Holds (fun j => m.length ≤ j ∧ j ≠ i) (m''.set i (.table (put name r refs))) n v r :=
    hr.mono fun j c hj hc =>
      have hne : j ≠ i := Nat.ne_of_gt (Nat.lt_of_lt_of_le hi hj)
      ⟨⟨Nat.le_trans h.kept.length_le hj, hne⟩, hset j c hne hc⟩
  refine ⟨m''.set i (.table (put name r refs)), ?_, ?_, h.new, put name r refs, ?_,
    put_of_forall₂ hold name hnew⟩
  · rw [setField, run_bind (a := m'') rfl, fieldsAt?, hcell']
    rfl
  · obtain ⟨made, rfl⟩ := h.kept.trans hm
    rw [List.set_append_right _ _ h.new]
    exact List.prefix_append _ _
  · rw [List.getElem?_set_self (Nat.lt_of_lt_of_le hi hm.length_le)]

/-- Merging so many levels deep succeeds and leaves everything as it was. What comes out is made of
new lists and tables and holds the merged configuration. -/
def Merges (n : Nat) : Prop :=
  ∀ (region region' : Nat → Prop) m (base override : Fields) r r',
    Holds region m n (.table base) r → Holds region' m n (.table override) r' →
      ∃ merged m', mergeTables n r r' m = some (merged, m') ∧ m <+: m'
        ∧ Holds (m.length ≤ ·) m' n (.table (merge base override)) merged

/-- One field is set over those of the table that is being made. -/
theorem Makes.exists_setOver {fields : Fields} (h : Makes m n i fields m') (hn : Merges n)
    (hr : Holds region m' n v r) (name : String) :
    ∃ done, setOver (mergeTables n) (copy n) (.address i) (name, r) m' = some ((), done)
      ∧ Makes m n i (put name (mergeValue (lookup name fields) v) fields) done := by
  obtain ⟨refs, hcell, hheld⟩ := h.held
  have hfields : fieldsAt? m' (.address i) = some refs := by simp [fieldsAt?, hcell]
  have hcopy : ∃ new m'', copy n r m' = some (new, m'') ∧ m' <+: m''
      ∧ Holds (m'.length ≤ ·) m'' n v new := copies region n m' v r hr
  have hnew : ∃ new m'',
      newField (mergeTables n) (copy n) (.address i) (name, r) m' = some (new, m'') ∧ m' <+: m''
        ∧ Holds (m'.length ≤ ·) m'' n (mergeValue (lookup name fields) v) new := by
    rw [newField, run_bind (a := m') rfl, hfields, Option.bind_some]
    rcases lookup_of_forall₂ hheld name with ⟨hf, hnone⟩ | ⟨w, old, hf, hold, hw⟩
    · rw [hf, hnone, mergeValue_none]
      exact hcopy
    · rw [hf, hold]
      simp only [hr.isSome_fieldsAt?, hw.isSome_fieldsAt?]
      rcases mergeValue_cases (some w) v with ⟨base, override, hb, rfl, heq⟩ | ⟨heq, hnot⟩
      · obtain rfl : w = .table base := Option.some.inj hb
        rw [heq]
        exact hn _ _ m' base override old r hw hr
      · have hboth : (v.isTable && w.isTable) = false := by
          by_contra hboth
          obtain ⟨hv, hw⟩ := Bool.and_eq_true_iff.mp (Bool.not_eq_false _ ▸ hboth)
          obtain ⟨fields, rfl⟩ := Value.exists_of_isTable hw
          exact hnot hv fields rfl
        rw [heq, hboth]
        exact hcopy
  obtain ⟨new, m'', hrun, hm, hheld'⟩ := hnew
  obtain ⟨done, hset, hdone⟩ := h.exists_setField hm hheld' name
  exact ⟨done, (run_bind hrun).trans hset, hdone⟩

/-- All the fields of a table are set over those of the table that is being made. -/
theorem Makes.exists_forM {fields override : Fields} {refs : List (String × Ref)}
    (h : Makes m n i fields m') (hn : Merges n)
    (hrefs : List.Forall₂ (fun f r => f.1 = r.1 ∧ Holds region m n f.2 r.2) override refs) :
    ∃ done, refs.forM (setOver (mergeTables n) (copy n) (.address i)) m' = some ((), done)
      ∧ Makes m n i (merge fields override) done := by
  induction hrefs generalizing fields m' with
  | nil => exact ⟨m', rfl, by simpa using h⟩
  | @cons f r override refs hfr _ ih =>
    obtain ⟨name, v⟩ := f
    obtain ⟨name', r⟩ := r
    obtain ⟨rfl, hr⟩ := hfr
    obtain ⟨m₁, hset, h₁⟩ := h.exists_setOver hn (hr.of_isPrefix h.kept) name
    obtain ⟨m₂, hforM, h₂⟩ := ih h₁
    have hrun : (setOver (mergeTables n) (copy n) (.address i) (name, r) >>= fun _ =>
        refs.forM (setOver (mergeTables n) (copy n) (.address i))) m' = some ((), m₂) :=
      (run_bind hset).trans hforM
    refine ⟨m₂, hrun, ?_⟩
    rw [merge, mergeFields]
    exact h₂

/-- A run of merging leaves everything as it was, and what comes out is new and holds the merged
configuration. -/
theorem merges (n : Nat) : Merges n := by
  induction n with
  | zero =>
    intro region region' m base override r r' h
    cases r with
    | value w => simp [Holds, isTable] at h
    | address i => exact h.elim
  | succ n ih =>
    intro region region' m base override r r' h h'
    obtain ⟨i, m₁, hcopy, hmakes⟩ := makes_copy h
    cases r' with
    | value w => simp [Holds, isTable] at h'
    | address j =>
      obtain ⟨-, refs, hcell, hvalues⟩ := h'
      obtain ⟨m₂, hforM, hdone⟩ := hmakes.exists_forM ih hvalues
      have hfields : fieldsAt? m₁ (.address j) = some refs := by
        simp [fieldsAt?, getElem?_of_isPrefix hmakes.kept hcell]
      refine ⟨.address i, m₂, ?_, hdone.kept, hdone.holds⟩
      rw [mergeTables, run_bind hcopy, run_bind (a := m₁) rfl, hfields]
      exact run_bind hforM

/-- Whether what is at a reference stands for a value. -/
def Stands (m : Memory) (v : Value) (r : Ref) : Prop := ∃ n, Holds (fun _ => True) m n v r

/-- For configurations in which no table has a name twice. At every path, two tables are merged;
anything else that is set is what was set; where nothing is set all is as it was, except below what
has replaced a table. Merging nothing, and merging over nothing, gives the other configuration back;
merging the same a second time changes nothing; merging three configurations comes to the same in
either order where the shapes agree, and it does so just if no tables of the outer two stand around
something else. In memory a run of merging succeeds, however the two configurations share lists and
tables: it gives the merged configuration, made of new lists and tables, and every list and every
table that was there is as it was, those of the two configurations among them. -/
theorem merge_deep {base override third : Fields} (hbase : NamesOnce (.table base))
    (h : NamesOnce (.table override)) (hthird : NamesOnce (.table third)) :
    (∀ path,
      (∀ fields others, at? path (.table base) = some (.table fields) →
        at? path (.table override) = some (.table others) →
        at? path (.table (merge base override)) = some (.table (merge fields others)))
      ∧ (∀ v, at? path (.table override) = some v →
        (v.isTable = true → ∀ fields, at? path (.table base) ≠ some (.table fields)) →
        at? path (.table (merge base override)) = some v)
      ∧ (at? path (.table override) = none →
        (¬ IsCutOff override path →
          at? path (.table (merge base override)) = at? path (.table base))
        ∧ (IsCutOff override path → at? path (.table (merge base override)) = none)))
      ∧ merge base [] = base ∧ merge [] base = base
      ∧ merge (merge base override) override = merge base override
      ∧ (SameShape (.table base) (.table override) → SameShape (.table override) (.table third) →
        SameShape (.table base) (.table third) →
        merge (merge base override) third = merge base (merge override third))
      ∧ (merge (merge base override) third = merge base (merge override third)
        ↔ Mergeable base override third)
      ∧ ∀ m r r', Stands m (.table base) r → Stands m (.table override) r' →
        ∃ depth, ∀ n ≥ depth, ∃ merged m', mergeTables n r r' m = some (merged, m')
          ∧ Holds (m.length ≤ ·) m' n (.table (merge base override)) merged
          ∧ (∀ i : Nat, ∀ c, m[i]? = some c → m'[i]? = some c)
          ∧ Stands m' (.table base) r ∧ Stands m' (.table override) r' := by
  refine ⟨at?_merge base h, merge_nil base, nil_merge hbase.names, merge_merge_self hbase h,
    fun hshape _ _ => merge_assoc hbase h hthird (mergeable_of_sameShape hshape third),
    ⟨mergeable_of_merge_assoc hbase h hthird, merge_assoc hbase h hthird⟩, ?_⟩
  rintro m r r' ⟨k, hr⟩ ⟨l, hr'⟩
  refine ⟨max k l, fun n hn => ?_⟩
  obtain ⟨merged, m', hrun, hm, hheld⟩ := merges n _ _ m base override r r'
    (hr.of_le (Nat.le_trans (Nat.le_max_left k l) hn))
    (hr'.of_le (Nat.le_trans (Nat.le_max_right k l) hn))
  exact ⟨merged, m', hrun, hheld, fun _ _ hc => getElem?_of_isPrefix hm hc,
    ⟨k, hr.of_isPrefix hm⟩, ⟨l, hr'.of_isPrefix hm⟩⟩

/-- A table over a table, a table over a number, and a number over a table; and one table merged
over itself, which stays as it is. -/
theorem merge_deep_small :
    let base : Fields := [("a", .table [("x", .int 1)]), ("n", .int 0)]
    let override : Fields := [("a", .table [("y", .int 2)]), ("n", .table [("z", .int 3)])]
    let third : Fields := [("a", .int 4)]
    let m : Memory := [.table [("x", .value (.int 1))]]
    at? ["a"] (.table (merge base override)) = some (.table [("x", .int 1), ("y", .int 2)])
      ∧ at? ["n"] (.table (merge base override)) = some (.table [("z", .int 3)])
      ∧ at? ["a", "x"] (.table (merge base third)) = none
      ∧ merge (merge base override) third = merge base (merge override third)
      ∧ ∃ n merged m', mergeTables n (.address 0) (.address 0) m = some (merged, m')
        ∧ m'[0]? = some (.table [("x", .value (.int 1))]) := by
  intro base override third m
  have hx : NamesOnce (.table [("x", .int 1)]) :=
    .table (by decide) (by simpa using .other rfl)
  have hbase : NamesOnce (.table base) :=
    .table (by decide) (by simpa [base] using ⟨hx, .other rfl⟩)
  have hoverride : NamesOnce (.table override) :=
    .table (by decide) (by
      simpa [override] using ⟨.table (by decide) (by simpa using .other rfl),
        .table (by decide) (by simpa using .other rfl)⟩)
  have hthird : NamesOnce (.table third) :=
    .table (by decide) (by simpa [third] using .other rfl)
  obtain ⟨hpath, -, -, -, -, hassoc, -⟩ := merge_deep hbase hoverride hthird
  obtain ⟨hpath', -⟩ := merge_deep hbase hthird hthird
  obtain ⟨-, -, -, -, -, -, hrun⟩ := merge_deep hx hx hx
  have hm : Stands m (.table [("x", .int 1)]) (.address 0) :=
    ⟨1, trivial, _, rfl, .cons ⟨rfl, rfl, rfl, by simp⟩ .nil⟩
  obtain ⟨n, hn⟩ := hrun m _ _ hm hm
  obtain ⟨merged, m', hmerged, -, hkept, -⟩ := hn n (Nat.le_refl n)
  refine ⟨?_, ?_, ?_, ?_, n, merged, m', hmerged, hkept 0 _ rfl⟩
  · rw [(hpath ["a"]).1 [("x", .int 1)] [("y", .int 2)] rfl rfl]
    simp [merge, mergeFields, mergeValue, put]
  · exact (hpath ["n"]).2.1 _ rfl (by rintro - fields ⟨⟩)
  · refine ((hpath' ["a", "x"]).2.2 rfl).2 ⟨["a"], .int 4, ⟨["x"], rfl⟩, by decide, rfl, rfl⟩
  · refine hassoc.mpr fun path fields v others _ ho ht hv => ?_
    cases path with
    | nil =>
      obtain rfl : Value.table override = v := by simpa using ho
      cases hv
    | cons name path =>
      -- The third configuration has no table further down.
      obtain ⟨w, hw, ht⟩ := Option.bind_eq_some_iff.mp ht
      have hmem : (name, w) ∈ third := mem_of_lookup_eq_some hw
      obtain ⟨-, rfl⟩ : name = "a" ∧ w = .int 4 := by simpa [third] using hmem
      cases path <;> cases ht

end Config

end FeatureTree
