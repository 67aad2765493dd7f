import FeatureTree.Proofs.Config.Merging
import FeatureTree.Toml.Document

/-!
# Names in a text of settings

A table that is read has each name once: its fields are put together from the names that occur, each
taken once. That holds further down as well, because the values that a text gives are numbers,
words, texts, lists, and inline tables that were put together in the same way. So it has to be
followed through the construction of tables: every value that stands in a table under construction
has each name once, and setting entries, joining the parts of tables and gathering them only moves
such values around.

The operations on tables under construction call one another with a bound on the depth. What is said
of all of them is shown at once by induction on that bound.

## Main results

* `Toml.moves`: putting tables together only moves values around
* `Toml.namesOnce_read`: a text of settings that is read gives each name once
-/

namespace FeatureTree

/-- Nothing is repeated once what is repeated is erased. -/
theorem nodup_eraseDups {α : Type} [BEq α] [LawfulBEq α] (as : List α) : as.eraseDups.Nodup := by
  induction h : as.length using Nat.strongRecOn generalizing as with
  | ind n ih =>
    cases as with
    | nil => simp
    | cons a as =>
      rw [List.eraseDups_cons, List.nodup_cons]
      refine ⟨by simp, ih _ ?_ _ rfl⟩
      rw [← h, List.length_cons]
      exact Nat.lt_succ_of_le (List.length_filter_le _ _)

/-- What each step of going through a list keeps is kept in the end. -/
theorem foldlM_induction {α β : Type} {P : β → Prop} {f : β → α → Except Fault β} {as : List α}
    (h : ∀ b, ∀ a ∈ as, ∀ b', P b → f b a = .ok b' → P b') {b b' : β} (hb : P b)
    (hrun : as.foldlM f b = .ok b') : P b' := by
  induction as generalizing b with
  | nil =>
    cases hrun
    exact hb
  | cons a as ih =>
    rw [List.foldlM_cons] at hrun
    obtain ⟨c, hc, hrun⟩ := bind_ok hrun
    exact ih (fun b a' ha' => h b a' (List.mem_cons_of_mem _ ha')) (h b a (by simp) c hb hc) hrun

/-- What is made of a result is made of one that was there. -/
theorem exists_of_map_ok {α β : Type} {f : α → β} {x : Except Fault α} {b : β}
    (h : f <$> x = .ok b) : ∃ a, x = .ok a ∧ f a = b := by
  cases x with
  | error => cases h
  | ok a => exact ⟨a, rfl, Except.ok.inj h⟩

namespace Toml

open Value (NamesOnce)

mutual

/-- Whether all the values of what is under construction have each name once. -/
inductive Draft.Proper : Draft → Prop where
  | value {v : Value} (h : NamesOnce v) : Draft.Proper (.value v)
  | table {opening : Opening} {inside : Section} (h : Section.Proper inside) :
      Draft.Proper (.table opening inside)
  | tables {items : List Draft} (h : ∀ d ∈ items, Draft.Proper d) : Draft.Proper (.tables items)

/-- Whether all the values in a table under construction have each name once. -/
inductive Section.Proper : Section → Prop where
  | mk {entries : List (Label × Draft)} {joined : List (String × Nat × Section)}
      (entriesProper : ∀ e ∈ entries, Draft.Proper e.2)
      (joinedProper : ∀ j ∈ joined, Section.Proper j.2.2) : Section.Proper (.mk entries joined)

end

/-- The section in a table that is proper is proper. -/
theorem Draft.Proper.inside {opening : Opening} {inside : Section}
    (h : Draft.Proper (.table opening inside)) : inside.Proper := by
  cases h with
  | table h => exact h

/-- The members of a list of tables that is proper are proper. -/
theorem Draft.Proper.members {items : List Draft} (h : Draft.Proper (.tables items)) :
    ∀ d ∈ items, d.Proper := by
  cases h with
  | tables h => exact h

namespace Section

variable {s s' : Section} {name : Label} {d : Draft} {key : String} {n : Nat}

/-! ### Single changes -/

/-- The empty section is proper. -/
theorem proper_empty : empty.Proper := .mk (by simp) (by simp)

/-- The entries of a section that is proper are proper. -/
theorem Proper.entries (h : s.Proper) : ∀ e ∈ s.entries, e.2.Proper := by
  cases h with
  | mk h _ => exact h

/-- A section stays proper if its entries are replaced by ones that are proper. -/
theorem Proper.mapEntries (h : s.Proper) {f : List (Label × Draft) → List (Label × Draft)}
    (hf : ∀ e ∈ f s.entries, e.2.Proper) : (s.mapEntries f).Proper := by
  cases h with
  | mk _ hj => exact .mk hf hj

/-- A section stays proper if an entry that is proper is pushed. -/
theorem Proper.push (h : s.Proper) (hd : d.Proper) (name : Label) : (s.push name d).Proper := by
  refine h.mapEntries fun e he => ?_
  rcases List.mem_append.mp he with he | he
  · exact h.entries e he
  · rw [List.mem_singleton.mp he]
    exact hd

/-- Where the first entry of a name is replaced, an entry is the new one or an old one. -/
theorem mem_replaceFirst {es : List (Label × Draft)} {e : Label × Draft}
    (h : e ∈ replaceFirst key d es) : e.2 = d ∨ e ∈ es := by
  induction es with
  | nil => cases h
  | cons f es ih =>
    obtain ⟨name, old⟩ := f
    rw [replaceFirst] at h
    split at h
    · rcases List.mem_cons.mp h with rfl | h
      · exact .inl rfl
      · exact .inr (List.mem_cons_of_mem _ h)
    · rcases List.mem_cons.mp h with rfl | h
      · exact .inr (by simp)
      · exact (ih h).imp_right (List.mem_cons_of_mem _)

/-- Where all entries of a name are replaced, an entry is the new one or an old one. -/
theorem mem_replaceAll {es : List (Label × Draft)} {e : Label × Draft}
    (h : e ∈ replaceAll key d es) : e.2 = d ∨ e ∈ es := by
  induction es with
  | nil => cases h
  | cons f es ih =>
    obtain ⟨name, old⟩ := f
    rw [replaceAll] at h
    split at h
    · rcases List.mem_cons.mp h with rfl | h
      · exact .inl rfl
      · exact .inr (List.mem_cons_of_mem _ (List.mem_filter.mp h).1)
    · rcases List.mem_cons.mp h with rfl | h
      · exact .inr (by simp)
      · exact (ih h).imp_right (List.mem_cons_of_mem _)

/-- A section stays proper if the latest entry of a name is replaced by one that is proper. -/
theorem Proper.replaceLatest (h : s.Proper) (hd : d.Proper) (key : String) :
    (s.replaceLatest key d).Proper := by
  refine h.mapEntries fun e he => ?_
  rcases mem_replaceFirst (List.mem_reverse.mp he) with heq | he
  · exact heq ▸ hd
  · exact h.entries e (List.mem_reverse.mp he)

/-- A section stays proper if all entries of a name are replaced by one that is proper. -/
theorem Proper.replaceAll (h : s.Proper) (hd : d.Proper) (key : String) :
    (s.mapEntries (Section.replaceAll key d)).Proper := by
  refine h.mapEntries fun e he => ?_
  rcases mem_replaceAll he with heq | he
  · exact heq ▸ hd
  · exact h.entries e he

/-- The entries under a name are proper. -/
theorem Proper.of_mem_under (h : s.Proper) {e : Label × Draft} (he : e ∈ s.under key) :
    e.2.Proper :=
  h.entries e (List.mem_filter.mp he).1

/-- The latest entry under a name is proper. -/
theorem Proper.of_latest? (h : s.Proper) {e : Label × Draft} (he : s.latest? key = some e) :
    e.2.Proper :=
  h.of_mem_under (List.mem_of_getLast? he)

/-- The entries of the parts of a table are proper. -/
theorem Proper.partEntries (h : s.Proper) (key : String) (skipped : Nat) :
    ∀ e ∈ s.partEntries key skipped, e.2.Proper := by
  intro e he
  obtain ⟨⟨name, d⟩, hd, he⟩ := List.mem_flatMap.mp he
  have hproper : d.Proper := h.of_mem_under (List.mem_of_mem_drop hd)
  cases d with
  | table opening inside => exact hproper.inside.entries e he
  | value => cases he
  | tables => cases he

/-- What the parts of a table make is proper. -/
theorem Proper.joinedAs (h : s.Proper) (key : String) : (s.joinedAs key).2.Proper := by
  cases h with
  | mk _ hj =>
    rw [Section.joinedAs, Section.joined]
    cases hlookup : List.lookup key _ with
    | none => exact proper_empty
    | some j => exact hj _ (mem_of_lookup_eq_some hlookup)

/-- A section stays proper if it keeps what parts of a table make together. -/
theorem Proper.keepJoined {together : Section} (h : s.Proper) (ht : together.Proper) (key : String)
    (count : Nat) : (s.keepJoined key count together).Proper := by
  cases h with
  | mk he hj =>
    refine .mk he fun j hmem => ?_
    rcases List.mem_cons.mp hmem with rfl | hmem
    · exact ht
    · exact hj j (List.mem_filter.mp hmem).1

/-- A section stays proper if an entry is put behind others of its key. -/
theorem Proper.pushPart (h : s.Proper) (hd : d.Proper) (hrun : s.pushPart name d = .ok s') :
    s'.Proper := by
  unfold Section.pushPart at hrun
  split at hrun
  · cases hrun
    exact h.push hd name
  · cases hrun
    exact h.push hd name
  · next before items hlatest =>
    cases hrun
    exact h.replaceLatest (.tables (List.forall_mem_append.mpr
      ⟨(h.of_latest? hlatest).members, hd.members⟩)) _
  · cases hrun

/-! ### Putting tables together -/

/-- Putting tables together to some depth only moves values around. -/
structure Moves (n : Nat) : Prop where
  append : ∀ checked s name d s', s.Proper → d.Proper →
    Section.append n checked s name d = .ok s' → s'.Proper
  attach : ∀ checked s name d s', s.Proper → d.Proper →
    Section.attach n checked s name d = .ok s' → s'.Proper
  join : ∀ s key s', s.Proper → Section.join n s key = .ok s' → s'.Proper
  joinAll : ∀ s s', s.Proper → Section.joinAll n s = .ok s' → s'.Proper
  gather : ∀ entries s, (∀ e ∈ entries, e.2.Proper) → Section.gather n entries = .ok s → s.Proper

/-- Appending an entry keeps a section proper if shorter chains of parts are kept so. -/
theorem Moves.append_succ (hn : Moves n) {checked : Bool} (hs : s.Proper) (hd : d.Proper)
    (h : Section.append (n + 1) checked s name d = .ok s') : s'.Proper := by
  have hpart : ∀ t, (if checked then Section.join n (s.push name d) name.key
      else .ok (s.push name d)) = .ok t → t.Proper := by
    intro t ht
    split at ht
    · exact hn.join _ _ t (hs.push hd name) ht
    · cases ht
      exact hs.push hd name
  rw [Section.append] at h
  cases hlatest : s.latest? name.key with
  | none =>
    rw [hlatest] at h
    cases h
    exact hs.push hd name
  | some latest =>
    obtain ⟨earlier, current⟩ := latest
    have hcurrent := hs.of_latest? hlatest
    rw [hlatest] at h
    simp only at h
    split at h
    · next inside items =>
      cases h
      exact hs.replaceLatest (.tables (List.forall_mem_append.mpr
        ⟨hcurrent.members, List.forall_mem_singleton.mpr hd⟩)) _
    · next inside opening before =>
      cases h
      refine hs.replaceAll (.tables fun d' hd' => ?_) _
      rcases List.mem_pair.mp hd' with rfl | rfl
      · exact hcurrent
      · exact hd
    · next inside items =>
      split at h
      · next opening before hlast =>
        obtain ⟨merged, hmerged, h⟩ := bind_ok h
        cases h
        have hbefore := hcurrent.members _ (List.mem_of_getLast? hlast)
        have hproper : merged.Proper := foldlM_induction (P := Section.Proper)
          (fun b e he b' hb => hn.append true b e.1 e.2 b' hb (hd.inside.entries e he))
          hbefore.inside hmerged
        exact hs.replaceLatest (.tables (List.forall_mem_append.mpr
          ⟨fun d' hd' => hcurrent.members d' (List.dropLast_subset _ hd'),
            List.forall_mem_singleton.mpr (.table hproper)⟩)) _
      · cases h
    · cases h
    · split at h
      · cases h
      · obtain ⟨_, -, h⟩ := bind_ok h
        exact hpart s' h
    · obtain ⟨_, -, h⟩ := bind_ok h
      exact hpart s' h
    · next inside opening before _ _ =>
      split at h
      · obtain ⟨merged, hmerged, h⟩ := bind_ok h
        cases h
        exact hs.replaceLatest (.table (foldlM_induction (P := Section.Proper)
          (fun b e he b' hb => hn.attach true b e.1 e.2 b' hb (hd.inside.entries e he))
          hcurrent.inside hmerged)) _
      · exact hpart s' h
    · next items before =>
      cases h
      exact hs.replaceLatest (.tables (List.forall_mem_append.mpr
        ⟨hcurrent.members, hd.members⟩)) _
    · cases h

/-- Appending and moving entries keeps sections proper, however long the chain of parts is. -/
theorem moves (n : Nat) : Moves n := by
  induction n with
  | zero =>
    refine ⟨?_, ?_, ?_, ?_, ?_⟩
    all_goals
      intros
      next h => simp [Section.append, Section.attach, Section.join, Section.joinAll,
        Section.gather] at h
  | succ n ih =>
    refine ⟨fun checked s name d s' hs hd h => ih.append_succ hs hd h,
      fun checked s name d s' hs hd h => ?_, fun s key s' hs h => ?_, fun s s' hs h => ?_,
      fun entries s he h => ?_⟩
    · rw [Section.attach] at h
      obtain ⟨t, ht, h⟩ := bind_ok h
      have hproper := ih.append checked s name d t hs hd ht
      split at h
      · obtain ⟨_, -, h⟩ := bind_ok h
        cases h
        exact hproper
      · cases h
        exact hproper
    · rw [Section.join] at h
      split at h
      · cases h
        exact hs
      · obtain ⟨together, htogether, h⟩ := bind_ok h
        obtain ⟨joined, hjoined, h⟩ := bind_ok h
        cases h
        refine hs.keepJoined (ih.joinAll together joined ?_ hjoined) _ _
        exact foldlM_induction (P := Section.Proper)
          (fun b e he b' hb => ih.append false b e.1 e.2 b' hb (hs.partEntries key _ e he))
          (hs.joinedAs key) htogether
    · rw [Section.joinAll] at h
      exact foldlM_induction (P := Section.Proper) (fun b key _ b' hb => ih.join b key b' hb) hs h
    · rw [Section.gather] at h
      obtain ⟨together, htogether, h⟩ := bind_ok h
      refine ih.joinAll together s ?_ h
      exact foldlM_induction (P := Section.Proper)
        (fun b e hmem b' hb hstep => hb.pushPart (he e hmem) hstep) proper_empty htogether

/-! ### What has been built -/

/-- The fields that are built have each name once, and so do the values. -/
structure Builds (n : Nat) : Prop where
  fields : ∀ s fields, s.Proper → Section.fieldsValue n s = .ok fields → NamesOnce (.table fields)
  value : ∀ d v, Draft.Proper d → Section.draftValue n d = .ok v → NamesOnce v

/-- Setting what a key leads to keeps sections proper, however long the key is. -/
theorem builds (n : Nat) : Builds n := by
  induction n with
  | zero =>
    refine ⟨?_, ?_⟩
    all_goals
      intros
      next h => simp [fieldsValue, draftValue] at h
  | succ n ih =>
    refine ⟨fun s fields hs h => ?_, fun d v hd h => ?_⟩
    · rw [fieldsValue] at h
      have hfields : List.Forall₂ (fun key f => f.1 = key ∧ NamesOnce f.2) s.keys fields := by
        refine (forall₂_of_mapM h).imp fun key f hf => ?_
        split at hf
        · next name d hunder =>
          obtain ⟨v, hv, hf⟩ := bind_ok hf
          cases hf
          have hmem : (name, d) ∈ s.under key := hunder ▸ List.mem_singleton_self (name, d)
          have hd : d.Proper := hs.of_mem_under hmem
          exact ⟨rfl, ih.value d v hd hv⟩
        · obtain ⟨together, htogether, hf⟩ := bind_ok hf
          obtain ⟨inner, hinner, hf⟩ := bind_ok hf
          cases hf
          exact ⟨rfl, ih.fields together inner
            ((moves n).gather _ _ (hs.partEntries key 0) htogether) hinner⟩
      have hnames : fields.map Prod.fst = s.keys := by
        simpa using map_eq_of_forall₂ (f := id) (g := Prod.fst) (hfields.imp fun _ _ h => h.1)
      refine .table (hnames ▸ nodup_eraseDups _) fun f hf => ?_
      obtain ⟨_, -, -, hv⟩ := exists_left_of_forall₂ hfields hf
      exact hv
    · cases hd with
      | value hv =>
        rw [draftValue] at h
        cases h
        exact hv
      | @table _ inside hinside =>
        rw [draftValue] at h
        obtain ⟨fields, hfields, rfl⟩ := exists_of_map_ok h
        exact ih.fields inside fields hinside hfields
      | @tables items _ =>
        rw [draftValue] at h
        obtain ⟨vs, -, rfl⟩ := exists_of_map_ok h
        exact .other rfl

end Section

/-! ### Statements -/

/-- What a key with several parts opens is proper if its value has each name once. -/
theorem Draft.proper_ofKey {v : Value} (h : NamesOnce v) (key : String) (others : List String) :
    (Draft.ofKey v key others).2.Proper := by
  induction others generalizing key with
  | nil => exact .value h
  | cons next others ih => exact .table (Section.proper_empty.push (ih next) _)

/-- What a header with several parts opens is proper if its last part is. -/
theorem Draft.proper_ofHeader {leaf : Draft} (h : leaf.Proper) (key : String)
    (others : List String) : (Draft.ofHeader leaf key others).2.Proper := by
  induction others generalizing key with
  | nil => exact h
  | cons next others ih => exact .table (Section.proper_empty.push (ih next) _)

/-! ### Numbers and words -/

open Number

/-- A decimal number is no table. -/
theorem Number.isTable_of_decimal? {negative : Bool} {t : Text} {v : Value}
    (h : decimal? negative t = some v) : v.isTable = false := by
  simp only [decimal?] at h
  split at h
  · cases h
  · split at h
    all_goals
      obtain ⟨⟨e, rest⟩, -, h⟩ := Option.bind_eq_some_iff.mp h
      split at h
      · cases h
      · cases h
        rfl

/-- A number without a sign is no table. -/
theorem Number.isTable_of_unsigned? {hasSign negative : Bool} {t : Text} {v : Value}
    (h : unsigned? hasSign negative t = some v) : v.isTable = false := by
  simp only [unsigned?] at h
  split at h
  · cases h
  · obtain ⟨digits, -, h⟩ := Option.bind_eq_some_iff.mp h
    split at h
    · cases h
    · split at h
      · split at h
        · cases h
        · cases h
          rfl
      · split at h
        · exact Number.isTable_of_decimal? h
        · cases h

/-- What follows a sign is no table. -/
theorem Number.isTable_of_afterSign? {hasSign negative : Bool} {t : Text} {v : Value}
    (h : afterSign? hasSign negative t = some v) : v.isTable = false := by
  unfold afterSign? at h
  split at h
  · cases h
    rfl
  · split at h
    · cases h
      rfl
    · split at h
      · exact Number.isTable_of_unsigned? h
      · cases h

/-- A number is no table. -/
theorem Number.isTable_of_read? {t : Text} {v : Value} (h : Number.read? t = some v) :
    v.isTable = false := by
  unfold Number.read? at h
  split at h <;> exact Number.isTable_of_afterSign? h

/-- A value without parts is no table. -/
theorem isTable_of_scalar {t rest : Text} {v : Value} (h : scalar t = .ok (v, rest)) :
    v.isTable = false := by
  have hvalid : ∀ {α : Type} {o : Option α} {a : α}, orInvalid o = .ok a → o = some a := by
    intro α o a h
    cases o <;> cases h
    rfl
  simp only [scalar] at h
  split at h
  · obtain ⟨_, -, heq⟩ := Option.map_eq_some_iff.mp (hvalid h)
    cases heq
    rfl
  · obtain ⟨_, -, heq⟩ := Option.map_eq_some_iff.mp (hvalid h)
    cases heq
    rfl
  · obtain ⟨w, hw, heq⟩ := Option.map_eq_some_iff.mp (hvalid h)
    cases heq
    split at hw
    · cases hw
      rfl
    · split at hw
      · cases hw
        rfl
      · exact Number.isTable_of_read? hw

/-- What a value of a text and the inside of an inline table are. -/
structure Reads (depth n : Nat) : Prop where
  value : ∀ room t v rest, Toml.value depth n room t = .ok (v, rest) → NamesOnce v
  fields : ∀ room (before : Section) t s rest, before.Proper →
    Toml.fields depth n room before t = .ok (s, rest) → s.Proper

/-- Values that are read have each name once, however deep they are nested. -/
theorem reads (depth n : Nat) : Reads depth n := by
  induction n with
  | zero =>
    refine ⟨?_, ?_⟩
    all_goals
      intros
      next h => simp [value, fields] at h
  | succ n ih =>
    refine ⟨fun room t v rest h => ?_, fun room before t s rest hbefore h => ?_⟩
    · unfold value at h
      split at h
      · obtain ⟨⟨vs, rest⟩, -, h⟩ := bind_ok h
        cases h
        exact .other rfl
      · obtain ⟨⟨inside, rest⟩, hinside, h⟩ := bind_ok h
        obtain ⟨fields, hfields, h⟩ := bind_ok h
        cases h
        exact (Section.builds depth).fields inside fields
          (ih.fields _ .empty _ inside rest Section.proper_empty hinside) hfields
      · cases h
      · cases h
      · exact .other (isTable_of_scalar h)
    · unfold fields at h
      obtain ⟨between, -, h⟩ := bind_ok h
      split at h
      · cases h
        exact hbefore
      · obtain ⟨⟨k, afterKey⟩, -, h⟩ := bind_ok h
        obtain ⟨valueText, -, h⟩ := bind_ok h
        obtain ⟨⟨v, afterValue⟩, hv, h⟩ := bind_ok h
        obtain ⟨done, hdone, h⟩ := bind_ok h
        obtain ⟨following, -, h⟩ := bind_ok h
        have hproper : done.Proper := (Section.moves depth).append _ _ _ _ done hbefore
          (Draft.proper_ofKey (ih.value _ _ v afterValue hv) k.first k.others) hdone
        split at h
        · exact ih.fields _ done _ s rest hproper h
        · cases h
          exact hproper
        · cases h

/-- Whether the value of a statement, if it has one, has each name once. -/
def Statement.Proper : Statement → Prop
  | .pair _ v => NamesOnce v
  | .header _ _ _ => True

/-- A statement that is read from a line is proper. -/
theorem proper_of_line {depth : Nat} {t rest : Text} {st : Statement}
    (h : line depth t = .ok (some st, rest)) : st.Proper := by
  unfold line at h
  split at h
  · cases h
  · obtain ⟨⟨header, rest⟩, hheader, h⟩ := bind_ok h
    cases h
    simp only [Toml.header] at hheader
    obtain ⟨⟨k, rest⟩, -, hheader⟩ := bind_ok hheader
    split at hheader <;> split at hheader <;> cases hheader <;> trivial
  · split at h
    · obtain ⟨_, -, h⟩ := bind_ok h
      cases h
    · obtain ⟨⟨pair, rest⟩, hpair, h⟩ := bind_ok h
      cases h
      unfold Toml.pair at hpair
      obtain ⟨⟨k, afterKey⟩, -, hpair⟩ := bind_ok hpair
      obtain ⟨valueText, -, hpair⟩ := bind_ok hpair
      obtain ⟨⟨v, afterValue⟩, hv, hpair⟩ := bind_ok hpair
      obtain ⟨_, -, hpair⟩ := bind_ok hpair
      cases hpair
      exact (reads depth _).value _ _ v afterValue hv

/-- All statements that are read are proper. -/
theorem proper_of_statements {depth n : Nat} {t : Text} :
    ∀ st ∈ (statements depth n t).1, st.Proper := by
  induction n generalizing t with
  | zero => simp [statements]
  | succ n ih =>
    rw [statements]
    split
    · simp
    · split
      · simp
      · next st rest hline =>
        intro st' hst'
        rcases List.mem_append.mp hst' with hst' | hst'
        · obtain rfl : st = some st' := by simpa using hst'
          exact proper_of_line hline
        · exact ih st' hst'

/-! ### Documents -/

/-- Whether all the values of statements have each name once. -/
def AllProper (rest : List Statement) : Prop := ∀ st ∈ rest, st.Proper

/-- Tables of one list are proper if each of them is assembled into a section that is proper. -/
theorem proper_of_siblings {table : List Statement → Except Fault (Section × List Statement)}
    (htable : ∀ rest s rest', AllProper rest → table rest = .ok (s, rest') →
      s.Proper ∧ AllProper rest')
    {k : Key} {n : Nat} {rest rest' : List Statement} {items : List Draft} (hrest : AllProper rest)
    (h : siblings table k n rest = .ok (items, rest')) :
    (∀ d ∈ items, d.Proper) ∧ AllProper rest' := by
  induction n generalizing rest rest' items with
  | zero =>
    rw [siblings] at h
    · cases h
      exact ⟨by simp, hrest⟩
    · simp
  | succ n ih =>
    unfold siblings at h
    split at h
    · next m torn other after hm =>
      obtain rfl := Nat.succ.inj hm
      split at h
      · split at h
        · cases h
        · obtain ⟨⟨inside, between⟩, hinside, h⟩ := bind_ok h
          obtain ⟨⟨others, behind⟩, hothers, h⟩ := bind_ok h
          cases h
          obtain ⟨hproper, hbetween⟩ := htable _ inside between
            (fun st hst => hrest st (List.mem_cons_of_mem _ hst)) hinside
          obtain ⟨hall, hbehind⟩ := ih hbetween hothers
          exact ⟨List.forall_mem_cons.mpr ⟨.table hproper, hall⟩, hbehind⟩
      · cases h
        exact ⟨by simp, hrest⟩
    · cases h
      exact ⟨by simp, hrest⟩

/-- Tables under headers only hold values of the statements. -/
structure Assembles (depth : Nat) (trouble : Option Fault) (n : Nat) : Prop where
  inside : ∀ lists k (s : Section) rest s' rest', s.Proper → AllProper rest →
    tableInside depth trouble lists k n s rest = .ok (s', rest') → s'.Proper ∧ AllProper rest'
  part : ∀ lists outer listed k rest name (d : Draft) rest', AllProper rest →
    tableSection depth trouble lists outer n listed k rest = .ok (name, d, rest') →
      d.Proper ∧ AllProper rest'

/-- A table stays proper as a member of a list. -/
theorem Draft.Proper.asMember {d : Draft} (h : d.Proper) : d.asMember.Proper := by
  cases d with
  | table => exact .table h.inside
  | value => exact h
  | tables => exact h

/-- What statements are assembled into is proper, however many there are. -/
theorem assembles (depth : Nat) (trouble : Option Fault) (n : Nat) :
    Assembles depth trouble n := by
  induction n with
  | zero =>
    refine ⟨?_, ?_⟩
    all_goals
      intros
      next h => simp [tableInside, tableSection] at h
  | succ n ih =>
    refine ⟨fun lists k s rest s' rest' hs hrest h => ?_,
      fun lists outer listed k rest name d rest' hrest h => ?_⟩
    · unfold tableInside at h
      split at h
      · next inner v after =>
        obtain ⟨hv, hafter⟩ := List.forall_mem_cons.mp hrest
        obtain ⟨t, ht, h⟩ := bind_ok h
        exact ih.inside lists k t after s' rest' ((Section.moves depth).attach _ _ _ _ t hs
          (Draft.proper_ofKey hv inner.first inner.others) ht) hafter h
      · next listed torn below after =>
        have hafter := (List.forall_mem_cons.mp hrest).2
        split at h
        · split at h
          · cases h
          · obtain ⟨⟨name, d, behind⟩, hpart, h⟩ := bind_ok h
            obtain ⟨t, ht, h⟩ := bind_ok h
            obtain ⟨hd, hbehind⟩ := ih.part _ _ _ _ after name d behind hafter hpart
            exact ih.inside lists k t behind s' rest'
              ((Section.moves depth).attach _ s name d t hs hd ht) hbehind h
        · obtain ⟨t, ht, h⟩ := bind_ok h
          cases h
          exact ⟨(Section.moves depth).joinAll s s' hs ht, hrest⟩
      · split at h
        · cases h
        · obtain ⟨t, ht, h⟩ := bind_ok h
          cases h
          exact ⟨(Section.moves depth).joinAll s s' hs ht, hrest⟩
    · unfold tableSection at h
      obtain ⟨⟨inside, behind⟩, hinside, h⟩ := bind_ok h
      obtain ⟨hproper, hbehind⟩ :=
        ih.inside lists k .empty rest inside behind Section.proper_empty hrest hinside
      have hleaf : Draft.Proper (.table .header inside) := .table hproper
      dsimp only at h
      split at h
      · obtain ⟨⟨items, last⟩, hitems, h⟩ := bind_ok h
        cases h
        obtain ⟨hall, hlast⟩ := proper_of_siblings (fun rest s rest' hrest h =>
          ih.inside (k :: lists) k .empty rest s rest' Section.proper_empty hrest h)
          hbehind hitems
        exact ⟨.tables (List.forall_mem_cons.mpr ⟨hleaf, hall⟩), hlast⟩
      · next name others _ _ _ =>
        cases h
        have hone : ∀ d ∈ [Draft.table .header inside], d.Proper := by simpa using hleaf
        have hd := Draft.proper_ofHeader (.tables hone) name others
        refine ⟨?_, hbehind⟩
        split
        · exact hd.asMember
        · exact hd
      · next name others _ _ =>
        cases h
        exact ⟨Draft.proper_ofHeader hleaf name others, hbehind⟩
      · cases h

/-- The whole stays proper if a part at the top that is proper is set. -/
theorem proper_of_setTop {depth : Nat} {s s' : Section} {name : Label} {d : Draft}
    (hs : s.Proper) (hd : d.Proper) (h : setTop depth s name d = .ok s') : s'.Proper := by
  unfold setTop at h
  split at h
  · next t ht =>
    cases h
    exact (Section.moves depth).append true s name d s' hs hd ht
  · cases h

/-- A document that is assembled from statements that are proper is proper. -/
theorem proper_of_document {depth n : Nat} {trouble : Option Fault} {s s' : Section}
    {rest : List Statement} (hs : s.Proper) (hrest : AllProper rest)
    (h : document depth trouble n s rest = .ok s') : s'.Proper := by
  induction n generalizing s rest with
  | zero => simp [document] at h
  | succ n ih =>
    unfold document at h
    split at h
    · next k v after =>
      obtain ⟨hv, hafter⟩ := List.forall_mem_cons.mp hrest
      obtain ⟨t, ht, h⟩ := bind_ok h
      exact ih (proper_of_setTop hs (Draft.proper_ofKey hv k.first k.others) ht) hafter h
    · next listed torn k after =>
      have hafter := (List.forall_mem_cons.mp hrest).2
      split at h
      · cases h
      · obtain ⟨⟨name, d, behind⟩, hpart, h⟩ := bind_ok h
        obtain ⟨t, ht, h⟩ := bind_ok h
        obtain ⟨hd, hbehind⟩ := (assembles depth trouble _).part _ _ _ _ after name d behind hafter
          hpart
        exact ih (proper_of_setTop hs hd ht) hbehind h
    · split at h
      · cases h
      · cases h
        exact hs

/-- What a text of settings gives has each name once. -/
theorem namesOnce_read {t : Text} {fields : List (String × Value)} (h : read t = .ok fields) :
    NamesOnce (.table fields) := by
  obtain ⟨ss, trouble, hstatements⟩ :
      ∃ ss trouble, statements (4 * t.length + 8) (t.length + 1) t = (ss, trouble) := ⟨_, _, rfl⟩
  have hss : AllProper ss := by
    have h : AllProper (statements (4 * t.length + 8) (t.length + 1) t).1 := proper_of_statements
    rwa [hstatements] at h
  simp only [read, hstatements] at h
  obtain ⟨s, hs, h⟩ := bind_ok h
  exact (Section.builds _).fields s fields (proper_of_document Section.proper_empty hss hs) h

end Toml

end FeatureTree
