import FeatureTree.Proofs.Store.Acyclic

/-!
# No child is listed twice

A node that lies in a directory can be put into the same directory again: it has no other parent, so
it is not refused, and it is put at the end of the list once more. As long as that is not done, the
children of a node differ, and a walk comes by every node below its start exactly once.

## Main results

* `Store.distinct_next`: parts still differ after an operation that puts nothing in again
* `Store.Unrolls.hangs`: a tree of nodes hangs together by the parents of the nodes
* `Store.children_nodup_iff_putsNew`: children differ until an operation puts a node in again, and
  are visited once
-/

namespace FeatureTree

namespace Operation

/-- What an operation puts into a directory does not lie there already. -/
def PutsNew (s : Store) : Operation → Prop
  | .addFeatureFile directory child | .addDirectory directory child =>
    s.parent? child ≠ some directory
  | _ => True

/-- An orderly operation that fails, or puts nothing into a directory where it lies already. -/
structure KeepsDistinct (s : Store) (op : Operation) : Prop where
  orderly : op.IsOrderly
  new : ∀ t, s.perform op = .ok t → op.PutsNew s

end Operation

namespace Store

variable {s t u : Store} {op : Operation} {i j p c d : NodeId} {e : Entry} {r : Rose NodeId}

/-- The parts of every node differ. -/
def Distinct (s : Store) : Prop := ∀ i e, s.get? i = some e → e.shape.parts.Nodup

/-! ### What an operation does to parts -/

/-- Giving one node a shape without repeated parts keeps the parts of all nodes distinct. -/
theorem Distinct.of_reshaped {shape : Shape NodeId} (h : s.Distinct) (ht : Reshaped s t p shape)
    (hshape : shape.parts.Nodup) : t.Distinct := fun j f hf => by
  obtain ⟨g, hg, -, hs⟩ := ht.entry hf
  rw [hs]
  split
  · exact hshape
  · exact h j g hg

/-- Whether parts are distinct is a matter of the entries alone. -/
theorem Distinct.of_entries (h : s.Distinct) (he : t.entries = s.entries) : t.Distinct :=
  fun j f hf => h j f (by rwa [get?, ← he])

/-- Growing keeps parts distinct. -/
theorem Distinct.of_grown {q : NodeId → Prop} {tops : List NodeId} (h : s.Distinct)
    (hg : Grown q s t tops) : t.Distinct := fun j f hf => by
  rcases Nat.lt_or_ge j s.size with hlt | hge
  · exact h j f (hg.old j hlt ▸ hf)
  · exact hg.parts_nodup j f hge hf

/-- Putting a node at the end of a list of another one. -/
theorem distinct_append {field : ListField} (h : s.Distinct) (hc : c < s.size)
    (he : s.get? p = some e) (hg : e.given = []) (hu : s.adopt p c = .ok u)
    (ht : u.append p (Attribute.list field).name (.node c) = .ok t) :
    (c ∉ e.shape.parts → t.Distinct)
      ∧ ∃ f, t.get? p = some f ∧ f.given = [] ∧ f.shape.kind = e.shape.kind
        ∧ f.shape.parts.Perm (c :: e.shape.parts) := by
  obtain ⟨parts, shape, hparts, hs, rfl⟩ := exists_of_adopt_append he hg hu ht
  obtain ⟨hreshaped, -⟩ := reshaped_adopt shape hc hu
  have hperm := perm_parts_of_append hparts hs
  refine ⟨fun hnot => h.of_reshaped hreshaped ?_, ?_⟩
  · rw [hperm.nodup_iff, List.nodup_cons]
    exact ⟨hnot, h p e he⟩
  · have hentry := hreshaped.entries p
    rw [he] at hentry
    obtain ⟨f, hf, hfe⟩ := Option.map_eq_some_iff.mp hentry
    obtain ⟨hfs, hfg⟩ := Prod.mk.inj hfe
    rw [if_pos rfl] at hfs
    refine ⟨f, hf, hfg.trans hg, ?_, hfs ▸ hperm⟩
    rw [hfs, Shape.kind_of_setList hs]

/-- What is put into a directory where it does not lie is not listed there. -/
theorem Tidy.not_mem_of_putsNew (htidy : Tidy s.Reaches s) (hd : s.Reaches d)
    (he : s.get? d = some e) (hnew : s.parent? c ≠ some d) : c ∉ e.shape.parts :=
  fun hc => hnew (htidy.reaches_part hd he hc).2

/-- Parts still differ after an operation that puts nothing in again. -/
theorem distinct_next (hs : s.Distinct) (htidy : Tidy s.Reaches s) (hop : op.Within s.Reaches)
    (hkeeps : op.KeepsDistinct s) : (s.next op).Distinct := by
  cases h : s.perform op with
  | error f =>
    rw [next_of_error h]
    exact hs
  | ok t =>
    have hnew := hkeeps.new t h
    have horderly := hkeeps.orderly
    rw [next_of_ok h]
    cases op with
    | make what name =>
      obtain ⟨n, u, hn, rfl, rfl⟩ := make_inv h
      have hentries : (what.keep s).2.entries = s.entries := by cases what <;> rfl
      have hgrown := grown_plant (Making.node_gives _ (Making.within_keep hop s) n hn)
        (what.keep s).2
      exact ((hs.of_entries hentries).of_grown hgrown).of_entries rfl
    | hold name node =>
      cases h
      exact hs.of_entries rfl
    | release name =>
      cases h
      exact hs.of_entries rfl
    | speak dialect =>
      cases h
      exact hs.of_entries rfl
    | addFeatureFile directory file =>
      obtain ⟨⟨⟩, -, ht⟩ := bind_ok h
      obtain ⟨e, u, he, -, hu, happend⟩ := exists_of_addTo ht
      exact (distinct_append hs hop.2.lt he (htidy.plain _ e he) hu happend).1
        (htidy.not_mem_of_putsNew hop.1 he hnew)
    | addDirectory directory inner =>
      obtain ⟨⟨⟩, -, ht⟩ := bind_ok h
      obtain ⟨e, u, he, -, hu, happend⟩ := exists_of_addTo ht
      exact (distinct_append hs hop.2.lt he (htidy.plain _ e he) hu happend).1
        (htidy.not_mem_of_putsNew hop.1 he hnew)
    | addRow i data name =>
      obtain ⟨⟨row, x⟩, hx, ht⟩ := bind_ok h
      obtain ⟨u, w, hgrown, -, hw, happend⟩ := exists_grown_of_addRow (fun _ => True) hx
      obtain ⟨hle, hlt⟩ := hgrown.tops_new row (by simp)
      obtain ⟨e, he⟩ := get?_of_lt hop.1.lt
      have hu : u.get? i = some e := (hgrown.old i hop.1.lt).trans he
      -- what examples list was there before the row
      have hfree : row ∉ e.shape.parts := fun hr =>
        absurd (htidy.listed_lt i row ⟨e, he, hr⟩) (Nat.not_lt.mpr hle)
      have hdistinct := (distinct_append (hs.of_grown hgrown) hlt hu (htidy.plain i e he) hw
        happend).1 hfree
      cases name with
      | none =>
        cases ht
        exact hdistinct
      | some name =>
        cases ht
        exact hdistinct.of_entries rfl
    | removeRow i data =>
      obtain ⟨e, he⟩ := get?_of_lt hop.1.lt
      rcases removeRow_of_plain he (htidy.plain i e he) h with
        rfl | ⟨title, tags, rows, n, row, hshape, -, hrow, rfl⟩
      · exact hs
      · have hl : e.shape.list? .rows = some rows := by rw [hshape]; rfl
        have hset : e.shape.setList .rows (rows.eraseIdx n)
            = some (.example title tags (rows.eraseIdx n)) := by rw [hshape]; rfl
        have hperm := perm_parts_of_eraseIdx hl hset hrow
        obtain ⟨-, hremembers⟩ := htidy.reaches_part hop.1 he
          (hperm.mem_iff.mpr List.mem_cons_self)
        obtain ⟨hreshaped, -⟩ := reshaped_disown (.example title tags (rows.eraseIdx n)) hop.1
          (remembered_of_parent? hremembers)
        exact hs.of_reshaped hreshaped (List.nodup_cons.mp (hperm.nodup_iff.mp (hs i e he))).2
    | _ => exact horderly.elim

/-- In every store that is reached without putting a node into a directory again, parts differ. -/
theorem ReachedBy.distinct (hs : s.ReachedBy fun s op => op.KeepsDistinct s) : s.Distinct := by
  induction hs with
  | start dialect =>
    intro i e he
    simp [get?] at he
  | step op hs hop hwithin ih =>
    exact distinct_next ih (hs.reached fun _ _ h => h.orderly).tidy hwithin hop

/-! ### Trees of nodes -/

/-- What lies below a node in reach is in reach. -/
theorem Unrolls.reaches (h : s.Unrolls i r) (htidy : Tidy s.Reaches s) (hi : s.Reaches i) :
    ∀ j ∈ r.preorder, s.Reaches j := by
  induction h with
  | @mk i rs children below ih =>
    obtain ⟨e, he⟩ := get?_of_lt hi.lt
    rw [children_of_plain he (htidy.plain i e he)] at children
    intro j hj
    rw [Rose.preorder_node] at hj
    rcases List.mem_cons.mp hj with rfl | hj
    · exact hi
    · obtain ⟨r, hr, hj⟩ := List.mem_flatMap.mp hj
      have hmem : Value.node r.label ∈ e.shape.children.map .node :=
        Except.ok.inj children ▸ List.mem_map_of_mem hr
      obtain ⟨c, hc, hrc⟩ := List.mem_map.mp hmem
      obtain rfl := Value.node.inj hrc
      exact ih r hr (htidy.reaches_part hi he (Shape.mem_parts_of_mem_children hc)).1 j hj

/-- A shape without repeated parts has no repeated children. -/
theorem nodup_children (shape : Shape NodeId) (h : shape.parts.Nodup) : shape.children.Nodup :=
  h.sublist shape.children_sublist

/-- A tree of nodes hangs together by the parents of the nodes. -/
theorem Unrolls.hangs (h : s.Unrolls i r) (htidy : Tidy s.Reaches s) (hs : s.Distinct)
    (hi : s.Reaches i) : r.Hangs s.parent? := by
  induction h with
  | @mk i rs children below ih =>
    obtain ⟨e, he⟩ := get?_of_lt hi.lt
    rw [children_of_plain he (htidy.plain i e he)] at children
    have hlabels : e.shape.children = rs.map Rose.label := by
      have := Except.ok.inj children
      rw [← Function.comp_def, ← List.map_map] at this
      exact List.map_injective_iff.mpr (fun _ _ => Value.node.inj) this
    have hpart : ∀ r ∈ rs, s.Reaches r.label ∧ s.parent? r.label = some i := fun r hr =>
      htidy.reaches_part hi he
        (Shape.mem_parts_of_mem_children (hlabels ▸ List.mem_map_of_mem hr))
    refine .mk ?_ (fun r hr => (hpart r hr).2) fun r hr => ih r hr (hpart r hr).1
    rw [← hlabels]
    exact nodup_children _ (hs i e he)

/-! ### Main statement -/

/-- A node has children, and they differ. -/
def DiffersBelow (s : Store) (i : NodeId) : Prop := ∃ vs, s.children i = .ok vs ∧ vs.Nodup

/-- Walking a node comes by every node below it once, and each of them is found once. -/
structure VisitsOnce (s : Store) (i : NodeId) : Prop where
  walk : ∀ order : Rose.Order, ∃ ids, s.walk i (.text order.name.toList) = .ok ids ∧ ids.Nodup
    ∧ i ∈ ids ∧ ∀ j ∈ ids, ∀ vs, s.children j = .ok vs → ∀ c, .node c ∈ vs → c ∈ ids
  find : ∀ kinds (order : Rose.Order), ∃ found ids, s.findKind i kinds = .ok found ∧ found.Nodup
    ∧ s.walk i (.text order.name.toList) = .ok ids
    ∧ ∀ j, j ∈ found ↔ j ∈ ids ∧ s.isOneOf kinds j

/-- Where parts are distinct, the children of every node below a node differ. -/
theorem Distinct.differsBelow (hs : s.Distinct) (htidy : Tidy s.Reaches s) (hi : s.Reaches i) :
    s.DiffersBelow i := by
  obtain ⟨e, he⟩ := get?_of_lt hi.lt
  refine ⟨_, children_of_plain he (htidy.plain i e he), ?_⟩
  exact (nodup_children _ (hs i e he)).map fun _ _ => Value.node.inj

/-- Where parts are distinct and ways up end, a walk visits every node once. -/
theorem Distinct.visitsOnce (hs : s.Distinct) (hrooted : s.Rooted) (htidy : Tidy s.Reaches s)
    (hi : s.Reaches i) : s.VisitsOnce i := by
  obtain ⟨e, he⟩ := get?_of_lt hi.lt
  have hg := htidy.plain i e he
  obtain ⟨r, hr, hheight⟩ := exists_unrolls hrooted htidy hi
  have hheight := Nat.le_succ_of_le hheight
  have hnodup : r.preorder.Nodup := (hr.hangs htidy hs hi).nodup_preorder fun a ha => by
    obtain ⟨ps, hps⟩ := hrooted a
    exact hps.not_mem (hps.mem_of_transGen ha)
  exact {
    walk := fun order => by
      have hperm := r.perm_inOrder order
      refine ⟨_, walk_of_unrolls he hg hr hheight order, hperm.nodup_iff.mpr hnodup,
        hperm.mem_iff.mpr hr.mem_preorder, fun j hj vs hvs c hc => ?_⟩
      exact hperm.mem_iff.mpr (hr.mem_of_child (hperm.mem_iff.mp hj) hvs hc)
    find := fun kinds order => by
      refine ⟨_, _, findKind_of_unrolls htidy.plain
          (fun j hj => get?_of_lt (hr.reaches htidy hi j hj).lt) hr hheight kinds,
        hnodup.filter _, walk_of_unrolls he hg hr hheight order, fun j => ?_⟩
      rw [List.mem_filter, (r.perm_inOrder order).mem_iff] }

/-- What is put into a directory where it lies already is listed twice. -/
theorem not_differsBelow_of_addTo {field : ListField} (htidy : Tidy s.Reaches s) (hs : s.Distinct)
    (hd : s.Reaches d) (hc : s.Reaches c) (hparent : s.parent? c = some d)
    (ht : s.addTo d field c = .ok t) : t.Reaches d ∧ ¬ t.DiffersBelow d := by
  refine ⟨hd.of_addTo htidy ht, ?_⟩
  rintro ⟨vs, hvs, hnodup⟩
  obtain ⟨e, u, he, hkind, hu, happend⟩ := exists_of_addTo ht
  obtain ⟨-, f, hf, hg, hfkind, hperm⟩ :=
    distinct_append hs hc.lt he (htidy.plain d e he) hu happend
  rw [children_of_plain hf hg] at hvs
  obtain rfl := Except.ok.inj hvs
  have hchildren : f.shape.children = f.shape.parts := by
    rw [hkind] at hfkind
    cases hshape : f.shape <;> rw [hshape] at hfkind <;> cases hfkind
    rfl
  have hlisted : c ∈ e.shape.parts := by
    obtain ⟨g, hg, hm⟩ := (htidy.agree d c hd).mp (remembered_of_parent? hparent)
    rwa [Option.some.inj (he.symm.trans hg)]
  have hnodup := hnodup.of_map _
  rw [hchildren, hperm.nodup_iff, List.nodup_cons] at hnodup
  exact hnodup.1 hlisted

/-- In every store that is reached without putting a node into a directory where it lies already,
the children of every node in reach differ, and if ways up end, each is visited and found once.
After any orderly operation children still differ, exactly if it is not one that puts a node in
again. -/
theorem children_nodup_iff_putsNew (hs : s.ReachedBy fun s op => op.KeepsDistinct s) :
    (∀ i, s.Reaches i → s.DiffersBelow i)
      ∧ (s.Rooted → ∀ i, s.Reaches i → s.VisitsOnce i)
      ∧ ∀ op : Operation, op.IsOrderly → op.Within s.Reaches →
        ((∀ i, (s.next op).Reaches i → (s.next op).DiffersBelow i)
          ↔ ∀ t, s.perform op = .ok t → op.PutsNew s) := by
  have htidy : ∀ {s : Store}, (s.ReachedBy fun s op => op.KeepsDistinct s) → Tidy s.Reaches s :=
    fun hs => (hs.reached fun _ _ h => h.orderly).tidy
  refine ⟨fun i hi => hs.distinct.differsBelow (htidy hs) hi,
    fun hrooted i hi => hs.distinct.visitsOnce hrooted (htidy hs) hi,
    fun op horderly hop => ⟨fun hall t ht => ?_, fun hnew i hi => ?_⟩⟩
  · rw [next_of_ok ht] at hall
    -- otherwise a child would be listed twice
    cases op with
    | addFeatureFile directory file =>
      obtain ⟨_, -, hadd⟩ := bind_ok ht
      intro hparent
      obtain ⟨hreach, hnot⟩ :=
        not_differsBelow_of_addTo (htidy hs) hs.distinct hop.1 hop.2 hparent hadd
      exact hnot (hall _ hreach)
    | addDirectory directory inner =>
      obtain ⟨_, -, hadd⟩ := bind_ok ht
      intro hparent
      obtain ⟨hreach, hnot⟩ :=
        not_differsBelow_of_addTo (htidy hs) hs.distinct hop.1 hop.2 hparent hadd
      exact hnot (hall _ hreach)
    | _ => exact trivial
  · have hnext := hs.step op ⟨horderly, hnew⟩ hop
    exact hnext.distinct.differsBelow (htidy hnext) hi

/-- A file can be put twice into the same directory. Before that all children differ, and are
visited once, and afterwards they do not differ. -/
theorem children_nodup_iff_putsNew_fileInDirectory :
    fileInDirectory.ReachedBy (fun s op => op.KeepsDistinct s) ∧ fileInDirectory.Rooted
      ∧ (Operation.addFeatureFile 0 1).Within fileInDirectory.Reaches
      ∧ (∀ i, fileInDirectory.Reaches i →
        fileInDirectory.DiffersBelow i ∧ fileInDirectory.VisitsOnce i)
      ∧ ∃ t, fileInDirectory.perform (.addFeatureFile 0 1) = .ok t
        ∧ ¬ ∀ i, t.Reaches i → t.DiffersBelow i := by
  have hempty : ReachedBy (fun s op => op.KeepsDistinct s) ({} : Store) := .start _
  have hdirectory := hempty.step (.make (.directory (.text ['d'])) "directory")
    ⟨trivial, fun _ _ => trivial⟩ (Value.within_text _)
  have hfile := hdirectory.step (.make (.featureFile (.text ['f'])) "file")
    ⟨trivial, fun _ _ => trivial⟩ (Value.within_text _)
  have hreached : fileInDirectory.ReachedBy fun s op => op.KeepsDistinct s := by
    refine hfile.step (.addFeatureFile 0 1) ⟨trivial, fun _ _ => ?_⟩
      ⟨.held (by decide) (by decide), .held (by decide) (by decide)⟩
    rw [Operation.PutsNew, parent?_of_free (by rfl)]
    exact nofun
  have hop : (Operation.addFeatureFile 0 1).Within fileInDirectory.Reaches :=
    ⟨.held (by decide) (by decide), .held (by decide) (by decide)⟩
  have hparent : fileInDirectory.parent? 1 = some 0 := parent?_eq_some_iff.mpr ⟨by rfl, hop.1⟩
  have hrooted := reachedBy_fileInDirectory.rooted
  have htakes : fileInDirectory.TakesIn 0 "add_feature_file" .featureFiles :=
    ⟨rfl, ⟨_, rfl, rfl⟩, ⟨_, rfl⟩⟩
  obtain ⟨t, ht⟩ : ∃ t, fileInDirectory.perform (.addFeatureFile 0 1) = .ok t := by
    obtain ⟨v, hv⟩ := htakes.list
    obtain ⟨t, ht⟩ := append_of_listNamed hv (.node 1)
    refine ⟨t, ?_⟩
    simp only [perform, addFeatureFile, htakes.calls, htakes.addTo_eq, adopt_of_parent hparent, ht,
      bind, Except.bind]
  obtain ⟨hdiffers, hvisits, hnext⟩ := children_nodup_iff_putsNew hreached
  refine ⟨hreached, hrooted, hop, fun i hi => ⟨hdiffers i hi, hvisits hrooted i hi⟩, t, ht,
    fun hall => ?_⟩
  rw [← next_of_ok ht] at hall
  exact (hnext (.addFeatureFile 0 1) trivial hop).mp hall t ht hparent

end Store

end FeatureTree
