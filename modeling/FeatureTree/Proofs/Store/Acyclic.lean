import FeatureTree.Proofs.Store.Listing
import FeatureTree.Proofs.Store.WaysUp

/-!
# Ways up end, and walks

Nothing keeps a directory from being put into itself, or into a directory that lies in it: the only
node that is refused is one with another parent. As long as that is not done, going up from any node
ends at a node without a parent, so that the ancestors of a node are all the nodes above it, and
walking any node ends. Once it is done, going up from the directory that was put below itself leads
in a circle.

A node that is made is attached to nodes that are made after it, or to the node that it is made for;
a node that is put into a directory goes below a way that ends. So the ways up from other nodes stay
as they were, but for nodes that get out of reach.

## Main results

* `Store.rooted_next`: ways up still end after an operation that puts nothing below itself
* `Store.exists_unrolls`: where ways up end, going down from a node gives a finite tree
* `Store.ends_iff_keepsApart`: ways up and walks end until an operation puts a node below itself
-/

namespace FeatureTree

/-! ### Operations that put nothing below itself -/

namespace Operation

/-- An operation keeps what it puts into a directory apart from the directory: that is neither the
directory nor one of its ancestors. Other operations put nothing anywhere. -/
def KeepsApart (s : Store) : Operation → Prop
  | .addFeatureFile directory child | .addDirectory directory child =>
    child ∉ directory :: s.ancestors directory
  | _ => True

/-- An orderly operation that fails, or puts nothing below itself. -/
structure KeepsRoots (s : Store) (op : Operation) : Prop where
  orderly : op.IsOrderly
  apart : ∀ t, s.perform op = .ok t → op.KeepsApart s

end Operation

namespace Store

variable {s t u : Store} {op : Operation} {i p c d : NodeId} {ps : List NodeId} {e : Entry}

/-- Going up from any node ends. -/
def Rooted (s : Store) : Prop := ∀ i, ∃ ps, s.LeadsUp i ps

/-! ### What an operation does to ways up -/

/-- A node that was attached in making something comes before its parent, unless that is a node
from before. -/
theorem lt_of_remembered_new (hop : op.Within s.Reaches) (h : s.perform op = .ok t)
    (hc : s.size ≤ c) (hp : t.remembered c = some p) : p < s.size ∨ c < p := by
  have hgrow : ∀ op : Operation, op.Within s.Reaches → Relinks s op t →
      (op.Attaches s p c → p < s.size ∨ c < p) → p < s.size ∨ c < p := by
    intro op hop hrelinks hnew
    cases hrelinks with
    | same size _ => exact absurd (size ▸ lt_of_remembered hp) (Nat.not_lt.mpr hc)
    | attach _ _ _ size _ => exact absurd (size ▸ lt_of_remembered hp) (Nat.not_lt.mpr hc)
    | detach _ _ size _ => exact absurd (size ▸ lt_of_remembered hp) (Nat.not_lt.mpr hc)
    | grow _ _ new => exact hnew (new c p hc hp).1
  cases op with
  | make what name =>
    obtain ⟨n, u, hn, rfl, rfl⟩ := make_inv h
    have hwithin := Making.node_gives _ (Making.within_keep hop s) n hn
    have hgrown := grown_plant hwithin (what.keep s).2
    have hkeep := Making.edits_keep (fun _ => True) what s
    exact .inr (hgrown.lt_of_remembered (ascends_plant hwithin _) (hkeep.size_eq ▸ hc) hp)
  | addRow i data name =>
    obtain ⟨⟨row, x⟩, hx, h⟩ := bind_ok h
    obtain ⟨u, w, hgrown, hascends, hw, happend⟩ := exists_grown_of_addRow (fun _ => True) hx
    have hedits : Edits (· = row) w x := edits_append (by simp) i _ x happend
    have hrow := hgrown.tops_new row (by simp)
    have hp : x.remembered c = some p := by
      cases name <;> cases h <;> exact hp
    rw [hedits.remembered_eq] at hp
    rcases adopt_inv hw with ⟨-, rfl⟩ | ⟨-, rfl⟩
    · exact .inr (hgrown.lt_of_remembered hascends hc hp)
    · rw [remembered_setParent u _ hrow.2] at hp
      split at hp
      · cases hp
        exact .inl hop.1.lt
      · exact .inr (hgrown.lt_of_remembered hascends hc hp)
  | addFeatureFile directory file =>
    exact hgrow _ hop (relinks_perform hop h) fun ha =>
      absurd (ha.2 ▸ hop.2.lt) (Nat.not_lt.mpr hc)
  | addDirectory directory inner =>
    exact hgrow _ hop (relinks_perform hop h) fun ha =>
      absurd (ha.2 ▸ hop.2.lt) (Nat.not_lt.mpr hc)
  | adopt parent child =>
    exact hgrow _ hop (relinks_perform hop h) fun ha =>
      absurd (ha.2 ▸ hop.2.lt) (Nat.not_lt.mpr hc)
  | _ => exact hgrow _ hop (relinks_perform hop h) fun ha => ha.elim

/-- Going up still ends if a node on the way keeps its parent, loses it, or gets one from which
going up ends. -/
theorem LeadsUp.exists_of_change (h : s.LeadsUp i ps)
    (hchange : ∀ c ∈ i :: ps, t.parent? c = s.parent? c ∨ t.parent? c = none
      ∨ ∃ p qs, t.parent? c = some p ∧ t.LeadsUp p qs) : ∃ qs, t.LeadsUp i qs := by
  induction h with
  | @top i none =>
    rcases hchange i (by simp) with hi | hi | ⟨p, qs, hp, hqs⟩
    · exact ⟨[], .top (hi.trans none)⟩
    · exact ⟨[], .top hi⟩
    · exact ⟨_, .up hp hqs⟩
  | @up i p ps parent above ih =>
    rw [List.forall_mem_cons] at hchange
    rcases hchange.1 with hi | hi | ⟨p', qs, hp, hqs⟩
    · obtain ⟨qs, hqs⟩ := ih hchange.2
      exact ⟨_, .up (hi.trans parent) hqs⟩
    · exact ⟨[], .top hi⟩
    · exact ⟨_, .up hp hqs⟩

/-- Ways up still end after a node was put below a way that does not go by it. -/
theorem rooted_of_attach (hs : s.Rooted) (hbelow : c ∉ d :: s.ancestors d)
    (hchange : ∀ j, t.parent? j = s.parent? j ∨ t.parent? j = none
      ∨ (j = c ∧ t.parent? j = some d)) : t.Rooted := by
  obtain ⟨qs, hqs⟩ : ∃ qs, t.LeadsUp d qs := by
    obtain ⟨ps, hps⟩ := hs d
    rw [hps.ancestors_eq] at hbelow
    refine hps.exists_of_change fun j hj => ?_
    rcases hchange j with hj' | hj' | ⟨rfl, -⟩
    · exact .inl hj'
    · exact .inr (.inl hj')
    · exact absurd hj hbelow
  intro i
  obtain ⟨ps, hps⟩ := hs i
  refine hps.exists_of_change fun j _ => ?_
  rcases hchange j with hj | hj | ⟨-, hj⟩
  · exact .inl hj
  · exact .inr (.inl hj)
  · exact .inr (.inr ⟨d, qs, hj, hqs⟩)

/-- Ways up still end after nodes were made that come before their parents. -/
theorem rooted_of_grow (hs : s.Rooted)
    (hold : ∀ j < s.size, t.parent? j = s.parent? j ∨ t.parent? j = none)
    (hnew : ∀ j p, s.size ≤ j → t.parent? j = some p → p < s.size ∨ j < p) : t.Rooted := by
  have hways : ∀ i < s.size, ∃ qs, t.LeadsUp i qs := fun i hi => by
    obtain ⟨ps, hps⟩ := hs i
    refine hps.exists_of_change fun j hj => ?_
    have hlt : j < s.size := by
      rcases List.mem_cons.mp hj with rfl | hj
      · exact hi
      · exact hps.lt_size j hj
    exact (hold j hlt).imp_right .inl
  -- the later a new node comes, the fewer nodes it can have above it
  have hlater : ∀ n i, t.size ≤ i + n → ∃ qs, t.LeadsUp i qs := by
    intro n
    induction n with
    | zero =>
      intro i hi
      refine ⟨[], .top (parent?_of_free ?_)⟩
      rw [remembered, get?_of_le (by omega)]
      rfl
    | succ n ih =>
      intro i hi
      rcases Nat.lt_or_ge i s.size with hlt | hge
      · exact hways i hlt
      · cases hp : t.parent? i with
        | none => exact ⟨[], .top hp⟩
        | some p =>
          rcases hnew i p hge hp with hlt | hlt
          · obtain ⟨qs, hqs⟩ := hways p hlt
            exact ⟨_, .up hp hqs⟩
          · obtain ⟨qs, hqs⟩ := ih p (by omega)
            exact ⟨_, .up hp hqs⟩
  exact fun i => hlater t.size i (by omega)

/-- Ways up still end after an operation that puts nothing below itself. -/
theorem rooted_next (hs : s.Rooted) (hkept : s.ParentsKept) (hop : op.Within s.Reaches)
    (hkeeps : op.KeepsRoots s) : (s.next op).Rooted := by
  cases h : s.perform op with
  | error f =>
    rw [next_of_error h]
    exact hs
  | ok t =>
    have hbelow := hkeeps.apart t h
    have horderly := hkeeps.orderly
    have hchange := parentChange_next hkept hop
    have hnew := fun c p => lt_of_remembered_new (c := c) (p := p) hop h
    rw [next_of_ok h] at hchange ⊢
    -- what remains of the change of a parent once it is known what the operation attaches
    have hcases : ∀ {q : NodeId → Prop}, (∀ p c, op.Attaches s p c → q c) → ∀ j,
        t.parent? j = s.parent? j ∨ t.parent? j = none
          ∨ q j ∧ ∃ p, t.parent? j = some p ∧ op.Attaches s p j := by
      intro q hq j
      cases hchange j with
      | kept same => exact .inl same
      | attached _ after attaches => exact .inr (.inr ⟨hq _ _ attaches, _, after, attaches⟩)
      | detached _ after _ => exact .inr (.inl after)
      | lost _ after _ => exact .inr (.inl after)
    have hgrow : (∀ p c, op.Attaches s p c → s.size ≤ c) → t.Rooted := fun hattaches => by
      refine rooted_of_grow hs (fun j hj => ?_) fun j p hj hp =>
        hnew j p hj (remembered_of_parent? hp)
      rcases hcases hattaches j with hj' | hj' | ⟨hge, -⟩
      · exact .inl hj'
      · exact .inr hj'
      · exact absurd hj (Nat.not_lt.mpr hge)
    cases op with
    | make what name => exact hgrow fun p c ha => ha.1
    | addRow i data name => exact hgrow fun p c ha => ha.1
    | addFeatureFile directory file =>
      refine rooted_of_attach hs hbelow fun j => ?_
      rcases hcases (fun _ _ _ => trivial) j with hj | hj | ⟨-, p, hp, rfl, rfl⟩
      · exact .inl hj
      · exact .inr (.inl hj)
      · exact .inr (.inr ⟨rfl, hp⟩)
    | addDirectory directory inner =>
      refine rooted_of_attach hs hbelow fun j => ?_
      rcases hcases (fun _ _ _ => trivial) j with hj | hj | ⟨-, p, hp, rfl, rfl⟩
      · exact .inl hj
      · exact .inr (.inl hj)
      · exact .inr (.inr ⟨rfl, hp⟩)
    | hold name node => exact hgrow fun _ _ => False.elim
    | release name => exact hgrow fun _ _ => False.elim
    | speak dialect => exact hgrow fun _ _ => False.elim
    | removeRow i data => exact hgrow fun _ _ => False.elim
    | _ => exact horderly.elim

/-- In every store that is reached without putting a node below itself, going up ends. -/
theorem ReachedBy.rooted (hs : s.ReachedBy fun s op => op.KeepsRoots s) : s.Rooted := by
  induction hs with
  | start dialect => exact fun i => ⟨[], .top (parent?_of_free rfl)⟩
  | step op hs hop hwithin ih =>
    have hany : Reached (fun _ => True) _ := hs.reached fun _ _ _ => trivial
    exact rooted_next ih hany.parentsKept hwithin hop

/-! ### The way down -/

/-- What a node in reach lists is in reach, and the node is its parent. -/
theorem Tidy.reaches_part (htidy : Tidy s.Reaches s) (hi : s.Reaches i) (he : s.get? i = some e)
    (hc : c ∈ e.shape.parts) : s.Reaches c ∧ s.parent? c = some i := by
  have hlists : s.Lists i c := ⟨e, he, hc⟩
  exact ⟨.owned hi (htidy.listed_lt i c hlists)
      (mem_parts.mpr ⟨e, he, Entry.mem_owned.mpr (.inl hc)⟩),
    parent?_eq_some_iff.mpr ⟨(htidy.agree i c hi).mpr hlists, hi⟩⟩

/-- Where ways up end, going down from a node gives a tree with as many levels at most as the store
has nodes beside those above the node. -/
theorem exists_unrolls (hs : s.Rooted) (htidy : Tidy s.Reaches s) (hi : s.Reaches i) :
    ∃ r, s.Unrolls i r ∧ r.height ≤ s.size := by
  have hdown : ∀ k i ps, s.Reaches i → s.LeadsUp i ps → s.size ≤ ps.length + k →
      ∃ r, s.Unrolls i r ∧ r.height ≤ k := by
    intro k
    induction k with
    | zero =>
      intro i ps hi hps hk
      exact absurd hk (Nat.not_le.mpr (hps.length_lt hi.lt))
    | succ k ih =>
      intro i ps hi hps hk
      obtain ⟨e, he⟩ := get?_of_lt hi.lt
      have hg := htidy.plain i e he
      have hchildren : ∀ c ∈ e.shape.children, ∃ r, s.Unrolls c r ∧ r.height ≤ k := by
        intro c hc
        obtain ⟨hreach, hparent⟩ :=
          htidy.reaches_part hi he (Shape.mem_parts_of_mem_children hc)
        refine ih c (i :: ps) hreach (.up hparent hps) ?_
        rw [List.length_cons]
        omega
      obtain ⟨rs, hrs⟩ := exists_forall₂ hchildren
      have hlabels : rs.map Rose.label = e.shape.children := by
        simpa using map_eq_of_forall₂ (f := id) (hrs.imp fun _ _ h => h.1.label_eq)
      have hbelow : ∀ r ∈ rs, s.Unrolls r.label r ∧ r.height ≤ k := fun r hr => by
        obtain ⟨c, -, hc, hheight⟩ := exists_left_of_forall₂ hrs hr
        exact ⟨hc.label_eq.symm ▸ hc, hheight⟩
      refine ⟨.node i rs, .mk ?_ fun r hr => (hbelow r hr).1, ?_⟩
      · rw [children_of_plain he hg, ← hlabels, List.map_map]
        rfl
      · exact Rose.height_node_le_iff.mpr fun r hr => (hbelow r hr).2
  obtain ⟨ps, hps⟩ := hs i
  exact hdown s.size i ps hi hps (Nat.le_add_left _ _)

/-! ### Circles -/

/-- What is in reach stays so if no way is taken out. -/
theorem Reaches.of_subset (hsize : s.size ≤ t.size) (hroots : ∀ i ∈ s.roots, i ∈ t.roots)
    (hparts : ∀ j, ∀ i ∈ s.parts j, i ∈ t.parts j) (h : s.Reaches i) : t.Reaches i := by
  induction h with
  | held hi hm => exact .held (Nat.lt_of_lt_of_le hi hsize) (hroots _ hm)
  | owned _ hi hm ih => exact .owned ih (Nat.lt_of_lt_of_le hi hsize) (hparts _ _ hm)

/-- Putting a node into a directory takes no way to any node out. -/
theorem Reaches.of_addTo {field : ListField} (htidy : Tidy s.Reaches s)
    (ht : s.addTo d field c = .ok t) (h : s.Reaches i) : t.Reaches i := by
  obtain ⟨e, u, he, -, hu, ht⟩ := exists_of_addTo ht
  obtain ⟨parts, shape, hparts, hs, rfl⟩ :=
    exists_of_adopt_append he (htidy.plain d e he) hu ht
  have hu' : u.Reaches i := by
    rcases adopt_inv hu with ⟨-, rfl⟩ | ⟨-, rfl⟩
    · exact h
    · exact (reaches_setParent s _ c).mpr h
  have hshape : ∀ f, u.get? d = some f → f.shape = e.shape := by
    rcases adopt_inv hu with ⟨-, rfl⟩ | ⟨-, rfl⟩
    · intro f hf
      rw [Option.some.inj (he.symm.trans hf)]
    · intro f hf
      rw [setParent, get?_update, he] at hf
      split at hf <;> cases hf <;> rfl
  refine Reaches.of_subset (s := u) (Nat.le_of_eq (size_update ..).symm) (fun _ hm => hm)
    (fun j k hmem => ?_) hu'
  obtain ⟨f, hf, hk⟩ := mem_parts.mp hmem
  rw [mem_parts, get?_update]
  by_cases hj : d = j
  · subst hj
    refine ⟨_, by rw [if_pos rfl, hf]; rfl, ?_⟩
    rw [Entry.mem_owned, hshape f hf] at hk
    rw [Entry.mem_owned]
    rcases hk with hk | hk | ⟨v, hv, hk⟩ | hk
    · exact .inl ((perm_parts_of_append hparts hs).mem_iff.mpr (List.mem_cons_of_mem _ hk))
    · exact .inr (.inl hk)
    · exact .inr (.inr (.inl ⟨v, Shape.values_of_setList hs ▸ hv, hk⟩))
    · exact .inr (.inr (.inr hk))
  · exact ⟨f, by rw [if_neg hj, hf], hk⟩

/-- What is put into a directory below it comes to stand above itself. -/
theorem circle_of_addTo {field : ListField} (htidy : Tidy s.Reaches s) (hs : s.Rooted)
    (hd : s.Reaches d) (hc : s.Reaches c) (ht : s.addTo d field c = .ok t)
    (hbelow : c ∈ d :: s.ancestors d) : t.Reaches c ∧ ∀ qs, ¬ t.LeadsUp c qs := by
  have hreach : ∀ {j}, s.Reaches j → t.Reaches j := fun hj => hj.of_addTo htidy ht
  obtain ⟨ps, hps⟩ := hs d
  rw [hps.ancestors_eq] at hbelow
  obtain ⟨u, hu, hedits⟩ := addTo_inv ht
  refine ⟨hreach hc, fun qs hqs => ?_⟩
  rcases adopt_inv hu with ⟨hp, -⟩ | ⟨hfree, rfl⟩
  · -- a node in a directory does not stand above it
    exact (LeadsUp.up hp hps).not_mem hbelow
  · have hremembered : ∀ j, t.remembered j = if j = c then some d else s.remembered j := fun j => by
      rw [hedits.remembered_eq, remembered_setParent s _ hc.lt]
    have hparent : t.parent? c = some d := by
      refine parent?_eq_some_iff.mpr ⟨?_, hreach hd⟩
      exact (hremembered c).trans (if_pos rfl)
    have hkept : ∀ {j p}, s.parent? j = some p → t.parent? j = some p := by
      intro j p hp
      obtain ⟨hr, hreaches⟩ := parent?_eq_some_iff.mp hp
      refine parent?_eq_some_iff.mpr ⟨?_, hreach hreaches⟩
      refine (hremembered j).trans ((if_neg ?_).trans hr)
      rintro rfl
      cases hfree.symm.trans hp
    have hup := Relation.ReflTransGen.mono (fun _ _ => hkept) _ _ (hps.reflTransGen_of_mem hbelow)
    exact hqs.not_mem (hqs.mem_of_transGen (.head' hparent hup))

/-! ### Main statement -/

/-- Going up from a node ends, what is asked of the nodes above it is found, and so is every node
below it. -/
structure Ends (s : Store) (i : NodeId) : Prop where
  up : s.LeadsUp i (s.ancestors i)
  ancestor : ∀ kinds, ∃ found, s.ancestor? kinds i = .ok found
  tags : ∃ tags, s.appliedTags i = .ok tags
  walk : ∀ order : Rose.Order, ∃ ids, s.walk i (.text order.name.toList) = .ok ids

/-- In a store whose nodes all have roots every way up ends. -/
theorem Rooted.ends (hs : s.Rooted) (htidy : Tidy s.Reaches s) (hi : s.Reaches i) : s.Ends i := by
  obtain ⟨ps, hps⟩ := hs i
  obtain ⟨e, he⟩ := get?_of_lt hi.lt
  obtain ⟨r, hr, hheight⟩ := exists_unrolls hs htidy hi
  have hplain : ∀ j ∈ ps, ∃ e, s.get? j = some e ∧ e.given = [] := fun j hj => by
    obtain ⟨f, hf⟩ := get?_of_lt (hps.lt_size j hj)
    exact ⟨f, hf, htidy.plain j f hf⟩
  exact {
    up := hps.ancestors_eq ▸ hps
    ancestor := fun kinds => ⟨_, hps.ancestor?_eq he (htidy.plain i e he) hplain kinds⟩
    tags := ⟨_, hps.appliedTags_eq hplain⟩
    walk := fun order =>
      ⟨_, walk_of_unrolls he (htidy.plain i e he) hr (Nat.le_succ_of_le hheight) order⟩ }

/-- In every store that is reached without putting a node below itself, ways up from all nodes in
reach end and walks from them end. After any orderly operation they still do, exactly if it is not
one that puts a node below itself. -/
theorem ends_iff_keepsApart (hs : s.ReachedBy fun s op => op.KeepsRoots s) :
    (∀ i, s.Reaches i → s.Ends i)
      ∧ ∀ op : Operation, op.IsOrderly → op.Within s.Reaches →
        ((∀ i, (s.next op).Reaches i → (s.next op).Ends i)
          ↔ ∀ t, s.perform op = .ok t → op.KeepsApart s) := by
  have hends : ∀ {s : Store}, (s.ReachedBy fun s op => op.KeepsRoots s) →
      ∀ i, s.Reaches i → s.Ends i := fun hs i hi =>
    hs.rooted.ends (hs.reached fun _ _ h => h.orderly).tidy hi
  have htidy : Tidy s.Reaches s := (hs.reached fun _ _ h => h.orderly).tidy
  refine ⟨hends hs, fun op horderly hop => ⟨fun hall t ht => ?_, fun hbelow => ?_⟩⟩
  · rw [next_of_ok ht] at hall
    -- otherwise there would be a circle
    cases op with
    | addFeatureFile directory file =>
      obtain ⟨_, -, hadd⟩ := bind_ok ht
      intro hmem
      obtain ⟨hreach, hnone⟩ := circle_of_addTo htidy hs.rooted hop.1 hop.2 hadd hmem
      exact hnone _ (hall _ hreach).up
    | addDirectory directory inner =>
      obtain ⟨_, -, hadd⟩ := bind_ok ht
      intro hmem
      obtain ⟨hreach, hnone⟩ := circle_of_addTo htidy hs.rooted hop.1 hop.2 hadd hmem
      exact hnone _ (hall _ hreach).up
    | _ => exact trivial
  · exact hends (hs.step op ⟨horderly, hbelow⟩ hop)

/-- A directory with a file in it is reached by operations that keep roots. -/
theorem reachedBy_fileInDirectory :
    fileInDirectory.ReachedBy fun s op => op.KeepsRoots s := by
  have hempty : ReachedBy (fun s op => op.KeepsRoots s) ({} : Store) := .start _
  have hdirectory := hempty.step (.make (.directory (.text ['d'])) "directory")
    ⟨trivial, fun _ _ => trivial⟩ (Value.within_text _)
  have hfile := hdirectory.step (.make (.featureFile (.text ['f'])) "file")
    ⟨trivial, fun _ _ => trivial⟩ (Value.within_text _)
  refine hfile.step (.addFeatureFile 0 1) ⟨trivial, fun _ _ => ?_⟩
    ⟨.held (by decide) (by decide), .held (by decide) (by decide)⟩
  rw [Operation.KeepsApart, (LeadsUp.top (parent?_of_free (by rfl))).ancestors_eq]
  decide

/-- A directory can be put into itself. Before that all ways up end, and afterwards they do not. -/
theorem ends_iff_keepsApart_fileInDirectory :
    fileInDirectory.ReachedBy (fun s op => op.KeepsRoots s)
      ∧ (Operation.addDirectory 0 0).Within fileInDirectory.Reaches
      ∧ (∀ i, fileInDirectory.Reaches i → fileInDirectory.Ends i)
      ∧ ∃ t, fileInDirectory.perform (.addDirectory 0 0) = .ok t
        ∧ ¬ ∀ i, t.Reaches i → t.Ends i := by
  have hop : (Operation.addDirectory 0 0).Within fileInDirectory.Reaches :=
    ⟨.held (by decide) (by decide), .held (by decide) (by decide)⟩
  have htakes : fileInDirectory.TakesIn 0 "add_directory" .directories :=
    ⟨rfl, ⟨_, rfl, rfl⟩, ⟨_, rfl⟩⟩
  have hattempt : Operation.Attempts fileInDirectory 0 0 (.addDirectory 0 0) := ⟨rfl, rfl, htakes⟩
  obtain ⟨t, ht, -⟩ := perform_of_free hattempt (by decide) (parent?_of_free (by rfl))
  obtain ⟨hends, hnext⟩ := ends_iff_keepsApart reachedBy_fileInDirectory
  refine ⟨reachedBy_fileInDirectory, hop, hends, t, ht, fun hall => ?_⟩
  rw [← next_of_ok ht] at hall
  exact ((hnext (.addDirectory 0 0) trivial hop).mp hall t ht) List.mem_cons_self

end Store

end FeatureTree
