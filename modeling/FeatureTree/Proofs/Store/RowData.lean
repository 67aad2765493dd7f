import FeatureTree.Proofs.Lists
import FeatureTree.Proofs.Text.Trimming
import FeatureTree.Store.Rows

/-!
# What data for rows stands for

Data for a row is turned into the texts of cells. From a mapping a value is picked for each
parameter: the one of the last entry whose key has the parameter as its text, or an empty text. A
sequence has its values as they are. Then each value is written. Whether a key or a value can be
written, and as what, is asked of the store; so the texts of data are the same in two stores that
write what is in the data in the same way, and data without nodes has the same texts everywhere.

## Main results

* `Store.rowTexts_error_iff`: what keeps data from having texts
* `Store.rowTexts_congr`, `Store.written_eq_of_no_nodes`: what the texts of data depend on
* `Store.fits_of_rowTexts`: data that fits has a trimmed text for each parameter
-/

namespace FeatureTree

variable {p v : Value}

namespace RowData

/-- What entries have for a parameter where keys are written in some way: the value of the last one
whose key has the parameter as its text, or an empty text if there is none. -/
inductive Picks (write : Value → Except Fault Text) (entries : List (Value × Value)) :
    Value → Value → Prop where
  | last {before after : List (Value × Value)} {key v : Value} {t : Text}
    (split : entries = before ++ (key, v) :: after) (name : write key = .ok t)
    (later : ∀ e ∈ after, write e.1 ≠ .ok t) : Picks write entries (.text t) v
  | missing {p : Value} (absent : ∀ e ∈ entries, ∀ t, write e.1 = .ok t → p ≠ .text t) :
    Picks write entries p (.text [])

section

variable {write : Value → Except Fault Text} {entries : List (Value × Value)}
  {named : List (Text × Value)}

/-- For each parameter something is picked. -/
theorem exists_picks (write : Value → Except Fault Text) (entries : List (Value × Value))
    (p : Value) : ∃ v, Picks write entries p v := by
  induction entries with
  | nil => exact ⟨_, .missing (by simp)⟩
  | cons e entries ih =>
    obtain ⟨v, hv⟩ := ih
    cases hv with
    | @last before after key _ t split name later =>
      exact ⟨v, .last (split ▸ (List.cons_append ..).symm) name later⟩
    | missing absent =>
      by_cases hp : ∃ t, write e.1 = .ok t ∧ p = .text t
      · obtain ⟨t, ht, rfl⟩ := hp
        exact ⟨e.2, .last (List.nil_append _).symm ht fun e' he' heq => absent e' he' t heq rfl⟩
      · refine ⟨_, .missing (List.forall_mem_cons.mpr ⟨fun t ht heq => ?_, absent⟩)⟩
        exact hp ⟨t, ht, heq⟩

/-- What is picked is what is looked up, once the keys are texts, unless the parameter cannot be
looked up. -/
theorem Picks.valueFor (h : Picks write entries p v)
    (hnamed : List.Forall₂ (fun e n => write e.1 = .ok n.1 ∧ n.2 = e.2) entries named)
    (hp : p.isKey = true) : valueFor named p = .ok v := by
  have habsent : ∀ {es : List (Value × Value)} {ns : List (Text × Value)} {t : Text},
      List.Forall₂ (fun e n => write e.1 = .ok n.1 ∧ n.2 = e.2) es ns →
      (∀ e ∈ es, write e.1 ≠ .ok t) → ns.reverse.lookup t = none := by
    intro es ns t hns hnone
    refine lookup_eq_none_iff_not_mem.mpr fun hmem => ?_
    obtain ⟨n, hn, rfl⟩ := List.mem_map.mp hmem
    obtain ⟨e, he, hwrite, -⟩ := exists_left_of_forall₂ hns (List.mem_reverse.mp hn)
    exact hnone e he hwrite
  cases h with
  | @last before after key _ t split name later =>
    have hfrom := List.forall₂_drop before.length hnamed
    rw [split, List.drop_left] at hfrom
    obtain ⟨⟨t', w⟩, rest, ⟨hname, heq⟩, hrest, hdrop⟩ := List.forall₂_cons_left_iff.mp hfrom
    obtain rfl : w = v := heq
    obtain rfl : t' = t := Except.ok.inj (hname.symm.trans name)
    have hlookup : named.reverse.lookup t' = some w := by
      rw [← List.take_append_drop before.length named, hdrop, List.reverse_append,
        List.reverse_cons, List.append_assoc, List.lookup_append, habsent hrest later]
      simp
    simp only [RowData.valueFor, hlookup]
    rfl
  | missing absent =>
    cases p with
    | text t =>
      have hnone := habsent hnamed fun e he heq => absent e he t heq rfl
      simp only [RowData.valueFor, hnone]
      rfl
    | _ => first | rfl | cases hp

/-- What is looked up for a parameter is what is picked for it. -/
theorem picks_of_valueFor
    (hnamed : List.Forall₂ (fun e n => write e.1 = .ok n.1 ∧ n.2 = e.2) entries named)
    (h : valueFor named p = .ok v) : p.isKey = true ∧ Picks write entries p v := by
  have hp : p.isKey = true := by
    cases p with
    | list | table | node | kept => cases h
    | _ => rfl
  obtain ⟨w, hw⟩ := exists_picks write entries p
  obtain rfl := Except.ok.inj (h.symm.trans (hw.valueFor hnamed hp))
  exact ⟨hp, hw⟩

/-- Keys that have texts are names. -/
theorem exists_named (hkeys : ∀ e ∈ entries, ∃ t, write e.1 = .ok t) :
    ∃ named : List (Text × Value),
      List.Forall₂ (fun e n => write e.1 = .ok n.1 ∧ n.2 = e.2) entries named :=
  exists_forall₂ fun e he => (hkeys e he).imp' (·, e.2) fun _ ht => ⟨ht, rfl⟩

/-- No more than one thing is picked, if all keys have texts and the parameter can be looked up. -/
theorem Picks.unique {w : Value} (h : Picks write entries p v) (h' : Picks write entries p w)
    (hkeys : ∀ e ∈ entries, ∃ t, write e.1 = .ok t) (hp : p.isKey = true) : w = v := by
  obtain ⟨named, hnamed⟩ := exists_named hkeys
  exact Except.ok.inj ((h'.valueFor hnamed hp).symm.trans (h.valueFor hnamed hp))

end

/-- What data has in it: the keys of a mapping and their values, or the members of a sequence. -/
def contents : RowData → List Value
  | .mapping pairs => (entries pairs).flatMap fun e => [e.1, e.2]
  | .sequence items => items
  | .unsupported _ => []

/-- What is picked from a mapping is in it, or is an empty text. -/
theorem Picks.mem_contents {write : Value → Except Fault Text} {pairs : List (Value × Value)}
    (h : Picks write (entries pairs) p v) :
    v ∈ (RowData.mapping pairs).contents ∨ v = .text [] := by
  cases h with
  | @last before after key _ t split _ _ =>
    exact .inl (List.mem_flatMap.mpr ⟨(key, v), by simp [split], by simp⟩)
  | missing _ => exact .inr rfl

/-- Data gives a value for each of a number of parameters. -/
def Fits (k : Nat) : RowData → Prop
  | .mapping _ => True
  | .sequence items => items.length = k
  | .unsupported _ => False

end RowData

namespace Store

open RowData

variable {s t : Store} {i : NodeId} {data : RowData} {pairs : List (Value × Value)}
  {parameters items : List Value} {texts : List Text}

/-! ### Values and texts -/

/-- The entries of a mapping whose keys have texts, one by one with these texts. -/
theorem named_eq_ok_iff {entries : List (Value × Value)} {named : List (Text × Value)} :
    s.named entries = .ok named
      ↔ List.Forall₂ (fun e n => s.written e.1 = .ok n.1 ∧ n.2 = e.2) entries named := by
  have hentry : ∀ (e : Value × Value) (n : Text × Value),
      (do return (← s.written e.1, e.2) : Except Fault (Text × Value)) = .ok n
        ↔ s.written e.1 = .ok n.1 ∧ n.2 = e.2 := by
    rintro ⟨k, v⟩ ⟨t, w⟩
    cases hk : s.written k with
    | error _ => simp [bind, Except.bind]
    | ok u => simp [bind, Except.bind, pure, Except.pure, eq_comm]
  constructor
  · exact fun h => (forall₂_of_mapM h).imp fun e n hn => (hentry e n).mp hn
  · exact fun h => mapM_of_forall₂ (h.imp fun e n hn => (hentry e n).mpr hn)

/-- The values of a mapping for some parameters: all keys have texts, all parameters can be looked
up, and the values are what is picked for them. -/
theorem rowItems_mapping_iff (hparameters : s.parameters i = .ok (.list parameters)) :
    s.rowItems i (.mapping pairs) = .ok items
      ↔ (∀ e ∈ RowData.entries pairs, ∃ t, s.written e.1 = .ok t)
        ∧ (∀ p ∈ parameters, p.isKey = true)
        ∧ List.Forall₂ (Picks s.written (RowData.entries pairs)) parameters items := by
  have hrow : ∀ named, s.named (RowData.entries pairs) = .ok named →
      s.rowItems i (.mapping pairs) = parameters.mapM (RowData.valueFor named) := by
    intro named hnamed
    simp only [rowItems, hnamed, hparameters, Value.members, bind, Except.bind]
  constructor
  · intro h
    obtain ⟨named, hnamed, -⟩ := bind_ok h
    rw [hrow named hnamed] at h
    have hnamed := named_eq_ok_iff.mp hnamed
    have hpicked := (forall₂_of_mapM h).imp fun p v hv => picks_of_valueFor hnamed hv
    refine ⟨fun e he => ?_, fun p hp => ?_, hpicked.imp fun _ _ h => h.2⟩
    · obtain ⟨n, -, hn, -⟩ := exists_right_of_forall₂ hnamed he
      exact ⟨n.1, hn⟩
    · obtain ⟨v, -, hkey, -⟩ := exists_right_of_forall₂ hpicked hp
      exact hkey
  · rintro ⟨hkeys, hparameters, hpicked⟩
    obtain ⟨named, hnamed⟩ := exists_named hkeys
    rw [hrow named (named_eq_ok_iff.mpr hnamed)]
    exact mapM_of_forall₂ ((forall₂_with_mem hpicked).imp fun p v h =>
      h.2.valueFor hnamed (hparameters p h.1))

/-- A value has no text in a cell just if it cannot be written. -/
theorem cellText_error_iff :
    (∃ fault, s.cellText v = .error fault) ↔ ∃ fault, s.written v = .error fault := by
  rw [cellText]
  cases s.written v <;> simp [Functor.map, Except.map]

/-! ### Data without texts -/

/-- What keeps data from having texts for some parameters: it is neither a mapping nor a sequence,
something in it that would have to be written cannot be, or a parameter cannot be looked up. -/
inductive LacksTexts (s : Store) (parameters : List Value) : RowData → Prop where
  | shape (kindName : String) : LacksTexts s parameters (.unsupported kindName)
  | key {pairs : List (Value × Value)} {e : Value × Value} {fault : Fault}
    (mem : e ∈ RowData.entries pairs) (fails : s.written e.1 = .error fault) :
    LacksTexts s parameters (.mapping pairs)
  | parameter {pairs : List (Value × Value)} {p : Value} (mem : p ∈ parameters)
    (noKey : p.isKey = false) : LacksTexts s parameters (.mapping pairs)
  | value {pairs : List (Value × Value)} {p v : Value} {fault : Fault} (mem : p ∈ parameters)
    (picked : Picks s.written (RowData.entries pairs) p v) (fails : s.written v = .error fault) :
    LacksTexts s parameters (.mapping pairs)
  | item {items : List Value} {v : Value} {fault : Fault} (mem : v ∈ items)
    (fails : s.written v = .error fault) : LacksTexts s parameters (.sequence items)

/-- Values have no texts in cells just if one of them cannot be written. -/
theorem cellTexts_error_iff : (∃ fault, items.mapM s.cellText = .error fault)
    ↔ ∃ v ∈ items, ∃ fault, s.written v = .error fault := by
  constructor
  · rintro ⟨fault, h⟩
    obtain ⟨v, hv, hfault⟩ := exists_of_mapM_error h
    exact ⟨v, hv, cellText_error_iff.mp ⟨fault, hfault⟩⟩
  · rintro ⟨v, hv, hfault⟩
    cases h : items.mapM s.cellText with
    | error fault => exact ⟨fault, rfl⟩
    | ok texts =>
      obtain ⟨fault, hfault⟩ := cellText_error_iff.mpr hfault
      obtain ⟨t, -, ht⟩ := exists_right_of_forall₂ (forall₂_of_mapM h) hv
      cases ht.symm.trans hfault

/-- A mapping has values for the parameters just if all of its keys can be written and all
parameters can be looked up. -/
theorem exists_rowItems_mapping_iff (hparameters : s.parameters i = .ok (.list parameters)) :
    (∃ items, s.rowItems i (.mapping pairs) = .ok items)
      ↔ (∀ e ∈ RowData.entries pairs, ∃ t, s.written e.1 = .ok t)
        ∧ ∀ p ∈ parameters, p.isKey = true := by
  constructor
  · rintro ⟨items, hitems⟩
    obtain ⟨hkeys, hlooked, -⟩ := (rowItems_mapping_iff hparameters).mp hitems
    exact ⟨hkeys, hlooked⟩
  · rintro ⟨hkeys, hlooked⟩
    obtain ⟨items, hpicked⟩ := exists_forall₂ fun p (_ : p ∈ parameters) =>
      exists_picks s.written (RowData.entries pairs) p
    exact ⟨items, (rowItems_mapping_iff hparameters).mpr ⟨hkeys, hlooked, hpicked⟩⟩

/-- A mapping has no texts just if one of these things keeps it from having them. -/
theorem rowTexts_mapping_error_iff (hparameters : s.parameters i = .ok (.list parameters)) :
    (∃ fault, s.rowTexts i (.mapping pairs) = .error fault)
      ↔ s.LacksTexts parameters (.mapping pairs) := by
  cases hrow : s.rowItems i (.mapping pairs) with
  | ok items =>
    -- there are values, so what is missing is a text of one of them
    obtain ⟨hkeys, hlooked, hpicked⟩ := (rowItems_mapping_iff hparameters).mp hrow
    have htexts : s.rowTexts i (.mapping pairs) = items.mapM s.cellText := by
      rw [rowTexts, hrow]
      rfl
    rw [htexts, cellTexts_error_iff]
    constructor
    · rintro ⟨v, hv, fault, hfault⟩
      obtain ⟨p, hp, hpick⟩ := exists_left_of_forall₂ hpicked hv
      exact .value hp hpick hfault
    · intro h
      cases h with
      | @key _ e fault mem fails =>
        obtain ⟨t, ht⟩ := hkeys e mem
        cases ht.symm.trans fails
      | @parameter _ p mem noKey =>
        rw [hlooked p mem] at noKey
        cases noKey
      | @value _ p v fault mem picked fails =>
        obtain ⟨w, hw, hpick⟩ := exists_right_of_forall₂ hpicked mem
        obtain rfl := picked.unique hpick hkeys (hlooked p mem)
        exact ⟨w, hw, fault, fails⟩
  | error fault =>
    refine iff_of_true ⟨fault, by rw [rowTexts, hrow]; rfl⟩ ?_
    by_contra hnot
    have hkeys : ∀ e ∈ RowData.entries pairs, ∃ t, s.written e.1 = .ok t := fun e he => by
      cases hw : s.written e.1 with
      | ok t => exact ⟨t, rfl⟩
      | error fault => exact absurd (.key he hw) hnot
    have hlooked : ∀ p ∈ parameters, p.isKey = true := fun p hp => by
      by_contra hkey
      exact hnot (.parameter hp (by simpa using hkey))
    obtain ⟨items, hitems⟩ := (exists_rowItems_mapping_iff hparameters).mpr ⟨hkeys, hlooked⟩
    cases hrow.symm.trans hitems

/-- Data has no texts just if one of these things keeps it from having them. -/
theorem rowTexts_error_iff (hparameters : s.parameters i = .ok (.list parameters)) :
    (∃ fault, s.rowTexts i data = .error fault) ↔ s.LacksTexts parameters data := by
  cases data with
  | unsupported kindName => exact iff_of_true ⟨_, rfl⟩ (.shape kindName)
  | mapping pairs => exact rowTexts_mapping_error_iff hparameters
  | sequence items =>
    have htexts : s.rowTexts i (.sequence items) = items.mapM s.cellText := rfl
    rw [htexts, cellTexts_error_iff]
    constructor
    · rintro ⟨v, hv, fault, hfault⟩
      exact .item hv hfault
    · intro h
      cases h with
      | @item _ v fault mem fails => exact ⟨v, mem, fault, fails⟩

/-- A value with a text of its own is written as that in every store. -/
theorem written_of_hasOwnText (h : v.HasOwnText) (s : Store) : s.written v = .ok v.asText := by
  rw [written, Showing.written, h.writtenBy]

/-- A text is written as itself in every store. -/
@[simp] theorem written_text (s : Store) (t : Text) : s.written (.text t) = .ok t :=
  written_of_hasOwnText (Value.hasOwnText_text t) s

/-- If nothing is in the data but values with texts of their own, and all parameters can be looked
up, data lacks texts just if it is neither a mapping nor a sequence. -/
theorem lacksTexts_iff_of_hasOwnText (hkeys : ∀ p ∈ parameters, p.isKey = true)
    (hdata : ∀ v ∈ data.contents, v.HasOwnText) :
    s.LacksTexts parameters data ↔ ∃ kindName, data = .unsupported kindName := by
  have hfails : ∀ {v : Value} {fault : Fault}, s.written v = .error fault →
      v ∈ data.contents ∨ v = .text [] → False := by
    intro v fault hfault hv
    have hown : v.HasOwnText := hv.elim (hdata v) fun h => h ▸ Value.hasOwnText_text []
    rw [written_of_hasOwnText hown] at hfault
    cases hfault
  constructor
  · intro h
    cases h with
    | shape kindName => exact ⟨kindName, rfl⟩
    | @key _ e _ mem fails =>
      exact (hfails fails (.inl (List.mem_flatMap.mpr ⟨e, mem, by simp⟩))).elim
    | parameter mem noKey => exact absurd (hkeys _ mem) (by simp [noKey])
    | value _ picked fails => exact (hfails fails picked.mem_contents).elim
    | item mem fails => exact (hfails fails (.inl mem)).elim
  · rintro ⟨kindName, rfl⟩
    exact .shape kindName

/-! ### What the texts of data depend on -/

/-- The values that are picked for a row are in the data, or empty texts. -/
theorem mem_contents_of_rowItems (hparameters : s.parameters i = .ok (.list parameters))
    (h : s.rowItems i data = .ok items) : ∀ v ∈ items, v ∈ data.contents ∨ v = .text [] := by
  intro v hv
  cases data with
  | mapping pairs =>
    obtain ⟨-, -, hpicked⟩ := (rowItems_mapping_iff hparameters).mp h
    obtain ⟨p, -, hp⟩ := exists_left_of_forall₂ hpicked hv
    exact hp.mem_contents
  | sequence _ =>
    obtain rfl := Except.ok.inj h
    exact .inl hv
  | unsupported _ => cases h

/-- Two stores that have the same parameters and write what is in the data in the same way turn the
data into the same texts, or fail in the same way. -/
theorem rowTexts_congr (hs : s.parameters i = .ok (.list parameters))
    (ht : t.parameters i = .ok (.list parameters))
    (hwritten : ∀ v ∈ data.contents, t.written v = s.written v) :
    t.rowTexts i data = s.rowTexts i data := by
  have hitems : t.rowItems i data = s.rowItems i data := by
    cases data with
    | mapping pairs =>
      have hnamed : t.named (RowData.entries pairs) = s.named (RowData.entries pairs) :=
        mapM_congr fun e he => by
          simp only [hwritten e.1 (List.mem_flatMap.mpr ⟨e, he, by simp⟩)]
      simp only [rowItems, hnamed, hs, ht]
    | _ => rfl
  rw [rowTexts, rowTexts, hitems]
  cases h : s.rowItems i data with
  | error _ => simp only [bind, Except.bind]
  | ok items =>
    simp only [bind, Except.bind]
    refine mapM_congr fun v hv => ?_
    rcases mem_contents_of_rowItems hs h v hv with hmem | rfl
    · rw [cellText, cellText, hwritten v hmem]
    · rw [cellText_text, cellText_text]

/-- A value without nodes is written in the same way in all stores. -/
theorem written_eq_of_no_nodes (h : v.nodes = []) (s t : Store) : t.written v = s.written v := by
  rw [written, written, Showing.written, Showing.written]
  exact Value.writtenBy_congr (by simp [h]) (by simp [h]) []

/-! ### Texts for a row -/

/-- Texts in cells have no blanks at their ends. -/
theorem trimmed_of_cellText {t : Text} (h : s.cellText v = .ok t) : t.Trimmed := by
  cases hw : s.written v with
  | error _ =>
    rw [cellText, hw] at h
    cases h
  | ok u =>
    rw [cellText, hw] at h
    obtain rfl := Except.ok.inj h
    exact Text.trimmed_trim u

/-- Data that fits stands for as many trimmed texts as there are parameters, if it has texts. -/
theorem fits_of_rowTexts (hparameters : s.parameters i = .ok (.list parameters))
    (hfits : data.Fits parameters.length) (htexts : s.rowTexts i data = .ok texts) :
    texts.length = parameters.length ∧ ∀ t ∈ texts, t.Trimmed := by
  obtain ⟨items, hitems, htexts⟩ := bind_ok htexts
  have hcells := forall₂_of_mapM htexts
  refine ⟨hcells.length_eq.symm.trans ?_, fun t ht => ?_⟩
  · cases data with
    | mapping pairs =>
      exact ((rowItems_mapping_iff hparameters).mp hitems).2.2.length_eq.symm
    | sequence _ =>
      obtain rfl := Except.ok.inj hitems
      exact hfits
    | unsupported _ => exact hfits.elim
  · obtain ⟨v, -, hv⟩ := exists_left_of_forall₂ hcells ht
    exact trimmed_of_cellText hv

/-- Data that can be added has texts. -/
theorem exists_rowTexts_of_addRow {row : NodeId} (h : s.addRow i data = .ok (row, t)) :
    ∃ texts, s.rowTexts i data = .ok texts := by
  obtain ⟨-, -, h⟩ := bind_ok h
  obtain ⟨rows, -, h⟩ := bind_ok h
  split at h
  · obtain ⟨_, -, h⟩ := bind_ok h
    obtain ⟨_, -, h⟩ := bind_ok h
    cases h
  · obtain ⟨texts, htexts, -⟩ := bind_ok h
    exact ⟨texts, htexts⟩

/-- Data that stands for the same texts adds the same row. -/
theorem addRow_congr {data' : RowData} (h : s.rowTexts i data = s.rowTexts i data') :
    s.addRow i data = s.addRow i data' := by
  simp only [addRow, h]

/-- Data that stands for the same texts removes the same row. -/
theorem removeRow_congr {data' : RowData} (h : s.rowTexts i data = s.rowTexts i data') :
    s.removeRow i data = s.removeRow i data' := by
  simp only [removeRow, h]

end Store

end FeatureTree
