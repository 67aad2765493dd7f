import FeatureTree.Proofs.Store.RowLists

/-!
# Rows by name and rows by position

A row can be given by a mapping from parameters to values, or by the values in the order of the
parameters. A mapping comes down to the sequence of the values that it picks for the parameters. So
it does not matter which other entries there are, nor in which order the entries stand if no two of
their keys have the same text.

## Main results

* `RowData.Picks.of_perm`, `RowData.SameNamed.picks`: what the choice depends on
* `Store.rows_by_name`: adding and removing rows by a mapping and by a sequence
-/

namespace FeatureTree

namespace RowData

variable {write : Value → Except Fault Text} {entries entries' : List (Value × Value)}
  {parameters items : List Value} {p v : Value}

/-! ### What the choice depends on -/

/-- Whether the key of an entry has one of some parameters as its text. -/
def names (write : Value → Except Fault Text) (parameters : List Value) (entry : Value × Value) :
    Bool :=
  match write entry.1 with
  | .ok t => parameters.any fun p => p.text? == some t
  | .error _ => false

/-- An entry names a parameter if the parameter is the text of its key. -/
theorem names_iff {entry : Value × Value} :
    names write parameters entry = true ↔ ∃ t, write entry.1 = .ok t ∧ .text t ∈ parameters := by
  have htext : ∀ (p : Value) (t : Text), p.text? = some t ↔ p = .text t := by
    intro p t
    cases p <;> simp [Value.text?]
  rw [names]
  cases write entry.1 <;> simp [htext]

/-- If no two keys have the same text, the order of the entries does not matter. -/
theorem Picks.of_perm (h : Picks write entries p v) (hperm : entries'.Perm entries)
    (hnodup : (entries.map (write ·.1)).Nodup) : Picks write entries' p v := by
  cases h with
  | @last before after key _ t split name later =>
    obtain ⟨before', after', rfl⟩ := List.append_of_mem
      (hperm.mem_iff.mpr (split ▸ List.mem_append_right before List.mem_cons_self))
    refine .last rfl name fun e he heq => ?_
    have hnodup' := (hperm.map (write ·.1)).nodup_iff.mpr hnodup
    rw [List.map_append, List.map_cons, List.nodup_append] at hnodup'
    exact (List.nodup_cons.mp hnodup'.2.1).1 (name ▸ heq ▸ List.mem_map_of_mem he)
  | missing absent => exact .missing fun e he => absent e (hperm.mem_iff.mp he)

/-- Entries whose keys are no parameters do not matter. -/
theorem picks_filter_names_iff (hp : p ∈ parameters) :
    Picks write (entries.filter (names write parameters)) p v ↔ Picks write entries p v := by
  have hnamed : ∀ {e : Value × Value} {t : Text}, write e.1 = .ok t → p = .text t →
      names write parameters e = true := fun ht heq => names_iff.mpr ⟨_, ht, heq ▸ hp⟩
  constructor
  · intro h
    cases h with
    | @last before after key _ t split name later =>
      obtain ⟨front, rest, rfl, -, hrest⟩ := List.filter_eq_append_iff.mp split
      obtain ⟨skipped, rest, rfl, -, hkey, rfl⟩ := List.filter_eq_cons_iff.mp hrest
      refine .last (List.append_assoc front skipped _).symm name fun e he heq => ?_
      exact later e (List.mem_filter.mpr ⟨he, hnamed heq rfl⟩) heq
    | missing absent =>
      exact .missing fun e he t ht heq =>
        absent e (List.mem_filter.mpr ⟨he, hnamed ht heq⟩) t ht heq
  · intro h
    cases h with
    | @last before after key _ t split name later =>
      subst split
      rw [List.filter_append, List.filter_cons_of_pos (hnamed name rfl)]
      exact .last rfl name fun e he => later e (List.mem_of_mem_filter he)
    | missing absent => exact .missing fun e he => absent e (List.mem_of_mem_filter he)

/-- Two mappings give the same to some parameters: the entries for these are the same, or the same
in another order where no two keys have the same text. -/
def SameNamed (write : Value → Except Fault Text) (parameters : List Value)
    (entries entries' : List (Value × Value)) : Prop :=
  entries'.filter (names write parameters) = entries.filter (names write parameters)
    ∨ ((entries'.filter (names write parameters)).Perm (entries.filter (names write parameters))
      ∧ ((entries.filter (names write parameters)).map (write ·.1)).Nodup)

/-- Mappings that give the same to parameters pick the same for them. -/
theorem SameNamed.picks (h : SameNamed write parameters entries entries') (hp : p ∈ parameters)
    (hv : Picks write entries p v) : Picks write entries' p v := by
  rw [← picks_filter_names_iff hp] at hv ⊢
  rcases h with heq | ⟨hperm, hnodup⟩
  · rwa [heq]
  · exact hv.of_perm hperm hnodup

end RowData

namespace Store

open RowData

variable {s t : Store} {i : NodeId} {data data' : RowData} {texts : List Text}
  {first : NodeId × List Value} {rows : List (NodeId × List Value)}

/-- A mapping whose keys have texts stands for the same as the sequence of what it picks for the
parameters. -/
theorem ListsRows.rowTexts_mapping {pairs : List (Value × Value)} {items : List Value}
    (h : s.ListsRows i (first :: rows)) (hkeys : ∀ p ∈ first.2, p.isKey = true)
    (hnames : ∀ e ∈ RowData.entries pairs, ∃ t, s.written e.1 = .ok t)
    (hitems : List.Forall₂ (Picks s.written (RowData.entries pairs)) first.2 items) :
    s.rowTexts i (.mapping pairs) = s.rowTexts i (.sequence items) := by
  have hrow : s.rowItems i (.mapping pairs) = .ok items :=
    (rowItems_mapping_iff h.parameters).mpr ⟨hnames, hkeys, hitems⟩
  rw [rowTexts, hrow]
  rfl

/-- For examples with a row of parameters, each of which can be looked up, and any mapping whose
keys have texts: it picks a value for each parameter, and adding or removing by the mapping is
adding or removing by the sequence of these values. What is added is one new row with the texts of
these values, one for each parameter; what is removed is the first row of arguments that holds these
texts, if there is one; nothing but the examples is another in either case. If a value has no text,
both fail in the same way. Every mapping that has the same entries for the parameters does the same,
and if no two keys of those entries have the same text, so does every one that has them in another
order. -/
theorem rows_by_name (h : s.ListsRows i (first :: rows)) (hkeys : ∀ p ∈ first.2, p.isKey = true)
    (pairs : List (Value × Value))
    (hnames : ∀ e ∈ RowData.entries pairs, ∃ t, s.written e.1 = .ok t) :
    ∃ items, List.Forall₂ (Picks s.written (RowData.entries pairs)) first.2 items
      ∧ s.addRow i (.mapping pairs) = s.addRow i (.sequence items)
      ∧ s.removeRow i (.mapping pairs) = s.removeRow i (.sequence items)
      ∧ (∀ texts, items.mapM s.cellText = .ok texts →
        texts.length = first.2.length
        ∧ (∃ row t, s.addRow i (.mapping pairs) = .ok (row, t) ∧ s.size ≤ row
          ∧ t.ListsRows i (first :: rows ++ [(row, texts.map .text)])
          ∧ SameBut i s t)
        ∧ (∃ t, s.removeRow i (.mapping pairs) = .ok t ∧ SameBut i s t
          ∧ (((∀ r ∈ rows, r.2 ≠ texts.map .text) ∧ t = s)
            ∨ ∃ before row after, rows = before ++ row :: after
              ∧ (∀ r ∈ before, r.2 ≠ texts.map .text)
              ∧ row.2 = texts.map .text
              ∧ t.ListsRows i (first :: (before ++ after)))))
      ∧ (∀ fault, items.mapM s.cellText = .error fault →
        s.addRow i (.mapping pairs) = .error fault ∧ s.removeRow i (.mapping pairs) = .error fault)
      ∧ ∀ pairs', (∀ e ∈ RowData.entries pairs', ∃ t, s.written e.1 = .ok t) →
        SameNamed s.written first.2 (RowData.entries pairs) (RowData.entries pairs') →
        s.addRow i (.mapping pairs') = s.addRow i (.mapping pairs)
          ∧ s.removeRow i (.mapping pairs') = s.removeRow i (.mapping pairs) := by
  obtain ⟨items, hitems⟩ :=
    exists_forall₂ fun p (_ : p ∈ first.2) => exists_picks s.written (RowData.entries pairs) p
  have hsequence := h.rowTexts_mapping hkeys hnames hitems
  refine ⟨items, hitems, addRow_congr hsequence, removeRow_congr hsequence, fun texts hcells => ?_,
    fun fault hcells => ?_, fun pairs' hnames' hsame => ?_⟩
  · have htexts : s.rowTexts i (.mapping pairs) = .ok texts := hsequence.trans hcells
    refine ⟨(forall₂_of_mapM hcells).length_eq.symm.trans hitems.length_eq.symm, ?_, ?_⟩
    · obtain ⟨row, t, hadd, hle, hlists, -, -, -, hbut⟩ := h.exists_addRow htexts
      exact ⟨row, t, hadd, hle, hlists, hbut⟩
    · rcases h.exists_removeRow htexts with
        ⟨habsent, hremove⟩
          | ⟨before, row, after, shape, hsplit, habsent, hholds, hremove, hlists, hbut⟩
      · exact ⟨s, hremove, .refl i s, .inl ⟨habsent, rfl⟩⟩
      · exact ⟨_, hremove, hbut, .inr ⟨before, row, after, hsplit, habsent, hholds, hlists⟩⟩
  · have hfault : s.rowTexts i (.mapping pairs) = .error fault := hsequence.trans hcells
    exact ⟨h.addRow_of_error hfault, h.removeRow_of_error hfault⟩
  · have hitems' : List.Forall₂ (Picks s.written (RowData.entries pairs')) first.2 items :=
      (forall₂_with_mem hitems).imp fun p v ⟨hp, hv⟩ => hsame.picks hp hv
    have hsequence' := h.rowTexts_mapping hkeys hnames' hitems'
    exact ⟨addRow_congr (hsequence'.trans hsequence.symm),
      removeRow_congr (hsequence'.trans hsequence.symm)⟩

/-- A row for the parameter `n` and something that is no parameter, in either order. -/
theorem rows_by_name_oneArgument : ∃ row t,
    oneArgument.addRow 4 (.mapping [(.text ['n'], .int 2), (.text ['m'], .null)]) = .ok (row, t)
      ∧ oneArgument.addRow 4 (.sequence [.int 2]) = .ok (row, t)
      ∧ oneArgument.addRow 4 (.mapping [(.text ['m'], .null), (.text ['n'], .int 2)])
        = .ok (row, t) := by
  have hnames : ∀ pairs ∈ [[(Value.text ['n'], Value.int 2), (.text ['m'], .null)],
      [(.text ['m'], .null), (.text ['n'], .int 2)]],
      ∀ e ∈ RowData.entries pairs, ∃ t, oneArgument.written e.1 = .ok t := by
    simp only [List.forall_mem_cons, RowData.entries, List.foldl_cons, List.foldl_nil, RowData.put,
      Value.sameKey]
    simp
  obtain ⟨items, hitems, hsequence, -, hadds, -, hsame⟩ :=
    rows_by_name hasRows_oneArgument.toListsRows (by simp [Value.isKey])
      [(.text ['n'], .int 2), (.text ['m'], .null)] (hnames _ (by simp))
  obtain ⟨v, rest, hv, hrest, rfl⟩ := List.forall₂_cons_left_iff.mp hitems
  obtain rfl := List.forall₂_nil_left_iff.mp hrest
  obtain rfl : Value.int 2 = v := by
    have hlast : Picks oneArgument.written [(.text ['n'], .int 2), (.text ['m'], .null)]
        (.text ['n']) (.int 2) := .last (List.nil_append _).symm (written_text ..) (by simp)
    exact hv.unique hlast (hnames _ (by simp)) rfl
  obtain ⟨-, ⟨row, t, hadd, -⟩, -⟩ := hadds [['2']] rfl
  exact ⟨row, t, hadd, hsequence ▸ hadd, (hsame _ (hnames _ (by simp)) (.inl rfl)).1.trans hadd⟩

end Store

end FeatureTree
