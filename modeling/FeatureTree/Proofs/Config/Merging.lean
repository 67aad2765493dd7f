import FeatureTree.Config.Settings
import FeatureTree.Proofs.Lists

/-!
# The laws of merging

A configuration is a tree: names lead from a table to what is in it, and a path of names leads
further down through tables. Where no table has a name twice, a configuration is known by its names
and by what is under each of them. Merging works name by name, so its laws come down to what is
under one name, and hold further down by induction on the tables.

Merging three configurations comes to the same in either order, except where tables of the outer
two stand around something else in the middle one: taken first, that replaces the first table as a
whole.

## Main results

* `Config.fields_ext`: fields are known by their names and by what is under each
* `Config.at?_merge`: what a merged configuration holds at a path
* `Config.merge_merge_self`: merging the same a second time changes nothing
* `Config.merge_assoc`, `Config.mergeable_of_merge_assoc`: when merging is associative
-/

namespace FeatureTree

namespace Value

/-- Whether a value is a table. -/
def isTable : Value → Bool
  | .table _ => true
  | _ => false

/-- In no table does a name stand twice, however deep the tables stand in one another. What is
inside a list does not matter. -/
inductive NamesOnce : Value → Prop where
  | table {fields : List (String × Value)} (names : (fields.map Prod.fst).Nodup)
      (values : ∀ f ∈ fields, NamesOnce f.2) : NamesOnce (.table fields)
  | other {v : Value} (h : v.isTable = false) : NamesOnce v

/-- What names lead to, one after the other, through tables. -/
def at? : List String → Value → Option Value
  | [], v => some v
  | name :: path, .table fields => (lookup name fields).bind (at? path)
  | _ :: _, _ => none

variable {v w : Value} {name : String} {path : List String} {fields : List (String × Value)}

/-- An empty path leads to the value itself. -/
@[simp] theorem at?_nil (v : Value) : at? [] v = some v := by
  cases v <;> rfl

/-- A path into a table goes on from the value under its first name. -/
@[simp] theorem at?_cons_table (name : String) (path : List String)
    (fields : List (String × Value)) :
    at? (name :: path) (.table fields) = (lookup name fields).bind (at? path) := rfl

/-- No path goes on from what is no table. -/
theorem at?_cons_of_not_table (h : v.isTable = false) (name : String) (path : List String) :
    at? (name :: path) v = none := by
  cases v <;> first
    | rfl
    | cases h

/-- A table has fields. -/
theorem exists_of_isTable (h : v.isTable = true) : ∃ fields, v = .table fields := by
  cases v <;> first
    | exact ⟨_, rfl⟩
    | cases h

/-- In a table with each name once no name is repeated. -/
theorem NamesOnce.names (h : NamesOnce (.table fields)) : (fields.map Prod.fst).Nodup := by
  cases h with
  | table names _ => exact names
  | other h => cases h

/-- The values of a table with each name once have each name once. -/
theorem NamesOnce.values (h : NamesOnce (.table fields)) : ∀ f ∈ fields, NamesOnce f.2 := by
  cases h with
  | table _ values => exact values
  | other h => cases h

/-- What is under a name of a table has each name once too. -/
theorem NamesOnce.of_lookup (h : NamesOnce (.table fields)) (hv : lookup name fields = some v) :
    NamesOnce v :=
  h.values _ (mem_of_lookup_eq_some hv)

/-- What holds of each table whose inner tables it holds of holds of all tables in which no name
stands twice. -/
theorem NamesOnce.tables {motive : List (String × Value) → Prop}
    (step : ∀ fields, NamesOnce (.table fields) →
      (∀ name others, lookup name fields = some (.table others) → motive others) → motive fields)
    (h : NamesOnce (.table fields)) : motive fields := by
  generalize hv : Value.table fields = v at h
  induction h generalizing fields with
  | other h =>
    rw [← hv] at h
    cases h
  | table names values ih =>
    cases hv
    exact step _ (.table names values) fun name others hmem =>
      ih _ (mem_of_lookup_eq_some hmem) rfl

/-- Whether no path leads to a table in one value and to something else in the other. -/
def SameShape (v w : Value) : Prop :=
  ∀ path a b, at? path v = some a → at? path w = some b → a.isTable = b.isTable

end Value

namespace Config

open Value (lookup put at? at?_nil at?_cons_table at?_cons_of_not_table NamesOnce SameShape isTable)

variable {base override third : Fields} {name : String} {path : List String} {v w : Value}

/-! ### Under one name -/

/-- Putting a value under a name adds the name at the end, unless it is there. -/
theorem map_fst_put {α : Type} (key : String) (v : α) (fields : List (String × α)) :
    (put key v fields).map Prod.fst
      = if key ∈ fields.map Prod.fst then fields.map Prod.fst
        else fields.map Prod.fst ++ [key] := by
  induction fields with
  | nil => rfl
  | cons f fields ih =>
    obtain ⟨k, u⟩ := f
    by_cases hk : k = key
    · simp [put, hk]
    · have hk' : key ≠ k := fun e => hk e.symm
      simp only [put, if_neg hk, List.map_cons, ih, List.mem_cons, hk', false_or]
      split <;> simp

/-- The names of a merged configuration: those that were there, then those that are new. -/
theorem map_fst_merge (base : Fields) (names : (override.map Prod.fst).Nodup) :
    (merge base override).map Prod.fst
      = base.map Prod.fst ++ (override.map Prod.fst).filter (· ∉ base.map Prod.fst) := by
  unfold merge
  induction override generalizing base with
  | nil => simp [mergeFields]
  | cons f override ih =>
    obtain ⟨key, v⟩ := f
    rw [List.map_cons, List.nodup_cons] at names
    rw [mergeFields, ih _ names.2, map_fst_put]
    split
    · next hkey => rw [List.map_cons, List.filter_cons_of_neg (by simpa using hkey)]
    · next hkey =>
      -- The name that is put at the end is not among the ones that are still to come.
      have hrest : ∀ other ∈ override.map Prod.fst, other ≠ key :=
        fun other hother e => names.1 (e ▸ hother)
      rw [List.map_cons, List.filter_cons_of_pos (by simpa using hkey), List.append_assoc,
        List.singleton_append]
      congr 2
      refine List.filter_congr fun other hother => ?_
      simp [hrest other hother]

/-- What is under a name after merging is known from what is under it before. -/
theorem lookup_merge_eq (name : String) (base : Fields) (names : (override.map Prod.fst).Nodup) :
    lookup name (merge base override)
      = ((lookup name override).map (mergeValue (lookup name base))).or (lookup name base) := by
  rw [lookup_merge name base override names]
  cases lookup name override <;> rfl

/-- Fields whose names differ are known by these names and by what is under each. -/
theorem fields_ext {fields others : List (String × Value)} (nodup : (fields.map Prod.fst).Nodup)
    (names : fields.map Prod.fst = others.map Prod.fst)
    (values : ∀ name, lookup name fields = lookup name others) : fields = others := by
  induction fields generalizing others with
  | nil => exact (List.map_eq_nil_iff.mp names.symm).symm
  | cons f fields ih =>
    obtain ⟨key, v⟩ := f
    cases others with
    | nil => cases names
    | cons g others =>
      obtain ⟨other, w⟩ := g
      obtain ⟨rfl, hnames⟩ : key = other ∧ fields.map Prod.fst = others.map Prod.fst := by
        simpa using names
      have hv : v = w := by simpa [lookup] using values key
      rw [List.map_cons, List.nodup_cons] at nodup
      subst hv
      congr 1
      refine ih nodup.2 hnames fun name => ?_
      by_cases hname : name = key
      · rw [hname, lookup, lookup, lookup_eq_none_iff_not_mem.mpr nodup.1,
          lookup_eq_none_iff_not_mem.mpr (hnames ▸ nodup.1)]
      · simpa [lookup, List.lookup_cons, beq_eq_false_iff_ne.mpr hname] using values name

/-- Of two tables the fields are merged. -/
@[simp] theorem mergeValue_table (fields others : Fields) :
    mergeValue (some (.table fields)) (.table others) = .table (merge fields others) := by
  rw [mergeValue, merge]

/-- What is no table replaces what was there. -/
theorem mergeValue_of_not_table (h : v.isTable = false) (before : Option Value) :
    mergeValue before v = v := by
  cases v with
  | table => cases h
  | _ => simp [mergeValue]

/-- A value replaces what was there, unless that is a table. -/
theorem mergeValue_over_other {before : Option Value} (h : ∀ fields, before ≠ some (.table fields))
    (v : Value) : mergeValue before v = v := by
  cases ht : v.isTable with
  | false => exact mergeValue_of_not_table ht before
  | true =>
    obtain ⟨others, rfl⟩ := Value.exists_of_isTable ht
    rw [mergeValue]
    exact h

/-- Either two tables are merged, or what is set over the other replaces it. -/
theorem mergeValue_cases (before : Option Value) (v : Value) :
    (∃ fields others, before = some (.table fields) ∧ v = .table others
      ∧ mergeValue before v = .table (merge fields others))
    ∨ mergeValue before v = v ∧ (v.isTable = true → ∀ fields, before ≠ some (.table fields)) := by
  by_cases h : ∀ fields, before ≠ some (.table fields)
  · exact .inr ⟨mergeValue_over_other h v, fun _ => h⟩
  · push Not at h
    obtain ⟨fields, rfl⟩ := h
    cases ht : v.isTable with
    | false => exact .inr ⟨mergeValue_of_not_table ht _, by simp⟩
    | true =>
      obtain ⟨others, rfl⟩ := Value.exists_of_isTable ht
      exact .inl ⟨fields, others, rfl, rfl, mergeValue_table fields others⟩

/-- A value that is new is taken as it is. -/
@[simp] theorem mergeValue_none (v : Value) : mergeValue none v = v :=
  mergeValue_over_other (by simp) v

/-! ### Nothing merged, and merging over nothing -/

/-- Merging nothing changes nothing. -/
@[simp] theorem merge_nil (base : Fields) : merge base [] = base := by
  rw [merge, mergeFields]

/-- Merging into nothing gives what is merged. -/
theorem nil_merge (names : (override.map Prod.fst).Nodup) : merge [] override = override := by
  have hnames : (merge [] override).map Prod.fst = override.map Prod.fst := by
    simp [map_fst_merge [] names]
  refine fields_ext (hnames ▸ names) hnames fun name => ?_
  rw [lookup_merge_eq name [] names]
  cases lookup name override <;> simp [lookup]

/-- Merging keeps each name once. -/
theorem nodup_merge (hbase : (base.map Prod.fst).Nodup) (names : (override.map Prod.fst).Nodup) :
    ((merge base override).map Prod.fst).Nodup := by
  rw [map_fst_merge base names, List.nodup_append]
  refine ⟨hbase, names.filter _, ?_⟩
  rintro a ha _ hb rfl
  simp [ha] at hb

/-- Where each name stands once in both of two configurations, it stands once in what they make. -/
theorem namesOnce_merge (hbase : NamesOnce (.table base)) (h : NamesOnce (.table override)) :
    NamesOnce (.table (merge base override)) := by
  refine h.tables (motive := fun override => ∀ base, NamesOnce (.table base) →
    NamesOnce (.table (merge base override))) (fun override h ih base hbase => ?_) base hbase
  have nodup := nodup_merge hbase.names h.names
  refine .table nodup ?_
  rintro ⟨name, u⟩ hmem
  have hu := (lookup_eq_some_iff nodup).mpr hmem
  rw [← Value.lookup, lookup_merge_eq name base h.names] at hu
  cases ho : lookup name override with
  | none =>
    rw [ho] at hu
    exact hbase.of_lookup hu
  | some w =>
    obtain rfl : mergeValue (lookup name base) w = u := by simpa [ho] using hu
    rcases mergeValue_cases (lookup name base) w with ⟨fields, others, hb, rfl, heq⟩ | ⟨heq, -⟩
    · exact heq ▸ ih name others ho fields (hbase.of_lookup hb)
    · rw [heq]
      exact h.of_lookup ho

/-! ### Merging the same twice -/

/-- Merging the same a second time changes nothing. -/
theorem merge_merge_self (hbase : NamesOnce (.table base)) (h : NamesOnce (.table override)) :
    merge (merge base override) override = merge base override := by
  refine h.tables (motive := fun override => ∀ base, NamesOnce (.table base) →
    merge (merge base override) override = merge base override) (fun override h ih base hbase => ?_)
    base hbase
  have hmerged := namesOnce_merge hbase h
  have hnames : (merge (merge base override) override).map Prod.fst
      = (merge base override).map Prod.fst := by
    have hknown : ∀ name ∈ override.map Prod.fst, name ∈ (merge base override).map Prod.fst := by
      intro name hname
      by_cases hb : name ∈ base.map Prod.fst <;> simp [map_fst_merge base h.names, hb, hname]
    rw [map_fst_merge _ h.names, List.filter_eq_nil_iff.mpr, List.append_nil]
    exact fun name hname => by simpa using hknown name hname
  refine fields_ext (hnames ▸ hmerged.names) hnames fun name => ?_
  rw [lookup_merge_eq name _ h.names, lookup_merge_eq name base h.names]
  cases ho : lookup name override with
  | none => rfl
  | some w =>
    rw [Option.map_some, Option.some_or, Option.map_some, Option.some_or, Option.some_inj]
    rcases mergeValue_cases (lookup name base) w with ⟨fields, others, hb, rfl, heq⟩ | ⟨heq, -⟩
    · rw [heq, mergeValue_table, ih name others ho fields (hbase.of_lookup hb)]
    · rw [heq]
      -- What has replaced something else is set over itself, which is to set it over nothing first.
      cases ht : w.isTable with
      | false => exact mergeValue_of_not_table ht _
      | true =>
        obtain ⟨others, rfl⟩ := Value.exists_of_isTable ht
        have hself := ih name others ho [] (.table List.nodup_nil (by simp))
        rw [nil_merge (h.of_lookup ho).names] at hself
        rw [mergeValue_table, hself]

/-! ### Merging three configurations -/

/-- What stands between two tables: at no path do the outer two of three configurations have tables
and the middle one something else, unless setting the last one over the first one comes to the last
one anyway. -/
def Mergeable (base override third : Fields) : Prop :=
  ∀ path fields v others, at? path (.table base) = some (.table fields) →
    at? path (.table override) = some v → at? path (.table third) = some (.table others) →
    v.isTable = false → merge fields others = others

/-- Tables that three configurations have under one name can be merged in any order if the
configurations can. -/
theorem Mergeable.lookup {fields others thirds : Fields} (h : Mergeable base override third)
    (hb : lookup name base = some (.table fields))
    (ho : lookup name override = some (.table others))
    (ht : lookup name third = some (.table thirds)) : Mergeable fields others thirds :=
  fun path fields v others hb' ho' ht' => h (name :: path) fields v others (by simp [hb, hb'])
    (by simp [ho, ho']) (by simp [ht, ht'])

/-- Where no path leads to a table in one configuration and to something else in the other, nothing
stands between tables. -/
theorem mergeable_of_sameShape (h : SameShape (.table base) (.table override)) (third : Fields) :
    Mergeable base override third := fun path _ _ _ hb ho _ hv => by
  rw [← h path _ _ hb ho] at hv
  cases hv

/-- Merging three configurations one way comes to the same as the other way, unless tables of the
outer two stand around something else. -/
theorem merge_assoc (hbase : NamesOnce (.table base)) (h : NamesOnce (.table override))
    (hthird : NamesOnce (.table third)) (hm : Mergeable base override third) :
    merge (merge base override) third = merge base (merge override third) := by
  refine hbase.tables (motive := fun base => ∀ override third, NamesOnce (.table override) →
    NamesOnce (.table third) → Mergeable base override third →
    merge (merge base override) third = merge base (merge override third))
    (fun base hbase ih override third h hthird hm => ?_) override third h hthird hm
  have hleft := namesOnce_merge hbase h
  have hright := namesOnce_merge h hthird
  have hnames : (merge (merge base override) third).map Prod.fst
      = (merge base (merge override third)).map Prod.fst := by
    rw [map_fst_merge _ hthird.names, map_fst_merge base hright.names, map_fst_merge _ h.names,
      map_fst_merge _ hthird.names, List.filter_append, List.append_assoc, List.filter_filter]
    congr 2
    refine List.filter_congr fun name _ => ?_
    by_cases name ∈ base.map Prod.fst <;> simp [*]
  refine fields_ext (namesOnce_merge hleft hthird).names hnames fun name => ?_
  rw [lookup_merge_eq name _ hthird.names, lookup_merge_eq name base h.names,
    lookup_merge_eq name base hright.names, lookup_merge_eq name _ hthird.names]
  cases ht : lookup name third with
  | none => simp
  | some w =>
    cases ho : lookup name override with
    | none => simp
    | some v =>
      simp only [Option.map_some, Option.some_or, Option.some_inj]
      rcases mergeValue_cases (some v) w with ⟨others, thirds, hv, rfl, heq⟩ | ⟨heq, hnot⟩
      · obtain rfl : v = .table others := Option.some.inj hv
        rw [heq]
        rcases mergeValue_cases (lookup name base) (.table others) with
          ⟨fields, _, hb, ⟨⟩, heq'⟩ | ⟨heq', hnot'⟩
        · simp only [hb, mergeValue_table, Value.table.injEq]
          exact ih name fields hb others thirds (h.of_lookup ho) (hthird.of_lookup ht)
            (hm.lookup hb ho ht)
        · rw [heq', mergeValue_table, mergeValue_over_other (hnot' rfl)]
      · rw [heq]
        rcases mergeValue_cases (lookup name base) v with
          ⟨fields, others, hb, rfl, heq'⟩ | ⟨heq', -⟩
        · have hw : w.isTable = false := by
            by_contra hw
            exact hnot (by simpa using hw) others rfl
          rw [mergeValue_of_not_table hw, mergeValue_of_not_table hw]
        · rw [heq', heq]
          rcases mergeValue_cases (lookup name base) w with
            ⟨fields, thirds, hb, rfl, heq''⟩ | ⟨heq'', -⟩
          · have hv : v.isTable = false := by
              by_contra hv
              obtain ⟨others, rfl⟩ := Value.exists_of_isTable (by simpa using hv)
              exact hnot rfl others rfl
            rw [heq'', hm [name] fields v thirds (by simp [hb]) (by simp [ho]) (by simp [ht]) hv]
          · rw [heq'']

/-- If merging three configurations comes to the same in either order, no tables of the outer two
stand around something else. -/
theorem mergeable_of_merge_assoc (hbase : NamesOnce (.table base))
    (h : NamesOnce (.table override)) (hthird : NamesOnce (.table third))
    (heq : merge (merge base override) third = merge base (merge override third)) :
    Mergeable base override third := by
  intro path fields v others hb ho ht hv
  induction path generalizing base override third with
  | nil =>
    obtain rfl : Value.table override = v := by simpa using ho
    cases hv
  | cons name path ih =>
    obtain ⟨u', hu', hb⟩ := Option.bind_eq_some_iff.mp hb
    obtain ⟨v', hv', ho⟩ := Option.bind_eq_some_iff.mp ho
    obtain ⟨w', hw', ht⟩ := Option.bind_eq_some_iff.mp ht
    have hname : mergeValue (some (mergeValue (some u') v')) w'
        = mergeValue (some u') (mergeValue (some v') w') := by
      have hlookup := congrArg (lookup name) heq
      rw [lookup_merge_eq name _ hthird.names, lookup_merge_eq name base h.names,
        lookup_merge_eq name base (namesOnce_merge h hthird).names,
        lookup_merge_eq name _ hthird.names, hu', hv', hw'] at hlookup
      simpa using hlookup
    cases path with
    | nil =>
      obtain rfl : u' = .table fields := by simpa using hb
      obtain rfl : v' = v := by simpa using ho
      obtain rfl : w' = .table others := by simpa using ht
      have hmiddle : ∀ fields, some v' ≠ some (.table fields) := by
        rintro fields ⟨⟩
        cases hv
      rw [mergeValue_of_not_table hv, mergeValue_over_other hmiddle, mergeValue_table] at hname
      exact (Value.table.inj hname).symm
    | cons next path =>
      have htable : ∀ {u w}, at? (next :: path) u = some w → ∃ fields, u = .table fields := by
        intro u w hat
        refine Value.exists_of_isTable (Bool.not_eq_false _ ▸ fun hu => ?_)
        rw [at?_cons_of_not_table hu] at hat
        cases hat
      obtain ⟨base', rfl⟩ := htable hb
      obtain ⟨override', rfl⟩ := htable ho
      obtain ⟨third', rfl⟩ := htable ht
      refine ih (hbase.of_lookup hu') (h.of_lookup hv') (hthird.of_lookup hw') ?_ hb ho ht
      simpa using hname

/-! ### Along paths -/

/-- Whether something that is no table stands on the way along a path, before its end. -/
def IsCutOff (config : Fields) (path : List String) : Prop :=
  ∃ above v, above <+: path ∧ above ≠ path ∧ at? above (.table config) = some v
    ∧ v.isTable = false

/-- A path into a table is cut off if the rest of it is cut off in the table. -/
theorem isCutOff_cons_of_table {others : Fields} (h : lookup name override = some (.table others)) :
    IsCutOff override (name :: path) ↔ IsCutOff others path := by
  constructor
  · rintro ⟨_ | ⟨n, above⟩, v, habove, hne, hv, ht⟩
    · cases hv
      cases ht
    · obtain ⟨rfl, hrest⟩ := List.cons_prefix_cons.mp habove
      exact ⟨above, v, hrest, fun e => hne (e ▸ rfl), by simpa [h] using hv, ht⟩
  · rintro ⟨above, v, habove, hne, hv, ht⟩
    exact ⟨name :: above, v, List.cons_prefix_cons.mpr ⟨rfl, habove⟩,
      fun e => hne (List.cons_inj_right name |>.mp e), by simpa [h] using hv, ht⟩

/-- No path is cut off that starts with a name that is not there. -/
theorem not_isCutOff_of_lookup_eq_none (h : lookup name override = none) :
    ¬ IsCutOff override (name :: path) := by
  rintro ⟨_ | ⟨n, above⟩, v, habove, -, hv, ht⟩
  · cases hv
    cases ht
  · obtain ⟨rfl, -⟩ := List.cons_prefix_cons.mp habove
    simp [h] at hv

/-- No path goes on from a value that is missing or no table. -/
theorem bind_at?_of_not_table {before : Option Value} (h : ∀ fields, before ≠ some (.table fields))
    (name : String) (path : List String) : before.bind (at? (name :: path)) = none := by
  cases before with
  | none => rfl
  | some v =>
    refine at?_cons_of_not_table ?_ name path
    cases v with
    | table fields => exact absurd rfl (h fields)
    | _ => rfl

/-- What a merged configuration holds at a path. Two tables are merged. Anything else that is set is
what was set. Where nothing is set all is as it was, except that what has replaced a table leaves
nothing below it. -/
theorem at?_merge (base : Fields) (h : NamesOnce (.table override)) (path : List String) :
    (∀ fields others, at? path (.table base) = some (.table fields) →
        at? path (.table override) = some (.table others) →
        at? path (.table (merge base override)) = some (.table (merge fields others)))
      ∧ (∀ v, at? path (.table override) = some v →
        (v.isTable = true → ∀ fields, at? path (.table base) ≠ some (.table fields)) →
        at? path (.table (merge base override)) = some v)
      ∧ (at? path (.table override) = none →
        (¬ IsCutOff override path →
          at? path (.table (merge base override)) = at? path (.table base))
        ∧ (IsCutOff override path → at? path (.table (merge base override)) = none)) := by
  induction path generalizing base override with
  | nil => simp [isTable]
  | cons name path ih =>
    simp only [at?_cons_table, lookup_merge_eq name base h.names]
    cases ho : lookup name override with
    | none =>
      simp [not_isCutOff_of_lookup_eq_none ho]
    | some v =>
      simp only [Option.map_some, Option.some_or, Option.bind_some]
      rcases mergeValue_cases (lookup name base) v with
        ⟨fields, others, hb, rfl, heq⟩ | ⟨heq, hnot⟩
      · rw [heq, hb, isCutOff_cons_of_table ho]
        exact ih fields (h.of_lookup ho)
      · rw [heq]
        cases path with
        | nil =>
          refine ⟨fun fields others hb hv => ?_, fun _ hu _ => hu, fun hnone => by simp at hnone⟩
          obtain rfl : v = .table others := by simpa using hv
          obtain ⟨u, hu, hat⟩ := Option.bind_eq_some_iff.mp hb
          exact absurd (hu.trans ((at?_nil u).symm.trans hat)) (hnot rfl fields)
        | cons next path =>
          cases ht : v.isTable with
          | false =>
            have hcut : IsCutOff override (name :: next :: path) :=
              ⟨[name], v, ⟨next :: path, rfl⟩, by simp, by simp [ho], ht⟩
            simp [at?_cons_of_not_table ht, hcut]
          | true => simp +contextual [bind_at?_of_not_table (hnot ht)]

end Config

end FeatureTree
