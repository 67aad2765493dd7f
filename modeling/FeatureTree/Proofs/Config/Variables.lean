import FeatureTree.Proofs.Config.Merging

/-!
# What variables change

A variable changes at most one field of one section, and only if the section is a table. Which
sections there are and which of them are tables stays the same, so whether a variable counts does
not depend on the ones before it, and the last one that names a field decides its value. Where no
two variables name the same, their order makes no difference.

The only value that cannot be read is a list or table with an integer of too many digits. If a
variable that counts has such a value, nothing comes out, whatever other variables say.

## Main results

* `Config.variableTarget?_eq_some_iff`: which names name a field
* `Config.applyVariables_cases`: what a run over all variables gives, and when it gives something
* `Config.applyVariables_exactly`: what variables change and what they leave alone
-/

namespace FeatureTree

/-- A text is cut at the first place where a character stands. -/
theorem Text.cutAtChar_eq_some_iff {sep : Char} {t before after : Text} :
    cutAtChar sep t = some (before, after) ↔ t = before ++ sep :: after ∧ sep ∉ before := by
  induction t generalizing before with
  | nil => simp [cutAtChar]
  | cons c t ih =>
    by_cases hc : c = sep
    · subst hc
      cases before with
      | nil => simp [cutAtChar, eq_comm]
      | cons d before =>
        simp only [cutAtChar, if_true, Option.some.injEq, Prod.mk.injEq, List.cons_append,
          List.cons.injEq, List.mem_cons]
        constructor
        · rintro ⟨⟨⟩, -⟩
        · rintro ⟨⟨rfl, -⟩, hnot⟩
          exact absurd (.inl rfl) hnot
    · cases before with
      | nil => simp [cutAtChar, hc]
      | cons d before =>
        simp only [cutAtChar, if_neg hc, Option.map_eq_some_iff, Prod.exists, Prod.mk.injEq,
          List.cons.injEq, List.cons_append, List.mem_cons]
        constructor
        · rintro ⟨b, a, hcut, ⟨rfl, rfl⟩, rfl⟩
          obtain ⟨rfl, hnot⟩ := ih.mp hcut
          exact ⟨⟨rfl, rfl⟩, by simp [hnot, Ne.symm hc]⟩
        · rintro ⟨⟨rfl, rfl⟩, hnot⟩
          exact ⟨before, after, ih.mpr ⟨rfl, fun h => hnot (.inr h)⟩, ⟨rfl, rfl⟩, rfl⟩

namespace Config

open Value (lookup put at? isTable)

variable {config result : Fields} {name value : Text} {s k : String} {v : Value}
  {environment : List (Text × Text)}

/-- Whether the name of a variable names a field of a section: behind the prefix stand, in any case,
the section without an underscore, an underscore and the field. -/
def Names (name : Text) (s k : String) : Prop :=
  ∃ rest, name = variablePrefix ++ rest ∧ rest.lower = s.toList ++ '_' :: k.toList
    ∧ '_' ∉ s.toList ∧ k.toList ≠ []

/-- The target of a variable is the field that its name says. -/
theorem variableTarget?_eq_some_iff : variableTarget? name = some (s, k) ↔ Names name s k := by
  unfold variableTarget? Names
  constructor
  · intro h
    split at h
    · next hstarts =>
      obtain ⟨rest, rfl⟩ := List.isPrefixOf_iff_prefix.mp hstarts
      rw [List.drop_left] at h
      split at h
      · next before after hcut =>
        obtain ⟨hlower, hnot⟩ := Text.cutAtChar_eq_some_iff.mp hcut
        split at h
        · cases h
        · next hkey =>
          cases h
          exact ⟨rest, rfl, by simpa using hlower, by simpa using hnot, by simpa using hkey⟩
      · cases h
    · cases h
  · rintro ⟨rest, rfl, hlower, hnot, hkey⟩
    rw [if_pos (List.isPrefixOf_iff_prefix.mpr (List.prefix_append _ _)), List.drop_left,
      Text.cutAtChar_eq_some_iff.mpr ⟨hlower, hnot⟩]
    simp [hkey]

/-- A variable names one field at most. -/
theorem Names.unique {s' k' : String} (h : Names name s k) (h' : Names name s' k') :
    s = s' ∧ k = k' := by
  rw [← variableTarget?_eq_some_iff] at h h'
  simpa using h.symm.trans h'

/-- Variables that name the same differ at most in the case of what stands behind the prefix. -/
theorem Names.lower_eq {rest rest' : Text} (h : Names (variablePrefix ++ rest) s k)
    (h' : Names (variablePrefix ++ rest') s k) : rest.lower = rest'.lower := by
  obtain ⟨_, heq, hlower, -⟩ := h
  obtain ⟨_, heq', hlower', -⟩ := h'
  rw [List.append_cancel_left_eq] at heq heq'
  rw [heq, heq', hlower, hlower']

/-- What a variable says can be read unless it has an integer of too many digits. -/
theorem variableValue_cases (value : Text) :
    variableValue value = .error .integerTooLong ∨ ∃ v, variableValue value = .ok v := by
  rw [variableValue]
  split
  · split
    · exact .inr ⟨_, rfl⟩
    · exact .inr ⟨_, rfl⟩
    · exact .inl rfl
  · split
    · exact .inr ⟨_, rfl⟩
    · exact .inr ⟨_, rfl⟩
    · exact .inl rfl
  · split_ifs
    · exact .inr ⟨_, rfl⟩
    · exact .inr ⟨_, rfl⟩
    · exact .inr ⟨_, rfl⟩

/-! ### One variable -/

/-- Whether a section of a configuration is a table. -/
def IsSection (config : Fields) (s : String) : Prop :=
  ∃ fields, lookup s config = some (.table fields)

/-- What a configuration becomes when some fields of its sections are set and all else is left
alone. -/
structure Keeps (config result : Fields) : Prop where
  names : result.map Prod.fst = config.map Prod.fst
  others : ∀ s, ¬ IsSection config s → lookup s result = lookup s config
  sections : ∀ s, IsSection result s ↔ IsSection config s

/-- Nothing changes where no field is set. -/
theorem Keeps.refl (config : Fields) : Keeps config config := ⟨rfl, fun _ _ => rfl, fun _ => .rfl⟩

/-- Fields can be set in two steps. -/
theorem Keeps.trans {later : Fields} (h : Keeps config result) (h' : Keeps result later) :
    Keeps config later :=
  ⟨h'.names.trans h.names,
    fun s hs => (h'.others s ((h.sections s).not.mpr hs)).trans (h.others s hs),
    fun s => (h'.sections s).trans (h.sections s)⟩

/-- What is under a name of a section. -/
theorem at?_field {fields : Fields} (h : lookup s config = some (.table fields)) (k : String) :
    at? [s, k] (.table config) = lookup k fields := by
  have hat : at? [] = some := funext Value.at?_nil
  simp only [Value.at?_cons_table, h, Option.bind_some, hat, Option.bind_fun_some]

/-- A field of a section that is there can be set. -/
theorem keeps_put {fields others : Fields} (h : lookup s config = some (.table fields)) :
    Keeps config (put s (.table others) config) := by
  have hmem : s ∈ config.map Prod.fst := by
    by_contra hnot
    rw [lookup, lookup_eq_none_iff_not_mem.mpr hnot] at h
    cases h
  refine ⟨by rw [map_fst_put, if_pos hmem], fun s' hs' => ?_, fun s' => ?_⟩
  · refine Value.lookup_put_of_ne ?_ _ _
    rintro rfl
    exact hs' ⟨fields, h⟩
  · by_cases hs' : s' = s
    · subst hs'
      exact iff_of_true ⟨others, Value.lookup_put _ _ _⟩ ⟨fields, h⟩
    · rw [IsSection, IsSection, Value.lookup_put_of_ne hs']

/-- What variables that are gone through in order make of a configuration. The last variable that
names a field of a section gives its value. -/
structure Overrides (config : Fields) (environment : List (Text × Text)) (result : Fields) : Prop
    extends Keeps config result where
  set : ∀ s k before name value after, IsSection config s →
    environment = before ++ (name, value) :: after → Names name s k →
    (∀ e ∈ after, ¬ Names e.1 s k) →
    ∃ v, variableValue value = .ok v ∧ at? [s, k] (.table result) = some v
  kept : ∀ s k, (∀ e ∈ environment, ¬ Names e.1 s k) →
    at? [s, k] (.table result) = at? [s, k] (.table config)

/-- No variables change nothing. -/
theorem Overrides.refl (config : Fields) : Overrides config [] config :=
  ⟨.refl config, by simp, by simp⟩

/-- What one variable makes of a configuration and the others make of the result. -/
theorem Overrides.cons {mid : Fields} {e : Text × Text} (h : Overrides config [e] mid)
    (h' : Overrides mid environment result) : Overrides config (e :: environment) result := by
  refine ⟨h.toKeeps.trans h'.toKeeps, fun s k before name value after hs henv hname hafter => ?_,
    fun s k hnot => ?_⟩
  · cases before with
    | nil =>
      obtain ⟨rfl, rfl⟩ := List.cons_eq_cons.mp henv
      obtain ⟨v, hv, hset⟩ := h.set s k [] name value [] hs rfl hname (by simp)
      exact ⟨v, hv, (h'.kept s k hafter).trans hset⟩
    | cons first before =>
      obtain ⟨rfl, rfl⟩ := List.cons_eq_cons.mp henv
      exact h'.set s k before name value after ((h.sections s).mpr hs) rfl hname hafter
  · rw [List.forall_mem_cons] at hnot
    exact (h'.kept s k hnot.2).trans (h.kept s k (by simpa using hnot.1))

/-- A variable that names a field of a section sets it. -/
theorem overrides_put {fields : Fields} (hname : Names name s k)
    (hs : lookup s config = some (.table fields)) (hv : variableValue value = .ok v) :
    Overrides config [(name, value)] (put s (.table (put k v fields)) config) := by
  refine ⟨keeps_put hs, fun s' k' before name' value' after _ henv hname' _ => ?_,
    fun s' k' hnot => ?_⟩
  · cases before with
    | cons => simp at henv
    | nil =>
      obtain ⟨⟨rfl, rfl⟩, rfl⟩ : (name = name' ∧ value = value') ∧ [] = after := by
        simpa using henv
      obtain ⟨rfl, rfl⟩ := hname'.unique hname
      exact ⟨v, hv, by rw [at?_field (Value.lookup_put _ _ _), Value.lookup_put]⟩
  · by_cases hs' : s' = s
    · subst hs'
      have hk : k' ≠ k := by
        rintro rfl
        exact hnot _ (List.mem_singleton_self _) hname
      rw [at?_field (Value.lookup_put _ _ _), Value.lookup_put_of_ne hk, at?_field hs]
    · rw [Value.at?_cons_table, Value.lookup_put_of_ne hs', Value.at?_cons_table]

/-- A variable that names no field of a section changes nothing. -/
theorem overrides_self (h : ∀ s k, Names name s k → ¬ IsSection config s) :
    Overrides config [(name, value)] config := by
  refine ⟨.refl config, fun s k before name' value' after hs henv hname _ => ?_, fun _ _ _ => rfl⟩
  have hmem : (name', value') ∈ [(name, value)] := henv ▸ by simp
  obtain ⟨rfl, -⟩ : name' = name ∧ value' = value := by simpa using hmem
  exact absurd hs (h s k hname)

/-- Whether a variable names a field of a section and says something that cannot be read. -/
def IsUnreadable (config : Fields) (e : Text × Text) : Prop :=
  ∃ s k, Names e.1 s k ∧ IsSection config s ∧ variableValue e.2 = .error .integerTooLong

/-- Setting fields leaves variables as readable as they were. -/
theorem Keeps.isUnreadable_iff (h : Keeps config result) (e : Text × Text) :
    IsUnreadable result e ↔ IsUnreadable config e := by
  simp only [IsUnreadable, h.sections]

/-- One variable cannot be read or sets what it names. -/
theorem applyVariable_cases (config : Fields) (name value : Text) :
    (IsUnreadable config (name, value)
        ∧ applyVariable config name value = .error .integerTooLong)
      ∨ ¬ IsUnreadable config (name, value)
        ∧ ∃ result, applyVariable config name value = .ok result
          ∧ Overrides config [(name, value)] result := by
  by_cases h : ∃ s k, Names name s k ∧ IsSection config s
  · obtain ⟨s, k, hname, fields, hs⟩ := h
    have hstep : applyVariable config name value
        = (do return put s (.table (put k (← variableValue value) fields)) config) := by
      simp [applyVariable, variableTarget?_eq_some_iff.mpr hname, hs]
    rcases variableValue_cases value with hv | ⟨v, hv⟩
    · exact .inl ⟨⟨s, k, hname, ⟨fields, hs⟩, hv⟩, by
        rw [hstep, hv]
        rfl⟩
    · refine .inr ⟨?_, _, ?_, overrides_put hname hs hv⟩
      · rintro ⟨_, _, _, _, hv'⟩
        exact nomatch hv.symm.trans hv'
      · rw [hstep, hv]
        rfl
  · have hnot : ∀ s k, Names name s k → ¬ IsSection config s := fun s k hname hs =>
      h ⟨s, k, hname, hs⟩
    refine .inr ⟨fun ⟨s, k, hname, hs, _⟩ => hnot s k hname hs, config, ?_, overrides_self hnot⟩
    exact applyVariable_of_not_table fun s k fields ht hs =>
      hnot s k (variableTarget?_eq_some_iff.mp ht) ⟨fields, hs⟩

/-! ### All variables -/

/-- Either a variable that counts cannot be read, and then nothing comes out, or the last variable
that names a field of a section gives its value and all else stays as it is. -/
theorem applyVariables_cases (config : Fields) (environment : List (Text × Text)) :
    ((∃ e ∈ environment, IsUnreadable config e)
        ∧ applyVariables config environment = .error .integerTooLong)
      ∨ (∀ e ∈ environment, ¬ IsUnreadable config e)
        ∧ ∃ result, applyVariables config environment = .ok result
          ∧ Overrides config environment result := by
  induction environment generalizing config with
  | nil => exact .inr ⟨by simp, config, rfl, .refl config⟩
  | cons e environment ih =>
    have hstep : applyVariables config (e :: environment)
        = (do applyVariables (← applyVariable config e.1 e.2) environment) := rfl
    rw [hstep]
    rcases applyVariable_cases config e.1 e.2 with ⟨hbad, herror⟩ | ⟨hgood, mid, hmid, hone⟩
    · refine .inl ⟨⟨e, by simp, hbad⟩, ?_⟩
      rw [herror]
      rfl
    · rw [hmid]
      rcases ih mid with ⟨⟨e', he', hbad⟩, herror⟩ | ⟨hall, result, hresult, hover⟩
      · exact .inl ⟨⟨e', by simp [he'], (hone.isUnreadable_iff e').mp hbad⟩, herror⟩
      · refine .inr ⟨List.forall_mem_cons.mpr ⟨hgood, fun e' he' hbad =>
          hall e' he' ((hone.isUnreadable_iff e').mpr hbad)⟩, result, hresult, hone.cons hover⟩

/-- Whether two configurations have the same sections with the same fields, in whatever order the
fields were set, and are the same otherwise. -/
structure Same (config result : Fields) : Prop where
  names : config.map Prod.fst = result.map Prod.fst
  others : ∀ s, ¬ IsSection config s → lookup s config = lookup s result
  sections : ∀ s, IsSection config s ↔ IsSection result s
  fields : ∀ s k, IsSection config s →
    at? [s, k] (.table config) = at? [s, k] (.table result)

/-- Whether no two variables differ only in the case of what stands behind the prefix. -/
def AllDiffer (environment : List (Text × Text)) : Prop :=
  environment.Pairwise fun e e' => ∀ rest rest', e.1 = variablePrefix ++ rest →
    e'.1 = variablePrefix ++ rest' → rest.lower ≠ rest'.lower

/-- In any order the variables differ. -/
theorem AllDiffer.perm {environment' : List (Text × Text)} (h : AllDiffer environment)
    (hperm : environment'.Perm environment) : AllDiffer environment' :=
  (hperm.pairwise_iff fun {_ _} h rest rest' he he' => (h rest' rest he' he).symm).mpr h

/-- Where variables differ, one that names a field is the only one. -/
theorem AllDiffer.not_names {before after : List (Text × Text)}
    (h : AllDiffer (before ++ (name, value) :: after)) (hname : Names name s k) :
    ∀ e ∈ after, ¬ Names e.1 s k := by
  rintro ⟨name', value'⟩ he hname'
  have hpair := (List.pairwise_cons.mp (List.pairwise_append.mp h).2.1).1 _ he
  obtain ⟨rest, rfl, -⟩ := id hname
  obtain ⟨rest', rfl, -⟩ := id hname'
  exact hpair rest rest' rfl rfl (hname.lower_eq hname')

/-- Variables that differ can be gone through in any order. -/
theorem Overrides.same {environment' : List (Text × Text)} {result' : Fields}
    (h : Overrides config environment result) (h' : Overrides config environment' result')
    (hdiffer : AllDiffer environment) (hperm : environment'.Perm environment) :
    Same result result' := by
  refine ⟨h.names.trans h'.names.symm, fun s hs => ?_,
    fun s => (h.sections s).trans (h'.sections s).symm, fun s k hs => ?_⟩
  · rw [h.sections] at hs
    rw [h.others s hs, h'.others s hs]
  · rw [h.sections] at hs
    by_cases hany : ∃ e ∈ environment, Names e.1 s k
    · obtain ⟨⟨name, value⟩, hmem, hname⟩ := hany
      obtain ⟨before, after, henv⟩ := List.mem_iff_append.mp hmem
      obtain ⟨before', after', henv'⟩ := List.mem_iff_append.mp (hperm.mem_iff.mpr hmem)
      obtain ⟨v, hv, hset⟩ := h.set s k before name value after hs henv hname
        (AllDiffer.not_names (henv ▸ hdiffer) hname)
      obtain ⟨v', hv', hset'⟩ := h'.set s k before' name value after' hs henv' hname
        (AllDiffer.not_names (henv' ▸ hdiffer.perm hperm) hname)
      obtain rfl : v = v' := Except.ok.inj (hv.symm.trans hv')
      rw [hset, hset']
    · push Not at hany
      rw [h.kept s k hany, h'.kept s k fun e he => hany e (hperm.mem_iff.mp he)]

/-- For every configuration and all variables in any order. If a variable names a field of a section
and what it says has an integer of too many digits, nothing comes out. Else the result has the same
names; what is no section is as it was; each field of a section has the value of the last variable
that names it, and is as it was if there is none. If no two variables differ only in the case of
what stands behind the prefix, every other order gives the same, or nothing if this one gives
nothing. Lists in what a variable says may be nested to any depth here; that a reader may give up
on lists that are nested too deeply for it is left out. -/
theorem applyVariables_exactly (config : Fields) (environment : List (Text × Text)) :
    (((∃ e ∈ environment, IsUnreadable config e)
          ∧ applyVariables config environment = .error .integerTooLong)
        ∨ (∀ e ∈ environment, ¬ IsUnreadable config e)
          ∧ ∃ result, applyVariables config environment = .ok result
            ∧ Overrides config environment result)
      ∧ (AllDiffer environment → ∀ environment', environment'.Perm environment →
        (applyVariables config environment = .error .integerTooLong
            ∧ applyVariables config environment' = .error .integerTooLong)
          ∨ ∃ result result', applyVariables config environment = .ok result
            ∧ applyVariables config environment' = .ok result' ∧ Same result result') := by
  refine ⟨applyVariables_cases config environment, fun hdiffer environment' hperm => ?_⟩
  rcases applyVariables_cases config environment with
    ⟨⟨e, he, hbad⟩, herror⟩ | ⟨hall, result, hresult, hover⟩
  · rcases applyVariables_cases config environment' with ⟨-, herror'⟩ | ⟨hall', -⟩
    · exact .inl ⟨herror, herror'⟩
    · exact absurd hbad (hall' e (hperm.mem_iff.mpr he))
  · rcases applyVariables_cases config environment' with
      ⟨⟨e, he, hbad⟩, -⟩ | ⟨-, result', hresult', hover'⟩
    · exact absurd hbad (hall e (hperm.mem_iff.mp he))
    · exact .inr ⟨result, result', hresult, hresult', hover.same hover' hdiffer hperm⟩

/-- Two variables of one section, in either order: one sets a field that is there, the other adds
one and says something that only looks like a list. -/
theorem applyVariables_exactly_twoVariables :
    let config : Fields := [("a", .table [("x", .int 1), ("y", .int 2)]), ("n", .int 3)]
    let first : Text × Text := ("FEATUREMODEL_A_X".toList, "TRUE".toList)
    let second : Text × Text := ("FEATUREMODEL_a_y_z".toList, "[1".toList)
    ∃ result result', applyVariables config [first, second] = .ok result
      ∧ applyVariables config [second, first] = .ok result' ∧ Same result result'
      ∧ at? ["a", "x"] (.table result) = some (.bool true)
      ∧ at? ["a", "y"] (.table result) = some (.int 2)
      ∧ at? ["n"] (.table result) = some (.int 3) := by
  intro config first second
  have hdiffer : AllDiffer [first, second] := by
    refine List.pairwise_pair.mpr fun rest rest' h h' => ?_
    obtain rfl : "A_X".toList = rest := (List.append_right_inj variablePrefix).mp h
    obtain rfl : "a_y_z".toList = rest' := (List.append_right_inj variablePrefix).mp h'
    decide
  have hrun : applyVariables config [first, second]
      = .ok [("a", .table [("x", .bool true), ("y", .int 2), ("y_z", .text "[1".toList)]),
        ("n", .int 3)] := rfl
  obtain ⟨-, horder⟩ := applyVariables_exactly config [first, second]
  rcases horder hdiffer [second, first] (List.Perm.swap _ _ _) with
    ⟨herror, -⟩ | ⟨result, result', hresult, hresult', hsame⟩
  · exact nomatch hrun.symm.trans herror
  · obtain rfl := Except.ok.inj (hrun.symm.trans hresult)
    exact ⟨_, result', hrun, hresult', hsame, rfl, rfl, rfl⟩

end Config

end FeatureTree
