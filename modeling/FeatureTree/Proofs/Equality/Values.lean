import FeatureTree.Proofs.Lists
import FeatureTree.Value.Basic
import Mathlib.Data.List.Perm.Subperm

/-!
# Equality of data

Data is what texts and the trees of parsers are made of: values that hold no nodes, whose tables
have each name once, and whose numbers are numbers. On data, equality is symmetric and reflexive.
Tables are compared field by field in the order of one of them; that this order makes no difference
comes from counting the names.

## Main results

* `Value.IsData.agreesBy_eq`: how nodes are compared plays no part in data
* `Value.IsData.agrees_comm`: equality of data is symmetric
* `Value.IsData.agrees_self`: data equals itself
-/

namespace FeatureTree

namespace Value

/-! ### Numbers -/

/-- That two numbers compare as equal does not depend on their order. -/
theorem compare_eq_some_eq_comm {a b : Float.Model.UnpackedFloat} (h : a.compare b = some .eq) :
    b.compare a = some .eq := by
  have hfinite : ∀ (e₁ e₂ : Int) (m₁ m₂ : Nat), (compare e₁ e₂).then (compare m₁ m₂) = .eq →
      (compare e₂ e₁).then (compare m₂ m₁) = .eq := by
    intro e₁ e₂ m₁ m₂ h
    rw [Ordering.then_eq_eq, Std.compare_eq_iff_eq, Std.compare_eq_iff_eq] at h ⊢
    exact ⟨h.1.symm, h.2.symm⟩
  have hswap : ∀ o : Ordering, o.swap = .eq ↔ o = .eq := by
    intro o
    cases o <;> simp
  -- Two finite numbers of one sign are the only ones that a comparison looks inside of.
  rcases a with s | _ | s | ⟨s, m, e, hm⟩ <;> rcases b with s' | _ | s' | ⟨s', m', e', hm'⟩ <;>
    (try cases s) <;> (try cases s') <;> first
    | rfl
    | cases h
    | exact congrArg some (hfinite _ _ _ _ (Option.some.inj h))
    | exact congrArg some ((hswap _).mpr (hfinite _ _ _ _ ((hswap _).mp (Option.some.inj h))))

/-- That two floating point numbers are equal does not depend on their order. -/
theorem float_beq_comm (x y : Float) : (x == y) = (y == x) := by
  have hbeq : ∀ {a b : Float.Model.UnpackedFloat}, a.beq b = true → b.beq a = true := by
    intro a b h
    have h : (a.compare b == some .eq) = true := h
    have : (b.compare a == some .eq) = true :=
      beq_iff_eq.mpr (compare_eq_some_eq_comm (beq_iff_eq.mp h))
    exact this
  exact Bool.eq_iff_iff.mpr ⟨hbeq, hbeq⟩

/-- That two values are the same key does not depend on their order. -/
theorem sameKey_comm (a b : Value) : sameKey a b = sameKey b a := by
  have hfloat := float_beq_comm
  cases a <;> cases b <;> simp [sameKey, sameKey.number?, eq_comm, hfloat]
  all_goals grind

/-! ### Data -/

/-- Values that hold no nodes, whose tables have each name once, and whose numbers are numbers. -/
inductive IsData : Value → Prop where
  | null : IsData .null
  | bool (b : Bool) : IsData (.bool b)
  | int (i : Int) : IsData (.int i)
  | float (x : Float) (number : (x == x) = true) : IsData (.float x)
  | text (t : Text) : IsData (.text t)
  | list {items : List Value} (members : ∀ v ∈ items, IsData v) : IsData (.list items)
  | kept (id : Nat) {items : List Value} (members : ∀ v ∈ items, IsData v) :
      IsData (.kept id items)
  | table {fields : List (String × Value)} (names : (fields.map Prod.fst).Nodup)
      (values : ∀ f ∈ fields, IsData f.2) : IsData (.table fields)

/-! ### Comparing step by step -/

/-- A list of either sort is compared by its members. -/
theorem agreesBy_of_items {m : Type → Type} [Monad m] {same : Nat → Nat → m Bool} {v w : Value}
    {items : List Value} (h : v.items? = some items) :
    v.agreesBy same w = match w.items? with
      | some others =>
        if items.length = others.length then agreesEachBy same items others else pure false
      | none => pure false := by
  cases v <;> simp only [items?, Option.some.injEq, reduceCtorEq] at h
  all_goals
    subst h
    cases w <;> rfl

/-- What can be a key is compared as a key. -/
theorem agreesBy_of_isKey {m : Type → Type} [Monad m] {same : Nat → Nat → m Bool} {v : Value}
    (h : v.isKey = true) (w : Value) : v.agreesBy same w = pure (sameKey v w) := by
  cases v <;> simp only [isKey, Bool.false_eq_true] at h
  all_goals cases w <;> rfl

/-- A value that can be looked up agrees with another one if both are the same key. -/
theorem agrees_of_isKey {v : Value} (h : v.isKey = true) (w : Value) :
    v.agrees w = sameKey v w := by
  rw [agrees, agreesBy_of_isKey h]
  rfl

/-- What is the same key as a value can be looked up. -/
theorem isKey_of_sameKey {v w : Value} (h : sameKey v w = true) : v.isKey = true := by
  cases v <;> first
    | rfl
    | cases w <;> cases h

/-- Two lists agree if their members do, one by one. -/
theorem agrees_of_items {v w : Value} {items others : List Value} (hv : v.items? = some items)
    (hw : w.items? = some others) :
    v.agrees w = true ↔ List.Forall₂ (fun a b => a.agrees b = true) items others := by
  have heach : ∀ items others : List Value, items.length = others.length →
      (Id.run (agreesEachBy (fun i j => pure (i == j)) items others) = true
        ↔ List.Forall₂ (fun a b => a.agrees b = true) items others) := by
    intro items
    induction items with
    | nil =>
      rintro (_ | ⟨b, others⟩) hlength
      · simp [agreesEachBy]
      · cases hlength
    | cons a items ih =>
      rintro (_ | ⟨b, others⟩) hlength
      · cases hlength
      · rw [List.forall₂_cons, ← ih others (Nat.succ.inj hlength), agreesEachBy, agrees]
        cases hab : Id.run (a.agreesBy (fun i j => pure (i == j)) b) <;> simp [hab]
  rw [agrees, agreesBy_of_items hv, hw]
  by_cases hlength : items.length = others.length
  · simp only [hlength, if_true]
    exact heach items others hlength
  · simp only [hlength, if_false]
    exact ⟨nofun, fun h => absurd h.length_eq hlength⟩

/-- Two tables agree if they have as many fields and each field of one agrees with one of the
other. -/
theorem agrees_table {fields others : List (String × Value)} :
    agrees (.table fields) (.table others) = true ↔ fields.length = others.length
      ∧ ∀ f ∈ fields, ∃ b, lookup f.1 others = some b ∧ f.2.agrees b = true := by
  have hfields : ∀ fields : List (String × Value),
      (Id.run (agreesFieldsBy (fun i j => pure (i == j)) fields others) = true
        ↔ ∀ f ∈ fields, ∃ b, lookup f.1 others = some b ∧ f.2.agrees b = true) := by
    intro fields
    induction fields with
    | nil => simp [agreesFieldsBy]
    | cons f fields ih =>
      obtain ⟨k, a⟩ := f
      rw [List.forall_mem_cons, ← ih, agreesFieldsBy]
      cases hl : lookup k others with
      | none => simp
      | some b =>
        simp only [Option.some.injEq, exists_eq_left', agrees]
        cases hab : Id.run (a.agreesBy (fun i j => pure (i == j)) b) <;> simp [hab]
  rw [agrees, agreesBy]
  by_cases hlength : fields.length = others.length
  · simp only [hlength, if_true, true_and]
    exact hfields fields
  · simp [hlength]

/-! ### Laws of data -/

/-- Of two tables of the same size with each name once, each has all names of the other as soon as
one of them has. -/
theorem names_subset_of_subset {fields others : List (String × Value)}
    (names : (fields.map Prod.fst).Nodup) (hlength : fields.length = others.length)
    (h : fields.map Prod.fst ⊆ others.map Prod.fst) :
    others.map Prod.fst ⊆ fields.map Prod.fst := by
  have hperm := (List.subperm_of_subset names h).perm_of_length_le (by simp [hlength])
  exact hperm.symm.subset

namespace IsData

variable {v w : Value}

/-- The members of a list of data. -/
theorem of_items {items : List Value} (hv : v.IsData) (h : v.items? = some items) :
    ∀ a ∈ items, a.IsData := by
  cases hv <;> simp only [items?, Option.some.injEq, reduceCtorEq] at h <;> exact h ▸ ‹_›

/-- Equality of data holds in both directions or in none. -/
theorem agrees_of_agrees (hv : v.IsData) (hw : w.IsData) (h : v.agrees w = true) :
    w.agrees v = true := by
  induction hv generalizing w with
  | @list items _ ih | @kept _ items _ ih =>
    cases hothers : w.items? with
    | none =>
      rw [agrees, agreesBy_of_items rfl, hothers] at h
      cases h
    | some others =>
      have hmembers := hw.of_items hothers
      rw [agrees_of_items rfl hothers, List.forall₂_iff_zip] at h
      rw [agrees_of_items hothers rfl]
      refine List.Forall₂.flip (List.forall₂_iff_zip.mpr ⟨h.1, fun {a b} hab => ?_⟩)
      exact ih a (List.of_mem_zip hab).1 (hmembers b (List.of_mem_zip hab).2) (h.2 hab)
  | @table fields names _ ih =>
    cases hw with
    | @table others names' values =>
      obtain ⟨hlength, hfields⟩ := agrees_table.mp h
      refine agrees_table.mpr ⟨hlength.symm, fun f hf => ?_⟩
      have hsub : fields.map Prod.fst ⊆ others.map Prod.fst := by
        intro k hk
        obtain ⟨g, hg, rfl⟩ := List.mem_map.mp hk
        obtain ⟨b, hb, -⟩ := hfields g hg
        exact List.mem_map.mpr ⟨(g.1, b), mem_of_lookup_eq_some hb, rfl⟩
      obtain ⟨g, hg, hgf⟩ := List.mem_map.mp
        (names_subset_of_subset names hlength hsub (List.mem_map_of_mem hf))
      obtain ⟨b, hb, hgb⟩ := hfields g hg
      rw [hgf, lookup, (lookup_eq_some_iff names').mpr hf, Option.some.injEq] at hb
      subst hb
      exact ⟨g.2, hgf ▸ (lookup_eq_some_iff names).mpr hg, ih g hg (values f hf) hgb⟩
    | _ => cases h
  | null | bool | int | float | text =>
    rw [agrees_of_isKey rfl, sameKey_comm] at h
    rwa [agrees_of_isKey (isKey_of_sameKey h)]

/-- Equality of data is symmetric. -/
theorem agrees_comm (hv : v.IsData) (hw : w.IsData) : v.agrees w = w.agrees v :=
  Bool.eq_iff_iff.mpr ⟨hv.agrees_of_agrees hw, hw.agrees_of_agrees hv⟩

/-- Data equals itself. -/
theorem agrees_self (hv : v.IsData) : v.agrees v = true := by
  induction hv with
  | list _ ih | kept _ _ ih =>
    exact (agrees_of_items rfl rfl).mpr (List.forall₂_same.mpr ih)
  | table names _ ih =>
    exact agrees_table.mpr ⟨rfl, fun f hf => ⟨f.2, (lookup_eq_some_iff names).mpr hf, ih f hf⟩⟩
  | float x number => exact number
  | null => rfl
  | bool | int | text =>
    rw [agrees_of_isKey rfl]
    simp [sameKey, sameKey.number?]

/-- How nodes are compared plays no part in data. -/
theorem agreesBy_eq {m : Type → Type} [Monad m] [LawfulMonad m] {same : Nat → Nat → m Bool}
    (hv : v.IsData) (w : Value) : v.agreesBy same w = pure (v.agrees w) := by
  have heach : ∀ items : List Value, (∀ a ∈ items, ∀ b, a.agreesBy same b = pure (a.agrees b)) →
      ∀ others, agreesEachBy same items others
        = pure (Id.run (agreesEachBy (fun i j => pure (i == j)) items others)) := by
    intro items hitems
    induction items with
    | nil => simp [agreesEachBy]
    | cons a items ih =>
      rintro (_ | ⟨b, others⟩)
      · simp [agreesEachBy]
      · rw [List.forall_mem_cons] at hitems
        simp only [agreesEachBy, hitems.1, ih hitems.2, pure_bind, Id.run_bind, agrees]
        split <;> rfl
  have hfields : ∀ fields : List (String × Value),
      (∀ f ∈ fields, ∀ b, f.2.agreesBy same b = pure (f.2.agrees b)) →
      ∀ others, agreesFieldsBy same fields others
        = pure (Id.run (agreesFieldsBy (fun i j => pure (i == j)) fields others)) := by
    intro fields hfields others
    induction fields with
    | nil => simp [agreesFieldsBy]
    | cons f fields ih =>
      obtain ⟨k, a⟩ := f
      rw [List.forall_mem_cons] at hfields
      simp only [agreesFieldsBy]
      cases lookup k others with
      | none => rfl
      | some b =>
        simp only [hfields.1, ih hfields.2, pure_bind, Id.run_bind, agrees]
        split <;> rfl
  induction hv generalizing w with
  | list _ ih | kept _ _ ih =>
    rw [agrees, agreesBy_of_items rfl, agreesBy_of_items rfl]
    cases w.items? with
    | none => rfl
    | some others =>
      simp only [heach _ ih]
      split <;> rfl
  | @table fields _ _ ih =>
    cases w with
    | table others =>
      simp only [agrees, agreesBy, hfields _ ih]
      split <;> rfl
    | _ => rfl
  | null | bool | int | float | text => rw [agreesBy_of_isKey rfl, agrees_of_isKey rfl]

end IsData

end Value

end FeatureTree
