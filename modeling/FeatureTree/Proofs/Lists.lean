import FeatureTree.Fault
import Mathlib.Data.List.Forall2

/-!
# Going through lists

What is known of the members of a list is known of the results of going through it, in a computation
that can fail, and what is found under a name in a list of named things stands in it.

## Main results

* `bind_ok`: a computation that gives something has given something in each step
* `forall₂_of_mapM`, `mapM_of_forall₂`: the results of going through a list, one by one
* `lookup_eq_some_iff`: what is found under a name
-/

namespace FeatureTree

/-- A computation in steps that gives something has given something in each step. -/
theorem bind_ok {α β : Type} {x : Except Fault α} {f : α → Except Fault β} {b : β}
    (h : x >>= f = .ok b) : ∃ a, x = .ok a ∧ f a = .ok b := by
  cases x with
  | error _ => cases h
  | ok a => exact ⟨a, rfl, h⟩

/-- An optional value is a result if it is there. -/
theorem Fault.ofOption_eq_ok_iff {α : Type} {o : Option α} {a : α} :
    ofOption o = .ok a ↔ o = some a := by
  cases o <;> simp [ofOption]

/-- Conversions that agree on the members of a list agree on the list. -/
theorem mapM_congr {α β : Type} {f g : α → Except Fault β} {xs : List α}
    (h : ∀ x ∈ xs, f x = g x) : xs.mapM f = xs.mapM g := by
  induction xs with
  | nil => rfl
  | cons x xs ih =>
    rw [List.forall_mem_cons] at h
    rw [List.mapM_cons, List.mapM_cons, h.1, ih h.2]

/-- Results of all members are the results of going through them. -/
theorem mapM_of_forall₂ {α β : Type} {f : α → Except Fault β} {xs : List α} {ys : List β}
    (h : List.Forall₂ (fun x y => f x = .ok y) xs ys) : xs.mapM f = .ok ys := by
  induction h with
  | nil => rfl
  | cons hx _ ih =>
    rw [List.mapM_cons, hx, ih]
    rfl

/-- A list whose conversion fails has a member whose conversion fails so. -/
theorem exists_of_mapM_error {α β : Type} {f : α → Except Fault β} {xs : List α} {fault : Fault}
    (h : xs.mapM f = .error fault) : ∃ x ∈ xs, f x = .error fault := by
  induction xs with
  | nil => cases h
  | cons x xs ih =>
    rw [List.mapM_cons] at h
    cases hx : f x with
    | error _ =>
      rw [hx] at h
      cases h
      exact ⟨x, by simp, hx⟩
    | ok y =>
      cases hxs : xs.mapM f with
      | error _ =>
        rw [hx, hxs] at h
        cases h
        obtain ⟨x', hmem, hx'⟩ := ih hxs
        exact ⟨x', by simp [hmem], hx'⟩
      | ok ys =>
        rw [hx, hxs] at h
        cases h

/-- The results of a list are those of its members, one by one. -/
theorem forall₂_of_mapM {α β : Type} {f : α → Except Fault β} {xs : List α} {ys : List β}
    (h : xs.mapM f = .ok ys) : List.Forall₂ (fun x y => f x = .ok y) xs ys := by
  induction xs generalizing ys with
  | nil =>
    cases h
    exact .nil
  | cons x xs ih =>
    rw [List.mapM_cons] at h
    obtain ⟨y, hy, h⟩ := bind_ok h
    obtain ⟨ys, hys, h⟩ := bind_ok h
    cases h
    exact .cons hy (ih hys)

/-- What is left out of a list can be left out before the list is gone through. -/
theorem filterMap_mapM {α β γ : Type} (select : α → Option β) (f : β → Except Fault γ)
    (xs : List α) :
    (do return (← xs.mapM fun x => (select x).mapM f).filterMap id)
      = (xs.filterMap select).mapM f := by
  induction xs with
  | nil => rfl
  | cons x xs ih =>
    rw [List.mapM_cons]
    cases hs : select x with
    | none =>
      rw [List.filterMap_cons_none hs, ← ih, Option.mapM_none]
      cases xs.mapM fun x => (select x).mapM f <;> rfl
    | some y =>
      rw [List.filterMap_cons_some hs, List.mapM_cons, ← ih, Option.mapM_some]
      cases f y <;> cases xs.mapM fun x => (select x).mapM f <;> rfl

/-- A filter whose condition can always be decided. -/
theorem filterM_eq_filter {α : Type} {p : α → Except Fault Bool} {q : α → Bool} {xs : List α}
    (h : ∀ x ∈ xs, p x = .ok (q x)) : xs.filterM p = .ok (xs.filter q) := by
  have hloop : ∀ (xs acc : List α), (∀ x ∈ xs, p x = .ok (q x)) →
      xs.filterAuxM p acc = .ok ((xs.filter q).reverse ++ acc) := by
    intro xs
    induction xs with
    | nil => exact fun acc _ => rfl
    | cons x xs ih =>
      intro acc h
      rw [List.forall_mem_cons] at h
      rw [List.filterAuxM, h.1]
      refine (ih _ h.2).trans ?_
      cases hq : q x <;> simp [hq]
  rw [List.filterM, hloop xs [] h]
  simp [bind, Except.bind]
  rfl

/-! ### Lists that match -/

section

variable {α β γ : Type} {R : α → β → Prop} {xs : List α} {ys : List β}

/-- Every member on the left has a partner on the right. -/
theorem exists_right_of_forall₂ (h : List.Forall₂ R xs ys) {x : α} (hx : x ∈ xs) :
    ∃ y ∈ ys, R x y := by
  induction h with
  | nil => cases hx
  | cons hr _ ih =>
    rcases List.mem_cons.mp hx with rfl | hx
    · exact ⟨_, by simp, hr⟩
    · obtain ⟨y, hy, hr⟩ := ih hx
      exact ⟨y, by simp [hy], hr⟩

/-- Every member on the right has a partner on the left. -/
theorem exists_left_of_forall₂ (h : List.Forall₂ R xs ys) {y : β} (hy : y ∈ ys) :
    ∃ x ∈ xs, R x y :=
  exists_right_of_forall₂ h.flip hy

/-- Where every member is related to something there is a list of what the members are related
to. -/
theorem exists_forall₂ (h : ∀ x ∈ xs, ∃ y, R x y) : ∃ ys, List.Forall₂ R xs ys := by
  induction xs with
  | nil => exact ⟨[], .nil⟩
  | cons x xs ih =>
    rw [List.forall_mem_cons] at h
    obtain ⟨y, hy⟩ := h.1
    obtain ⟨ys, hys⟩ := ih h.2
    exact ⟨y :: ys, .cons hy hys⟩

/-- Partners on the left are members of the list on the left. -/
theorem forall₂_with_mem (h : List.Forall₂ R xs ys) :
    List.Forall₂ (fun x y => x ∈ xs ∧ R x y) xs ys := by
  induction h with
  | nil => exact .nil
  | cons hr _ ih =>
    exact .cons ⟨by simp, hr⟩ (ih.imp fun x y h => ⟨List.mem_cons_of_mem _ h.1, h.2⟩)

/-- Lists whose members agree under two functions have the same images. -/
theorem map_eq_of_forall₂ {f : α → γ} {g : β → γ} (h : List.Forall₂ (fun x y => g y = f x) xs ys) :
    ys.map g = xs.map f := by
  induction h with
  | nil => rfl
  | cons hr _ ih => rw [List.map_cons, List.map_cons, hr, ih]

/-- Members at the same position are partners. -/
theorem rel_of_forall₂ (h : List.Forall₂ R xs ys) {n : Nat} {x : α} {y : β}
    (hx : xs[n]? = some x) (hy : ys[n]? = some y) : R x y := by
  induction h generalizing n with
  | nil => simp at hx
  | cons hr _ ih =>
    cases n with
    | zero =>
      rw [List.getElem?_cons_zero, Option.some.injEq] at hx hy
      exact hx ▸ hy ▸ hr
    | succ n => exact ih hx hy

/-- Members of two lists can be replaced by what they match before they are related. -/
theorem forall₂_iff_of_forall₂ {α' β' : Type} {A : α → α' → Prop} {B : β → β' → Prop}
    {S : α' → β' → Prop} {xs' : List α'} {ys' : List β'} (hxs : List.Forall₂ A xs xs')
    (hys : List.Forall₂ B ys ys') (h : ∀ x x' y y', A x x' → B y y' → (R x y ↔ S x' y')) :
    List.Forall₂ R xs ys ↔ List.Forall₂ S xs' ys' := by
  induction hxs generalizing ys ys' with
  | nil => cases hys <;> simp
  | cons hx _ ih =>
    cases hys with
    | nil => simp
    | cons hy hys => rw [List.forall₂_cons, List.forall₂_cons, h _ _ _ _ hx hy, ih hys]

/-- Relations that are the same between the members of two lists relate the same lists. -/
theorem forall₂_congr_of_mem {S : α → β → Prop} (h : ∀ x ∈ xs, ∀ y ∈ ys, (R x y ↔ S x y)) :
    List.Forall₂ R xs ys ↔ List.Forall₂ S xs ys := by
  have hxs : List.Forall₂ (fun x x' => x = x' ∧ x ∈ xs) xs xs :=
    List.forall₂_same.mpr fun x hx => ⟨rfl, hx⟩
  have hys : List.Forall₂ (fun y y' => y = y' ∧ y ∈ ys) ys ys :=
    List.forall₂_same.mpr fun y hy => ⟨rfl, hy⟩
  refine forall₂_iff_of_forall₂ hxs hys ?_
  rintro x _ y _ ⟨rfl, hx⟩ ⟨rfl, hy⟩
  exact h x hx y hy

/-- Lists put together from partners are the same up to order if those of the partners are. -/
theorem perm_flatMap_of_forall₂ {f : α → List γ} {g : β → List γ}
    (h : List.Forall₂ (fun x y => (g y).Perm (f x)) xs ys) :
    (ys.flatMap g).Perm (xs.flatMap f) := by
  induction h with
  | nil => exact .refl _
  | cons hx _ ih => exact hx.append ih

/-- How the members of a list are related pair by pair carries over to a list that matches it. -/
theorem pairwise_of_forall₂ {P : α → α → Prop} {Q : β → β → Prop} (h : List.Forall₂ R xs ys)
    (hxs : xs.Pairwise P) (hPQ : ∀ x x' y y', R x y → R x' y' → P x x' → Q y y') :
    ys.Pairwise Q := by
  induction h with
  | nil => exact .nil
  | cons hr hrest ih =>
    rw [List.pairwise_cons] at hxs ⊢
    refine ⟨fun y' hy' => ?_, ih hxs.2⟩
    obtain ⟨x', hx', hr'⟩ := exists_left_of_forall₂ hrest hy'
    exact hPQ _ _ _ _ hr hr' (hxs.1 x' hx')

/-- Lists that agree once their members are changed are the two sides of a list of pairs. -/
theorem exists_zip_list {f : α → γ} {g : β → γ}
    (h : xs.map f = ys.map g) : ∃ zs : List (α × β),
    zs.map Prod.fst = xs ∧ zs.map Prod.snd = ys ∧ ∀ z ∈ zs, f z.1 = g z.2 := by
  induction xs generalizing ys with
  | nil =>
    obtain rfl := List.map_eq_nil_iff.mp h.symm
    exact ⟨[], rfl, rfl, by simp⟩
  | cons x xs ih =>
    obtain ⟨y, ys, rfl, hy, hys⟩ := List.map_eq_cons_iff.mp h.symm
    obtain ⟨zs, rfl, rfl, hzs⟩ := ih hys.symm
    exact ⟨(x, y) :: zs, rfl, rfl, List.forall_mem_cons.mpr ⟨hy.symm, hzs⟩⟩

/-- Options that agree once they are changed are the two sides of an optional pair. -/
theorem exists_zip_option {f : α → γ} {g : β → γ} {a : Option α} {b : Option β}
    (h : a.map f = b.map g) : ∃ z : Option (α × β),
    z.map Prod.fst = a ∧ z.map Prod.snd = b ∧ ∀ x ∈ z.toList, f x.1 = g x.2 := by
  cases a with
  | none =>
    cases b with
    | none => exact ⟨none, rfl, rfl, by simp⟩
    | some => cases h
  | some a =>
    cases b with
    | none => cases h
    | some b => exact ⟨some (a, b), rfl, rfl, by simpa using Option.some.inj h⟩

end

/-! ### Named things -/

section

variable {α β : Type} [BEq α] [LawfulBEq α] {entries : List (α × β)} {k : α} {b : β}

/-- What is found under a name stands there. -/
theorem mem_of_lookup_eq_some (h : entries.lookup k = some b) : (k, b) ∈ entries := by
  obtain ⟨before, after, heq, -⟩ := List.lookup_eq_some_iff.mp h
  simp [heq]

/-- Nothing is found under a name that does not occur. -/
theorem lookup_eq_none_iff_not_mem : entries.lookup k = none ↔ k ∉ entries.map Prod.fst := by
  rw [List.lookup_eq_none_iff, List.mem_map]
  constructor
  · rintro h ⟨entry, hmem, rfl⟩
    simpa using h entry hmem
  · intro h entry hmem
    simpa using fun heq => h ⟨entry, hmem, heq.symm⟩

/-- Under every name but the one that was left out the same is found. -/
theorem lookup_filter_ne (name k : α) (entries : List (α × β)) :
    (entries.filter (·.1 != name)).lookup k = if k == name then none else entries.lookup k := by
  induction entries with
  | nil => simp
  | cons e entries ih =>
    rw [List.filter_cons, List.lookup_cons]
    by_cases he : e.1 = name
    · subst he
      rw [if_neg (by simp), ih]
      cases k == e.1 <;> rfl
    · rw [if_pos (by simpa using he), List.lookup_cons, ih]
      by_cases hk : k = e.1
      · simp [hk, he]
      · simp [beq_eq_false_iff_ne.mpr hk]

/-- Where no name stands twice, what stands under a name is what is found. -/
theorem lookup_eq_some_iff (h : (entries.map Prod.fst).Nodup) :
    entries.lookup k = some b ↔ (k, b) ∈ entries := by
  refine ⟨mem_of_lookup_eq_some, fun hmem => ?_⟩
  obtain ⟨before, after, rfl⟩ := List.mem_iff_append.mp hmem
  refine List.lookup_eq_some_iff.mpr ⟨before, after, rfl, fun e he => ?_⟩
  rw [List.map_append, List.nodup_append] at h
  have hne : e.1 ≠ k := h.2.2 e.1 (List.mem_map_of_mem he) k (by simp)
  simp [hne.symm]

end

end FeatureTree
