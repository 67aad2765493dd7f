import FeatureTree.Schema.Legacy
import Mathlib.Data.List.Sort

/-!
# Sorting by lines

Values that are all ordered by numbers are sorted by these numbers, and stably: of members with the
same number the order stays what it was. So comments of legacy output come out in the order of their
lines.

## Main results

* `Value.exists_sortBy?_stable`: what is ordered by numbers is sorted stably
* `Value.isSome_sortBy?`: members that all have an order can be sorted
* `Schema.Legacy.standsBefore?_eq`: comments are ordered by the numbers of their lines
-/

namespace FeatureTree

namespace Value

variable {α : Type} {less? : α → α → Option Bool} {key : α → Int}

/-- Where all comparisons succeed, inserting by them is inserting by the keys. -/
theorem insertBy?_eq_orderedInsert {x : α} {ys : List α}
    (h : ∀ y ∈ ys, less? y x = some (decide (key y < key x))) :
    insertBy? less? x ys = some (ys.orderedInsert (fun a b => key a ≤ key b) x) := by
  induction ys with
  | nil => rfl
  | cons y ys ih =>
    have hys := ih fun z hz => h z (List.mem_cons_of_mem _ hz)
    rw [insertBy?, h y List.mem_cons_self, List.orderedInsert]
    by_cases hlt : key y < key x
    · simp [hlt, hys]
    · simp [hlt, Int.not_lt.mp hlt]

/-- Putting a member into its place leaves the order of all members with one number alone. -/
theorem filter_orderedInsert (k : Int) (x : α) (ys : List α) :
    (ys.orderedInsert (fun a b => key a ≤ key b) x).filter (key · = k)
      = (x :: ys).filter (key · = k) := by
  induction ys with
  | nil => rfl
  | cons y ys ih =>
    rw [List.orderedInsert]
    by_cases hle : key x ≤ key y
    · rw [if_pos hle]
    · -- the member that comes first has another number than the one that is put in
      rw [if_neg hle, List.filter_cons, ih]
      by_cases hx : key x = k
      · have hy : key y ≠ k := by omega
        simp [hx, hy]
      · simp [hx, List.filter_cons]

/-- Sorting keeps the order of what has the same key. -/
theorem filter_insertionSort (k : Int) (xs : List α) :
    (xs.insertionSort fun a b => key a ≤ key b).filter (key · = k) = xs.filter (key · = k) := by
  induction xs with
  | nil => rfl
  | cons x xs ih =>
    rw [List.insertionSort_cons, filter_orderedInsert, List.filter_cons, List.filter_cons, ih]

/-- A list in the order of numbers, in which members with the same number stand as in another
list. -/
structure IsStableSort (key : α → Int) (xs zs : List α) : Prop where
  sorted : zs.Pairwise fun a b => key a ≤ key b
  stable : ∀ k, zs.filter (key · = k) = xs.filter (key · = k)

/-- A stable sort is one of what a function makes of the sorted things. -/
theorem IsStableSort.of_map {β : Type} {f : β → α} {xs zs : List β}
    (h : IsStableSort (key ∘ f) xs zs) : IsStableSort key (xs.map f) (zs.map f) where
  sorted := List.pairwise_map.mpr h.sorted
  stable k := by
    rw [List.filter_map, List.filter_map]
    exact congrArg _ (h.stable k)

/-- A list whose members are ordered by numbers is sorted by them, stably. -/
theorem exists_sortBy?_stable {xs : List α}
    (h : ∀ x ∈ xs, ∀ y ∈ xs, less? x y = some (decide (key x < key y))) :
    ∃ zs, sortBy? less? xs = some zs ∧ IsStableSort key xs zs := by
  have hsort : sortBy? less? xs = some (xs.insertionSort fun a b => key a ≤ key b) := by
    induction xs with
    | nil => rfl
    | cons x xs ih =>
      have hxs := ih fun y hy z hz =>
        h y (List.mem_cons_of_mem _ hy) z (List.mem_cons_of_mem _ hz)
      rw [sortBy?, hxs]
      refine insertBy?_eq_orderedInsert fun y hy => ?_
      have hmem := (List.perm_insertionSort (fun a b => key a ≤ key b) xs).subset hy
      exact h y (List.mem_cons_of_mem _ hmem) x List.mem_cons_self
  refine ⟨_, hsort, ?_, fun k => filter_insertionSort k xs⟩
  have : Std.Total fun a b : α => key a ≤ key b := ⟨fun a b => Int.le_total _ _⟩
  have : IsTrans α fun a b => key a ≤ key b := ⟨fun a b c => Int.le_trans⟩
  exact List.pairwise_insertionSort _ xs

/-- Members that all have an order can be sorted. -/
theorem isSome_sortBy? {xs : List α} (h : ∀ x ∈ xs, ∀ y ∈ xs, (less? x y).isSome = true) :
    (sortBy? less? xs).isSome = true := by
  have hinsert : ∀ {x : α} {ys : List α}, (∀ y ∈ ys, (less? y x).isSome = true) →
      (insertBy? less? x ys).isSome = true := by
    intro x ys hys
    induction ys with
    | nil => rfl
    | cons y ys ih =>
      rw [List.forall_mem_cons] at hys
      obtain ⟨b, hb⟩ := Option.isSome_iff_exists.mp hys.1
      obtain ⟨zs, hzs⟩ := Option.isSome_iff_exists.mp (ih hys.2)
      cases b <;> simp [insertBy?, hb, hzs]
  induction xs with
  | nil => rfl
  | cons x xs ih =>
    obtain ⟨zs, hzs⟩ := Option.isSome_iff_exists.mp
      (ih fun y hy z hz => h y (List.mem_cons_of_mem _ hy) z (List.mem_cons_of_mem _ hz))
    rw [sortBy?, hzs]
    refine hinsert fun y hy => h y ?_ x List.mem_cons_self
    exact List.mem_cons_of_mem _ ((sortBy?_perm hzs).subset hy)

end Value

namespace Schema.Legacy

/-- The number of the line of a record, zero if it has none. -/
def lineNumber (r : Record) : Int :=
  match r.line with
  | .int i => i
  | _ => 0

/-- Records with a line or without one are ordered by their line numbers. -/
theorem orderLine_eq {r : Record} (h : r.line = .null ∨ ∃ i, r.line = .int i) :
    orderLine r = .int (lineNumber r) := by
  rcases h with h | ⟨i, h⟩
  · rw [orderLine, lineNumber, h]
    rfl
  · rw [orderLine, lineNumber, h]
    by_cases hi : i = 0 <;> simp [Value.isPresent, hi]

/-- Comments are ordered by the numbers of their lines. -/
theorem standsBefore?_eq {a b : Record} (ha : a.line = .null ∨ ∃ i, a.line = .int i)
    (hb : b.line = .null ∨ ∃ i, b.line = .int i) :
    standsBefore? a b = some (decide (lineNumber a < lineNumber b)) := by
  rw [standsBefore?, orderLine_eq ha, orderLine_eq hb]
  simp [Value.less?, Value.numberLess?, Value.fraction?]

end Schema.Legacy

end FeatureTree
