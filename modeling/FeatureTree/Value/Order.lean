import FeatureTree.Value.Basic

/-!
# The order of values

Numbers and truth values are ordered as numbers, texts by their code points, lists by the first
place where they differ. Two values of other or of different kinds have no order, and a list that
brings two such values together cannot be sorted. Sorting is stable.

## Main results

* `Value.sortBy?_perm`: sorting neither adds nor loses members
* `Value.sortBy?_singleton`: a single value is sorted whatever it is
-/

namespace FeatureTree

namespace Value

/-- A number or truth value as a fraction. -/
def fraction? : Value → Option (Int × Nat)
  | .bool b => some (if b then 1 else 0, 1)
  | .int i => some (i, 1)
  | .float x => floatFraction? x
  | _ => none

/-- A number or truth value as a floating point number, where it has no fraction. -/
def float? : Value → Option Float
  | .bool b => some (if b then 1.0 else 0.0)
  | .int i => some (Float.ofInt i)
  | .float x => some x
  | _ => none

/-- Whether a number is less than another; no answer for values that are no numbers. -/
def numberLess? (a b : Value) : Option Bool :=
  match a.fraction?, b.fraction? with
  | some (m, p), some (n, q) => some (m * q < n * p)
  | _, _ => do
    let x ← a.float?
    let y ← b.float?
    return x < y

mutual

/-- Whether a value is less than another; no answer if they have no order. -/
def less? : Value → Value → Option Bool
  | .text s, .text t => some (s < t)
  | .list items, v => v.items?.bind (lessItems? items)
  | .kept _ items, v => v.items?.bind (lessItems? items)
  | a, b => numberLess? a b

/-- Whether a list is less than another one: at the first place where they differ, or because it
ends there. -/
def lessItems? : List Value → List Value → Option Bool
  | _, [] => some false
  | [], _ :: _ => some true
  | a :: items, b :: others => if a.agrees b then lessItems? items others else less? a b

end

/-- Puts a member before the first member of a list that is not less. -/
def insertBy? (less? : α → α → Option Bool) (x : α) : List α → Option (List α)
  | [] => some [x]
  | y :: ys => do
    if ← less? y x then return y :: (← insertBy? less? x ys) else return x :: y :: ys

/-- Sorts a list, if all the members that have to be compared have an order. -/
def sortBy? (less? : α → α → Option Bool) : List α → Option (List α)
  | [] => some []
  | x :: xs => do insertBy? less? x (← sortBy? less? xs)

/-! ### Laws of sorting -/

/-- Inserting a value in its place keeps all others. -/
theorem insertBy?_perm {less? : α → α → Option Bool} {x : α} {ys zs : List α}
    (h : insertBy? less? x ys = some zs) : zs.Perm (x :: ys) := by
  induction ys generalizing zs with
  | nil => simp [insertBy?] at h; subst h; exact .refl _
  | cons y ys ih =>
    simp only [insertBy?, Option.bind_eq_bind, Option.bind_eq_some_iff] at h
    obtain ⟨b, _, h⟩ := h
    cases b with
    | false => simp at h; subst h; exact .refl _
    | true =>
      simp only [if_true, Option.bind_eq_some_iff] at h
      obtain ⟨ws, hw, h⟩ := h
      simp at h
      subst h
      exact ((ih hw).cons y).trans (.swap x y ys)

/-- Sorting neither adds nor loses members. -/
theorem sortBy?_perm {less? : α → α → Option Bool} {xs zs : List α}
    (h : sortBy? less? xs = some zs) : zs.Perm xs := by
  induction xs generalizing zs with
  | nil => simp [sortBy?] at h; subst h; exact .refl _
  | cons x xs ih =>
    simp only [sortBy?, Option.bind_eq_bind, Option.bind_eq_some_iff] at h
    obtain ⟨ys, hy, h⟩ := h
    exact (insertBy?_perm h).trans ((ih hy).cons x)

/-- A single value is sorted whatever it is. -/
theorem sortBy?_singleton (less? : α → α → Option Bool) (x : α) : sortBy? less? [x] = some [x] := by
  simp [sortBy?, insertBy?]

end Value

end FeatureTree
