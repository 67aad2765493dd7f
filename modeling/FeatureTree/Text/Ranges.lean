/-!
# Ranges of code points

A class of characters given as a list of ranges, as the tables of Unicode properties are.
-/

namespace FeatureTree

/-- A list of ranges of code points, each given by its first and its last member. -/
abbrev CodeRanges := List (Nat × Nat)

/-- Whether a code point lies in one of the ranges. -/
def CodeRanges.holds (n : Nat) (ranges : CodeRanges) : Bool :=
  ranges.any fun (first, last) => first ≤ n && n ≤ last

/-- A number is held by some ranges if it lies in one of them. -/
theorem CodeRanges.holds_iff (n : Nat) (ranges : CodeRanges) :
    ranges.holds n = true ↔ ∃ r ∈ ranges, r.1 ≤ n ∧ n ≤ r.2 := by
  simp [CodeRanges.holds]

end FeatureTree
