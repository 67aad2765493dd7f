import FeatureTree.Text.Lines

/-!
# Descriptions

A description is free text between a title and what follows it. Its normal form has no blank lines
at its ends and no indentation that all its lines share; a line of blanks is empty. Indentation
beyond the shared one stays, and so do blanks at the ends of lines.

## Main results

* `Text.dropBlankEdges_eq_nil_iff`: no line is left only when all lines are blank
-/

namespace FeatureTree

namespace Text

/-- Drops the blank lines at both ends. -/
def dropBlankEdges (lines : List Text) : List Text :=
  dropEndWhile isAllBlank (lines.dropWhile isAllBlank)

/-- The least indentation of the lines that are not blank. -/
def sharedIndent (lines : List Text) : Nat :=
  (((lines.filter fun l => !l.isAllBlank).map indentOf).min?).getD 0

/-- Removes the shared indentation; blank lines become empty. -/
def dedent (lines : List Text) : List Text :=
  let shared := sharedIndent lines
  lines.map fun l => if l.isAllBlank then [] else l.drop shared

/-- The lines of the normal form of a description. -/
def descriptionLines (t : Text) : List Text := dedent (dropBlankEdges t.breakLines)

/-- The normal form of a description. -/
def trimDescription (t : Text) : Text := joinLines (descriptionLines t)

/-- Nothing is left at the start if everything is dropped. -/
theorem dropWhile_eq_nil {p : α → Bool} {xs : List α} :
    xs.dropWhile p = [] ↔ ∀ x ∈ xs, p x = true := by
  induction xs with
  | nil => simp
  | cons x xs ih =>
    by_cases h : p x = true
    · simp [h, ih]
    · simp [h]

/-- Nothing is left at the end if everything is dropped. -/
theorem dropEndWhile_eq_nil {p : α → Bool} {xs : List α} :
    dropEndWhile p xs = [] ↔ ∀ x ∈ xs, p x = true := by
  rw [dropEndWhile, List.reverse_eq_nil_iff, dropWhile_eq_nil]
  simp only [List.mem_reverse]

/-- No line is left only when all lines are blank. -/
theorem dropBlankEdges_eq_nil_iff (lines : List Text) :
    dropBlankEdges lines = [] ↔ ∀ l ∈ lines, l.isAllBlank = true := by
  rw [dropBlankEdges, dropEndWhile_eq_nil]
  constructor
  · intro h l hl
    rw [← List.takeWhile_append_dropWhile (p := isAllBlank) (l := lines), List.mem_append] at hl
    rcases hl with ht | hd
    · exact List.all_eq_true.mp List.all_takeWhile l ht
    · exact h l hd
  · intro h l hl
    exact h l ((List.dropWhile_sublist _).subset hl)

end Text

end FeatureTree
