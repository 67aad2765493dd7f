/-!
# Text

A text is a list of code points. Lengths, widths, columns and order are all counted in code
points, so a list of characters is the representation in which the rules of this library are
stated and proved; `String` appears only where text enters or leaves the program.

## Contents

* `Text.replaceAll`: replacement of every occurrence, left to right, without overlap
* `Text.hasPart`: whether a text occurs inside another
* `Text.dropEndWhile`: dropping at the end of a list
* `Text.padRight`: filling a text up to a width
-/

namespace FeatureTree

/-- A text: the list of its code points. -/
abbrev Text := List Char

namespace Text

/-- The text of a string literal. -/
abbrev ofString (s : String) : Text := s.toList

/-- Drops the longest end of a list whose members all satisfy `p`. -/
def dropEndWhile (p : α → Bool) (xs : List α) : List α :=
  (xs.reverse.dropWhile p).reverse

/-- `replaceAfter old new k t` leaves out the first `k` code points of `t` and then replaces the
occurrences of `old` by `new`. The count stands for the rest of an occurrence already replaced. -/
def replaceAfter (old new : Text) : Nat → Text → Text
  | _, [] => []
  | k + 1, _ :: t => replaceAfter old new k t
  | 0, c :: t =>
    if old.isPrefixOf (c :: t) then new ++ replaceAfter old new (old.length - 1) t
    else c :: replaceAfter old new 0 t

/-- Replaces every occurrence of `old` by `new`, reading from the left, so that occurrences do not
overlap. `old` is meant to be non-empty. -/
def replaceAll (old new t : Text) : Text := replaceAfter old new 0 t

/-- Whether `part` occurs in a text as a run of adjacent code points. -/
def hasPart (part : Text) : Text → Bool
  | [] => part.isEmpty
  | c :: t => part.isPrefixOf (c :: t) || hasPart part t

/-- Fills a text with spaces on the right up to `width`; a longer text is left alone. -/
def padRight (width : Nat) (t : Text) : Text :=
  t ++ List.replicate (width - t.length) ' '

/-- Splits at every occurrence of `sep`; the pieces hold no separator and there is one more of
them than there are separators. -/
def splitAtChar (sep : Char) : Text → List Text
  | [] => [[]]
  | c :: t =>
    if c = sep then [] :: splitAtChar sep t
    else match splitAtChar sep t with
      | [] => [[c]]
      | piece :: pieces => (c :: piece) :: pieces

/-- The part before the first `sep` and the part after it, when there is one. -/
def cutAtChar (sep : Char) : Text → Option (Text × Text)
  | [] => none
  | c :: t =>
    if c = sep then some ([], t)
    else (cutAtChar sep t).map fun (before, after) => (c :: before, after)

/-! ### Small laws -/

/-- There is nothing to replace in an empty text. -/
@[simp] theorem replaceAll_nil (old new : Text) : replaceAll old new [] = [] := rfl

/-- The empty text is part of every text. -/
@[simp] theorem hasPart_nil (t : Text) : hasPart [] t = true := by
  cases t <;> simp [hasPart]

/-- A text has one piece at least. -/
theorem splitAtChar_ne_nil (sep : Char) (t : Text) : splitAtChar sep t ≠ [] := by
  cases t with
  | nil => simp [splitAtChar]
  | cons c t =>
    by_cases h : c = sep
    · simp [splitAtChar, h]
    · simp only [splitAtChar, if_neg h]
      split <;> simp

/-- Joining the pieces with the separator gives the text back. -/
theorem intercalate_splitAtChar (sep : Char) (t : Text) :
    [sep].intercalate (splitAtChar sep t) = t := by
  induction t with
  | nil => rfl
  | cons c t ih =>
    have hne := splitAtChar_ne_nil sep t
    by_cases h : c = sep
    · subst h
      simp only [splitAtChar, if_true]
      cases hs : splitAtChar c t with
      | nil => exact absurd hs hne
      | cons piece pieces =>
        rw [hs] at ih
        simp [List.intercalate, List.intersperse] at ih ⊢
        exact ih
    · simp only [splitAtChar, if_neg h]
      cases hs : splitAtChar sep t with
      | nil => exact absurd hs hne
      | cons piece pieces =>
        rw [hs] at ih
        cases pieces with
        | nil => simpa [List.intercalate, List.intersperse] using ih
        | cons second others =>
          simpa [List.intercalate, List.intersperse] using ih

/-- A padded text is as long as the width, or as it was if that is longer. -/
@[simp] theorem length_padRight (width : Nat) (t : Text) :
    (padRight width t).length = max width t.length := by
  simp only [padRight, List.length_append, List.length_replicate]
  omega

end Text

end FeatureTree
