import FeatureTree.Text.Blank

/-!
# Lines

Two ways of cutting text into lines are in use. Source text is cut at line feeds alone and every
line keeps its line feed (`sourceLines`). Descriptions are cut at every character that ends a line
in any convention, and the ends are dropped (`breakLines`).

## Main results

* `Text.flatten_sourceLines`: the source lines in order are the text
* `Text.joinLines_splitLines`: cutting at line feeds and joining again gives the text back
-/

namespace FeatureTree

/-- Whether a character ends a line in some convention: LF, VT, FF, CR, the separators U+001C to
U+001E, NEL, and the line and paragraph separators. -/
def isLineBreak (c : Char) : Bool :=
  let n := c.toNat
  (0x0A ≤ n && n ≤ 0x0D) || (0x1C ≤ n && n ≤ 0x1E) || n == 0x85 || n == 0x2028 || n == 0x2029

namespace Text

/-- The lines of a source text, each with the line feed that ends it. A text that ends in a line
feed has no further, empty line. -/
def sourceLines : Text → List Text
  | [] => []
  | c :: t =>
    if c = '\n' then ['\n'] :: sourceLines t
    else match sourceLines t with
      | [] => [[c]]
      | line :: lines => (c :: line) :: lines

/-- The lines of a text without their ends, where any line break ends a line and a carriage
return directly before a line feed counts with it as one break. -/
def breakLines : Text → List Text
  | [] => []
  | '\r' :: '\n' :: t => [] :: breakLines t
  | c :: t =>
    if isLineBreak c then [] :: breakLines t
    else match breakLines t with
      | [] => [[c]]
      | line :: lines => (c :: line) :: lines

/-- The pieces between line feeds; there is always at least one. -/
def splitLines (t : Text) : List Text := splitAtChar '\n' t

/-- The lines joined by line feeds. -/
def joinLines (lines : List Text) : Text := ['\n'].intercalate lines

/-- The source lines in order are the text. -/
theorem flatten_sourceLines (t : Text) : (sourceLines t).flatten = t := by
  induction t with
  | nil => rfl
  | cons c t ih =>
    by_cases h : c = '\n'
    · simp [sourceLines, h, ih]
    · simp only [sourceLines, if_neg h]
      cases hs : sourceLines t with
      | nil => rw [hs] at ih; simp at ih; simp [ih]
      | cons line lines => rw [hs] at ih; simp at ih; simp [ih]

/-- Cutting at line feeds and joining again gives the text back. -/
theorem joinLines_splitLines (t : Text) : joinLines (splitLines t) = t :=
  intercalate_splitAtChar '\n' t

end Text

end FeatureTree
