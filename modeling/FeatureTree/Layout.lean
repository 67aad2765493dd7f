import FeatureTree.Gherkin.Token

/-!
# Layout

How the lines of a document are written: indentation, titles, aligned tables and fenced doc strings.
Everything here works on texts and lists of lines; which lines a node has is decided elsewhere.

## Main results

* `Layout.length_columnWidths`: a table has as many columns as its longest row has cells
* `Layout.length_tableLines`: a table has one line for each row
* `Layout.map_part`: a part is laid out in the same way whatever its lines are
-/

namespace FeatureTree

namespace Layout

/-- One level of indentation. -/
def indentUnit : Text := [' ', ' ']

/-- What is put in front of a line; a negative number of levels adds nothing. -/
def margin (depth : Int) : Text := (List.replicate depth.toNat indentUnit).flatten

/-- Indents the lines that are not empty by a number of levels. -/
def indentBy (depth : Int) (lines : List Text) : List Text :=
  lines.map fun line => if line.isEmpty then line else margin depth ++ line

/-- Indents lines by one level. -/
def indent (lines : List Text) : List Text := indentBy 1 lines

/-- Widens column widths to hold one more row, given the lengths of its cells. -/
def widen : List Nat → List Nat → List Nat
  | widths, [] => widths
  | [], n :: lengths => n :: widen [] lengths
  | width :: widths, n :: lengths => max width n :: widen widths lengths

/-- The greatest length in each column. Rows may differ in their number of cells. -/
def widest (lengths : List (List Nat)) : List Nat := lengths.foldl widen []

/-- The width of each column of a grid: the length of its longest cell. -/
def columnWidths (grid : List (List Text)) : List Nat := widest (grid.map (·.map List.length))

/-- Fills cells up to the widths of their columns. -/
def padCells (widths : List Nat) (cells : List Text) : List Text :=
  cells.zipWith (fun cell width => cell.padRight width) widths

/-- One line of a table. -/
def tableLine (widths : List Nat) (cells : List Text) : Text :=
  '|' :: ' ' :: [' ', '|', ' '].intercalate (padCells widths cells) ++ [' ', '|']

/-- The lines of a table of cells in their written form. -/
def gridLines (grid : List (List Text)) : List Text := grid.map (tableLine (columnWidths grid))

/-- The lines of a table of cell values. Widths count the escaped cells. -/
def tableLines (rows : List (List Text)) : List Text := gridLines (rows.map (·.map Cell.escape))

/-- A title: the keyword, a colon and the name if there is one. -/
def titleLine (keyword name : Text) : Text :=
  if name.isEmpty then keyword ++ [':'] else keyword ++ ':' :: ' ' :: name

/-- The delimiter of a doc string: the quotes, unless its content holds their escaped form, which
would be taken for the quotes when it is read back. -/
def fenceFor (content : Text) : Text :=
  if Text.hasPart (escapedFence quoteFence) content then backtickFence else quoteFence

/-- The lines of a doc string. -/
def docStringLines (content contentType : Text) : List Text :=
  let fence := fenceFor content
  let escaped := Text.replaceAll fence (escapedFence fence) content
  (fence ++ contentType) :: (if escaped.isEmpty then [] else escaped.splitLines) ++ [fence]

/-- How a titled part begins: its tags on one line, the title, and the description between blank
lines, of which the second stands before a body only. -/
def opening (tags : List Text) (title description : Text) (hasBody : Bool) : List Text :=
  (if tags.isEmpty then [] else [[' '].intercalate tags])
    ++ [title]
    ++ (if description.isEmpty then []
        else [] :: description.splitLines ++ (if hasBody then [[]] else []))

/-- A titled part: how it begins, the lines of its body, and its inner parts each after a blank
line. Texts become lines by a function, because the lines of a body or inner part may be more than
texts. -/
def part {α : Type} (line : Text → α) (tags : List Text) (title description : Text)
    (body : List α) (inner : List (List α)) : List α :=
  (opening tags title description !body.isEmpty).map line ++ body
    ++ inner.flatMap (line [] :: ·)

/-! ### Sizes -/

/-- There is a width for each column that one of the rows has. -/
theorem length_widen (widths lengths : List Nat) :
    (widen widths lengths).length = max widths.length lengths.length := by
  fun_induction widen widths lengths with
  | case1 widths => simp
  | case2 n lengths ih => simp [ih]
  | case3 width widths n lengths ih =>
    simp only [List.length_cons, ih]
    omega

/-- There are as many widths as the longest row has cells. -/
theorem length_foldl_widen (widths : List Nat) (lengths : List (List Nat)) :
    (lengths.foldl widen widths).length = (lengths.map List.length).foldl max widths.length := by
  induction lengths generalizing widths with
  | nil => rfl
  | cons row lengths ih => simp [ih, length_widen]

/-- A table has as many columns as its longest row has cells. -/
theorem length_columnWidths (grid : List (List Text)) :
    (columnWidths grid).length = (grid.map List.length).foldl max 0 := by
  simp [columnWidths, widest, length_foldl_widen, Function.comp_def]

/-- A table has one line for each row. -/
theorem length_tableLines (rows : List (List Text)) : (tableLines rows).length = rows.length := by
  simp [tableLines, gridLines]

/-- Turning the lines of a part into something else turns those of its body and inner parts. -/
theorem map_part {α β : Type} (f : α → β) (line : Text → α) (tags : List Text)
    (title description : Text) (body : List α) (inner : List (List α)) :
    (part line tags title description body inner).map f =
      part (f ∘ line) tags title description (body.map f) (inner.map (·.map f)) := by
  simp [part, List.map_flatMap, List.flatMap_map]

end Layout

end FeatureTree
