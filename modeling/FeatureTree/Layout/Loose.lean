import FeatureTree.Layout
import FeatureTree.Value.Members
import FeatureTree.Value.Written

/-!
# Layout of values

Layout where not everything is a text: what a node holds in the place of a text can be any value,
and so can a whole line. What is absent takes no room; where a text has to be searched or cut, or
put into a longer line as it is, only a text will do; elsewhere a value is written as text.

## Main results

* `Layout.indentValues_text`, `Layout.joinValues_text`: lines that are texts are indented and joined
  as such
* `Layout.titleOf_text`: the title line of a keyword and a name that are texts
* `Layout.tableOf_text`: the table of rows of texts
-/

namespace FeatureTree

namespace Layout

/-- A value where only a text can stand. -/
def textOnly (v : Value) : Except Fault Text :=
  match v with
  | .text t => .ok t
  | _ => .error .unusableValue

/-- Indents a line by a number of levels if it is present. -/
def indentValue (depth : Int) (line : Value) : Except Fault Value :=
  if line.isPresent then (fun t => .text (margin depth ++ t)) <$> textOnly line else .ok line

/-- Indents the lines that are present by a number of levels. -/
def indentValues (depth : Int) (lines : List Value) : Except Fault (List Value) :=
  lines.mapM (indentValue depth)

/-- Indents the members of a value by a number of levels, which has to be a whole number or a truth
value. -/
def indentMembers (depth lines : Value) : Except Fault (List Value) := do
  match depth with
  | .int depth => indentValues depth (← lines.members)
  | .bool deeper => indentValues (if deeper then 1 else 0) (← lines.members)
  | _ => throw .unusableValue

/-- Lines joined by line feeds. -/
def joinValues (lines : List Value) : Except Fault Text := Text.joinLines <$> lines.mapM textOnly

/-- The title of a keyword and a name, where `write` writes values; there is no name if it is
absent. -/
def titleOf (write : Value → Except Fault Text) (keyword name : Value) : Except Fault Text := do
  let keyword ← write keyword
  if name.isPresent then return keyword ++ ':' :: ' ' :: (← write name)
  else return keyword ++ [':']

/-- The written form of the value of a cell. -/
def cellText (value : Value) : Except Fault Text :=
  match value with
  | .text t => .ok (Cell.escape t)
  | _ => .error .noAttribute

/-- The lines of a table of values. -/
def tableOf (rows : Value) : Except Fault (List Text) := do
  let grid ← (← rows.members).mapM Value.members
  return gridLines (← grid.mapM (·.mapM cellText))

/-- The width of each column of a grid of values, which can be texts or have members. -/
def widthsOf (grid : Value) : Except Fault (List Nat) := do
  return widest (← (← grid.members).mapM fun row => do (← row.members).mapM Value.size)

/-- A description; it is left out if it is absent. -/
def descriptionText (description : Value) : Except Fault Text :=
  match description with
  | .text t => .ok t
  | v => if v.isPresent then .error .noAttribute else .ok []

/-- The content of a doc string. Before it can be written it is searched for the fence, so what has
no members is told apart from what is no text. -/
def contentText (content : Value) : Except Fault Text :=
  match content with
  | .text t => .ok t
  | content => do
    let _ ← content.members
    throw .noAttribute

/-- The delimiter for a content that is searched for the escaped quotes. -/
def fenceOf (content : Value) : Except Fault Text := do
  if ← content.mentions (escapedFence quoteFence) then return backtickFence else return quoteFence

/-- The members of a value as texts, each after a backslash. -/
def escapedMembers (mark : Value) : Except Fault Text := do
  return (← (← mark.members).mapM Value.written).flatMap ('\\' :: ·)

/-! ### Texts among values -/

/-- Lines that are texts are indented as such. -/
theorem indentValues_text (depth : Int) (lines : List Text) :
    indentValues depth (lines.map .text) = .ok ((indentBy depth lines).map .text) := by
  induction lines with
  | nil => rfl
  | cons line lines ih =>
    have hl : indentValue depth (.text line) =
        .ok (.text (if line.isEmpty then line else margin depth ++ line)) := by
      cases h : line.isEmpty <;> simp [indentValue, textOnly, h, Functor.map, Except.map]
    rw [indentValues, List.map_cons, List.mapM_cons, hl]
    rw [indentValues] at ih
    rw [ih]
    rfl

/-- Lines that are texts are read off one by one. -/
theorem mapM_textOnly (lines : List Text) : (lines.map Value.text).mapM textOnly = .ok lines := by
  induction lines with
  | nil => rfl
  | cons line lines ih => rw [List.map_cons, List.mapM_cons, ih]; rfl

/-- Lines that are texts are joined as such. -/
theorem joinValues_text (lines : List Text) :
    joinValues (lines.map .text) = .ok (Text.joinLines lines) := by
  rw [joinValues, mapM_textOnly]
  rfl

/-- The title line of a keyword and a name that are texts. -/
theorem titleOf_text {write : Value → Except Fault Text} (h : ∀ t, write (.text t) = .ok t)
    (keyword name : Text) :
    titleOf write (.text keyword) (.text name) = .ok (titleLine keyword name) := by
  cases hn : name.isEmpty <;>
    simp [titleOf, titleLine, h, hn, bind, Except.bind, pure, Except.pure]

/-- Cells that are texts are written with their escapes. -/
theorem mapM_cellText (cells : List Text) :
    (cells.map Value.text).mapM cellText = .ok (cells.map Cell.escape) := by
  induction cells with
  | nil => rfl
  | cons cell cells ih => rw [List.map_cons, List.mapM_cons, ih]; rfl

/-- The table of rows of texts. -/
theorem tableOf_text (rows : List (List Text)) :
    tableOf (.list (rows.map fun cells => .list (cells.map .text))) = .ok (tableLines rows) := by
  have hm : (rows.map fun cells => Value.list (cells.map .text)).mapM Value.members =
      .ok (rows.map (·.map .text)) := by
    induction rows with
    | nil => rfl
    | cons cells rows ih => rw [List.map_cons, List.mapM_cons, ih]; rfl
  have hc : (rows.map (·.map Value.text)).mapM (·.mapM cellText) =
      .ok (rows.map (·.map Cell.escape)) := by
    clear hm
    induction rows with
    | nil => rfl
    | cons cells rows ih => rw [List.map_cons, List.mapM_cons, mapM_cellText, ih]; rfl
  simp [tableOf, Value.members, hm, hc, bind, Except.bind, pure, Except.pure, tableLines]

end Layout

end FeatureTree
