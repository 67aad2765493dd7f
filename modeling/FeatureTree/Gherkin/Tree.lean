import FeatureTree.Gherkin.Parse
import FeatureTree.Value.Basic

/-!
# The tree of a document as a value

A document as plain data: every part is a table of its fields, and parts without a value are left
out. Parts are numbered from zero in the order in which they end, a part after all that it holds;
the tags of a part are numbered directly before the part itself. The feature has no number of its
own, and neither have tables, cells, doc strings and comments.

## Main results

* `Ast.Step.toTree_snd`: a step takes a number for each row of its table and one for itself
-/

namespace FeatureTree

namespace Ast

/-- A computation that hands out numbers. -/
abbrev Numbering := StateM Nat

/-- The next number, as text. -/
def nextNumber : Numbering Value := fun n => (.text (Nat.toDigits 10 n), n + 1)

/-- A place as a value. -/
def locationTree (p : Location) : Value :=
  .table [("line", .int p.line), ("column", .int p.column)]

/-- A field that is left out when its value is. -/
def optionalField (name : String) (value : Option Value) : List (String × Value) :=
  (value.map fun v => (name, v)).toList

def Tag.toTree (t : Tag) : Numbering Value := do
  let id ← nextNumber
  return .table [("id", id), ("location", locationTree t.loc), ("name", .text t.name)]

def Cell.toTree (c : Cell) : Value :=
  .table [("location", locationTree c.loc), ("value", .text c.value)]

def Row.toTree (r : Row) : Numbering Value := do
  let id ← nextNumber
  return .table
    [("id", id), ("location", locationTree r.loc), ("cells", .list (r.cells.map Cell.toTree))]

/-- A table of rows; it stands where its first row stands. -/
def tableTree (rows : List Row) : Numbering (Option Value) :=
  match rows with
  | [] => return none
  | first :: _ => do
    let values ← rows.mapM Row.toTree
    return some (.table [("location", locationTree first.loc), ("rows", .list values)])

def DocString.toTree (s : DocString) : Value :=
  .table ([("location", locationTree s.loc), ("content", .text s.content),
      ("delimiter", .text s.mark)]
    ++ optionalField "mediaType" (if s.mediaType.isEmpty then none else some (.text s.mediaType)))

/-- The name of a step's role. -/
def roleName : StepRole → String
  | .context => "Context"
  | .action => "Action"
  | .outcome => "Outcome"
  | .conjunction => "Conjunction"
  | .unknown => "Unknown"

def Step.toTree (s : Step) : Numbering Value := do
  let table ← tableTree s.table
  let id ← nextNumber
  return .table ([("id", id), ("location", locationTree s.loc), ("keyword", .text s.keyword),
      ("keywordType", .text (roleName s.role).toList), ("text", .text s.text)]
    ++ optionalField "dataTable" table
    ++ optionalField "docString" (s.docString.map DocString.toTree))

/-- The fields of a title and its description. -/
def Heading.fields (h : Heading) : List (String × Value) :=
  [("location", locationTree h.loc), ("keyword", .text h.keyword), ("name", .text h.name),
   ("description", .text h.descriptionText)]

def Background.toTree (b : Background) : Numbering Value := do
  let steps ← b.steps.mapM Step.toTree
  let id ← nextNumber
  return .table (("id", id) :: b.heading.fields ++ [("steps", .list steps)])

def Examples.toTree (e : Examples) : Numbering Value := do
  let rows ← e.rows.mapM Row.toTree
  let tags ← e.tags.mapM Tag.toTree
  let id ← nextNumber
  return .table (("id", id) :: ("tags", .list tags) :: e.heading.fields
    ++ optionalField "tableHeader" rows.head? ++ [("tableBody", .list rows.tail)])

def Scenario.toTree (s : Scenario) : Numbering Value := do
  let steps ← s.steps.mapM Step.toTree
  let examples ← s.examples.mapM Examples.toTree
  let tags ← s.tags.mapM Tag.toTree
  let id ← nextNumber
  return .table (("id", id) :: ("tags", .list tags) :: s.heading.fields
    ++ [("steps", .list steps), ("examples", .list examples)])

/-- The sections as feature or rule children: each in a table with one field, named for what it
is. -/
def Body.toTrees (b : Body) : Numbering (List Value) := do
  let background ← b.background.mapM Background.toTree
  let scenarios ← b.scenarios.mapM Scenario.toTree
  return (background.map fun v => Value.table [("background", v)]).toList
    ++ scenarios.map fun v => .table [("scenario", v)]

def Rule.toTree (r : Rule) : Numbering Value := do
  let children ← r.body.toTrees
  let tags ← r.tags.mapM Tag.toTree
  let id ← nextNumber
  return .table (("id", id) :: ("tags", .list tags) :: r.heading.fields
    ++ [("children", .list children)])

def Feature.toTree (f : Feature) : Numbering Value := do
  let sections ← f.body.toTrees
  let rules ← f.rules.mapM Rule.toTree
  let tags ← f.tags.mapM Tag.toTree
  return .table (("tags", .list tags) :: ("language", .text f.language) :: f.heading.fields
    ++ [("children", .list (sections ++ rules.map fun v => .table [("rule", v)]))])

def Comment.toTree (c : Comment) : Value :=
  .table [("location", locationTree c.loc), ("text", .text c.text)]

/-- The tree of a document. -/
def Document.toTree (d : Document) : Value :=
  let feature : Option Value := ((d.feature.mapM Feature.toTree : Numbering _).run 0).1
  .table (optionalField "feature" feature
    ++ [("comments", .list (d.comments.map Comment.toTree))])

/-! ### How many numbers a part takes -/

/-- Every tag takes one number. -/
theorem Tag.toTree_snd (t : Tag) (n : Nat) : (t.toTree n).2 = n + 1 := rfl

/-- Every row takes one number. -/
theorem Row.toTree_snd (r : Row) (n : Nat) : (r.toTree n).2 = n + 1 := rfl

/-- Parts that take one number each take as many as there are. -/
theorem mapM_toTree_snd {f : α → Numbering Value} (h : ∀ a n, ((f a) n).2 = n + 1)
    (xs : List α) (n : Nat) : ((xs.mapM f : Numbering _) n).2 = n + xs.length := by
  induction xs generalizing n with
  | nil => rfl
  | cons x xs ih =>
    have : (((x :: xs).mapM f : Numbering _) n).2 = ((xs.mapM f : Numbering _) ((f x) n).2).2 := by
      rw [List.mapM_cons]
      rfl
    rw [this, ih, h, List.length_cons]
    omega

/-- The rows of a table take as many numbers as there are rows. -/
theorem tableTree_snd (rows : List Row) (n : Nat) : (tableTree rows n).2 = n + rows.length := by
  cases rows with
  | nil => rfl
  | cons r rows =>
    have : (tableTree (r :: rows) n).2 = (((r :: rows).mapM Row.toTree : Numbering _) n).2 := rfl
    rw [this, mapM_toTree_snd Row.toTree_snd]

/-- A step takes a number for each row of its table and one for itself. -/
theorem Step.toTree_snd (s : Step) (n : Nat) : (s.toTree n).2 = n + s.table.length + 1 := by
  have : (s.toTree n).2 = (tableTree s.table n).2 + 1 := rfl
  rw [this, tableTree_snd]

end Ast

end FeatureTree
