import FeatureTree.Node.Shape
import FeatureTree.Record

/-!
# Nodes

A document tree. Every node knows where it comes from: its line and the data it was made from, if
it was read, and the language of the feature that it is attached under. The origin plays no part in
what a node holds; only a node without a keyword of its own falls back on the language.

Functions on nodes go by `Node.fold`, which hands a function the shape of a node with each part next
to its own result.

## Main results

* `Node.fold_mk`: the equation by which every fold is computed
-/

namespace FeatureTree

/-- Where a node comes from. -/
structure Origin where
  /-- The line that the node was read from, null when it is not known. -/
  line : Value := .null
  /-- The data that the node was made from. -/
  capsule : Option Capsule := none
  /-- The language of the feature that the node is attached under. -/
  language : Option Value := none
deriving Inhabited

/-- A document tree. -/
inductive Node where
  | mk (origin : Origin) (shape : Shape Node)

namespace Node

/-- Where the node comes from. -/
def origin : Node → Origin
  | .mk o _ => o

/-- What the node holds. -/
def shape : Node → Shape Node
  | .mk _ s => s

/-- The kind of the node. -/
def kind (n : Node) : Kind := n.shape.kind

/-- The children of the node, in the order of the document. -/
def children (n : Node) : List Node := n.shape.children

/-- How a line, or a line and a column, is shown; a column that is null is not known. -/
def placeText (line column : Value) : Text :=
  match column with
  | .null => line.asText
  | column => line.asText ++ ':' :: column.asText

mutual

/-- Computes a result for a node from its origin and its shape, in which each part stands next to
the part's own result. -/
def fold (f : Origin → Shape (Node × β) → β) : Node → β
  | .mk o s => f o (foldShape f s)

/-- The shape of a node with the results of its parts. -/
def foldShape (f : Origin → Shape (Node × β) → β) : Shape Node → Shape (Node × β)
  | .cell value => .cell value
  | .row cells => .row (foldList f cells)
  | .tag name => .tag name
  | .table rows => .table (foldList f rows)
  | .docString content contentType => .docString content contentType
  | .step keyword text block => .step keyword text (foldOption f block)
  | .background title steps => .background title (foldList f steps)
  | .scenario title tags steps => .scenario title (foldList f tags) (foldList f steps)
  | .outline title tags steps examples =>
    .outline title (foldList f tags) (foldList f steps) (foldList f examples)
  | .example title tags rows => .example title (foldList f tags) (foldList f rows)
  | .rule title tags setup tests =>
    .rule title (foldList f tags) (foldOption f setup) (foldList f tests)
  | .feature title language tags setup tests rules =>
    .feature title language (foldList f tags) (foldOption f setup) (foldList f tests)
      (foldList f rules)
  | .featureFile path held comments => .featureFile path (foldOption f held) (foldList f comments)
  | .directory path featureFiles directories =>
    .directory path (foldList f featureFiles) (foldList f directories)
  | .comment text => .comment text

/-- The parts of a list with their results. -/
def foldList (f : Origin → Shape (Node × β) → β) : List Node → List (Node × β)
  | [] => []
  | n :: ns => (n, n.fold f) :: foldList f ns

/-- A single part with its result. -/
def foldOption (f : Origin → Shape (Node × β) → β) : Option Node → Option (Node × β)
  | none => none
  | some n => some (n, n.fold f)

end

/-! ### The equations of folds -/

/-- Folding a list of nodes folds each of them. -/
@[simp] theorem foldList_eq_map (f : Origin → Shape (Node × β) → β) (ns : List Node) :
    foldList f ns = ns.map fun n => (n, n.fold f) := by
  induction ns with
  | nil => rfl
  | cons n ns ih => simp [foldList, ih]

/-- Folding a node that may be missing folds it if it is there. -/
@[simp] theorem foldOption_eq_map (f : Origin → Shape (Node × β) → β) (n : Option Node) :
    foldOption f n = n.map fun n => (n, n.fold f) := by
  cases n <;> rfl

/-- Folding the parts of a shape folds each of them in its place. -/
theorem foldShape_eq_map (f : Origin → Shape (Node × β) → β) (s : Shape Node) :
    foldShape f s = s.map fun n => (n, n.fold f) := by
  cases s <;> simp [foldShape, Shape.map]

/-- A fold of a node applies the function to the shape with the folds of the parts. -/
theorem fold_mk (f : Origin → Shape (Node × β) → β) (o : Origin) (s : Shape Node) :
    (Node.mk o s).fold f = f o (s.map fun n => (n, n.fold f)) := by
  rw [fold, foldShape_eq_map]

end Node

end FeatureTree
