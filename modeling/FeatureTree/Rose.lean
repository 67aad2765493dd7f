/-!
# Rose trees and their traversals

A rose tree is a label with any number of trees below it. Three orders in which its labels are
visited: a label before those below it, after them, or level by level from the top.

## Main results

* `Rose.Order.ofName?_name`: every order is found under its name
* `Rose.preorder_node`, `Rose.postorder_node`: the two depth-first orders, step by step
* `Rose.length_preorder`, `Rose.length_postorder`: each of them visits as many labels as there are
-/

namespace FeatureTree

/-- A label with trees below it. -/
inductive Rose (α : Type) where
  | node (label : α) (branches : List (Rose α))

namespace Rose

variable {α β : Type}

/-- The label at the top. -/
def label : Rose α → α
  | node a _ => a

/-- The trees directly below the top. -/
def branches : Rose α → List (Rose α)
  | node _ ts => ts

mutual

/-- Computes a result from the label at the top and the results of the trees below it. -/
def fold (f : α → List β → β) : Rose α → β
  | node a ts => f a (foldList f ts)

/-- The results of a list of trees. -/
def foldList (f : α → List β → β) : List (Rose α) → List β
  | [] => []
  | t :: ts => t.fold f :: foldList f ts

end

/-- Folding a list of trees folds each of them. -/
@[simp] theorem foldList_eq_map (f : α → List β → β) (ts : List (Rose α)) :
    foldList f ts = ts.map (fold f) := by
  induction ts with
  | nil => rfl
  | cons t ts ih => simp [foldList, ih]

/-- A fold applies the function to the label and the folds of what is below it. -/
theorem fold_node (f : α → List β → β) (a : α) (ts : List (Rose α)) :
    (node a ts).fold f = f a (ts.map (fold f)) := by
  rw [fold, foldList_eq_map]

/-- The number of labels. -/
def size : Rose α → Nat := fold fun _ sizes => 1 + sizes.foldr (· + ·) 0

/-- A label before those below it. -/
def preorder : Rose α → List α := fold fun a orders => a :: orders.flatten

/-- A label after those below it. -/
def postorder : Rose α → List α := fold fun a orders => orders.flatten ++ [a]

/-- Visits a queue of trees from the front; what is below a tree joins the end of the queue. The
first argument is the number of labels still to visit. -/
def levelOrderFrom : Nat → List (Rose α) → List α
  | 0, _ => []
  | _, [] => []
  | n + 1, t :: queue => t.label :: levelOrderFrom n (queue ++ t.branches)

/-- The labels level by level. -/
def levelOrder (t : Rose α) : List α := levelOrderFrom t.size [t]

/-- The orders in which labels are visited. -/
inductive Order where
  | pre
  | post
  | level
deriving DecidableEq, Repr

/-- The name of an order. -/
def Order.name : Order → String
  | .pre => "pre"
  | .post => "post"
  | .level => "level"

/-- The order of a name. -/
def Order.ofName? (name : List Char) : Option Order :=
  [pre, post, level].find? (·.name.toList = name)

/-- The labels in an order. -/
def inOrder (t : Rose α) : Order → List α
  | .pre => t.preorder
  | .post => t.postorder
  | .level => t.levelOrder

/-- Every order is found under its name. -/
theorem Order.ofName?_name (o : Order) : ofName? o.name.toList = some o := by cases o <;> decide

/-! ### Step by step -/

/-- A tree has the label at its top and those of the trees below. -/
theorem size_node (a : α) (ts : List (Rose α)) :
    (node a ts).size = 1 + (ts.map size).foldr (· + ·) 0 := fold_node _ a ts

/-- The label at the top is visited before those below it. -/
theorem preorder_node (a : α) (ts : List (Rose α)) :
    (node a ts).preorder = a :: ts.flatMap preorder := by
  rw [preorder, fold_node, List.flatMap_def]

/-- The label at the top is visited after those below it. -/
theorem postorder_node (a : α) (ts : List (Rose α)) :
    (node a ts).postorder = ts.flatMap postorder ++ [a] := by
  rw [postorder, fold_node, List.flatMap_def]

mutual

/-- The orders that go down first visit as many labels as there are. -/
theorem length_preorder : (t : Rose α) → t.preorder.length = t.size
  | node a ts => by
    rw [preorder_node, size_node, List.length_cons, length_flatMap_preorder ts, Nat.add_comm]

/-- Going through several trees visits as many labels as they have. -/
theorem length_flatMap_preorder :
    (ts : List (Rose α)) → (ts.flatMap preorder).length = (ts.map size).foldr (· + ·) 0
  | [] => rfl
  | t :: ts => by
    rw [List.flatMap_cons, List.length_append, length_preorder t, length_flatMap_preorder ts,
      List.map_cons, List.foldr_cons]

end

mutual

/-- Visiting the labels from below visits as many as there are. -/
theorem length_postorder : (t : Rose α) → t.postorder.length = t.size
  | node a ts => by
    rw [postorder_node, size_node, List.length_append, length_flatMap_postorder ts, Nat.add_comm]
    rfl

/-- Going through several trees from below visits as many labels as they have. -/
theorem length_flatMap_postorder :
    (ts : List (Rose α)) → (ts.flatMap postorder).length = (ts.map size).foldr (· + ·) 0
  | [] => rfl
  | t :: ts => by
    rw [List.flatMap_cons, List.length_append, length_postorder t, length_flatMap_postorder ts,
      List.map_cons, List.foldr_cons]

end

end Rose

end FeatureTree
