import FeatureTree.Rose
import FeatureTree.Store.Content

/-!
# Trees in a store

A tree can be planted in a store, which attaches every part to the node that owns it, and a store
can be walked from a node to its children. A node that was attached below itself has no finite tree,
and a child that is no node cannot be gone to.

## Main results

* `Store.walk_of_plain`: walking a node is going through what is below it in an order
-/

namespace FeatureTree

namespace Store

/-- Adds a node and attaches its parts to it. -/
def addOwner (e : Entry) (s : Store) : NodeId × Store :=
  let (i, s) := s.add e
  (i, e.shape.parts.foldl (fun s part => s.setParent (some i) part) s)

/-- Plants a tree and gives the identity of its top. -/
def plant (s : Store) (n : Node) : NodeId × Store :=
  let planted : StateM Store NodeId := n.fold fun o shape => do
    let shape ← shape.mapM fun part => part.2
    modifyGet (addOwner { shape, line := o.line, capsule := o.capsule })
  planted s

/-- A node with the nodes found by going to children, if they are not deeper than a number of
levels. What is seen of a node is asked for before its children are. -/
def roseWithin {α : Type} (s : Store) (see : NodeId → Except Fault α) :
    Nat → Value → Except Fault (Rose α)
  | 0, _ => .error .endless
  | n + 1, .node i => do
    let seen ← see i
    return .node seen (← (← s.children i).mapM (roseWithin s see n))
  | _ + 1, _ => .error .noAttribute

/-- What is seen of a node and its descendants. A finite tree is not deeper than the store has
nodes. -/
def rose {α : Type} (s : Store) (see : NodeId → Except Fault α) (i : NodeId) :
    Except Fault (Rose α) :=
  s.roseWithin see (s.size + 1) (.node i)

/-- The order of traversal that a value names. -/
def orderOf (name : Value) : Except Fault Rose.Order :=
  match name.text?.bind Rose.Order.ofName? with
  | some order => .ok order
  | none => .error (.unknownOrder name)

/-- A node and its descendants in a named order. -/
def walk (s : Store) (i : NodeId) (name : Value) : Except Fault (List NodeId) := do
  s.calls i "walk"
  let order ← orderOf name
  return (← s.rose pure i).inOrder order

/-- A node and its descendants that satisfy a condition, each before those below it. -/
def find (s : Store) (i : NodeId) (p : NodeId → Except Fault Bool) :
    Except Fault (List NodeId) := do
  s.calls i "find"
  s.calls i "walk"
  let found ← s.rose (fun j => do return if ← p j then [j] else []) i
  return found.preorder.flatten

/-- A node and its descendants that count as one of some kinds. -/
def findKind (s : Store) (i : NodeId) (kinds : List Kind) : Except Fault (List NodeId) := do
  s.calls i "find_by_kind"
  s.find i (s.hasKind kinds)

/-- Whether a node has a given value by a name. -/
def holds (s : Store) (name : String) (v : Value) (i : NodeId) : Except Fault Bool :=
  match s.content i name with
  | .ok c => .ok (c.holds v)
  | .error .noAttribute => .ok false
  | .error f => .error f

/-- A node and its descendants that have a given value by a name. -/
def findBy (s : Store) (i : NodeId) (name : String) (v : Value) : Except Fault (List NodeId) :=
  s.find i (s.holds name v)

/-- The name of an order names it. -/
theorem orderOf_name (order : Rose.Order) : orderOf (.text order.name.toList) = .ok order := by
  simp [orderOf, Rose.Order.ofName?_name]

/-- Walking a node that was given nothing is going through what is below it. -/
theorem walk_of_plain {s : Store} {i : NodeId} {e : Entry} (he : s.get? i = some e)
    (hg : e.given = []) (order : Rose.Order) :
    s.walk i (.text order.name.toList) = (·.inOrder order) <$> s.rose pure i := by
  simp only [walk, calls_of_plain he hg, orderOf_name, bind, Except.bind, Functor.map, Except.map]
  rfl

end Store

end FeatureTree
