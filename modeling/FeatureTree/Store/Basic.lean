import FeatureTree.Fault
import FeatureTree.Node.Shape
import FeatureTree.Record

/-!
# Stores

A store holds nodes by identity, so that a node can be changed, attached and detached. A node's
shape lists the identities of its parts, which it owns; a node also remembers the parent that it was
attached to. Beyond that a node can be given any value by any name: what it was given takes the
place of what its kind has by that name. Names hold nodes from outside. Nothing is ever taken out of
a store: a node that no name leads to any more is merely out of reach.

## Main results

* `Store.get?_add_self`, `Store.get?_add_of_lt`: what is found after a node was added
* `Store.get?_update`: what is found after a node was changed
-/

namespace FeatureTree

/-- The identity of a node in a store. -/
abbrev NodeId := Nat

namespace Store

/-- A node in a store. -/
structure Entry where
  shape : Shape NodeId
  /-- The parent that the node was attached to. -/
  parent : Option NodeId := none
  /-- The line that the node was read from, null when it is not known. -/
  line : Value := .null
  capsule : Option Capsule := none
  /-- What the node was given by name, in the place of what its kind has or beside it. -/
  given : List (String × Value) := []

namespace Entry

/-- Everything that a node owns: its parts, and the nodes in the values that it holds. -/
def owned (e : Entry) : List NodeId :=
  e.shape.parts ++ Value.nodesOfItems (e.line :: e.shape.values) ++ Value.nodesOfFields e.given
    ++ (e.capsule.map (·.data.nodes)).getD []

/-- Changes the values that a node holds. -/
def mapValues (f : Value → Value) (e : Entry) : Entry :=
  { e with
    shape := e.shape.mapValues f
    line := f e.line
    capsule := e.capsule.map fun c => { c with data := f c.data }
    given := e.given.map fun (name, v) => (name, f v) }

/-- Whether a node counts as one of some kinds. A node that was given another kind counts as none,
but what cannot be a key cannot even be looked for among kinds. -/
def isOf (kinds : List Kind) (e : Entry) : Except Fault Bool :=
  match Value.lookup "kind" e.given with
  | none => .ok (kinds.contains e.shape.kind)
  | some kind => if kind.isKey then .ok false else .error .unusableValue

end Entry

end Store

/-- Nodes in the order in which they were made, the names that hold nodes or nothing, and what holds
for all nodes. -/
structure Store where
  entries : Array Store.Entry := #[]
  held : List (String × Option NodeId) := []
  /-- The dialect that holds where none is named. -/
  dialect : Value := .text ['e', 'n']
  /-- The identity of the next list that can be changed in place. -/
  nextList : Nat := 0

namespace Store

/-- The number of nodes. -/
def size (s : Store) : Nat := s.entries.size

/-- The node of an identity. -/
def get? (s : Store) (i : NodeId) : Option Entry := s.entries[i]?

/-- The node of an identity, which has to be in the store. -/
def get (s : Store) (i : NodeId) : Except Fault Entry :=
  match s.get? i with
  | some e => .ok e
  | none => .error .noSuchNode

/-- An operation of a node can be called unless the node was given a value by its name, which takes
its place. -/
def calls (s : Store) (i : NodeId) (operation : String) : Except Fault Unit := do
  if (Value.lookup operation (← s.get i).given).isSome then throw .unusableValue

/-- The nodes that a node owns. -/
def parts (s : Store) (i : NodeId) : List NodeId := ((s.get? i).map (·.owned)).getD []

/-- Adds a node and gives its identity. -/
def add (s : Store) (e : Entry) : NodeId × Store :=
  (s.size, { s with entries := s.entries.push e })

/-- Changes a node. -/
def update (s : Store) (i : NodeId) (f : Entry → Entry) : Store :=
  { s with entries := s.entries.modify i f }

/-- Changes what a node remembers as its parent. -/
def setParent (s : Store) (parent : Option NodeId) (i : NodeId) : Store :=
  s.update i ({ · with parent })

/-- What a name holds: no answer for an unknown name. -/
def held? (s : Store) (name : String) : Option (Option NodeId) := List.lookup name s.held

/-- Forgets a name. -/
def release (s : Store) (name : String) : Store :=
  { s with held := s.held.filter (·.1 != name) }

/-- Lets a name hold a node or nothing, instead of what it held before. -/
def hold (s : Store) (name : String) (i : Option NodeId) : Store :=
  { s with held := (name, i) :: (s.release name).held }

/-- Gives the lists in a value identities, so that they can be changed in place. -/
def keep (s : Store) (v : Value) : Value × Store :=
  let (v, nextList) := v.keep.run s.nextList
  (v, { s with nextList })

/-- Changes a list of an identity wherever it is held. -/
def mapKept (s : Store) (id : Nat) (f : List Value → List Value) : Store :=
  { s with entries := s.entries.map (·.mapValues (·.mapKept id f)) }

/-! ### Look-up laws -/

/-- Changing an entry adds no node. -/
@[simp] theorem size_update (s : Store) (i : NodeId) (f : Entry → Entry) :
    (s.update i f).size = s.size := by
  simp [size, update]

/-- Adding an entry adds one node. -/
@[simp] theorem size_add (s : Store) (e : Entry) : (s.add e).2.size = s.size + 1 := by
  simp [size, add]

/-- An added node is found. -/
@[simp] theorem get?_add_self (s : Store) (e : Entry) :
    (s.add e).2.get? (s.add e).1 = some e := by
  simp [get?, add, size]

/-- Adding a node leaves the others alone. -/
theorem get?_add_of_lt {s : Store} {i : NodeId} (h : i < s.size) (e : Entry) :
    (s.add e).2.get? i = s.get? i := by
  have : i ≠ s.entries.size := Nat.ne_of_lt h
  simp [get?, add, Array.getElem?_push, this]

/-- What is found after a node was changed. -/
theorem get?_update (s : Store) (i j : NodeId) (f : Entry → Entry) :
    (s.update i f).get? j = if i = j then (s.get? j).map f else s.get? j := by
  simp only [get?, update, Array.getElem?_modify]

/-- A name holds what it was last given. -/
theorem held?_hold (s : Store) (name : String) (i : Option NodeId) :
    (s.hold name i).held? name = some i := by
  simp [hold, held?]

end Store

end FeatureTree
