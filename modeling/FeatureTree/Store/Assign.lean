import FeatureTree.Store.Content

/-!
# Assigning attributes

A node can be given any value by any name, as long as the name does not mean something that follows
from other attributes. Texts go where its kind has a text, nodes where it has a part, lists of nodes
where it has a list of parts; everything else is kept beside them and takes their place. Nothing is
attached or detached by an assignment.

## Main results

* `Store.assign_parent`: the parent of a node cannot be assigned
* `Store.Entry.parent_assign`: an assignment leaves the parent of a node alone
-/

namespace FeatureTree

/-- The nodes of a list that holds nothing else. -/
def Value.onlyNodes? (v : Value) : Option (List Nat) :=
  v.items?.bind fun items => items.mapM fun
    | .node i => some i
    | _ => none

namespace Store

/-- What a node is after it was given a value by a name, where the name does not mean what its kind
has. -/
def Entry.give (e : Entry) (name : String) (v : Value) : Entry :=
  { e with given := Value.put name v e.given }

/-- What a node was given by a name is forgotten. -/
def Entry.withhold (e : Entry) (name : String) : Entry :=
  { e with given := e.given.filter (·.1 != name) }

/-- Gives a node a value where its kind has a place for such a value. -/
def Entry.fill? (e : Entry) (a : Attribute) (v : Value) : Option Entry :=
  match a, v with
  | .text field, v => (e.shape.setField field v).map fun shape => { e with shape }
  | .part field, .null => (e.shape.setPart field none).map fun shape => { e with shape }
  | .part field, .node i => (e.shape.setPart field (some i)).map fun shape => { e with shape }
  | .list field, v => do
    let shape ← e.shape.setList field (← v.onlyNodes?)
    return { e with shape }
  | .sourceLocation, .null => some { e with line := .null }
  | .rawData, .null => some { e with capsule := none }
  | _, _ => none

/-- What an attribute of a kind lets go of when something else takes its place. -/
def Entry.vacate (e : Entry) (a : Attribute) : Entry :=
  match a with
  | .part field => { e with shape := (e.shape.setPart field none).getD e.shape }
  | .list field => { e with shape := (e.shape.setList field []).getD e.shape }
  | .sourceLocation => { e with line := .null }
  | .rawData => { e with capsule := none }
  | _ => e

/-- Assigns an attribute of a node. -/
def Entry.assign (e : Entry) (name : String) (v : Value) : Entry :=
  match Attribute.ofName? name with
  | none => e.give name v
  | some a =>
    match e.fill? a v with
    | some e => e.withhold name
    | none => (e.vacate a).give name v

/-- Assigns what a node has by a name. Lists can be changed in place from then on. -/
def assign (s : Store) (i : NodeId) (name : String) (v : Value) : Except Fault Store := do
  if (Attribute.following? (← s.get i).shape.kind name).isSome then throw .noAttribute
  let (v, s) := s.keep v
  return s.update i (·.assign name v)

/-- The list that a node has by a name. -/
def listNamed (s : Store) (i : NodeId) (name : String) : Except Fault Value := do
  match ← s.content i name with
  | .value v => if v.items?.isSome then return v else throw .noAttribute
  | .mark _ => throw .noAttribute

/-- Changes the list that a node has by a name in place. A list that is made anew each time it is
asked for cannot be changed for good. -/
def changeList (s : Store) (i : NodeId) (name : String) (f : List Value → List Value) :
    Except Fault Store := do
  match ← s.listNamed i name with
  | .kept id _ => return s.mapKept id f
  | list =>
    if (Attribute.following? (← s.get i).shape.kind name).isSome then return s
    else return s.update i (·.assign name (.list (f (list.items?.getD []))))

/-- Puts a value at the end of the list that a node has by a name. Nothing is attached by that. -/
def append (s : Store) (i : NodeId) (name : String) (v : Value) : Except Fault Store :=
  s.changeList i name (· ++ [v])

/-! ### Laws -/

/-- The parent of a node cannot be assigned. -/
theorem assign_parent {s : Store} {i : NodeId} {e : Entry} (h : s.get? i = some e) (v : Value) :
    s.assign i Attribute.parent.name v = .error .noAttribute := by
  have hf : Attribute.following? e.shape.kind Attribute.parent.name = some .parent := by
    simp [Attribute.following?, Attribute.ofName?_name, Attribute.follows_parent]
  simp [assign, get, h, hf, bind, Except.bind]
  rfl

/-- Filling an attribute leaves the remembered parent alone. -/
theorem Entry.parent_fill? {e f : Entry} {a : Attribute} {v : Value} (h : e.fill? a v = some f) :
    f.parent = e.parent := by
  unfold Entry.fill? at h
  split at h
  · obtain ⟨_, _, rfl⟩ := Option.map_eq_some_iff.1 h
    rfl
  · obtain ⟨_, _, rfl⟩ := Option.map_eq_some_iff.1 h
    rfl
  · obtain ⟨_, _, rfl⟩ := Option.map_eq_some_iff.1 h
    rfl
  · obtain ⟨_, _, h⟩ := Option.bind_eq_some_iff.1 h
    obtain ⟨_, _, h⟩ := Option.bind_eq_some_iff.1 h
    cases h
    rfl
  · cases h
    rfl
  · cases h
    rfl
  · cases h

/-- Deleting an attribute leaves the remembered parent alone. -/
theorem Entry.parent_vacate (e : Entry) (a : Attribute) : (e.vacate a).parent = e.parent := by
  cases a <;> rfl

/-- An assignment leaves the parent of a node alone. -/
theorem Entry.parent_assign (e : Entry) (name : String) (v : Value) :
    (e.assign name v).parent = e.parent := by
  unfold Entry.assign
  split
  · rfl
  · next a _ =>
    split
    · next f h =>
      rw [← parent_fill? h]
      rfl
    · exact Entry.parent_vacate e a

end Store

end FeatureTree
