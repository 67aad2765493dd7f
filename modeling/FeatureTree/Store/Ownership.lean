import FeatureTree.Store.Assign
import FeatureTree.Store.Render

/-!
# Attaching and detaching

A node is attached to a parent by remembering it. A node that has a parent in reach can be attached
to that one again, which changes nothing, and to no other. Attaching does not list the node among
the parent's parts; the operations on directories do both.

## Main results

* `Store.adopt_isOk_iff`: attaching succeeds exactly when no other parent is in reach
* `Store.adopt_of_parent`: attaching to the parent that a node has changes nothing
-/

namespace FeatureTree

namespace Store

/-- The fault of attaching a node that has another parent. -/
def attachedFault (s : Store) (child parent : NodeId) : Fault :=
  match s.label child, s.label parent with
  | .ok child, .ok parent => .alreadyAttached child parent
  | .error f, _ | .ok _, .error f => f

/-- Attaches a node to a parent. -/
def adopt (s : Store) (parent child : NodeId) : Except Fault Store :=
  match s.parent? child with
  | none => .ok (s.setParent (some parent) child)
  | some current => if current = parent then .ok s else .error (s.attachedFault child current)

/-- Detaches a node from a parent, if it is the node's parent. -/
def disown (s : Store) (parent child : NodeId) : Store :=
  if s.parent? child = some parent then s.setParent none child else s

/-- Attaches a node to a directory and puts it at the end of one of the directory's lists. -/
def addTo (s : Store) (directory : NodeId) (field : ListField) (child : NodeId) :
    Except Fault Store := do
  if (← s.get directory).shape.kind ≠ .directory then throw .noAttribute
  let name := (Attribute.list field).name
  let _ ← s.listNamed directory name
  (← s.adopt directory child).append directory name (.node child)

/-- Attaches a feature file as the last document of a directory. -/
def addFeatureFile (s : Store) (directory file : NodeId) : Except Fault Store := do
  s.calls directory "add_feature_file"
  s.addTo directory .featureFiles file

/-- Attaches a directory as the last one inside another. -/
def addDirectory (s : Store) (directory inner : NodeId) : Except Fault Store := do
  s.calls directory "add_directory"
  s.addTo directory .directories inner

/-! ### When attaching fails -/

/-- Attaching to the parent that a node has changes nothing. -/
theorem adopt_of_parent {s : Store} {parent child : NodeId} (h : s.parent? child = some parent) :
    s.adopt parent child = .ok s := by
  simp [adopt, h]

/-- A node without a parent in reach can be attached. -/
theorem adopt_of_none {s : Store} {parent child : NodeId} (h : s.parent? child = none) :
    s.adopt parent child = .ok (s.setParent (some parent) child) := by
  simp [adopt, h]

/-- Attaching succeeds exactly when no other parent is in reach. -/
theorem adopt_isOk_iff {s : Store} {parent child : NodeId} :
    (∃ t, s.adopt parent child = .ok t) ↔ ∀ p, s.parent? child = some p → p = parent := by
  unfold adopt
  split
  · next h => simp [h]
  · next current h =>
    by_cases hc : current = parent
    · simp [h, hc]
    · simp [h, hc]

end Store

end FeatureTree
