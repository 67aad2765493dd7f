import FeatureTree.Node.Basic

/-!
# Equality of nodes

Nodes are compared by what they can do. Each kind has some of seven capabilities, and two nodes are
equal when they share at least one and agree in every one that they share. Keywords, lines and the
kinds themselves play no part, so a background equals a scenario with the same name, description and
steps. Capabilities are compared in order up to the first in which two nodes differ.

## Main results

* `Node.equals_mk`: equality of two nodes in terms of the equality of their parts
* `Capability.shared_comm`: sharing is symmetric
-/

namespace FeatureTree

/-- What a node can do, in the order in which nodes are compared. -/
inductive Capability where
  /-- Has a name. -/
  | named
  /-- Is one text. -/
  | textual
  /-- Has a description. -/
  | described
  | tagged
  /-- Owns steps. -/
  | stepped
  /-- Owns rows. -/
  | tableHolder
  /-- Is what its children are. -/
  | containing
deriving DecidableEq, Repr

namespace Capability

/-- All capabilities, in the order of comparison. -/
def all : List Capability :=
  [.named, .textual, .described, .tagged, .stepped, .tableHolder, .containing]

/-- The name of a capability. -/
def name : Capability → String
  | .named => "Named"
  | .textual => "Textual"
  | .described => "Described"
  | .tagged => "Tagged"
  | .stepped => "Stepped"
  | .tableHolder => "TableHolder"
  | .containing => "Containing"

/-- The capabilities of a kind. -/
def ofKind : Kind → List Capability
  | .cell => [.textual]
  | .row => [.containing]
  | .tag => [.named]
  | .table => [.tableHolder]
  | .docString => [.textual]
  | .step => [.textual, .containing]
  | .background => [.named, .described, .stepped]
  | .scenario => [.named, .described, .tagged, .stepped]
  | .outline => [.named, .described, .tagged, .stepped]
  | .example => [.named, .described, .tagged, .tableHolder]
  | .rule => [.named, .described, .tagged, .containing]
  | .feature => [.named, .described, .tagged, .containing]
  | .featureFile => [.containing]
  | .directory => [.containing]
  | .comment => [.textual]

/-- The capabilities that two kinds share. -/
def shared (a b : Kind) : List Capability :=
  all.filter fun c => (ofKind a).contains c && (ofKind b).contains c

/-- Sharing is symmetric. -/
theorem shared_comm (a b : Kind) : shared a b = shared b a := by
  simp [shared, Bool.and_comm]

/-- Every kind has a capability. -/
theorem shared_self_ne_nil (k : Kind) : shared k k ≠ [] := by cases k <;> decide

end Capability

/-- What is compared of a node, over a type of parts: what each capability goes by. A node that
lacks a capability has no answer for it. -/
structure Compared (α : Type) where
  name : Except Fault Value
  text : Except Fault Value
  description : Except Fault Value
  tagNames : Except Fault Value
  steps : Except Fault (List α)
  rows : Except Fault (List α)
  children : Except Fault (List α)

namespace Compared

variable {α β : Type}

/-- Whether two lists agree place by place, as far as both go. Nothing is compared behind the first
place where they differ. -/
def agreeEach (same : α → β → Except Fault Bool) : List α → List β → Except Fault Bool
  | a :: as, b :: bs => do
    if ← same a b then agreeEach same as bs else return false
  | _, _ => .ok true

/-- Whether two lists have the same length and agree place by place. -/
def agree (same : α → β → Except Fault Bool) (as : List α) (bs : List β) : Except Fault Bool :=
  if as.length = bs.length then agreeEach same as bs else .ok false

/-- Whether two nodes agree in a capability, where `equal` compares values and `same` parts. -/
def agreeIn (equal : Value → Value → Except Fault Bool) (same : α → β → Except Fault Bool)
    (a : Compared α) (b : Compared β) : Capability → Except Fault Bool
  | .named => do equal (← a.name) (← b.name)
  | .textual => do equal (← a.text) (← b.text)
  | .described => do equal (← a.description) (← b.description)
  | .tagged => do equal (← a.tagNames) (← b.tagNames)
  | .stepped => do agree same (← a.steps) (← b.steps)
  | .tableHolder => do agree same (← a.rows) (← b.rows)
  | .containing => do agree same (← a.children) (← b.children)

/-- Whether two nodes share a capability and agree in all that they share. -/
def agreeInAll (equal : Value → Value → Except Fault Bool) (same : α → β → Except Fault Bool)
    (a : Compared α) (b : Compared β) : List Capability → Except Fault Bool
  | [] => .ok false
  | shared => shared.allM (agreeIn equal same a b)

end Compared

/-- What is compared of a node that holds a shape, given the names of its parts. -/
def Shape.compared {α : Type} (nameOf : α → Except Fault Value) (s : Shape α) : Compared α where
  name := s.ask .name
  text := Fault.ofOption s.textValue?
  description := s.ask .description
  tagNames := do return .list (← (← Fault.ofOption (s.list? .tags)).mapM nameOf)
  steps := Fault.ofOption (s.list? .steps)
  rows := Fault.ofOption (s.list? .rows)
  children := .ok s.children

namespace Node

/-- A comparison with another node. It can fail, because a tag can be a node that has no name. -/
abbrev Comparison := Node → Except Fault Bool

/-- The name of a node. -/
def nameOf (n : Node) : Except Fault Value := n.shape.nameOf

/-- Compares the shape of a node, whose parts come with their comparisons, with another node. -/
def agreesWith (a : Shape (Node × Comparison)) (b : Node) : Except Fault Bool :=
  Compared.agreeInAll (fun v w => .ok (v.agrees w)) (fun part n => part.2 n)
    (a.compared (nameOf ·.1)) (b.shape.compared nameOf) (Capability.shared a.kind b.kind)

/-- Whether two nodes are equal: they share a capability and agree in all they share. -/
def equals : Node → Comparison := fold fun _ a b => agreesWith a b

/-- Equality of two nodes in terms of the equality of their parts. -/
theorem equals_mk (o : Origin) (s : Shape Node) (b : Node) :
    (Node.mk o s).equals b = agreesWith (s.map fun n => (n, n.equals)) b := by
  rw [equals, fold_mk]

end Node

end FeatureTree
