import FeatureTree.Node.Equality
import FeatureTree.Store.Content

/-!
# Equality in a store

The nodes of a store are compared like trees, by what they can do and in the same order. A node is
equal to itself whatever it holds; two others are compared by what they hold at the moment, which
need not come to an end, so it is done on a budget. What does end never comes back to the same two
nodes while they are compared.

## Main results

* `Store.equals_self`: a node equals itself, even where it is below itself
* `Value.isSame_refl_text`: a text of one common character is the same wherever it stands
-/

namespace FeatureTree

/-- Whether two members of lists of nodes, which are no nodes themselves, are one and the same: what
there is only once is, and so are small numbers and texts of at most one common character. -/
def Value.isSame : Value → Value → Bool
  | .null, .null => true
  | .bool a, .bool b => a = b
  | .int a, .int b => a = b && -5 ≤ a && a ≤ 256
  | .text [], .text [] => true
  | .text [c], .text [d] => c = d && c.toNat < 0x100
  | .kept i _, .kept j _ => i = j
  | _, _ => false

namespace Store

/-- What is compared of a node. -/
def compared (s : Store) (i : NodeId) : Compared Value where
  name := s.valueOf i (.text .name)
  text := s.textValue i
  description := s.valueOf i (.text .description)
  tagNames := .list <$> s.tagNames i
  steps := s.listed i .steps
  rows := s.listed i .rows
  children := s.children i

/-- Whether two members of lists of nodes are equal, where nodes are compared in a given way. -/
def sameMember (same : NodeId → NodeId → Except Fault Bool) : Value → Value → Except Fault Bool
  | .node i, .node j => same i j
  | v, w => .ok (v.isSame w)

/-- Whether two nodes are equal on a budget of levels. -/
def equalsWithin (s : Store) : Nat → NodeId → NodeId → Except Fault Bool
  | 0, _, _ => .error .endless
  | n + 1, i, j => do
    if i = j then return true
    let a := (← s.get i).shape.kind
    let b := (← s.get j).shape.kind
    Compared.agreeInAll (Value.agreesBy (equalsWithin s n)) (sameMember (equalsWithin s n))
      (s.compared i) (s.compared j) (Capability.shared a b)

/-- Whether two nodes are equal. There are no more levels than pairs of nodes. -/
def equals (s : Store) (i j : NodeId) : Except Fault Bool :=
  s.equalsWithin (s.size * s.size + 1) i j

/-- A node equals itself, even where it is below itself. -/
theorem equals_self (s : Store) (i : NodeId) : s.equals i i = .ok true := by
  simp [equals, equalsWithin]
  rfl

end Store

/-- A text of one common character is the same wherever it stands. -/
theorem Value.isSame_refl_text {c : Char} (h : c.toNat < 0x100) :
    Value.isSame (.text [c]) (.text [c]) = true := by
  simp [Value.isSame, h]

end FeatureTree
