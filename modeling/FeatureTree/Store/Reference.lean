import FeatureTree.Store.Content

/-!
# References

Chains of attributes and places lead from a name to a node. A chain that leads nowhere, or to
something that is no node, refers to nothing.

## Main results

* `Store.resolve_held`: a name alone refers to the node that it holds
-/

namespace FeatureTree

namespace Store

/-- A step on the way from one node to another: an attribute, or a place in a list, which is counted
from the end if it is negative. -/
inductive Hop where
  | attribute (name : String)
  | place (n : Int)
deriving Repr

/-- The member of a list at a place. -/
def atPlace {α : Type} (items : List α) (n : Int) : Option α :=
  let n := if n < 0 then n + items.length else n
  if n < 0 then none else items[n.toNat]?

/-- Goes on by one step. -/
def hop (s : Store) (v : Value) : Hop → Option Value
  | .attribute name =>
    match v with
    | .node i => ((s.content i name).toOption).map Content.asValue
    | _ => none
  | .place n => v.items?.bind (atPlace · n)

/-- The node that a name and a way from there lead to. -/
def resolve (s : Store) (name : String) (way : List Hop) : Except Fault NodeId :=
  match (s.held? name).bind fun start => way.foldlM s.hop (Value.ofNode? start) with
  | some (.node i) => .ok i
  | _ => .error .noSuchNode

/-- A name alone refers to the node that it holds. -/
theorem resolve_held {s : Store} {name : String} {i : NodeId} (h : s.held? name = some (some i)) :
    s.resolve name [] = .ok i := by
  simp [resolve, h, Value.ofNode?]

end Store

end FeatureTree
