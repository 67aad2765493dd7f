import FeatureTree.Fault

/-!
# Members of values

A value from outside can be gone through and searched if it has members: a list has its items, a
text its characters, a table the names of its fields. A text is also searched for longer parts.

## Main results

* `Value.members_of_items?`: both sorts of list have their items as members
* `Value.size_text`: a text has as many members as characters
-/

namespace FeatureTree

namespace Value

/-- The members of a value: of a list its items, of a text its characters, of a table its field
names. -/
def members : Value → Except Fault (List Value)
  | .list items | .kept _ items => .ok items
  | .text t => .ok (t.map fun c => .text [c])
  | .table fields => .ok (fields.map fun (k, _) => .text k.toList)
  | _ => .error .unusableValue

/-- The number of members of a value. -/
def size (v : Value) : Except Fault Nat := List.length <$> v.members

/-- Whether a text is a member of a value, or a part of it if that is a text too. -/
def mentions (t : Text) (v : Value) : Except Fault Bool :=
  match v with
  | .text whole => .ok (Text.hasPart t whole)
  | v => return (← v.members).any (·.agrees (.text t))

/-- Both sorts of list have their items as members. -/
theorem members_of_items? {v : Value} {items : List Value} (h : v.items? = some items) :
    v.members = .ok items := by
  cases v <;> simp_all [items?, members]

/-- A text has as many members as characters. -/
theorem size_text (t : Text) : (Value.text t).size = .ok t.length := by
  simp [size, members, Functor.map, Except.map]

/-- A text is searched for a part. -/
theorem mentions_text (t whole : Text) :
    mentions t (.text whole) = .ok (Text.hasPart t whole) := rfl

end Value

end FeatureTree
