import FeatureTree.Node.Basic
import FeatureTree.Store.Attribute
import FeatureTree.Store.Reach
import FeatureTree.Value.Members

/-!
# What nodes hold

What a node has by a name is what it was given by that name, else what its kind has. Attributes that
follow from others are computed each time they are asked for, from whatever the others hold: where a
list of nodes is expected there can be another value, whose members are gone through just so, and
which have no attributes unless they are nodes.

## Main results

* `Store.stored_of_given`: what was given takes the place of what the kind has
* `Store.children_of_plain`: the children of a node that was given nothing are those of its shape
-/

namespace FeatureTree

/-- What an attribute of a node holds. -/
inductive Content where
  | value (v : Value)
  /-- Something that is no value but can be shown as a text. -/
  | mark (shown : Text)
deriving Inhabited

namespace Content

/-- A content as a value. -/
def asValue : Content → Value
  | .value v => v
  | .mark shown => .text shown

/-- Whether an attribute holds a given value. What is no value equals none. -/
def holds (v : Value) : Content → Bool
  | .value w => w.agrees v
  | .mark _ => false

end Content

/-- A node or the absence of one. -/
def Value.ofNode? : Option Nat → Value
  | none => .null
  | some i => .node i

/-- A list of nodes. -/
def Value.ofNodes (is : List Nat) : Value := .list (is.map .node)

/-- What is said of a row for examples without parameters, if nothing else is to be said. -/
def noParametersMessage : Text := "Cannot add a row. No parameters have been set.".toList

/-- What the children of a node of some kind are held by, in the order of the document. -/
def Kind.childAttributes : Kind → List Attribute
  | .cell | .tag | .docString | .comment => []
  | .row => [.list .cells]
  | .table => [.list .rows]
  | .step => [.part .block]
  | .background => [.list .steps]
  | .scenario => [.list .tags, .list .steps]
  | .outline => [.list .tags, .list .steps, .list .examples]
  | .example => [.list .tags, .list .rows]
  | .rule => [.list .tags, .part .background, .list .tests]
  | .feature => [.list .tags, .part .background, .list .tests, .list .rules]
  | .featureFile => [.part .feature]
  | .directory => [.list .featureFiles, .list .directories]

namespace Store

/-- What a node has because of its kind, apart from what follows from something else. -/
def Entry.own (e : Entry) : Attribute → Option Content
  | .text field => (e.shape.field? field).map .value
  | .part field => (e.shape.part? field).map fun part => .value (Value.ofNode? part)
  | .list field => (e.shape.list? field).map fun parts => .value (Value.ofNodes parts)
  | .kind => some (.mark e.shape.kind.name.toList)
  | .sourceLocation => some (match e.line with
    | .null => .value .null
    | line => .mark (Node.placeText line .null))
  | .rawData => some (match e.capsule with
    | some c => .mark c.schema.name.toList
    | none => .value .null)
  | .textAttribute =>
    e.shape.textField?.map fun field => .value (.text (Attribute.text field).name.toList)
  | .noParameters =>
    if e.shape.kind = .example then some (.value (.text noParametersMessage)) else none
  | _ => none

/-- What a node has by a name: what it was given, else what its kind has. Files and directories have
the name that their path gives. -/
def stored (s : Store) (i : NodeId) (name : String) : Except Fault Content := do
  let e ← s.get i
  match Value.lookup name e.given, Attribute.ofName? name with
  | some v, _ => return .value v
  | none, some (.text .name) => .value <$> e.shape.nameOf
  | none, some a => Fault.ofOption (e.own a)
  | none, none => throw .noAttribute

/-- The value of an attribute of a node. -/
def valueOf (s : Store) (i : NodeId) (a : Attribute) : Except Fault Value :=
  Content.asValue <$> s.stored i a.name

/-- The members of an attribute of a node. -/
def listed (s : Store) (i : NodeId) (field : ListField) : Except Fault (List Value) := do
  (← s.valueOf i (.list field)).members

/-- What a value has by a name: only a node has anything. -/
def askFor (s : Store) (v : Value) (name : String) : Except Fault Value :=
  match v with
  | .node i => Content.asValue <$> s.stored i name
  | _ => .error .noAttribute

/-- An attribute of a value. -/
def ask (s : Store) (v : Value) (a : Attribute) : Except Fault Value := s.askFor v a.name

/-! ### What follows from other attributes -/

/-- The values of a row: those of its cells. -/
def rowValues (s : Store) (i : NodeId) : Except Fault (List Value) := do
  (← s.listed i .cells).mapM (s.ask · (.text .value))

/-- The values of a member of some rows. Other nodes than rows have values if they were given
them. -/
def valuesOf (s : Store) (v : Value) : Except Fault Value := do
  match v with
  | .node i =>
    if (← s.get i).shape.kind = .row then .list <$> s.rowValues i else s.valueOf i .values
  | _ => throw .noAttribute

/-- The names of the tags of a node. -/
def tagNames (s : Store) (i : NodeId) : Except Fault (List Value) := do
  (← s.listed i .tags).mapM (s.ask · (.text .name))

/-- Whether nodes of the kind of a node carry tags. -/
def isTagged (s : Store) (i : NodeId) : Bool :=
  ((s.get? i).bind (·.shape.list? .tags)).isSome

/-- The tags of the ancestors of a node, outermost first. -/
def appliedTags (s : Store) (i : NodeId) : Except Fault (List Value) := do
  return (← ((s.ancestors i).filter s.isTagged).mapM (s.listed · .tags)).reverse.flatten

/-- The row that names the parameters of examples: the first one, null if there are no rows. -/
def parameterRow (s : Store) (i : NodeId) : Except Fault Value := do
  match ← s.valueOf i (.list .rows) with
  | .list (row :: _) | .kept _ (row :: _) => return row
  | .text (c :: _) => return .text [c]
  | .table (_ :: _) => throw .missingField
  | rows => if rows.isPresent then throw .unusableValue else return .null

/-- The rows of examples that hold arguments: all but the first. -/
def argumentRows (s : Store) (i : NodeId) : Except Fault Value := do
  match ← s.valueOf i (.list .rows) with
  | .list rows | .kept _ rows => return .list rows.tail
  | .text t => return .text t.tail
  | _ => throw .unusableValue

/-- The parameters of examples. -/
def parameters (s : Store) (i : NodeId) : Except Fault Value := do
  match ← s.parameterRow i with
  | .null => return .list []
  | row => s.valuesOf row

/-- Whether a member of some tests is of a kind. -/
def isOfKind (s : Store) (kind : Kind) (v : Value) : Except Fault Bool := do
  match v with
  | .node i =>
    let e ← s.get i
    return (Value.lookup "kind" e.given).isNone && e.shape.kind = kind
  | _ => throw .noAttribute

/-- The tests of one kind in a feature or rule. -/
def testsOfKind (s : Store) (i : NodeId) (kind : Kind) : Except Fault (List Value) := do
  (← s.listed i .tests).filterM (s.isOfKind kind)

/-- The line that a node was read from. A node that was given another place has its line there. -/
def sourceLine (s : Store) (i : NodeId) : Except Fault Value := do
  let e ← s.get i
  match Value.lookup Attribute.sourceLocation.name e.given with
  | none => return e.line
  | some .null => return .null
  | some place => s.askFor place "line"

/-- The data that a node was made from. A node that was given another capsule has its data there. -/
def parsingData (s : Store) (i : NodeId) : Except Fault Value := do
  let e ← s.get i
  match Value.lookup Attribute.rawData.name e.given with
  | none => return (e.capsule.map (·.data)).getD .null
  | some .null => return .null
  | some capsule => s.askFor capsule "data"

/-- What follows from other attributes of a node, but for the text value. -/
def followed (s : Store) (i : NodeId) : Attribute → Except Fault Value
  | .text .name => s.valueOf i (.text .name)
  | .tagNames => .list <$> s.tagNames i
  | .appliedTags => .list <$> s.appliedTags i
  | .allTags => do return .list ((← s.appliedTags i) ++ (← s.listed i .tags))
  | .parameters => s.parameters i
  | .parameterRow => s.parameterRow i
  | .argumentRows => s.argumentRows i
  | .values => .list <$> s.rowValues i
  | .scenarios => .list <$> s.testsOfKind i .scenario
  | .outlines => .list <$> s.testsOfKind i .outline
  | .sourceLine => s.sourceLine i
  | .parsingData => s.parsingData i
  | .parent => .ok (Value.ofNode? (s.parent? i))
  | _ => .error .noAttribute

/-- The value by which a textual node is compared: that of the attribute which it names for that. A
node that names this one goes on for ever. -/
def textValue (s : Store) (i : NodeId) : Except Fault Value := do
  match ← s.valueOf i .textAttribute with
  | .text name =>
    match Attribute.following? (← s.get i).shape.kind (String.ofList name) with
    | some .textValue => throw .endless
    | some a => s.followed i a
    | none => Content.asValue <$> s.stored i (String.ofList name)
  | _ => throw .unusableValue

/-- What a node has by a name, whether it is held or follows from something else. -/
def content (s : Store) (i : NodeId) (name : String) : Except Fault Content := do
  match Attribute.following? (← s.get i).shape.kind name with
  | some .textValue => .value <$> s.textValue i
  | some a => .value <$> s.followed i a
  | none => s.stored i name

/-- Whether a feature or rule has a background. -/
def hasBackground (s : Store) (i : NodeId) : Except Fault Bool := do
  s.calls i "has_background"
  if ((← s.get i).shape.list? .tests).isNone then throw .noAttribute
  match ← s.valueOf i (.part .background) with
  | .null => return false
  | _ => return true

/-- The number of tests of a feature, those inside its rules included. -/
def testCount (s : Store) (i : NodeId) : Except Fault Nat := do
  s.calls i "test_count"
  if (← s.get i).shape.kind ≠ .feature then throw .noAttribute
  let own ← (← s.valueOf i (.list .tests)).size
  let inner ← (← s.listed i .rules).mapM fun rule => do (← s.ask rule (.list .tests)).size
  return own + inner.foldr (· + ·) 0

/-- The children of a node that one of its attributes holds: all members of a list, or a single part
unless that is null. -/
def childrenIn (s : Store) (i : NodeId) (a : Attribute) : Except Fault (List Value) := do
  match a, ← s.valueOf i a with
  | .part _, .null => return []
  | .part _, part => return [part]
  | _, parts => parts.members

/-- The children of a node, in the order of the document. -/
def children (s : Store) (i : NodeId) : Except Fault (List Value) := do
  s.calls i "children"
  return (← (← s.get i).shape.kind.childAttributes.mapM (s.childrenIn i)).flatten

/-! ### Nodes that were given nothing -/

/-- What was given takes the place of what the kind has. -/
theorem stored_of_given {s : Store} {i : NodeId} {e : Entry} {name : String} {v : Value}
    (he : s.get? i = some e) (h : Value.lookup name e.given = some v) :
    s.stored i name = .ok (.value v) := by
  simp [stored, get, he, h, bind, Except.bind]
  rfl

/-- An operation of a node can be called unless something was put in its place. -/
theorem calls_of_plain {s : Store} {i : NodeId} {e : Entry} (he : s.get? i = some e)
    (hg : e.given = []) (operation : String) : s.calls i operation = .ok () := by
  simp [calls, get, he, hg, Value.lookup, bind, Except.bind]
  rfl

/-- A node to which nothing was given has its own attributes. -/
theorem stored_of_plain {s : Store} {i : NodeId} {e : Entry} {a : Attribute}
    (he : s.get? i = some e) (hg : e.given = []) (ha : a ≠ .text .name) :
    s.stored i a.name = Fault.ofOption (e.own a) := by
  have hl : Value.lookup a.name e.given = none := by simp [hg, Value.lookup]
  simp only [stored, get, he, bind, Except.bind, hl, Attribute.ofName?_name]

/-- The value of a list of parts is the list of these nodes. -/
theorem valueOf_list_of_plain {s : Store} {i : NodeId} {e : Entry} {field : ListField}
    {parts : List NodeId} (he : s.get? i = some e) (hg : e.given = [])
    (hp : e.shape.list? field = some parts) :
    s.valueOf i (.list field) = .ok (Value.ofNodes parts) := by
  rw [valueOf, stored_of_plain he hg (by simp), Entry.own, hp]
  rfl

/-- The children in a list of parts are the members of the list. -/
theorem childrenIn_list_of_plain {s : Store} {i : NodeId} {e : Entry} {field : ListField}
    {parts : List NodeId} (he : s.get? i = some e) (hg : e.given = [])
    (hp : e.shape.list? field = some parts) :
    s.childrenIn i (.list field) = .ok (parts.map .node) := by
  simp [childrenIn, valueOf_list_of_plain he hg hp, bind, Except.bind, Value.ofNodes, Value.members]

/-- The children in the place of a single part are the part, if there is one. -/
theorem childrenIn_part_of_plain {s : Store} {i : NodeId} {e : Entry} {field : PartField}
    {part : Option NodeId} (he : s.get? i = some e) (hg : e.given = [])
    (hp : e.shape.part? field = some part) :
    s.childrenIn i (.part field) = .ok (part.toList.map .node) := by
  have hv : s.valueOf i (.part field) = .ok (Value.ofNode? part) := by
    rw [valueOf, stored_of_plain he hg (by simp), Entry.own, hp]
    rfl
  cases part <;> simp [childrenIn, hv, bind, Except.bind, Value.ofNode?] <;> rfl

/-- The children of a node that was given nothing are those of its shape. -/
theorem children_of_plain {s : Store} {i : NodeId} {e : Entry} (he : s.get? i = some e)
    (hg : e.given = []) : s.children i = .ok (e.shape.children.map .node) := by
  have hc := calls_of_plain he hg "children"
  have hl : ∀ {field parts}, e.shape.list? field = some parts → _ :=
    fun h => childrenIn_list_of_plain he hg h
  have hp : ∀ {field part}, e.shape.part? field = some part → _ :=
    fun h => childrenIn_part_of_plain he hg h
  have hm : e.shape.kind.childAttributes.mapM (s.childrenIn i) = .ok
      (e.shape.kind.childAttributes.map fun a => match a with
        | .list field => ((e.shape.list? field).getD []).map .node
        | .part field => (((e.shape.part? field).getD none).toList).map .node
        | _ => []) := by
    cases h : e.shape <;> rw [h] at hl hp <;>
      simp [Shape.kind, Kind.childAttributes, Shape.list?, Shape.part?, List.mapM_cons, hl, hp] <;>
      rfl
  simp only [children, hc, get, he, bind, Except.bind, hm]
  cases h : e.shape <;>
    simp [Shape.kind, Kind.childAttributes, Shape.list?, Shape.part?, Shape.children] <;> rfl

end Store

end FeatureTree
