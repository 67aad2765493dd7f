import FeatureTree.Decimal.Shortest
import FeatureTree.Text.Blank
import FeatureTree.Text.Quoted

/-!
# Values

The data that comes from outside without a fixed shape: the tree of a parser, a configuration, the
contents of a table row, and what the attributes of nodes are assigned. Tables keep their fields in
the order in which they were first set; a field set again keeps its place.

Two sorts of value do not stand for themselves. A node is given by its identity, so what it is shown
as and what it equals is asked for where values are shown and compared. A list that can be changed
in place is known by an identity of its own; apart from that it is a list like any other.

## Main results

* `Value.lookup_put`: a field that was set is found with the value it was given
* `Value.lookup_put_of_ne`: setting a field leaves all others alone
-/

namespace FeatureTree

/-- A value of one of nine sorts. -/
inductive Value where
  | null
  | bool (b : Bool)
  | int (i : Int)
  | float (x : Float)
  | text (t : Text)
  | list (items : List Value)
  | table (fields : List (String × Value))
  /-- A node, by its identity. -/
  | node (i : Nat)
  /-- A list that can be changed in place, by its identity and with its members. -/
  | kept (id : Nat) (items : List Value)
deriving Inhabited

namespace Value

/-- Whether a value counts as present: null, false, zero and whatever is empty do not. -/
def isPresent : Value → Bool
  | .null => false
  | .bool b => b
  | .int i => i != 0
  | .float x => x != 0.0
  | .text t => !t.isEmpty
  | .list items => !items.isEmpty
  | .table fields => !fields.isEmpty
  | .node _ => true
  | .kept _ items => !items.isEmpty

/-- The members of a list of either sort. -/
def items? : Value → Option (List Value)
  | .list items => some items
  | .kept _ items => some items
  | _ => none

/-- Whether a value can be looked up as a key. What can be changed in place cannot. -/
def isKey : Value → Bool
  | .list _ | .table _ | .node _ | .kept _ _ => false
  | _ => true

/-- The name of a value's kind in messages. -/
def kindName : Value → String
  | .null => "NoneType"
  | .bool _ => "bool"
  | .int _ => "int"
  | .float _ => "float"
  | .text _ => "str"
  | .list _ | .kept _ _ => "list"
  | .table _ => "dict"
  | .node _ => "object"

/-- The value of a field. -/
def lookup {α : Type} (key : String) (fields : List (String × α)) : Option α :=
  List.lookup key fields

/-- Sets a field: in its place if there is one of that name, else at the end. -/
def put {α : Type} (key : String) (value : α) : List (String × α) → List (String × α)
  | [] => [(key, value)]
  | (k, v) :: fields =>
    if k = key then (key, value) :: fields else (k, v) :: put key value fields

/-- The fields that are set when the pairs are read in order. -/
def ofPairs (pairs : List (String × Value)) : List (String × Value) :=
  pairs.foldl (fun fields (k, v) => put k v fields) []

/-- A field of a table; nothing for a value of another kind. -/
def field? (key : String) : Value → Option Value
  | .table fields => lookup key fields
  | _ => none

/-- The text of an integer. -/
def intText (i : Int) : Text := (toString i).toList

/-- Texts between brackets, with a comma and a space between them. -/
def bracketed (opening closing : Char) (parts : List Text) : Text :=
  opening :: [',', ' '].intercalate parts ++ [closing]

section

variable {m : Type → Type} [Monad m] (digits : Int → m Text)

mutual

/-- A value as it is shown inside another one: texts are quoted, `digits` writes integers, and
`label` shows nodes. The lists that are being shown are known, because a node can hold a list that
holds the node: inside itself a list is only hinted at. -/
def shownBy (label : List Nat → Nat → m Text) (within : List Nat) : Value → m Text
  | .null => pure "None".toList
  | .bool true => pure "True".toList
  | .bool false => pure "False".toList
  | .int i => digits i
  | .float x => pure (floatText x)
  | .text t => pure t.quoted
  | .list items => bracketed '[' ']' <$> shownItemsBy label within items
  | .table fields => bracketed '{' '}' <$> shownFieldsBy label within fields
  | .node i => label within i
  | .kept id items =>
    if within.contains id then pure "[...]".toList
    else bracketed '[' ']' <$> shownItemsBy label (id :: within) items

/-- The members of a list, each as it is shown inside another value. -/
def shownItemsBy (label : List Nat → Nat → m Text) (within : List Nat) :
    List Value → m (List Text)
  | [] => pure []
  | v :: items => do
    let first ← v.shownBy label within
    return first :: (← shownItemsBy label within items)

/-- The fields of a table, each with its quoted name, a colon and its value. -/
def shownFieldsBy (label : List Nat → Nat → m Text) (within : List Nat) :
    List (String × Value) → m (List Text)
  | [] => pure []
  | (k, v) :: fields => do
    let first ← v.shownBy label within
    return (Text.quoted k.toList ++ [':', ' '] ++ first) :: (← shownFieldsBy label within fields)

end

/-- A value as text: a text is itself, a node is what `write` makes of it, and all else is as
shown. -/
def writtenBy (write label : List Nat → Nat → m Text) (within : List Nat) : Value → m Text
  | .text t => pure t
  | .node i => write within i
  | v => v.shownBy digits label within

end

/-- A value without nodes as it is shown inside another one, whatever the size of its integers. -/
def shown (v : Value) : Text :=
  Id.run (v.shownBy (fun i => pure (intText i)) (fun _ _ => pure []) [])

/-- A value without nodes as text, whatever the size of its integers: a text is itself, all else is
as shown. -/
def asText : Value → Text
  | .text t => t
  | v => v.shown

/-- The text that a value is, if it is one. -/
def text? : Value → Option Text
  | .text t => some t
  | _ => none

/-- A text is shown as it is. -/
@[simp] theorem asText_text (t : Text) : (Value.text t).asText = t := rfl

/-- The text of a text is the text. -/
@[simp] theorem text?_text (t : Text) : (Value.text t).text? = some t := rfl

/-- A text is there unless it is empty. -/
@[simp] theorem isPresent_text (t : Text) : (Value.text t).isPresent = !t.isEmpty := rfl

/-- Whether two values name the same key of a mapping: numbers and truth values do when they are
equal as numbers, texts when they are equal. -/
def sameKey (a b : Value) : Bool :=
  match a, b with
  | .null, .null => true
  | .text s, .text t => s = t
  | .float x, .float y => x == y
  | a, b =>
    match number? a, number? b with
    | some i, some j => i = j
    | _, _ => false
where
  /-- The integer a value is equal to. -/
  number? : Value → Option Int
    | .bool b => some (if b then 1 else 0)
    | .int i => some i
    | .float x => floatInt? x
    | _ => none

section

variable {m : Type → Type} [Monad m]

mutual

/-- Whether two values are equal: numbers and truth values as numbers, lists place by place if they
are of the same length, tables field by field in any order, nodes as `same` has it. -/
def agreesBy (same : Nat → Nat → m Bool) : Value → Value → m Bool
  | .list items, v | .kept _ items, v =>
    match v.items? with
    | some others =>
      if items.length = others.length then agreesEachBy same items others else pure false
    | none => pure false
  | .table fields, .table others =>
    if fields.length = others.length then agreesFieldsBy same fields others else pure false
  | .table _, _ => pure false
  | .node i, .node j => same i j
  | .node _, _ => pure false
  | a, b => pure (sameKey a b)

/-- Whether two lists agree place by place as far as both go. -/
def agreesEachBy (same : Nat → Nat → m Bool) : List Value → List Value → m Bool
  | a :: items, b :: others => do
    if ← a.agreesBy same b then agreesEachBy same items others else return false
  | _, _ => pure true

/-- Whether another table has each of the fields with the same value. -/
def agreesFieldsBy (same : Nat → Nat → m Bool) :
    List (String × Value) → List (String × Value) → m Bool
  | [], _ => pure true
  | (k, a) :: fields, others =>
    match lookup k others with
    | some b => do if ← a.agreesBy same b then agreesFieldsBy same fields others else return false
    | none => pure false

end

end

/-- Whether two values are equal, where a node equals itself only. -/
def agrees (a b : Value) : Bool := Id.run (a.agreesBy (fun i j => pure (i == j)) b)

/-! ### Nodes and lists inside values -/

mutual

/-- The nodes that a value holds. -/
def nodes : Value → List Nat
  | .node i => [i]
  | .list items | .kept _ items => nodesOfItems items
  | .table fields => nodesOfFields fields
  | _ => []

/-- The nodes that a list of values holds. -/
def nodesOfItems : List Value → List Nat
  | [] => []
  | v :: items => v.nodes ++ nodesOfItems items

/-- The nodes that the fields of a table hold. -/
def nodesOfFields : List (String × Value) → List Nat
  | [] => []
  | (_, v) :: fields => v.nodes ++ nodesOfFields fields

end

mutual

/-- Changes the list of an identity wherever it occurs in a value. -/
def mapKept (id : Nat) (f : List Value → List Value) : Value → Value
  | .list items => .list (mapKeptItems id f items)
  | .kept other items =>
    let items := mapKeptItems id f items
    .kept other (if other = id then f items else items)
  | .table fields => .table (mapKeptFields id f fields)
  | v => v

/-- Changes the list of an identity wherever it occurs in a list of values. -/
def mapKeptItems (id : Nat) (f : List Value → List Value) : List Value → List Value
  | [] => []
  | v :: items => v.mapKept id f :: mapKeptItems id f items

/-- Changes the list of an identity wherever it occurs in the fields of a table. -/
def mapKeptFields (id : Nat) (f : List Value → List Value) :
    List (String × Value) → List (String × Value)
  | [] => []
  | (k, v) :: fields => (k, v.mapKept id f) :: mapKeptFields id f fields

end

mutual

/-- Gives each list in a value an identity, counting up from the state. -/
def keep : Value → StateM Nat Value
  | .list items => do
    let items ← keepItems items
    let id ← getModify (· + 1)
    return .kept id items
  | .table fields => .table <$> keepFields fields
  | v => pure v

/-- Gives each list in a list of values an identity. -/
def keepItems : List Value → StateM Nat (List Value)
  | [] => pure []
  | v :: items => do
    let first ← v.keep
    return first :: (← keepItems items)

/-- Gives each list in the fields of a table an identity. -/
def keepFields : List (String × Value) → StateM Nat (List (String × Value))
  | [] => pure []
  | (k, v) :: fields => do
    let first ← v.keep
    return (k, first) :: (← keepFields fields)

end

/-! ### Laws of fields -/

/-- What was put under a key is found there. -/
theorem lookup_put {α : Type} (key : String) (value : α) (fields : List (String × α)) :
    lookup key (put key value fields) = some value := by
  induction fields with
  | nil => simp [put, lookup]
  | cons f fields ih =>
    obtain ⟨k, v⟩ := f
    by_cases h : k = key
    · simp [put, lookup, h]
    · have hb : (key == k) = false := by simpa using fun e => h e.symm
      simp only [put, if_neg h, lookup, List.lookup_cons, hb]
      exact ih

/-- Putting something under a key leaves the other keys alone. -/
theorem lookup_put_of_ne {α : Type} {key other : String} (h : other ≠ key) (value : α)
    (fields : List (String × α)) :
    lookup other (put key value fields) = lookup other fields := by
  induction fields with
  | nil =>
    have hb : (other == key) = false := by simpa using h
    simp [put, lookup, List.lookup_cons, hb]
  | cons f fields ih =>
    obtain ⟨k, v⟩ := f
    by_cases hk : k = key
    · subst hk
      have hb : (other == k) = false := by simpa using h
      simp [put, lookup, List.lookup_cons, hb]
    · simp only [put, if_neg hk, lookup, List.lookup_cons]
      cases other == k with
      | true => rfl
      | false => exact ih

end Value

end FeatureTree
