import FeatureTree.Node.Build
import FeatureTree.Store.Equality
import FeatureTree.Store.Ownership
import FeatureTree.Store.Tree

/-!
# Rows of examples

The first row of examples names the parameters, the rows after it hold arguments. Rows are added
and removed by data from outside: a mapping from parameters to values or a sequence of values in the
order of the parameters. Every value becomes a text without blanks at its ends. What a value is
written as can depend on the nodes in the store, and there are values that have no text.

## Main results

* `Store.mapM_valueFor_text`: parameters that are texts always have values
* `Store.removeRow_of_not_found`: nothing changes when no row holds the values
-/

namespace FeatureTree

/-- Data for a row. -/
inductive RowData where
  /-- Values by key. Of pairs with the same key the last one counts. -/
  | mapping (pairs : List (Value × Value))
  | sequence (items : List Value)
  /-- Anything else, by the name of its kind. -/
  | unsupported (kindName : String)
deriving Inhabited

namespace RowData

/-- Sets the value of a key: in the place of the same key if there is one, else at the end. -/
def put (key value : Value) : List (Value × Value) → List (Value × Value)
  | [] => [(key, value)]
  | (k, v) :: pairs =>
    if Value.sameKey k key then (k, value) :: pairs else (k, v) :: put key value pairs

/-- A mapping in which every key occurs once: the first key as it was first written, with the value
that it was last given. -/
def entries (pairs : List (Value × Value)) : List (Value × Value) :=
  pairs.foldl (fun done (k, v) => put k v done) []

/-- The value for a parameter among values that have texts as their names: of those whose name it is
the last, and an empty text if there is none. No name is a parameter that is no text, and what can
be changed cannot be looked up. -/
def valueFor (named : List (Text × Value)) (parameter : Value) : Except Fault Value :=
  match parameter with
  | .text t => .ok ((named.reverse.lookup t).getD (.text []))
  | v => if v.isKey then .ok (.text []) else .error .unusableValue

end RowData

namespace Store

/-- The text of a value in a cell: what the value is written as at the moment, without the blanks at
its ends. -/
def cellText (s : Store) (v : Value) : Except Fault Text := Text.trim <$> s.written v

/-- The values of entries by the texts of their keys. -/
def named (s : Store) (entries : List (Value × Value)) : Except Fault (List (Text × Value)) :=
  entries.mapM fun (key, value) => do return (← s.written key, value)

/-- The values that data has for a row of examples. Those of a mapping are looked up by the
parameters, once all of its keys are texts; a sequence need not have as many values as there are
parameters. -/
def rowItems (s : Store) (i : NodeId) : RowData → Except Fault (List Value)
  | .mapping pairs => do
    let named ← s.named (RowData.entries pairs)
    (← (← s.parameters i).members).mapM (RowData.valueFor named)
  | .sequence items => .ok items
  | .unsupported kindName => .error (.unsupportedRow kindName)

/-- The texts that data stands for in examples. -/
def rowTexts (s : Store) (i : NodeId) (data : RowData) : Except Fault (List Text) := do
  (← s.rowItems i data).mapM s.cellText

/-- Rows belong to examples; no other node can be given one. -/
def needExamples (s : Store) (i : NodeId) (operation : String) : Except Fault Unit := do
  s.calls i operation
  if (← s.get i).shape.kind ≠ .example then throw .noAttribute

/-- Adds a row of arguments to examples that have parameters, and gives the row. -/
def addRow (s : Store) (i : NodeId) (data : RowData) : Except Fault (NodeId × Store) := do
  s.needExamples i "add_row"
  let rows ← s.valueOf i (.list .rows)
  if !rows.isPresent then
    throw (.noParameters (← s.written (← s.valueOf i .noParameters)))
  let texts ← s.rowTexts i data
  let (row, s) := s.plant (Node.ofValues (texts.map .text))
  let s ← s.adopt i row
  return (row, ← s.append i (Attribute.list .rows).name (.node row))

/-- The first of some rows that holds given values, with its place, which is counted on from a
number. -/
def findRow (s : Store) (values : List Text) :
    Nat → List Value → Except Fault (Option (Nat × Value))
  | _, [] => .ok none
  | n, row :: rows => do
    let held ← s.valuesOf row
    if ← held.agreesBy s.equals (.list (values.map .text)) then return some (n, row)
    else s.findRow values (n + 1) rows

/-- Takes the first row of arguments that holds the values of some data out of examples and detaches
it. Nothing changes if there is no such row. -/
def removeRow (s : Store) (i : NodeId) (data : RowData) : Except Fault Store := do
  s.needExamples i "remove_row"
  let values ← s.rowTexts i data
  match ← s.findRow values 1 (← (← s.argumentRows i).members) with
  | some (n, .node row) =>
    return (← s.changeList i (Attribute.list .rows).name (·.eraseIdx n)).disown i row
  | _ => return s

/-! ### Laws -/

/-- Parameters that are texts always have values. -/
theorem mapM_valueFor_text (named : List (Text × Value)) (parameters : List Text) :
    (parameters.map .text).mapM (RowData.valueFor named)
      = .ok (parameters.map fun t => (named.reverse.lookup t).getD (.text [])) := by
  induction parameters with
  | nil => rfl
  | cons p parameters ih =>
    rw [List.map_cons, List.mapM_cons, ih]
    rfl

/-- A text stands in a cell without the blanks at its ends. -/
theorem cellText_text (s : Store) (t : Text) : s.cellText (.text t) = .ok t.trim := rfl

/-- Data that is neither a mapping nor a sequence is refused. -/
theorem rowTexts_unsupported (s : Store) (i : NodeId) (kindName : String) :
    s.rowTexts i (.unsupported kindName) = .error (.unsupportedRow kindName) := rfl

/-- Nothing changes when no row of arguments holds the values. -/
theorem removeRow_of_not_found {s : Store} {i : NodeId} {data : RowData} {rows : Value}
    {members : List Value} {values : List Text} (he : s.needExamples i "remove_row" = .ok ())
    (hv : s.rowTexts i data = .ok values) (hr : s.argumentRows i = .ok rows)
    (hm : rows.members = .ok members) (hf : s.findRow values 1 members = .ok none) :
    s.removeRow i data = .ok s := by
  simp only [removeRow, he, hv, hr, hm, hf, bind, Except.bind]
  rfl

end Store

end FeatureTree
