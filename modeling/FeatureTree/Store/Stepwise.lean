import FeatureTree.Store.Rows

/-!
# Operations step by step

The operations that attach and detach nodes and change lists, each as the steps that it takes one
after the other. A step that fails changes nothing, but what the steps before it have changed stays
changed: nothing is taken back. So it takes an argument that an operation which fails leaves nothing
behind, and the argument is about the order of the steps: everything that can fail comes before the
first change, or cannot fail any more once that is made.

## Main results

* `Store.Stepwise.run_bind`: steps one after the other
-/

namespace FeatureTree

namespace Store

/-- A computation on a store in steps. What was changed before a step fails stays changed. -/
abbrev Stepwise (α : Type) : Type := ExceptT Fault (StateM Store) α

namespace Stepwise

variable {α β : Type}

/-- The outcome of a computation that starts in a store, and the store that it leaves. -/
def run (x : Stepwise α) (s : Store) : Except Fault α × Store := StateT.run (ExceptT.run x) s

/-- Asks something of the store as it is at that time. -/
def ask (f : Store → Except Fault α) : Stepwise α := do
  match f (← getThe Store) with
  | .ok a => return a
  | .error fault => throw fault

/-- Changes the store in one step, or fails. -/
def change (f : Store → Except Fault Store) : Stepwise Unit := do set (← ask f)

/-- Attaches a node to a parent. -/
def adopt (parent child : NodeId) : Stepwise Unit := do
  match (← getThe Store).parent? child with
  | none => modify (·.setParent (some parent) child)
  | some current => if current ≠ parent then throw ((← getThe Store).attachedFault child current)

/-- Attaches a node to a directory and puts it at the end of one of the directory's lists. The list
is asked for before the node is attached. -/
def addTo (directory : NodeId) (field : ListField) (child : NodeId) : Stepwise Unit := do
  if (← ask (·.get directory)).shape.kind ≠ .directory then throw .noAttribute
  let _ ← ask (·.listNamed directory (Attribute.list field).name)
  adopt directory child
  change (·.append directory (Attribute.list field).name (.node child))

/-- Attaches a feature file as the last document of a directory. -/
def addFeatureFile (directory file : NodeId) : Stepwise Unit := do
  ask (·.calls directory "add_feature_file")
  addTo directory .featureFiles file

/-- Attaches a directory as the last one inside another. -/
def addDirectory (directory inner : NodeId) : Stepwise Unit := do
  ask (·.calls directory "add_directory")
  addTo directory .directories inner

/-- Adds a row of arguments to examples that have parameters, and gives the row. That there are
parameters is asked first, and the data is turned into texts before the row is made. -/
def addRow (i : NodeId) (data : RowData) : Stepwise NodeId := do
  ask (·.needExamples i "add_row")
  let rows ← ask (·.valueOf i (.list .rows))
  if !rows.isPresent then
    let message ← ask (·.valueOf i .noParameters)
    throw (.noParameters (← ask (·.written message)))
  let texts ← ask (·.rowTexts i data)
  let row ← modifyGet (·.plant (Node.ofValues (texts.map .text)))
  adopt i row
  change (·.append i (Attribute.list .rows).name (.node row))
  return row

/-- Takes the first row of arguments that holds the values of some data out of examples and detaches
it. -/
def removeRow (i : NodeId) (data : RowData) : Stepwise Unit := do
  ask (·.needExamples i "remove_row")
  let values ← ask (·.rowTexts i data)
  let rows ← ask (·.argumentRows i)
  let members ← ask fun _ => rows.members
  match ← ask (·.findRow values 1 members) with
  | some (n, .node row) =>
    change (·.changeList i (Attribute.list .rows).name (·.eraseIdx n))
    modify (·.disown i row)
  | _ => return

/-! ### Running steps -/

/-- Computations that come to the same from every store are the same. -/
theorem ext {x y : Stepwise α} (h : ∀ s, x.run s = y.run s) : x = y := funext h

/-- Of two computations one after the other the second one runs if the first one does not fail, in
the store that it leaves. -/
theorem run_bind (x : Stepwise α) (f : α → Stepwise β) (s : Store) :
    (x >>= f).run s = match x.run s with
      | (.ok a, t) => (f a).run t
      | (.error fault, t) => (.error fault, t) := by
  simp only [run, ExceptT.run_bind, StateT.run_bind]
  rcases StateT.run (ExceptT.run x) s with ⟨_ | _, _⟩ <;> rfl

/-- What is done with the store as it is. -/
theorem run_get_bind (f : Store → Stepwise α) (s : Store) :
    (getThe Store >>= f).run s = (f s).run s := rfl

/-- A result alone leaves the store as it is. -/
theorem run_pure (a : α) (s : Store) : (pure a : Stepwise α).run s = (.ok a, s) := rfl

/-- A fault alone leaves the store as it is. -/
theorem run_throw (fault : Fault) (s : Store) :
    (throw fault : Stepwise α).run s = (.error fault, s) := rfl

/-- A change cannot fail. -/
theorem run_modify (f : Store → Store) (s : Store) :
    (modify f : Stepwise Unit).run s = (.ok (), f s) := rfl

/-- A change with a result cannot fail. -/
theorem run_modifyGet (f : Store → α × Store) (s : Store) :
    (modifyGet f : Stepwise α).run s = (.ok (f s).1, (f s).2) := rfl

/-- Asking leaves the store as it is, also if there is no answer. -/
theorem run_ask (f : Store → Except Fault α) (s : Store) : (ask f).run s = (f s, s) := by
  rw [ask, run_get_bind]
  cases f s <;> rfl

/-- What is done with an answer. -/
theorem run_ask_bind (f : Store → Except Fault α) (g : α → Stepwise β) (s : Store) :
    (ask f >>= g).run s = match f s with
      | .ok a => (g a).run s
      | .error fault => (.error fault, s) := by
  rw [run_bind, run_ask]
  cases f s <;> rfl

/-- A change that fails leaves the store as it is. -/
theorem run_change (f : Store → Except Fault Store) (s : Store) :
    (change f).run s = match f s with
      | .ok t => (.ok (), t)
      | .error fault => (.error fault, s) := by
  rw [change, run_ask_bind]
  cases f s <;> rfl

end Stepwise

end Store

end FeatureTree
