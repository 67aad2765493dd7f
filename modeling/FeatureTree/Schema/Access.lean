import FeatureTree.Value.Members

/-!
# Reading fields leniently

Trees come from many releases of many parsers, so a field that is left out, null, or empty in its
own way means the same everywhere. A value where a text is meant is kept as it is, unless it has to
be trimmed; a value that is taken apart must have the right shape.

## Main results

* `Value.textOrEmpty_of_absent`, `Value.membersOrEmpty_of_absent`: absence in any form is emptiness
-/

namespace FeatureTree

namespace Value

/-- A field of a table, null when it is left out. -/
def get (v : Value) (key : String) : Except Fault Value :=
  match v with
  | .table fields => .ok ((lookup key fields).getD .null)
  | _ => .error .noAttribute

/-- A field of a table if it has a value. -/
def getPresent? (v : Value) (key : String) : Except Fault (Option Value) :=
  (v.get key).map fun field => if field.isPresent then some field else none

/-- A value as it was found, an empty text when there is no value. -/
def orEmptyText (v : Value) : Value := if v.isPresent then v else .text []

/-- A text, empty when there is no value. -/
def textOrEmpty (v : Value) : Except Fault Text :=
  match v with
  | .text t => .ok t
  | v => if v.isPresent then .error .noAttribute else .ok []

/-- The members of a value, none when there is no value. -/
def membersOrEmpty (v : Value) : Except Fault (List Value) :=
  if v.isPresent then v.members else .ok []

/-- What a field holds where a text is meant. -/
def getAny (v : Value) (key : String) : Except Fault Value := return (← v.get key).orEmptyText

/-- The text of a field without the blanks at its ends. -/
def getTrimmed (v : Value) (key : String) : Except Fault Text :=
  return (← (← v.get key).textOrEmpty).trim

/-- The members of a field. -/
def getMembers (v : Value) (key : String) : Except Fault (List Value) := do
  (← v.get key).membersOrEmpty

/-- Where there is no value the text is empty. -/
theorem textOrEmpty_of_absent {v : Value} (h : v.isPresent = false) : v.textOrEmpty = .ok [] := by
  cases v with
  | text t =>
    have : t = [] := by simpa [isPresent] using h
    simp [textOrEmpty, this]
  | _ => simp [textOrEmpty, h]

/-- Where there is no value there are no members. -/
theorem membersOrEmpty_of_absent {v : Value} (h : v.isPresent = false) :
    v.membersOrEmpty = .ok [] := by
  simp [membersOrEmpty, h]

end Value

end FeatureTree
