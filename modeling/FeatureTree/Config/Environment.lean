import FeatureTree.Fault
import FeatureTree.Text.LowerCase
import FeatureTree.Value.Json

/-!
# Settings from the environment

A variable whose name starts with `FEATUREMODEL_` sets one field of one section of a configuration.
The rest of the name, in lower case, is cut at its first underscore: before it stands the section,
after it the field. Only sections that the configuration already has as tables can be reached.

## Main results

* `Config.applyVariable_of_not_table`: a variable that names no table changes nothing
-/

namespace FeatureTree

namespace Config

/-- A configuration: its top-level fields in order. -/
abbrev Fields := List (String × Value)

/-- What the names of all variables that count start with. -/
def variablePrefix : Text := "FEATUREMODEL_".toList

/-- The value that a variable stands for. Text that looks like a JSON list or table and is one is
read as such; true and false are recognized in any case; all else is taken literally. -/
def variableValue (t : Text) : Except Fault Value :=
  let trimmed := t.trim
  match trimmed with
  | '[' :: _ | '{' :: _ =>
    match Json.read trimmed with
    | .ok v => .ok v
    | .error .malformed => .ok (.text t)
    | .error .integerTooLong => .error .integerTooLong
  | _ =>
    if trimmed.lower = "true".toList then .ok (.bool true)
    else if trimmed.lower = "false".toList then .ok (.bool false)
    else .ok (.text t)

/-- The value that a variable stands for, which has to be a text. -/
def valueOfVariable : Value → Except Fault Value
  | .text t => variableValue t
  | _ => .error .noAttribute

/-- The section and the field that a variable names. -/
def variableTarget? (name : Text) : Option (String × String) :=
  if variablePrefix.isPrefixOf name then
    match Text.cutAtChar '_' (Text.lower (name.drop variablePrefix.length)) with
    | some (sectionName, key) =>
      if key.isEmpty then none else some (String.ofList sectionName, String.ofList key)
    | none => none
  else none

/-- Applies one variable. -/
def applyVariable (config : Fields) (name value : Text) : Except Fault Fields :=
  match variableTarget? name with
  | none => .ok config
  | some (sectionName, key) =>
    match Value.lookup sectionName config with
    | some (.table fields) => do
      let v ← variableValue value
      return Value.put sectionName (.table (Value.put key v fields)) config
    | _ => .ok config

/-- Applies variables in the order in which they are listed. -/
def applyVariables (config : Fields) (environment : List (Text × Text)) : Except Fault Fields :=
  environment.foldlM (fun config (name, value) => applyVariable config name value) config

/-- Applies variables to what is meant to be a configuration. If it is no table, it is not even
looked into unless a variable has a target. -/
def applyVariablesTo (config : Value) (environment : List (Text × Text)) : Except Fault Value :=
  match config with
  | .table fields => .table <$> applyVariables fields environment
  | config =>
    if environment.any fun (name, _) => (variableTarget? name).isSome then .error .noAttribute
    else .ok config

/-- A variable that names no table changes nothing. -/
theorem applyVariable_of_not_table {config : Fields} {name value : Text}
    (h : ∀ s k fields, variableTarget? name = some (s, k) →
      Value.lookup s config ≠ some (.table fields)) :
    applyVariable config name value = .ok config := by
  unfold applyVariable
  split
  · rfl
  · next s k ht =>
    split
    · next fields hl => exact absurd hl (h s k fields ht)
    · rfl

end Config

end FeatureTree
