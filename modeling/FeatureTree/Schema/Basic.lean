import FeatureTree.Schema.Current
import FeatureTree.Schema.Legacy
import FeatureTree.Schema.Typed

/-!
# Normalization

A tree shows by its fields which schema it follows, and is decoded accordingly into a document
record.

## Main results

* `Schema.detect_list`: a list is always legacy output
-/

namespace FeatureTree

namespace Schema

/-- Whether a table has a field. -/
def hasField (fields : List (String × Value)) (key : String) : Bool :=
  (Value.lookup key fields).isSome

/-- Whether the type of a tree is that of a typed document or feature. -/
def isTypedRoot (fields : List (String × Value)) : Bool :=
  match Value.lookup "type" fields with
  | some (.text type) => type = "GherkinDocument".toList || type = "Feature".toList
  | _ => false

/-- The schema of a tree. -/
def detect : Value → Except Fault SchemaVersion
  | .list _ | .kept _ _ => .ok .legacyJson
  | .table fields =>
    if isTypedRoot fields then .ok .typedAst
    else if hasField fields "elements"
        || (hasField fields "line" && !hasField fields "location") then .ok .legacyJson
    else .ok .currentAst
  | v => .error (.unsupportedTree v.kindName)

/-- Decodes a tree of a known schema. -/
def decode : SchemaVersion → Value → Except Fault DocumentRecord
  | .legacyJson => Legacy.document
  | .typedAst => Typed.document
  | .currentAst => Current.document

/-- Decodes a tree. -/
def normalize (raw : Value) : Except Fault DocumentRecord := do
  let schema ← detect raw
  decode schema raw

/-- A list is always legacy output. -/
theorem detect_list (items : List Value) : detect (.list items) = .ok .legacyJson := rfl

end Schema

end FeatureTree
