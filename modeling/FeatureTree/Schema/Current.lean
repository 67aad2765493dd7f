import FeatureTree.Schema.Ast
import FeatureTree.Value.Order

/-!
# The current schema

Parts have no type. Each child of a feature or rule is wrapped in a table with one field, whose
name says what the child is; rules hold children in turn. A scenario counts as an outline when it
has examples or its keyword is an outline keyword of the feature's language.
-/

namespace FeatureTree

namespace Schema

namespace Current

/-- The argument of a step: its doc string if it has one, else its table. -/
def block (v : Value) : Except Fault (Option Record) := do
  match ← v.getPresent? "docString" with
  | some v => some <$> docString .currentAst v
  | none =>
    match ← v.getPresent? "dataTable" with
    | some v => some <$> table .currentAst v
    | none => return none

/-- A section of a kind. -/
def sectionOf (kind : Kind) (v : Value) : Except Fault Record :=
  sectionPart .currentAst block kind v

/-- A scenario or outline. -/
def scenario (outlineKeywords : List Text) (v : Value) : Except Fault Record := do
  let hasExamples := (← v.getPresent? "examples").isSome
  let isOutline := hasExamples || outlineKeywords.contains (← keywordOf v)
  sectionOf (if isOutline then .outline else .scenario) v

/-- The fault of a child in which no known name is found, given by its members. -/
def unknownChild (members : List Value) : Fault :=
  match Value.sortBy? Value.less? members with
  | some members => .unknownChild members
  | none => .unusableValue

/-- The fault of a child that is no table. A text or list is searched for the known names like a
table; finding one does not help. -/
def strayChild (v : Value) : Fault :=
  let known := ["background".toList, "rule".toList, "scenario".toList]
  match v with
  | .text t =>
    if known.any (Text.hasPart · t) then .unusableValue
    else unknownChild (t.map fun c => .text [c])
  | .list items | .kept _ items =>
    if known.any fun name => items.any (·.agrees (.text name)) then .unusableValue
    else unknownChild items
  | _ => .unusableValue

mutual

/-- A child of a feature or rule. -/
def child (outlineKeywords : List Text) : Value → Except Fault Record
  | .table fields =>
    match Value.lookup "background" fields with
    | some v => sectionOf .background v
    | none =>
      match ruleIn outlineKeywords fields with
      | some rule => rule
      | none =>
        match Value.lookup "scenario" fields with
        | some v => scenario outlineKeywords v
        | none => .error (unknownChild (fields.map fun (k, _) => .text k.toList))
  | v => .error (strayChild v)

/-- The rule of a child, if it has one. -/
def ruleIn (outlineKeywords : List Text) : List (String × Value) → Option (Except Fault Record)
  | [] => none
  | (key, v) :: fields =>
    if key = "rule" then some (rule outlineKeywords v) else ruleIn outlineKeywords fields

/-- A rule with its children. -/
def rule (outlineKeywords : List Text) : Value → Except Fault Record
  | .table fields => do
    let part ← titled .currentAst .rule (.table fields)
    let children ← childrenIn outlineKeywords fields
    return { part with children }
  | _ => .error .noAttribute

/-- The children among the fields of a rule. -/
def childrenIn (outlineKeywords : List Text) : List (String × Value) → Except Fault (List Record)
  | [] => .ok []
  | (key, v) :: fields =>
    if key = "children" then childrenOf outlineKeywords v else childrenIn outlineKeywords fields

/-- The children of a rule, given as the value of its field. -/
def childrenOf (outlineKeywords : List Text) : Value → Except Fault (List Record)
  | .list items | .kept _ items => childList outlineKeywords items
  | v => do
    match ← v.membersOrEmpty with
    | [] => return []
    | stray :: _ => throw (strayChild stray)

/-- The children in a list. -/
def childList (outlineKeywords : List Text) : List Value → Except Fault (List Record)
  | [] => .ok []
  | v :: items => do
    let record ← child outlineKeywords v
    let records ← childList outlineKeywords items
    return record :: records

end

/-- A feature. -/
def feature (v : Value) : Except Fault Record := do
  let children ← v.getPresent? "children"
  let part ← titled .currentAst .feature v
  let language ← v.getAny "language"
  let outlineKeywords ← Dialect.outlineKeywordsFor language
  let children ← childrenOf outlineKeywords (children.getD .null)
  return { part with language, children }

/-- A whole tree. -/
def document (raw : Value) : Except Fault DocumentRecord := do
  let feature ← match ← raw.getPresent? "feature" with
    | some v => some <$> feature v
    | none => pure none
  let comments ← decodeAll (comment .currentAst) (← raw.getMembers "comments")
  return ⟨feature, comments, ⟨.currentAst, raw⟩⟩

end Current

end Schema

end FeatureTree
