import FeatureTree.Schema.Ast

/-!
# The typed schema

Every part names its type. The whole is either a document around a feature or, in the earliest
releases, the feature itself, with its sections under another name and its background apart.
-/

namespace FeatureTree

namespace Schema

namespace Typed

/-- The argument of a step: a doc string if its type says so, else a table. -/
def block (v : Value) : Except Fault (Option Record) := do
  match ← v.getPresent? "argument" with
  | none => return none
  | some argument =>
    match ← argument.get "type" with
    | .text type =>
      if type = "DocString".toList then some <$> docString .typedAst argument
      else some <$> table .typedAst argument
    | _ => some <$> table .typedAst argument

/-- The kind of section that a type names. -/
def sectionKind? (type : Text) : Option Kind :=
  if type = "Background".toList then some .background
  else if type = "Scenario".toList then some .scenario
  else if type = "ScenarioOutline".toList then some .outline
  else none

/-- A child of a feature. -/
def child (v : Value) : Except Fault Record := do
  match ← v.get "type" with
  | .text type =>
    match sectionKind? type with
    | some kind => sectionPart .typedAst block kind v
    | none => throw (.unknownChildType (.text type))
  | type => throw (if type.isKey then .unknownChildType type else .unusableValue)

/-- The children of a feature as one value: those under the one name or the other, behind a
background that stands apart. -/
def childrenOf (feature : Value) : Except Fault Value := do
  let sections ← match ← feature.getPresent? "children" with
    | some children => pure children
    | none => feature.get "scenarioDefinitions"
  match ← feature.getPresent? "background" with
  | some background => return .list (background :: (← sections.membersOrEmpty))
  | none => return sections

/-- A feature with the given children. -/
def feature (v children : Value) : Except Fault Record := do
  let part ← titled .typedAst .feature v
  let language ← v.getAny "language"
  let children ← decodeAll child (← children.membersOrEmpty)
  return { part with language, children }

/-- The feature of a tree: the tree itself unless it is a document. -/
def featureOf (raw : Value) : Except Fault Value := do
  match ← raw.get "type" with
  | .text type => if type = "GherkinDocument".toList then raw.get "feature" else return raw
  | _ => return raw

/-- A whole tree. -/
def document (raw : Value) : Except Fault DocumentRecord := do
  let found ← featureOf raw
  let feature ←
    if found.isPresent then do
      let children ← childrenOf found
      some <$> feature found children
    else pure none
  let comments ← decodeAll (comment .typedAst) (← raw.getMembers "comments")
  return ⟨feature, comments, ⟨.typedAst, raw⟩⟩

end Typed

end Schema

end FeatureTree
