import FeatureTree.Record
import FeatureTree.Schema.Access
import FeatureTree.Value.Order

/-!
# The legacy schema

A list of features, of which the first counts. Lines are plain fields, sections are elements, cells
are plain texts on the line of their row, and comments are spread over the feature and its elements.
-/

namespace FeatureTree

namespace Schema

namespace Legacy

/-- The capsule of a part. -/
def capsule (v : Value) : Capsule := ⟨.legacyJson, v⟩

/-- The line of a part. -/
def lineOf (v : Value) : Except Fault Value := v.get "line"

/-- The keyword of a part. -/
def keywordOf (v : Value) : Except Fault Text := v.getTrimmed "keyword"

/-- A tag. -/
def tag (v : Value) : Except Fault Record := do
  let line ← lineOf v
  let name ← v.getAny "name"
  return { kind := .tag, line, name, capsule := capsule v }

/-- A titled part with its tags. -/
def titled (kind : Kind) (v : Value) : Except Fault Record := do
  let line ← lineOf v
  let keyword ← keywordOf v
  let name ← v.getAny "name"
  let description ← v.getAny "description"
  let tags ← (← v.getMembers "tags").mapM tag
  return { kind, line, keyword, name, description, tags, capsule := capsule v }

/-- A comment, trimmed. -/
def comment (v : Value) : Except Fault Record := do
  let line ← lineOf v
  let text ← v.getTrimmed "value"
  return { kind := .comment, line, text := .text text, capsule := capsule v }

/-- A cell of a row on a line. -/
def cell (line v : Value) : Record := { kind := .cell, line, text := v, capsule := capsule v }

/-- A row with its cells. -/
def row (v : Value) : Except Fault Record := do
  let line ← lineOf v
  let cells ← v.getMembers "cells"
  return { kind := .row, line, cells := cells.map (cell line), capsule := capsule v }

/-- The line of the first of some rows. A table of named rows has no first one. -/
def firstLine (rows : Value) : Except Fault Value := do
  match rows with
  | .table _ => throw .missingField
  | rows =>
    match ← rows.members with
    | first :: _ => lineOf first
    | [] => return .null

/-- The argument of a step: its doc string if it has one, else its rows as a table, which stands
where the first row stands. -/
def block (v : Value) : Except Fault (Option Record) := do
  match ← v.getPresent? "doc_string" with
  | some docString =>
    let line ← lineOf docString
    let text ← docString.getAny "value"
    let contentType ← docString.getAny "content_type"
    return some
      { kind := .docString, line, text, contentType, capsule := capsule docString }
  | none =>
    match ← v.getPresent? "rows" with
    | some rows =>
      let line ← firstLine rows
      let members ← (← rows.members).mapM row
      return some { kind := .table, line, rows := members, capsule := capsule rows }
    | none => return none

/-- A step. -/
def step (v : Value) : Except Fault Record := do
  let block ← block v
  let line ← lineOf v
  let keyword ← keywordOf v
  let text ← v.getAny "name"
  return { kind := .step, line, keyword, text, block, capsule := capsule v }

/-- Examples with their rows. -/
def examples (v : Value) : Except Fault Record := do
  let part ← titled .example v
  let rows ← (← v.getMembers "rows").mapM row
  return { part with rows }

/-- The kind of section that a type names. -/
def sectionKind? (type : Text) : Option Kind :=
  if type = "background".toList then some .background
  else if type = "scenario".toList then some .scenario
  else if type = "scenario_outline".toList then some .outline
  else none

/-- An element of a feature. -/
def element (v : Value) : Except Fault Record := do
  match ← v.get "type" with
  | .text type =>
    match sectionKind? type with
    | some kind =>
      let part ← titled kind v
      let steps ← (← v.getMembers "steps").mapM step
      let examples ← (← v.getMembers "examples").mapM examples
      return { part with steps, examples }
    | none => throw (.unknownElementType (.text type))
  | type => throw (if type.isKey then .unknownElementType type else .unusableValue)

/-- A feature with its elements. -/
def feature (v : Value) : Except Fault Record := do
  let part ← titled .feature v
  let children ← (← v.getMembers "elements").mapM element
  return { part with children }

/-- The comments of a feature and of its elements, in that order. -/
def commentsOf (feature : Value) : Except Fault (List Value) := do
  let own ← feature.getMembers "comments"
  let elements ← feature.getMembers "elements"
  let inner ← elements.mapM (·.getMembers "comments")
  return own ++ inner.flatten

/-- The line by which a comment is ordered: zero if it has none. -/
def orderLine (comment : Record) : Value :=
  if comment.line.isPresent then comment.line else .int 0

/-- Whether a comment stands on an earlier line than another one. -/
def standsBefore? (a b : Record) : Option Bool := (orderLine a).less? (orderLine b)

/-- Comments in the order of their lines. -/
def inOrder (comments : List Record) : Except Fault (List Record) :=
  match Value.sortBy? standsBefore? comments with
  | some comments => .ok comments
  | none => .error .unusableValue

/-- A whole tree. -/
def document (raw : Value) : Except Fault DocumentRecord := do
  match raw.items?.getD [raw] with
  | [] => return ⟨none, [], capsule raw⟩
  | first :: _ =>
    let comments ← commentsOf first
    let feature ← feature first
    let comments ← comments.mapM comment
    return ⟨some feature, ← inOrder comments, capsule raw⟩

end Legacy

end Schema

end FeatureTree
