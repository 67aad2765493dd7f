import FeatureTree.Node.Render
import FeatureTree.Store.Content

/-!
# Rendering in a store

The nodes of a store are rendered like trees, from what they hold at the moment. A node that is
held where a text is meant is written as its own text, or shown as its label inside a list; so
labels and lines depend on each other, and neither need come to an end. They are computed on a
budget of levels. What does end never comes back to a node in the same way while it is shown, which
bounds the levels that are needed.

## Main results

* `Store.lines_directory`: a directory is rendered without what is below it
-/

namespace FeatureTree

namespace Store

/-- How nodes are shown, given the kept lists that are being shown. -/
structure Showing where
  label : List Nat → NodeId → Except Fault Text
  lines : List Nat → NodeId → Rendered

namespace Showing

/-- The text of a node, which nodes can be kept from giving. -/
def text (sh : Showing) (s : Store) (within : List Nat) (i : NodeId) : Except Fault Text := do
  s.calls i "to_text"
  Layout.joinValues (← sh.lines within i)

/-- A value as it is shown inside another one. -/
def shown (sh : Showing) (within : List Nat) (v : Value) : Except Fault Text :=
  v.shownBy Value.integerText sh.label within

/-- A value as text. -/
def written (sh : Showing) (s : Store) (within : List Nat) (v : Value) : Except Fault Text :=
  v.writtenBy Value.integerText (sh.text s) sh.label within

end Showing

/-! ### Labels -/

/-- What tells a node from others of its kind in its label. -/
def mark (s : Store) (sh : Showing) (within : List Nat) (i : NodeId) : Except Fault Text := do
  match (← s.get i).shape.kind with
  | .cell => sh.shown within (← s.valueOf i (.text .value))
  | .tag => sh.shown within (← s.valueOf i (.text .name))
  | .featureFile | .directory => sh.shown within (← s.valueOf i (.text .path))
  | .step => do
    let keyword ← sh.written s within (← s.valueOf i (.text .keyword))
    return keyword ++ ' ' :: (← sh.shown within (← s.valueOf i (.text .text)))
  | _ => return "line=".toList ++ (← sh.written s within (← s.sourceLine i))

/-- The label of a node: its kind and what tells it from others. -/
def labelBy (s : Store) (sh : Showing) (within : List Nat) (i : NodeId) : Except Fault Text := do
  let title := (← s.get i).shape.kind.title.toList
  return '<' :: title ++ ' ' :: (← s.mark sh within i) ++ ['>']

/-! ### Keywords -/

/-- The language that holds for a node: the one of its feature, null if that has none. -/
def languageFor (s : Store) (i : NodeId) : Except Fault Value := do
  let feature ← if ← s.isOfKind .feature (.node i) then pure (some i)
    else s.ancestor? [.feature] i
  match feature with
  | none => return .null
  | some feature =>
    match s.valueOf feature (.text .language) with
    | .error .noAttribute => return .null
    | language => language

/-- The kind by which a node is laid out. A node that was given another kind has no layout. -/
def layoutKind (s : Store) (i : NodeId) : Except Fault Kind := do
  let e ← s.get i
  match Value.lookup Attribute.kind.name e.given with
  | none => return e.shape.kind
  | some kind => throw (if kind.isKey then .missingField else .unusableValue)

/-- The keyword of a node: its own, the bullet for a step that has none, else the one of its kind in
the language that applies to it. -/
def keywordOf (s : Store) (i : NodeId) : Except Fault Value := do
  let keyword ← s.valueOf i (.text .keyword)
  if keyword.isPresent then return keyword
  if ← s.isOfKind .step (.node i) then return .text ['*']
  let language ← s.languageFor i
  match s.layoutKind i with
  | .ok kind => kind.keywordIn s.dialect language
  | .error f => do
    let _ ← Dialect.keywordsFor s.dialect language
    throw f

/-! ### Lines -/

/-- A node as a part of the node around it. What is no node has nothing that could be asked for. -/
def facet (s : Store) (sh : Showing) (within : List Nat) : Value → Facet
  | .node i =>
    { field := fun field => s.valueOf i (.text field)
      cells := fun _ => do
        (← s.listed i .cells).mapM fun cell => do Layout.cellText (← s.ask cell (.text .value))
      lines := fun _ => sh.lines within i }
  | _ => .broken .noAttribute

/-- The title of a node. -/
def titleOf (s : Store) (i : NodeId) : Except Fault Title := do
  let keyword ← s.valueOf i (.text .keyword)
  let name ← s.valueOf i (.text .name)
  return ⟨keyword, name, ← s.valueOf i (.text .description)⟩

section

variable (s : Store) (see : Value → Facet) (i : NodeId)

/-- The facets of the members of a list. -/
def drawnList (field : ListField) : Except Fault (List Facet) := do
  return (← s.listed i field).map see

/-- The facets of the members of a value whose turn comes late: one that has no members is noticed
only then. -/
def drawnLate (v : Value) : List Facet :=
  match v.members with
  | .ok members => members.map see
  | .error f => [.broken f]

/-- The facets of the tags of a node, none if it has no tags. -/
def drawnTags : Except Fault (List Facet) := do
  match s.valueOf i (.list .tags) with
  | .ok tags => return if tags.isPresent then drawnLate see tags else []
  | .error .noAttribute => return []
  | .error f => throw f

/-- The facet of a single part, if it is there. -/
def drawnPart (field : PartField) : Except Fault (Option Facet) := do
  match ← s.valueOf i (.part field) with
  | .null => return none
  | part => return some (see part)

/-- What a node holds, with a facet for each part. A background that was given tags is drawn like a
scenario, which it resembles in all but that. -/
def drawn : Except Fault (Shape Facet) := do
  match (← s.get i).shape.kind with
  | .cell => return .cell (← s.valueOf i (.text .value))
  | .row => return .row (← s.drawnList see i .cells)
  | .tag => return .tag (← s.valueOf i (.text .name))
  | .table => return .table (← s.drawnList see i .rows)
  | .docString =>
    return .docString (← s.valueOf i (.text .content)) (← s.valueOf i (.text .contentType))
  | .step =>
    return .step (← s.valueOf i (.text .keyword)) (← s.valueOf i (.text .text))
      (← s.drawnPart see i .block)
  | .background | .scenario =>
    let steps ← s.drawnList see i .steps
    return .scenario (← s.titleOf i) (← s.drawnTags see i) steps
  | .outline =>
    let steps ← s.drawnList see i .steps
    let examples ← s.valueOf i (.list .examples)
    return .outline (← s.titleOf i) (← s.drawnTags see i) steps (drawnLate see examples)
  | .example =>
    let rows ← s.drawnList see i .rows
    return .example (← s.titleOf i) (← s.drawnTags see i) rows
  | .rule =>
    let setup ← s.drawnPart see i .background
    let tests ← s.drawnList see i .tests
    return .rule (← s.titleOf i) (← s.drawnTags see i) setup tests
  | .feature =>
    let setup ← s.drawnPart see i .background
    let tests ← s.drawnList see i .tests
    let rules ← s.drawnList see i .rules
    let language ← s.valueOf i (.text .language)
    return .feature (← s.titleOf i) language (← s.drawnTags see i) setup tests rules
  | .featureFile =>
    return .featureFile (← s.valueOf i (.text .path)) (← s.drawnPart see i .feature) []
  | .directory => return .directory (← s.valueOf i (.text .path)) [] []
  | .comment => return .comment (← s.valueOf i (.text .text))

end

/-- The lines of a node, where nodes that it holds are shown in a given way. -/
def linesBy (s : Store) (sh : Showing) (within : List Nat) (i : NodeId) : Rendered := do
  let _ ← s.layoutKind i
  let shape ← s.drawn (s.facet sh within) i
  shape.lines (sh.written s within) (s.keywordOf i)

/-! ### On a budget -/

mutual

/-- The label of a node on a budget of levels. -/
def labelWithin (s : Store) : Nat → List Nat → NodeId → Except Fault Text
  | 0, _, _ => .error .endless
  | n + 1, within, i => s.labelBy ⟨labelWithin s n, linesWithin s n⟩ within i

/-- The lines of a node on a budget of levels. -/
def linesWithin (s : Store) : Nat → List Nat → NodeId → Rendered
  | 0, _, _ => .error .endless
  | n + 1, within, i => s.linesBy ⟨labelWithin s n, linesWithin s n⟩ within i

end

/-- More levels than there are nodes, shown in either way, times the lists that can be being shown
around them. -/
def levels (s : Store) : Nat := 2 * (s.size + 1) * (s.nextList + 1)

/-- How nodes are shown. -/
def showing (s : Store) : Showing := ⟨s.labelWithin s.levels, s.linesWithin s.levels⟩

/-- How a node is shown in labels and messages. -/
def label (s : Store) (i : NodeId) : Except Fault Text := s.showing.label [] i

/-- The lines of a node. -/
def lines (s : Store) (i : NodeId) : Rendered := s.showing.lines [] i

/-- The text of a node. -/
def text (s : Store) (i : NodeId) : Except Fault Text := s.showing.text s [] i

/-- A value as text. -/
def written (s : Store) (v : Value) : Except Fault Text := s.showing.written s [] v

/-- A directory is rendered without what is below it. -/
theorem lines_directory {s : Store} {i : NodeId} {e : Entry} {path : Value}
    {files dirs : List NodeId} (he : s.get? i = some e) (hg : e.given = [])
    (hs : e.shape = .directory path files dirs) : s.lines i = .ok [path] := by
  have hv : s.valueOf i (.text .path) = .ok path := by
    rw [valueOf, stored_of_plain he hg (by simp), Entry.own, hs]
    rfl
  have hk : s.layoutKind i = .ok .directory := by
    simp [layoutKind, get, he, hg, hs, Value.lookup, bind, Except.bind, Shape.kind]
    rfl
  obtain ⟨n, hn⟩ : ∃ n, s.levels = n + 1 :=
    ⟨s.levels - 1, by
      have : 0 < s.levels := Nat.mul_pos (Nat.mul_pos (by decide) (Nat.succ_pos _)) (Nat.succ_pos _)
      omega⟩
  simp only [lines, showing, hn, linesWithin, linesBy, hk, drawn, get, he, hs, Shape.kind, hv, bind,
    Except.bind]
  rfl

end Store

end FeatureTree
