import FeatureTree.Gherkin.Tree
import FeatureTree.Proofs.Plain.Basic
import FeatureTree.Proofs.Schema.Bare
import FeatureTree.Schema.Ast
import Mathlib.Data.List.Forall2

/-!
# Records of documents

The record of each part of a document, as it is found in any schema, apart from the data that it was
made from; it becomes the node of what the part says. What the two younger schemas share is decoded
into these records: a table is decoded into the record of a part as soon as the fields that are
looked at hold what the part has.

## Main results

* `Ast.Feature.bare_ofRecord`: the record of a feature becomes the node of what the feature says
* `Schema.decodes_titled`, `Schema.decodes_examples`, `Schema.decodes_step`,
  `Schema.decodes_section`: what fields a part has to have
-/

namespace FeatureTree

/-! ### Parts -/

namespace Ast

def Tag.record (t : Tag) : Record :=
  { kind := .tag, line := .int t.loc.line, name := .text t.name, capsule := default }

def Cell.record (c : Cell) : Record :=
  { kind := .cell, line := .int c.loc.line, text := .text c.value, capsule := default }

def Row.record (r : Row) : Record :=
  { kind := .row, line := .int r.loc.line, cells := r.cells.map Cell.record, capsule := default }

/-- The record of a table, which stands where its first row stands. -/
def tableRecord (rows : List Row) : Option Record :=
  rows.head?.map fun first =>
    { kind := .table, line := .int first.loc.line, rows := rows.map Row.record, capsule := default }

def DocString.record (s : DocString) : Record :=
  { kind := .docString, line := .int s.loc.line, text := .text s.content
    contentType := .text s.mediaType, capsule := default }

def Step.record (s : Step) : Record :=
  { kind := .step, line := .int s.loc.line, keyword := s.keyword.trim, text := .text s.text
    block := (s.docString.map DocString.record) <|> tableRecord s.table, capsule := default }

/-- The record of a titled part with nothing inside. -/
def Heading.record (kind : Kind) (h : Heading) (tags : List Tag) : Record :=
  { kind, line := .int h.loc.line, keyword := h.keyword.trim, name := .text h.name
    description := .text h.descriptionText, tags := tags.map Tag.record, capsule := default }

def Background.record (b : Background) : Record :=
  { b.heading.record .background [] with steps := b.steps.map Step.record }

def Examples.record (e : Examples) : Record :=
  { e.heading.record .example e.tags with rows := e.rows.map Row.record }

/-- The kind of a scenario, given the keywords of outlines. -/
def Scenario.kind (words : List Text) (s : Scenario) : Kind :=
  if s.isOutline words then .outline else .scenario

/-- What is no outline has no examples. -/
theorem Scenario.examples_of_not_isOutline {words : List Text} {s : Scenario}
    (h : s.isOutline words = false) : s.examples = [] := by
  simp only [isOutline, Bool.or_eq_false_iff, Bool.not_eq_eq_eq_not, Bool.not_false] at h
  exact List.isEmpty_iff.mp h.1

def Scenario.record (words : List Text) (s : Scenario) : Record :=
  { s.heading.record (s.kind words) s.tags with
    steps := s.steps.map Step.record
    examples := s.examples.map Examples.record }

/-- The records of the sections of a feature or rule. -/
def Body.records (words : List Text) (b : Body) : List Record :=
  (b.background.map Background.record).toList ++ b.scenarios.map (Scenario.record words)

def Rule.record (words : List Text) (r : Rule) : Record :=
  { r.heading.record .rule r.tags with children := r.body.records words }

def Feature.record (f : Feature) : Record :=
  { f.heading.record .feature f.tags with
    language := .text f.language
    children := f.body.records f.outlineWords ++ f.rules.map (Rule.record f.outlineWords) }

def Comment.record (c : Comment) : Record :=
  { kind := .comment, line := .int c.loc.line, text := .text c.text.trim, capsule := default }

/-- The record of a document. -/
def Document.record (d : Document) : DocumentRecord :=
  ⟨d.feature.map Feature.record, d.comments.map Comment.record, default⟩

/-! ### Nodes of records -/

variable (language : Option Value)

/-- The record of a tag builds the plain node of its name. -/
theorem Tag.bare_ofRecord (t : Tag) :
    (Node.ofRecord language t.record).bare = Plain.tagNode t.name := rfl

/-- The record of a cell builds the plain node of its value. -/
theorem Cell.bare_ofRecord (c : Cell) :
    (Node.ofRecord language c.record).bare = Plain.cellNode c.value := rfl

/-- The record of a row builds the plain node of its values. -/
theorem Row.bare_ofRecord (r : Row) :
    (Node.ofRecord language r.record).bare = Plain.rowNode r.values := by
  simp [record, Node.ofRecord, Node.bare_mk, Shape.map, Shape.withoutComments, Plain.rowNode,
    Row.values, Cell.bare_ofRecord]

/-- The record of some rows builds the plain table of their values, if there are rows. -/
theorem bare_tableRecord (rows : List Row) :
    ((tableRecord rows).map (Node.ofRecord language)).map Node.bare
      = if rows.isEmpty then none else some (Plain.Block.table (rows.map Row.values)).node := by
  cases rows with
  | nil => rfl
  | cons r rows =>
    simp [tableRecord, Node.ofRecord, Node.bare_mk, Shape.map, Shape.withoutComments,
      Plain.Block.node, Row.bare_ofRecord]

/-- The record of a step builds the node of the plain step. -/
theorem Step.bare_ofRecord (s : Step) :
    (Node.ofRecord language s.record).bare = s.plain.node := by
  obtain ⟨loc, keyword, role, text, table, docString⟩ := s
  have hblock : ∀ language, ((((docString.map DocString.record) <|> tableRecord table).map
      (Node.ofRecord language)).map Node.bare)
      = (Step.plain ⟨loc, keyword, role, text, table, docString⟩).block.map Plain.Block.node := by
    intro language
    cases docString with
    | some t => rfl
    | none =>
      have htable := bare_tableRecord language table
      simp only [Step.plain]
      cases hempty : table.isEmpty with
      | true =>
        rw [hempty] at htable
        exact htable
      | false =>
        rw [hempty] at htable
        exact htable
  simp only [record, Node.ofRecord, Node.ofBlock_eq_map, Node.bare_mk, Shape.map,
    Shape.withoutComments, Plain.Step.node, hblock]
  rfl

/-- The record of a background builds the node of the plain background. -/
theorem Background.bare_ofRecord (b : Background) :
    (Node.ofRecord language b.record).bare = b.plain.node := by
  simp [record, Heading.record, Node.ofRecord, Node.bare_mk, Shape.map, Shape.withoutComments,
    plain, Plain.Background.node, Plain.Heading.title, Heading.plain, Node.normalDescription,
    Step.bare_ofRecord]

/-- The record of a table of examples builds the node of the plain table. -/
theorem Examples.bare_ofRecord (e : Examples) :
    (Node.ofRecord language e.record).bare = e.plain.node := by
  simp [record, Heading.record, Node.ofRecord, Node.bare_mk, Shape.map, Shape.withoutComments,
    plain, Plain.Examples.node, Plain.Heading.title, Heading.plain, Node.normalDescription,
    Tag.bare_ofRecord, Row.bare_ofRecord]

/-- The record of a scenario builds the node of the plain scenario. -/
theorem Scenario.bare_ofRecord (words : List Text) (s : Scenario) :
    (Node.ofRecord language (s.record words)).bare = (s.plain words).node := by
  cases hout : s.isOutline words <;>
    simp [record, kind, hout, Heading.record, Node.ofRecord, Node.bare_mk, Shape.map,
      Shape.withoutComments, plain, Plain.Scenario.node, Plain.Heading.title, Heading.plain,
      Node.normalDescription, Tag.bare_ofRecord, Step.bare_ofRecord, Examples.bare_ofRecord]

/-! ### Sections and rules among the children -/

/-- The records of sections and rules, in order, fall apart into backgrounds, scenarios and
rules. -/
theorem Body.filter_records (words : List Text) (b : Body) (rules : List Rule) :
    let children := b.records words ++ rules.map (Rule.record words)
    (children.filter fun x => [Kind.background].contains x.kind)
        = (b.background.map Background.record).toList
      ∧ (children.filter fun x => [Kind.scenario, .outline].contains x.kind)
        = b.scenarios.map (Scenario.record words)
      ∧ (children.filter fun x => [Kind.rule].contains x.kind)
        = rules.map (Rule.record words) := by
  have hkind : ∀ s : Scenario, (decide ((s.record words).kind = .background)) = false
      ∧ (decide ((s.record words).kind = .scenario) || decide ((s.record words).kind = .outline))
        = true
      ∧ (decide ((s.record words).kind = .rule)) = false := by
    intro s
    simp only [Scenario.record, Heading.record, Scenario.kind]
    split <;> simp
  have hbackground : ∀ x : Background, x.record.kind = .background := fun _ => rfl
  have hrule : ∀ r : Rule, (r.record words).kind = .rule := fun _ => rfl
  cases hb : b.background <;>
    simp [records, hb, List.filter_map, Function.comp_def, hkind, hbackground, hrule]

/-- So do the nodes of these records. -/
theorem Body.parts_ofRecord (words : List Text) (b : Body) (rules : List Rule) :
    let parts := (b.records words ++ rules.map (Rule.record words)).map (Node.ofRecord language)
    (Node.ofKinds [.background] parts).getLast?
        = b.background.map (fun x => Node.ofRecord language x.record)
      ∧ Node.ofKinds [.scenario, .outline] parts
        = b.scenarios.map (fun s => Node.ofRecord language (s.record words))
      ∧ Node.ofKinds [.rule] parts
        = rules.map (fun r => Node.ofRecord language (r.record words)) := by
  obtain ⟨hbackground, hscenarios, hrules⟩ := b.filter_records words rules
  simp only [Node.ofKinds_map_ofRecord, hbackground, hscenarios, hrules, List.map_map,
    Function.comp_def, and_true]
  cases b.background <;> rfl

/-- The record of a rule builds the node of the plain rule. -/
theorem Rule.bare_ofRecord (words : List Text) (r : Rule) :
    (Node.ofRecord language (r.record words)).bare = (r.plain words).node := by
  obtain ⟨hsetup, htests, -⟩ := r.body.parts_ofRecord language words []
  simp only [List.map_nil, List.append_nil] at hsetup htests
  simp only [record, Heading.record, Node.ofRecord, Node.ofRecords_eq_map, hsetup, htests,
    Node.bare_mk, Shape.map, Shape.withoutComments, reduceCtorEq, if_false]
  simp [plain, Plain.Rule.node, Body.plain, Plain.Heading.title, Heading.plain,
    Node.normalDescription, Tag.bare_ofRecord, Function.comp_def, Background.bare_ofRecord,
    Scenario.bare_ofRecord]

/-- The record of a feature becomes the node of what the feature says, whatever language is put into
it. -/
theorem Feature.bare_ofRecord_withLanguage (f : Feature) (name : Text) :
    (Node.ofRecord language { f.record with language := .text name }).bare
      = ({ f.plain with language := name } : Plain.Feature).node := by
  obtain ⟨hsetup, htests, hrules⟩ :=
    f.body.parts_ofRecord (some (.text name)) f.outlineWords f.rules
  simp only [record, Heading.record, Node.ofRecord, Node.ofRecords_eq_map, if_true, hsetup, htests,
    hrules, Node.bare_mk, Shape.map, Shape.withoutComments]
  simp [plain, Plain.Feature.node, Body.plain, Plain.Heading.title, Heading.plain,
    Node.normalDescription, Tag.bare_ofRecord, Function.comp_def, Background.bare_ofRecord,
    Scenario.bare_ofRecord, Rule.bare_ofRecord]

/-- The record of a feature becomes the node of what the feature says. -/
theorem Feature.bare_ofRecord (f : Feature) :
    (Node.ofRecord language f.record).bare = f.plain.node :=
  f.bare_ofRecord_withLanguage language f.language

/-! ### What can be built -/

/-- Records made in one way can be built if each of them can. -/
theorem areSound_map {α : Type} {f : α → Record} (h : ∀ x, (f x).isSound = true)
    (counts : Kind → Bool) (xs : List α) : Record.areSound counts (xs.map f) = true := by
  induction xs with
  | nil => rfl
  | cons x xs ih => simp [Record.areSound, h, ih]

/-- Records one after the other can be built if both lists can. -/
theorem areSound_append (counts : Kind → Bool) (rs rs' : List Record) :
    Record.areSound counts (rs ++ rs')
      = (Record.areSound counts rs && Record.areSound counts rs') := by
  induction rs with
  | nil => rfl
  | cons r rs ih => rw [List.cons_append, Record.areSound, Record.areSound, ih, Bool.and_assoc]

/-- The record of a row can be built. -/
theorem Row.isSound_record (r : Row) : r.record.isSound = true :=
  areSound_map (fun _ => Record.isSound_of_kind (.inl rfl)) _ r.cells

/-- The record of a tag can be built. -/
theorem Tag.isSound_record (t : Tag) : t.record.isSound = true :=
  Record.isSound_of_kind (.inr (.inl rfl))

/-- The record of some rows can be built. -/
theorem isSound_tableRecord {rows : List Row} {r : Record} (h : tableRecord rows = some r) :
    r.isSound = true := by
  obtain ⟨first, -, rfl⟩ := Option.map_eq_some_iff.mp h
  exact areSound_map Row.isSound_record (fun _ => true) rows

/-- The record of a doc string can be built. -/
theorem DocString.isSound_record (s : DocString) : s.record.isSound = true :=
  Record.isSound_of_kind (.inr (.inr (.inl rfl)))

/-- The record of a step can be built. -/
theorem Step.isSound_record (s : Step) : s.record.isSound = true := by
  have hblock : Record.isBlockSound ((s.docString.map DocString.record) <|> tableRecord s.table)
      = true := by
    cases s.docString with
    | some t => exact t.isSound_record
    | none =>
      cases htable : tableRecord s.table with
      | none => rfl
      | some r => exact isSound_tableRecord htable
  simpa [record, Record.isSound] using hblock

/-- The record of a background can be built. -/
theorem Background.isSound_record (b : Background) : b.record.isSound = true := by
  simp [record, Heading.record, Record.isSound, Value.text?, areSound_map Step.isSound_record]

/-- The record of a table of examples can be built. -/
theorem Examples.isSound_record (e : Examples) : e.record.isSound = true := by
  simp [record, Heading.record, Record.isSound, Value.text?, areSound_map Row.isSound_record,
    areSound_map Tag.isSound_record]

/-- The record of a scenario can be built. -/
theorem Scenario.isSound_record (words : List Text) (s : Scenario) :
    (s.record words).isSound = true := by
  cases hout : s.isOutline words <;>
    simp [record, kind, hout, Heading.record, Record.isSound, Value.text?,
      areSound_map Step.isSound_record, areSound_map Tag.isSound_record,
      areSound_map Examples.isSound_record]

/-- The records of the sections of a body can be built. -/
theorem Body.areSound_records (counts : Kind → Bool) (words : List Text) (b : Body) :
    Record.areSound counts (b.records words) = true := by
  have hbackground : Record.areSound counts (b.background.map Background.record).toList = true := by
    cases b.background with
    | none => rfl
    | some x => exact areSound_map Background.isSound_record counts [x]
  rw [records, areSound_append, hbackground, areSound_map (Scenario.isSound_record words)]
  rfl

/-- The record of a rule can be built. -/
theorem Rule.isSound_record (words : List Text) (r : Rule) : (r.record words).isSound = true := by
  simp [record, Heading.record, Record.isSound, Value.text?, areSound_map Tag.isSound_record,
    Body.areSound_records]

/-- The record of a feature can be built. -/
theorem Feature.isSound_record (f : Feature) : f.record.isSound = true := by
  simp [record, Heading.record, Record.isSound, Value.text?, areSound_map Tag.isSound_record,
    Body.areSound_records, areSound_append, areSound_map (Rule.isSound_record f.outlineWords)]

end Ast

/-! ### Fields -/

namespace Value

variable {fields : List (String × Value)} {key : String}

/-- Asking a table for a key gives what it has there, or nothing. -/
theorem get_table (fields : List (String × Value)) (key : String) :
    (table fields).get key = .ok ((lookup key fields).getD .null) := rfl

/-- A text in a field is read as it is. -/
theorem getAny_text {t : Text} (h : lookup key fields = some (.text t)) :
    (table fields).getAny key = .ok (.text t) := by
  cases t <;> simp [getAny, get_table, h, orEmptyText, isPresent, bind, Except.bind, pure,
    Except.pure]

/-- A text that is left out when it is empty. -/
theorem getAny_optional {t : Text}
    (h : lookup key fields = if t.isEmpty then none else some (.text t)) :
    (table fields).getAny key = .ok (.text t) := by
  cases hempty : t.isEmpty with
  | true =>
    rw [hempty, if_pos rfl] at h
    rw [List.isEmpty_iff.mp hempty]
    simp [getAny, get_table, h, orEmptyText, isPresent, bind, Except.bind, pure, Except.pure]
  | false =>
    rw [hempty, if_neg (by simp)] at h
    exact getAny_text h

/-- A text in a field is read without the blanks at its ends. -/
theorem getTrimmed_text {t : Text} (h : lookup key fields = some (.text t)) :
    (table fields).getTrimmed key = .ok t.trim := by
  simp [getTrimmed, get_table, h, textOrEmpty, bind, Except.bind, pure, Except.pure]

/-- A list in a field has its members. -/
theorem getMembers_list {vs : List Value} (h : lookup key fields = some (.list vs)) :
    (table fields).getMembers key = .ok vs := by
  cases vs <;>
    simp [getMembers, get_table, h, membersOrEmpty, isPresent, members, bind, Except.bind]

/-- A field that is not there has no members. -/
theorem getMembers_none (h : lookup key fields = none) :
    (table fields).getMembers key = .ok [] := by
  simp [getMembers, get_table, h, membersOrEmpty, isPresent, bind, Except.bind]

/-- A field with something in it is present. -/
theorem getPresent?_some {v : Value} (h : lookup key fields = some v) (hv : v.isPresent = true) :
    (table fields).getPresent? key = .ok (some v) := by
  simp [getPresent?, get_table, h, hv, Except.map]

/-- A list in a field is present just if it has a member. -/
theorem getPresent?_list {vs : List Value} (h : lookup key fields = some (.list vs)) :
    (table fields).getPresent? key = .ok (if vs.isEmpty then none else some (.list vs)) := by
  cases vs <;> simp [getPresent?, get_table, h, isPresent, Except.map]

/-- A field that is not there is not present. -/
theorem getPresent?_none (h : lookup key fields = none) :
    (table fields).getPresent? key = .ok none := by
  simp [getPresent?, get_table, h, isPresent, Except.map]

end Value

namespace Schema

/-! ### Decoding -/

/-- Whether a value is decoded into a record, apart from the data that it was made from. -/
def Decodes (decode : Value → Except Fault Record) (v : Value) (r : Record) : Prop :=
  ∃ r', decode v = .ok r' ∧ r'.bare = r

/-- Values are decoded one by one. -/
theorem decodes_all {decode : Value → Except Fault Record} {vs : List Value} {rs : List Record}
    (h : List.Forall₂ (Decodes decode) vs rs) :
    ∃ rs', decodeAll decode vs = .ok rs' ∧ rs'.map Record.bare = rs := by
  induction h with
  | nil => exact ⟨[], rfl, rfl⟩
  | cons hfirst _ ih =>
    obtain ⟨r, hr, rfl⟩ := hfirst
    obtain ⟨rs, hrs, rfl⟩ := ih
    rw [decodeAll] at hrs
    exact ⟨r :: rs, by rw [decodeAll, List.mapM_cons, hr, hrs]; rfl, rfl⟩

/-- Trees that are each read as a record are read as the list of these records. -/
theorem decodes_map {α : Type} {decode : Value → Except Fault Record} {v : α → Value}
    {r : α → Record} (h : ∀ x, Decodes decode (v x) (r x)) (xs : List α) :
    List.Forall₂ (Decodes decode) (xs.map v) (xs.map r) := by
  rw [List.forall₂_map_left_iff, List.forall₂_map_right_iff]
  exact List.forall₂_same.mpr fun x _ => h x

variable {schema : SchemaVersion} {fields : List (String × Value)}

open Value (lookup)

/-- The line of a value is that of its location. -/
theorem lineOf_table {loc : Location} (h : lookup "location" fields = some (Ast.locationTree loc)) :
    lineOf (.table fields) = .ok (.int loc.line) := by
  rw [lineOf, Value.getPresent?_some h rfl]
  rfl

/-- Fields with the location and the name of a tag are read as its record. -/
theorem decodes_tag {t : Ast.Tag}
    (hloc : lookup "location" fields = some (Ast.locationTree t.loc))
    (hname : lookup "name" fields = some (.text t.name)) :
    Decodes (tag schema) (.table fields) t.record := by
  refine ⟨{ t.record with capsule := ⟨schema, .table fields⟩ }, ?_, rfl⟩
  rw [tag, lineOf_table hloc, Value.getAny_text hname]
  rfl

/-- Fields with the location and the text of a comment are read as its record. -/
theorem decodes_comment {c : Ast.Comment}
    (hloc : lookup "location" fields = some (Ast.locationTree c.loc))
    (htext : lookup "text" fields = some (.text c.text)) :
    Decodes (comment schema) (.table fields) c.record := by
  refine ⟨{ c.record with capsule := ⟨schema, .table fields⟩ }, ?_, rfl⟩
  rw [comment, lineOf_table hloc, Value.getTrimmed_text htext]
  rfl

/-- Fields with the location and the value of a cell are read as its record. -/
theorem decodes_cell {c : Ast.Cell}
    (hloc : lookup "location" fields = some (Ast.locationTree c.loc))
    (htext : lookup "value" fields = some (.text c.value)) :
    Decodes (cell schema) (.table fields) c.record := by
  refine ⟨{ c.record with capsule := ⟨schema, .table fields⟩ }, ?_, rfl⟩
  rw [cell, lineOf_table hloc, Value.getAny_text htext]
  rfl

/-- Fields with the location and the cells of a row are read as its record. -/
theorem decodes_row {r : Ast.Row} {cells : List Value}
    (hloc : lookup "location" fields = some (Ast.locationTree r.loc))
    (hcells : lookup "cells" fields = some (.list cells))
    (hdecode : List.Forall₂ (Decodes (cell schema)) cells (r.cells.map Ast.Cell.record)) :
    Decodes (row schema) (.table fields) r.record := by
  obtain ⟨rs, hrs, hbare⟩ := decodes_all hdecode
  refine ⟨{ r.record with cells := rs, capsule := ⟨schema, .table fields⟩ }, ?_, ?_⟩
  · rw [row, Value.getMembers_list hcells, lineOf_table hloc]
    simp only [bind, Except.bind, hrs]
    rfl
  · simp [Record.bare, Ast.Row.record, hbare]

/-- Fields with the location and the rows of a table are read as its record. -/
theorem decodes_table {rows : List Ast.Row} {first : Ast.Row} {rest : List Ast.Row}
    (hrows : rows = first :: rest) {values : List Value}
    (hloc : lookup "location" fields = some (Ast.locationTree first.loc))
    (hvalues : lookup "rows" fields = some (.list values))
    (hdecode : List.Forall₂ (Decodes (row schema)) values (rows.map Ast.Row.record)) :
    ∃ r, table schema (.table fields) = .ok r ∧ some r.bare = Ast.tableRecord rows := by
  obtain ⟨rs, hrs, hbare⟩ := decodes_all hdecode
  refine ⟨{ kind := .table, line := .int first.loc.line, rows := rs
            capsule := ⟨schema, .table fields⟩ }, ?_, ?_⟩
  · rw [table, Value.getMembers_list hvalues, lineOf_table hloc]
    simp only [bind, Except.bind, hrs]
    rfl
  · subst hrows
    simp [Record.bare, Ast.tableRecord, hbare]

/-- The type of the content may have either name. -/
theorem decodes_docString {s : Ast.DocString}
    (hloc : lookup "location" fields = some (Ast.locationTree s.loc))
    (hcontent : lookup "content" fields = some (.text s.content))
    (htype : (lookup "mediaType" fields).or (lookup "contentType" fields)
      = if s.mediaType.isEmpty then none else some (.text s.mediaType)) :
    Decodes (docString schema) (.table fields) s.record := by
  refine ⟨{ s.record with capsule := ⟨schema, .table fields⟩ }, ?_, rfl⟩
  rw [docString, lineOf_table hloc, Value.getAny_text hcontent]
  cases hmedia : lookup "mediaType" fields with
  | some v =>
    rw [hmedia] at htype
    cases hempty : s.mediaType.isEmpty with
    | true =>
      rw [hempty] at htype
      cases htype
    | false =>
      rw [hempty] at htype
      obtain rfl : v = .text s.mediaType := by simpa using htype
      rw [Value.getPresent?_some hmedia (by simpa [Value.isPresent] using hempty)]
      rfl
  | none =>
    rw [hmedia, Option.none_or] at htype
    rw [Value.getPresent?_none hmedia]
    simp only [bind, Except.bind, Value.getAny_optional htype, pure, Except.pure,
      Ast.DocString.record]

/-- What the fields of a titled part come to. -/
structure HasTitle (schema : SchemaVersion) (v : Value) (h : Ast.Heading) (tags : List Ast.Tag) :
    Prop where
  line : lineOf v = .ok (.int h.loc.line)
  keyword : keywordOf v = .ok h.keyword.trim
  name : v.getAny "name" = .ok (.text h.name)
  description : v.getAny "description" = .ok (.text h.descriptionText)
  tags : ∃ vs, v.getMembers "tags" = .ok vs
    ∧ List.Forall₂ (Decodes (tag schema)) vs (tags.map Ast.Tag.record)

variable {v : Value} {h : Ast.Heading} {tags : List Ast.Tag}

/-- A value with a title is read as the record of the heading. -/
theorem decodes_titled (kind : Kind) (ht : HasTitle schema v h tags) :
    Decodes (titled schema kind) v (h.record kind tags) := by
  obtain ⟨vs, hvs, hdecode⟩ := ht.tags
  obtain ⟨rs, hrs, hbare⟩ := decodes_all hdecode
  refine ⟨{ h.record kind tags with tags := rs, capsule := ⟨schema, v⟩ }, ?_, ?_⟩
  · simp only [titled, ht.line, ht.keyword, ht.name, ht.description, hvs, hrs, bind, Except.bind,
      pure, Except.pure, Ast.Heading.record]
  · simp [Record.bare, Ast.Heading.record, hbare]

/-- A value with the title and the rows of a table of examples is read as its record. -/
theorem decodes_examples {e : Ast.Examples} {header : Option Value} {body : List Value}
    (ht : HasTitle schema v e.heading e.tags)
    (hheader : v.getPresent? "tableHeader" = .ok header)
    (hbody : v.getMembers "tableBody" = .ok body)
    (hrows : List.Forall₂ (Decodes (row schema)) (header.toList ++ body)
      (e.rows.map Ast.Row.record)) :
    Decodes (examples schema) v e.record := by
  obtain ⟨part, hpart, hpartBare⟩ := decodes_titled .example ht
  obtain ⟨rs, hrs, hbare⟩ := decodes_all hrows
  refine ⟨{ part with rows := rs }, ?_, ?_⟩
  · simp only [examples, hpart, hheader, hbody, hrs, bind, Except.bind, pure, Except.pure]
  · rw [Ast.Examples.record, ← hpartBare, Record.bare_eq, Record.bare_eq part, hbare]

/-- A value with the line, the keyword, the text and the block of a step is read as its record. -/
theorem decodes_step {s : Ast.Step} {block : Value → Except Fault (Option Record)}
    {b : Option Record} (hline : lineOf v = .ok (.int s.loc.line))
    (hkeyword : keywordOf v = .ok s.keyword.trim) (htext : v.getAny "text" = .ok (.text s.text))
    (hblock : block v = .ok b) (hb : b.map Record.bare = s.record.block) :
    Decodes (step schema block) v s.record := by
  refine ⟨{ s.record with block := b, capsule := ⟨schema, v⟩ }, ?_, ?_⟩
  · simp only [step, hline, hkeyword, htext, hblock, bind, Except.bind, pure, Except.pure,
      Ast.Step.record]
  · simp only [Record.bare, Record.bareOption_eq_map, hb]
    simp [Ast.Step.record]

/-- A value with the title, the steps and the examples of a section is read as its record. -/
theorem decodes_section {block : Value → Except Fault (Option Record)} (kind : Kind)
    {steps : List Ast.Step} {examples : List Ast.Examples} {stepValues exampleValues : List Value}
    (ht : HasTitle schema v h tags) (hsteps : v.getMembers "steps" = .ok stepValues)
    (hexamples : v.getMembers "examples" = .ok exampleValues)
    (hdecodeSteps : List.Forall₂ (Decodes (step schema block)) stepValues
      (steps.map Ast.Step.record))
    (hdecodeExamples : List.Forall₂ (Decodes (Schema.examples schema)) exampleValues
      (examples.map Ast.Examples.record)) :
    Decodes (sectionPart schema block kind) v
      { h.record kind tags with
        steps := steps.map Ast.Step.record
        examples := examples.map Ast.Examples.record } := by
  obtain ⟨part, hpart, hpartBare⟩ := decodes_titled kind ht
  obtain ⟨ss, hss, hssBare⟩ := decodes_all hdecodeSteps
  obtain ⟨es, hes, hesBare⟩ := decodes_all hdecodeExamples
  refine ⟨{ part with steps := ss, examples := es }, ?_, ?_⟩
  · simp only [sectionPart, hpart, hsteps, hexamples, hss, hes, bind, Except.bind, pure,
      Except.pure]
  · rw [← hpartBare, Record.bare_eq, Record.bare_eq part, hssBare, hesBare]

end Schema

end FeatureTree
