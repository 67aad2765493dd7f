import FeatureTree.Proofs.Gherkin.Laws
import FeatureTree.Proofs.Schema.Records
import FeatureTree.Proofs.Schema.Sorting
import FeatureTree.Schema.Basic

/-!
# Documents as legacy trees

A document without rules written as legacy output: a list of one feature whose sections are
elements, with lines as plain fields, cells as plain texts and the comments spread over the feature
and its elements. Such a tree is decoded into the records of the document but for the language,
which it does not have; the comments come back in the order of their lines, however they were
spread.

## Main results

* `Ast.Feature.decodes_legacyTree`: the legacy tree of a feature is decoded into its record
* `Ast.Feature.normalize_legacyTree`: a legacy tree is decoded as what it is
-/

namespace FeatureTree

open Schema

open Value (lookup)

namespace Ast

/-! ### Trees -/

def Tag.legacyTree (t : Tag) : Value :=
  .table [("name", .text t.name), ("line", .int t.loc.line)]

def Comment.legacyTree (c : Comment) : Value :=
  .table [("value", .text c.text), ("line", .int c.loc.line)]

/-- A row, with its cells as texts. -/
def Row.legacyTree (r : Row) : Value :=
  .table [("cells", .list (r.cells.map fun c => .text c.value)), ("line", .int r.loc.line)]

def DocString.legacyTree (s : DocString) : Value :=
  .table [("value", .text s.content), ("content_type", .text s.mediaType),
    ("line", .int s.loc.line)]

def Step.legacyTree (s : Step) : Value :=
  .table ([("keyword", .text s.keyword), ("name", .text s.text), ("line", .int s.loc.line)]
    ++ optionalField "rows"
      (if s.table.isEmpty then none else some (.list (s.table.map Row.legacyTree)))
    ++ optionalField "doc_string" (s.docString.map DocString.legacyTree))

/-- The fields of a title and its description. -/
def Heading.legacyFields (h : Heading) : List (String × Value) :=
  [("keyword", .text h.keyword), ("name", .text h.name), ("line", .int h.loc.line),
   ("description", .text h.descriptionText)]

def Examples.legacyTree (e : Examples) : Value :=
  .table (e.heading.legacyFields ++ [("tags", .list (e.tags.map Tag.legacyTree)),
    ("rows", .list (e.rows.map Row.legacyTree))])

/-- The field for the comments of a feature or element. -/
def legacyComments (comments : List Comment) : String × Value :=
  ("comments", .list (comments.map Comment.legacyTree))

def Background.legacyTree (b : Background) (comments : List Comment) : Value :=
  .table ([("type", .text "background".toList)] ++ b.heading.legacyFields
    ++ [("steps", .list (b.steps.map Step.legacyTree)), legacyComments comments])

/-- Only outlines have a field for examples. -/
def Scenario.legacyTree (words : List Text) (s : Scenario) (comments : List Comment) : Value :=
  let type := if s.isOutline words then "scenario_outline" else "scenario"
  .table ([("type", .text type.toList)] ++ s.heading.legacyFields
    ++ ([("tags", .list (s.tags.map Tag.legacyTree)),
        ("steps", .list (s.steps.map Step.legacyTree)),
        legacyComments comments]
      ++ if s.isOutline words then [("examples", .list (s.examples.map Examples.legacyTree))]
        else []))

/-- The sections as elements, each still without the comments that go with it. -/
def Body.legacyTrees (words : List Text) (b : Body) : List (List Comment → Value) :=
  (b.background.map Background.legacyTree).toList ++ b.scenarios.map (Scenario.legacyTree words)

/-- The only feature of legacy output, with comments of its own and for each element. -/
def Feature.legacyFeature (f : Feature) (own : List Comment) (inner : List (List Comment)) :
    Value :=
  .table (f.heading.legacyFields ++ [("tags", .list (f.tags.map Tag.legacyTree)),
    legacyComments own,
    ("elements", .list ((f.body.legacyTrees f.outlineWords).zipWith (fun v => v) inner))])

/-- The legacy tree of a feature with comments. -/
def Feature.legacyTree (f : Feature) (own : List Comment) (inner : List (List Comment)) : Value :=
  .list [f.legacyFeature own inner]

/-- In legacy output the cells of a row have no lines of their own. -/
def Law.aligned : Law where
  heading _ _ := True
  tag _ := True
  step s := ∀ r ∈ s.table, ∀ c ∈ r.cells, c.loc.line = r.loc.line
  rows rows := ∀ r ∈ rows, ∀ c ∈ r.cells, c.loc.line = r.loc.line

/-! ### Parts without a title -/

/-- The line of a value in the old encoding is the number in its field. -/
theorem legacyLine {fields : List (String × Value)} {n : Nat}
    (h : lookup "line" fields = some (.int n)) :
    Legacy.lineOf (.table fields) = .ok (.int n) := by
  rw [Legacy.lineOf, Value.get_table, h]
  rfl

/-- A tag in the old encoding is read as its record. -/
theorem Tag.decodes_legacyTree (t : Tag) : Decodes Legacy.tag t.legacyTree t.record := by
  have hline : Legacy.lineOf t.legacyTree = .ok (.int t.loc.line) :=
    legacyLine (by simp [lookup, List.lookup_cons])
  have hname : t.legacyTree.getAny "name" = .ok (.text t.name) :=
    Value.getAny_text (by simp [lookup])
  refine ⟨{ t.record with capsule := Legacy.capsule t.legacyTree }, ?_, rfl⟩
  simp only [Legacy.tag, hline, hname, bind, Except.bind, pure, Except.pure, record]

/-- A comment in the old encoding is read as its record. -/
theorem Comment.decodes_legacyTree (c : Comment) :
    Decodes Legacy.comment c.legacyTree c.record := by
  have hline : Legacy.lineOf c.legacyTree = .ok (.int c.loc.line) :=
    legacyLine (by simp [lookup, List.lookup_cons])
  have htext : c.legacyTree.getTrimmed "value" = .ok c.text.trim :=
    Value.getTrimmed_text (by simp [lookup])
  refine ⟨{ c.record with capsule := Legacy.capsule c.legacyTree }, ?_, rfl⟩
  simp only [Legacy.comment, hline, htext, bind, Except.bind, pure, Except.pure, record]

/-- A row in the old encoding, whose cells are all on its line, is read as its record. -/
theorem Row.decodes_legacyTree {r : Row} (h : ∀ c ∈ r.cells, c.loc.line = r.loc.line) :
    Decodes Legacy.row r.legacyTree r.record := by
  have hline : Legacy.lineOf r.legacyTree = .ok (.int r.loc.line) :=
    legacyLine (by simp [lookup, List.lookup_cons])
  have hcells : r.legacyTree.getMembers "cells" = .ok (r.cells.map fun c => .text c.value) :=
    Value.getMembers_list (by simp [lookup])
  have hbare : ∀ c ∈ r.cells,
      (Legacy.cell (.int r.loc.line) (.text c.value)).bare = c.record := by
    intro c hc
    rw [Cell.record, h c hc]
    rfl
  refine ⟨{ kind := .row, line := .int r.loc.line
            cells := r.cells.map fun c => Legacy.cell (.int r.loc.line) (.text c.value)
            capsule := Legacy.capsule r.legacyTree }, ?_, ?_⟩
  · simp [Legacy.row, hline, hcells, bind, Except.bind, pure, Except.pure]
  · simpa [Record.bare, record] using hbare

/-- Rows whose cells stand on their lines are decoded one by one. -/
theorem decodes_legacyRows {rows : List Row}
    (h : ∀ r ∈ rows, ∀ c ∈ r.cells, c.loc.line = r.loc.line) :
    List.Forall₂ (Decodes Legacy.row) (rows.map Row.legacyTree) (rows.map Row.record) := by
  rw [List.forall₂_map_left_iff, List.forall₂_map_right_iff, List.forall₂_same]
  exact fun r hr => Row.decodes_legacyTree (h r hr)

/-- The fields of a step in the old encoding. -/
theorem Step.lookup_legacy (s : Step) :
    ∃ fields, s.legacyTree = .table fields
      ∧ lookup "keyword" fields = some (.text s.keyword)
      ∧ lookup "name" fields = some (.text s.text) ∧ lookup "line" fields = some (.int s.loc.line)
      ∧ lookup "doc_string" fields = s.docString.map DocString.legacyTree
      ∧ lookup "rows" fields
        = if s.table.isEmpty then none else some (.list (s.table.map Row.legacyTree)) := by
  refine ⟨_, rfl, ?_⟩
  cases s.docString <;> cases s.table.isEmpty <;> simp [lookup, List.lookup_cons, optionalField]

/-- The argument of a step is found by its two fields. -/
theorem Step.block_legacyTree {s : Step} (h : Law.aligned.step s) :
    ∃ b, Legacy.block s.legacyTree = .ok b ∧ b.map Record.bare = s.record.block := by
  obtain ⟨fields, htree, -, -, -, hdoc, hrows⟩ := s.lookup_legacy
  rw [htree, Legacy.block]
  cases hs : s.docString with
  | some t =>
    rw [hs, Option.map_some] at hdoc
    have hline : Legacy.lineOf t.legacyTree = .ok (.int t.loc.line) :=
      legacyLine (by simp [lookup, List.lookup_cons])
    have hcontent : t.legacyTree.getAny "value" = .ok (.text t.content) :=
      Value.getAny_text (by simp [lookup])
    have htype : t.legacyTree.getAny "content_type" = .ok (.text t.mediaType) :=
      Value.getAny_text (by simp [lookup, List.lookup_cons])
    refine ⟨some { t.record with capsule := Legacy.capsule t.legacyTree }, ?_, ?_⟩
    · rw [Value.getPresent?_some hdoc rfl]
      simp only [bind, Except.bind, hline, hcontent, htype, pure, Except.pure, DocString.record]
    · simp [record, hs, Record.bare, DocString.record]
  | none =>
    rw [hs, Option.map_none] at hdoc
    rw [Value.getPresent?_none hdoc]
    cases ht : s.table with
    | nil =>
      rw [ht] at hrows
      refine ⟨none, ?_, by simp [record, hs, ht, tableRecord]⟩
      rw [Value.getPresent?_none hrows]
      rfl
    | cons first rest =>
      rw [ht] at hrows
      obtain ⟨rs, hrs, hbare⟩ := decodes_all (decodes_legacyRows h)
      rw [ht, decodeAll] at hrs
      have hline : Legacy.lineOf first.legacyTree = .ok (.int first.loc.line) :=
        legacyLine (by simp [lookup, List.lookup_cons])
      refine ⟨some { kind := .table, line := .int first.loc.line, rows := rs
                     capsule := Legacy.capsule (.list ((first :: rest).map Row.legacyTree)) },
        ?_, ?_⟩
      · rw [Value.getPresent?_some hrows rfl]
        simp only [bind, Except.bind, Legacy.firstLine, Value.members, List.map_cons, hline]
        rw [← List.map_cons, hrs]
        rfl
      · simp [record, hs, ht, tableRecord, Record.bare, hbare]

/-- A step in the old encoding is read as its record. -/
theorem Step.decodes_legacyTree {s : Step} (h : Law.aligned.step s) :
    Decodes Legacy.step s.legacyTree s.record := by
  obtain ⟨b, hb, hbare⟩ := block_legacyTree h
  obtain ⟨fields, htree, hkeyword, hname, hline, -⟩ := s.lookup_legacy
  refine ⟨{ s.record with block := b, capsule := Legacy.capsule s.legacyTree }, ?_, ?_⟩
  · rw [Legacy.step, hb]
    simp only [bind, Except.bind, htree, legacyLine hline, Legacy.keywordOf,
      Value.getTrimmed_text hkeyword, Value.getAny_text hname]
    rfl
  · simp only [Record.bare, Record.bareOption_eq_map, hbare]
    simp [record]

/-! ### Titled parts -/

/-- The fields of a heading among others, of which none before it is taken for one of them. -/
theorem Heading.decodes_legacyFields {h : Heading} {tags : List Tag} (kind : Kind)
    {before after : List (String × Value)}
    (hbefore : ∀ key ∈ ["line", "keyword", "name", "description"], lookup key before = none)
    (htags : ∃ vs, Value.getMembers (.table (before ++ h.legacyFields ++ after)) "tags" = .ok vs
      ∧ List.Forall₂ (Decodes Legacy.tag) vs (tags.map Tag.record)) :
    Decodes (Legacy.titled kind) (.table (before ++ h.legacyFields ++ after))
      (h.record kind tags) := by
  obtain ⟨vs, hvs, hdecode⟩ := htags
  obtain ⟨rs, hrs, hbare⟩ := decodes_all hdecode
  rw [decodeAll] at hrs
  have hlookup : ∀ key ∈ ["line", "keyword", "name", "description"], ∀ v,
      lookup key h.legacyFields = some v →
      lookup key (before ++ h.legacyFields ++ after) = some v := by
    intro key hkey v hv
    have hnone := hbefore key hkey
    rw [lookup] at hnone hv ⊢
    rw [List.lookup_append, List.lookup_append, hnone, hv]
    rfl
  have hline := legacyLine
    (hlookup "line" (by simp) (.int h.loc.line) (by simp [legacyFields, lookup, List.lookup_cons]))
  have hkeyword := Value.getTrimmed_text
    (hlookup "keyword" (by simp) (.text h.keyword) (by simp [legacyFields, lookup]))
  have hname := Value.getAny_text
    (hlookup "name" (by simp) (.text h.name) (by simp [legacyFields, lookup, List.lookup_cons]))
  have hdescription := Value.getAny_text (hlookup "description" (by simp) (.text h.descriptionText)
    (by simp [legacyFields, lookup, List.lookup_cons]))
  refine ⟨{ h.record kind tags with
    tags := rs, capsule := Legacy.capsule (.table (before ++ h.legacyFields ++ after)) }, ?_, ?_⟩
  · simp only [Legacy.titled, hline, Legacy.keywordOf, hkeyword, hname, hdescription, hvs, hrs,
      bind, Except.bind, pure, Except.pure, record]
  · simp [Record.bare, record, hbare]

/-- A table of examples in the old encoding is read as its record. -/
theorem Examples.decodes_legacyTree {e : Examples} (h : Law.aligned.rows e.rows) :
    Decodes Legacy.examples e.legacyTree e.record := by
  have htree : e.legacyTree = .table ([] ++ e.heading.legacyFields
      ++ [("tags", Value.list (e.tags.map Tag.legacyTree)),
        ("rows", Value.list (e.rows.map Row.legacyTree))]) :=
    rfl
  obtain ⟨part, hpart, hpartBare⟩ : Decodes (Legacy.titled .example) e.legacyTree
      (e.heading.record .example e.tags) := by
    rw [htree]
    refine Heading.decodes_legacyFields .example (by simp [lookup])
      ⟨e.tags.map Tag.legacyTree, Value.getMembers_list ?_,
        decodes_map Tag.decodes_legacyTree e.tags⟩
    simp [lookup, List.lookup_cons, Heading.legacyFields]
  have hmembers : e.legacyTree.getMembers "rows" = .ok (e.rows.map Row.legacyTree) :=
    Value.getMembers_list (by simp [lookup, List.lookup_cons, Heading.legacyFields])
  obtain ⟨rs, hrs, hbare⟩ := decodes_all (decodes_legacyRows h)
  rw [decodeAll] at hrs
  refine ⟨{ part with rows := rs }, ?_, ?_⟩
  · simp only [Legacy.examples, hpart, hmembers, hrs, bind, Except.bind, pure, Except.pure]
  · rw [record, ← hpartBare, Record.bare_eq, Record.bare_eq part, hbare]

/-- Whether a section becomes an element that is decoded into a record, whatever comments go with
it, and has the comments for its own. -/
structure IsElement (tree : List Comment → Value) (r : Record) : Prop where
  decodes : ∀ comments, Decodes Legacy.element (tree comments) r
  comments : ∀ comments,
    (tree comments).getMembers "comments" = .ok (comments.map Comment.legacyTree)

/-- An element of the old encoding is read as the section its type names. -/
theorem decodes_element {v : Value} {type : String} {kind : Kind} {h : Heading} {tags : List Tag}
    {steps : List Step} {es : List Examples} (htype : v.get "type" = .ok (.text type.toList))
    (hkind : Legacy.sectionKind? type.toList = some kind)
    (htitle : Decodes (Legacy.titled kind) v (h.record kind tags))
    (hsteps : v.getMembers "steps" = .ok (steps.map Step.legacyTree))
    (hexamples : v.getMembers "examples" = .ok (es.map Examples.legacyTree))
    (hstepsAligned : ∀ s ∈ steps, Law.aligned.step s)
    (hexamplesAligned : ∀ e ∈ es, Law.aligned.rows e.rows) :
    Decodes Legacy.element v
      { h.record kind tags with
        steps := steps.map Step.record
        examples := es.map Examples.record } := by
  obtain ⟨part, hpart, hpartBare⟩ := htitle
  have hdecodeSteps : List.Forall₂ (Decodes Legacy.step) (steps.map Step.legacyTree)
      (steps.map Step.record) := by
    rw [List.forall₂_map_left_iff, List.forall₂_map_right_iff, List.forall₂_same]
    exact fun s hs => s.decodes_legacyTree (hstepsAligned s hs)
  have hdecodeExamples : List.Forall₂ (Decodes Legacy.examples) (es.map Examples.legacyTree)
      (es.map Examples.record) := by
    rw [List.forall₂_map_left_iff, List.forall₂_map_right_iff, List.forall₂_same]
    exact fun e he => e.decodes_legacyTree (hexamplesAligned e he)
  obtain ⟨ss, hss, hssBare⟩ := decodes_all hdecodeSteps
  obtain ⟨rs, hrs, hrsBare⟩ := decodes_all hdecodeExamples
  rw [decodeAll] at hss hrs
  refine ⟨{ part with steps := ss, examples := rs }, ?_, ?_⟩
  · simp only [Legacy.element, htype, hkind, hpart, hsteps, hexamples, hss, hrs, bind,
      Except.bind, pure, Except.pure]
  · rw [← hpartBare, Record.bare_eq, Record.bare_eq part, hssBare, hrsBare]

/-- A background is written as an element. -/
theorem Background.isElement {b : Background} (h : b.Obeys Law.aligned) :
    IsElement b.legacyTree b.record := by
  refine ⟨fun comments => ?_, fun comments => Value.getMembers_list ?_⟩
  · have htitle : Decodes (Legacy.titled .background) (b.legacyTree comments)
        (b.heading.record .background []) :=
      Heading.decodes_legacyFields .background (by simp [lookup, List.lookup_cons])
        ⟨[], Value.getMembers_none
          (by simp [lookup, List.lookup_cons, Heading.legacyFields, legacyComments]), .nil⟩
    have hsteps : (b.legacyTree comments).getMembers "steps" = .ok (b.steps.map Step.legacyTree) :=
      Value.getMembers_list (by simp [lookup, List.lookup_cons, Heading.legacyFields])
    have hexamples : (b.legacyTree comments).getMembers "examples"
        = .ok (([] : List Examples).map Examples.legacyTree) :=
      Value.getMembers_none
        (by simp [lookup, List.lookup_cons, Heading.legacyFields, legacyComments])
    have htype : (b.legacyTree comments).get "type" = .ok (.text "background".toList) := rfl
    exact decodes_element htype rfl htitle hsteps hexamples h.steps (by simp)
  · simp [lookup, List.lookup_cons, Heading.legacyFields, legacyComments]

/-- The type of a scenario says what its examples and keyword say. -/
theorem Scenario.isElement {words : List Text} {s : Scenario} (h : s.Obeys Law.aligned) :
    IsElement (s.legacyTree words) (s.record words) := by
  generalize htype : (if s.isOutline words then "scenario_outline" else "scenario") = type
  have htree : ∀ comments, s.legacyTree words comments
      = .table ([("type", Value.text type.toList)] ++ s.heading.legacyFields
        ++ ([("tags", Value.list (s.tags.map Tag.legacyTree)),
            ("steps", Value.list (s.steps.map Step.legacyTree)), legacyComments comments]
          ++ if s.isOutline words
            then [("examples", Value.list (s.examples.map Examples.legacyTree))] else [])) := by
    subst htype
    exact fun _ => rfl
  refine ⟨fun comments => ?_, fun comments => ?_⟩
  · have htitle : Decodes (Legacy.titled (s.kind words)) (s.legacyTree words comments)
        (s.heading.record (s.kind words) s.tags) := by
      rw [htree]
      exact Heading.decodes_legacyFields _ (by simp [lookup, List.lookup_cons])
        ⟨s.tags.map Tag.legacyTree, Value.getMembers_list
          (by simp [lookup, List.lookup_cons, Heading.legacyFields]),
          decodes_map Tag.decodes_legacyTree s.tags⟩
    have hsteps : (s.legacyTree words comments).getMembers "steps"
        = .ok (s.steps.map Step.legacyTree) := by
      rw [htree]
      exact Value.getMembers_list (by simp [lookup, List.lookup_cons, Heading.legacyFields])
    have hexamples : (s.legacyTree words comments).getMembers "examples"
        = .ok (s.examples.map Examples.legacyTree) := by
      rw [htree]
      cases hout : s.isOutline words with
      | true =>
        exact Value.getMembers_list
          (by simp [lookup, List.lookup_cons, Heading.legacyFields, legacyComments])
      | false =>
        rw [examples_of_not_isOutline hout]
        exact Value.getMembers_none
          (by simp [lookup, List.lookup_cons, Heading.legacyFields, legacyComments])
    have hget : (s.legacyTree words comments).get "type" = .ok (.text type.toList) := by
      rw [htree]
      rfl
    have hkind : Legacy.sectionKind? type.toList = some (s.kind words) := by
      rw [← htype, kind]
      cases s.isOutline words <;> rfl
    exact decodes_element hget hkind htitle hsteps hexamples h.steps
      fun e he => (h.examples e he).rows
  · rw [htree]
    exact Value.getMembers_list
      (by simp [lookup, List.lookup_cons, Heading.legacyFields, legacyComments])

/-- The sections of a body are written as elements, in their order. -/
theorem Body.areElements {words : List Text} {b : Body} (h : b.Obeys Law.aligned) :
    List.Forall₂ IsElement (b.legacyTrees words) (b.records words) := by
  refine List.rel_append ?_ ?_
  · cases hb : b.background with
    | none => exact .nil
    | some x => exact .cons (x.isElement (h.background x hb)) .nil
  · rw [List.forall₂_map_left_iff, List.forall₂_map_right_iff, List.forall₂_same]
    exact fun s hs => s.isElement (h.scenarios s hs)

/-- Elements are decoded one by one, and their comments are found in order. -/
theorem decodes_elements {trees : List (List Comment → Value)} {rs : List Record}
    (h : List.Forall₂ IsElement trees rs) {inner : List (List Comment)}
    (hlength : inner.length = trees.length) :
    List.Forall₂ (Decodes Legacy.element) (trees.zipWith (fun v => v) inner) rs
      ∧ (trees.zipWith (fun v => v) inner).mapM (·.getMembers "comments")
        = .ok (inner.map (·.map Comment.legacyTree)) := by
  induction h generalizing inner with
  | nil =>
    obtain rfl := List.length_eq_zero_iff.mp hlength
    exact ⟨.nil, rfl⟩
  | cons hfirst _ ih =>
    obtain ⟨comments, inner, rfl⟩ := List.exists_cons_of_length_eq_add_one hlength
    obtain ⟨hdecode, hcomments⟩ := @ih inner (by simpa using hlength)
    refine ⟨.cons (hfirst.decodes comments) hdecode, ?_⟩
    rw [List.zipWith_cons_cons, List.mapM_cons, hfirst.comments, hcomments]
    rfl

/-! ### Documents -/

/-- The tags, the comments and the elements of a feature in the old encoding. -/
theorem Feature.getMembers_legacy (f : Feature) (own : List Comment) (inner : List (List Comment)) :
    (f.legacyFeature own inner).getMembers "tags" = .ok (f.tags.map Tag.legacyTree)
      ∧ (f.legacyFeature own inner).getMembers "comments" = .ok (own.map Comment.legacyTree)
      ∧ (f.legacyFeature own inner).getMembers "elements"
        = .ok ((f.body.legacyTrees f.outlineWords).zipWith (fun v => v) inner) :=
  ⟨Value.getMembers_list
      (by simp [lookup, List.lookup_cons, Heading.legacyFields]),
    Value.getMembers_list
      (by simp [lookup, List.lookup_cons, Heading.legacyFields, legacyComments]),
    Value.getMembers_list
      (by simp [lookup, List.lookup_cons, Heading.legacyFields, legacyComments])⟩

variable {f : Feature} {own : List Comment} {inner : List (List Comment)}

/-- The legacy tree of a feature without rules is decoded into the record of the feature, but for
its language. -/
theorem Feature.decodes_legacyTree (hrules : f.rules = []) (haligned : f.Obeys Law.aligned)
    (hlength : inner.length = (f.body.legacyTrees f.outlineWords).length) :
    Decodes Legacy.feature (f.legacyFeature own inner) { f.record with language := .text [] } := by
  obtain ⟨htags, -, helements⟩ := f.getMembers_legacy own inner
  obtain ⟨hdecode, -⟩ := decodes_elements (Body.areElements haligned.body) hlength
  obtain ⟨rs, hrs, hbare⟩ := decodes_all hdecode
  rw [decodeAll] at hrs
  have htree : f.legacyFeature own inner = .table ([] ++ f.heading.legacyFields
      ++ [("tags", Value.list (f.tags.map Tag.legacyTree)), legacyComments own,
        ("elements",
          .list ((f.body.legacyTrees f.outlineWords).zipWith (fun v => v) inner))]) := rfl
  obtain ⟨part, hpart, hpartBare⟩ : Decodes (Legacy.titled .feature) (f.legacyFeature own inner)
      (f.heading.record .feature f.tags) := by
    rw [htree] at htags ⊢
    exact Heading.decodes_legacyFields .feature (by simp [lookup])
      ⟨_, htags, decodes_map Tag.decodes_legacyTree f.tags⟩
  refine ⟨{ part with children := rs }, ?_, ?_⟩
  · simp only [Legacy.feature, hpart, helements, hrs, bind, Except.bind, pure, Except.pure]
  · have hlanguage : part.language = .text [] := by
      have := congrArg Record.language hpartBare
      rw [Record.bare_eq] at this
      exact this
    rw [record, hrules, List.map_nil, List.append_nil, ← hpartBare, Record.bare_eq,
      Record.bare_eq part, hbare, hlanguage]

/-- The comments of a feature and of its elements are found in that order. -/
theorem Feature.commentsOf_legacyTree (haligned : f.Obeys Law.aligned)
    (hlength : inner.length = (f.body.legacyTrees f.outlineWords).length) :
    Legacy.commentsOf (f.legacyFeature own inner)
      = .ok ((own ++ inner.flatten).map Comment.legacyTree) := by
  obtain ⟨-, hcomments, helements⟩ := f.getMembers_legacy own inner
  obtain ⟨-, hinner⟩ := decodes_elements (Body.areElements haligned.body) hlength
  simp only [Legacy.commentsOf, hcomments, helements, hinner, bind, Except.bind, pure, Except.pure]
  rw [List.map_append, List.map_flatten]

/-- Comments that are decoded in any order come out in the order of their lines. -/
theorem inOrder_of_perm {comments spread : List Comment} {cs : List Record}
    (horder : comments.Pairwise (·.loc.line < ·.loc.line)) (hspread : spread.Perm comments)
    (hcs : cs.map Record.bare = spread.map Comment.record) :
    ∃ zs, Legacy.inOrder cs = .ok zs ∧ zs.map Record.bare = comments.map Comment.record := by
  have hline : ∀ r ∈ cs, ∃ i, r.line = .int i := by
    intro r hr
    obtain ⟨c, -, hrc⟩ := List.mem_map.mp (hcs ▸ List.mem_map_of_mem hr)
    have := congrArg Record.line hrc
    rw [Record.bare_eq] at this
    exact ⟨_, this.symm⟩
  have hless : ∀ a ∈ cs, ∀ b ∈ cs, Legacy.standsBefore? a b
      = some (decide (Legacy.lineNumber a < Legacy.lineNumber b)) := fun a ha b hb =>
    Legacy.standsBefore?_eq (.inr (hline a ha)) (.inr (hline b hb))
  obtain ⟨zs, hsort, hsorted, -⟩ := Value.exists_sortBy?_stable hless
  have hperm : (zs.map Record.bare).Perm (comments.map Comment.record) :=
    ((Value.sortBy?_perm hsort).map _).trans (hcs ▸ hspread.map _)
  have hinj : ∀ c ∈ comments, ∀ c' ∈ comments, c.loc.line = c'.loc.line → c = c' :=
    fun c hc c' hc' => List.inj_on_of_nodup_map
      (List.pairwise_map.mpr (horder.imp fun hlt => Nat.ne_of_lt hlt)) hc hc'
  refine ⟨zs, by rw [Legacy.inOrder, hsort], ?_⟩
  -- both lists go by their lines, and no two comments share one
  apply @List.Perm.eq_of_pairwise _ fun a b => Legacy.lineNumber a ≤ Legacy.lineNumber b
  · intro a b ha hb hab hba
    obtain ⟨c, hc, rfl⟩ := List.mem_map.mp (hperm.subset ha)
    obtain ⟨c', hc', rfl⟩ := List.mem_map.mp hb
    have heq : (c.loc.line : Int) = c'.loc.line := Int.le_antisymm hab hba
    rw [hinj c hc c' hc' (Int.ofNat.inj heq)]
  · rw [List.pairwise_map]
    refine hsorted.imp fun hle => ?_
    rw [Record.bare_eq, Record.bare_eq]
    exact hle
  · rw [List.pairwise_map]
    exact horder.imp fun hlt => Int.ofNat_le.mpr (Nat.le_of_lt hlt)
  · exact hperm

/-- The legacy tree of a feature without rules is decoded as legacy output, into the record of a
document but for the language of the feature. The comments may be spread in any way. -/
theorem Feature.normalize_legacyTree (hrules : f.rules = []) (haligned : f.Obeys Law.aligned)
    {comments : List Comment} (horder : comments.Pairwise (·.loc.line < ·.loc.line))
    (hlength : inner.length = (f.body.legacyTrees f.outlineWords).length)
    (hspread : (own ++ inner.flatten).Perm comments) :
    detect (f.legacyTree own inner) = .ok .legacyJson
      ∧ ∃ r, Schema.normalize (f.legacyTree own inner) = .ok r
        ∧ r.bare = (Document.record ⟨some f, comments, []⟩).withLanguage (.text []) := by
  refine ⟨rfl, ?_⟩
  obtain ⟨r, hr, hbare⟩ : Decodes Legacy.feature (f.legacyFeature own inner)
      { f.record with language := .text [] } :=
    Feature.decodes_legacyTree hrules haligned hlength
  obtain ⟨cs, hcs, hcomments⟩ :=
    decodes_all (decodes_map Comment.decodes_legacyTree (own ++ inner.flatten))
  rw [decodeAll] at hcs
  obtain ⟨zs, hzs, hzsBare⟩ := inOrder_of_perm horder hspread hcomments
  refine ⟨⟨some r, zs, Legacy.capsule (f.legacyTree own inner)⟩, ?_, ?_⟩
  · simp only [Schema.normalize, legacyTree, detect, decode, Legacy.document, Value.items?,
      Option.getD_some, Feature.commentsOf_legacyTree haligned hlength, hr, hcs, hzs, bind,
      Except.bind, pure, Except.pure]
  · rw [DocumentRecord.bare, Option.map_some, hbare, hzsBare]
    rfl

end Ast

end FeatureTree
