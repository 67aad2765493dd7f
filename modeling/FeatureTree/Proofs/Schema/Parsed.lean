import FeatureTree.Proofs.Schema.Forms
import FeatureTree.Proofs.Schema.Records

/-!
# Decoding what was parsed

The tree that the parser gives out follows the current schema, and decoding it gives the records of
the parts of the document. The numbers that the tree gives its parts play no part in that, so what
is shown of a part holds for every number that the count can stand at.

## Main results

* `Ast.Feature.decodes_toTree`: the tree of a feature is decoded into the record of the feature
* `Ast.Document.normalize_toTree`: the tree of a document is decoded as one of the current schema
-/

namespace FeatureTree

open Schema

open Value (lookup)

namespace Ast

/-! ### Lists of trees -/

/-- Numbering a list numbers its head first and goes on with the rest. -/
theorem mapM_cons_fst {α : Type} (f : α → Numbering Value) (x : α) (xs : List α) (n : Nat) :
    (((x :: xs).mapM f : Numbering _) n).1
      = (f x n).1 :: ((xs.mapM f : Numbering _) (f x n).2).1 := by
  rw [List.mapM_cons]
  rfl

/-- Trees that are decoded whatever the count stands at are decoded one by one. -/
theorem decodes_mapM {α : Type} {decode : Value → Except Fault Record} {f : α → Numbering Value}
    {r : α → Record} (h : ∀ x n, Decodes decode (f x n).1 (r x)) (xs : List α) (n : Nat) :
    List.Forall₂ (Decodes decode) ((xs.mapM f : Numbering _) n).1 (xs.map r) := by
  induction xs generalizing n with
  | nil => exact .nil
  | cons x xs ih =>
    rw [mapM_cons_fst, List.map_cons]
    exact .cons (h x n) (ih _)

/-! ### Parts without a title -/

/-- The tree of a tag is read as its record. -/
theorem Tag.decodes_toTree (t : Tag) (n : Nat) :
    Decodes (tag .currentAst) (t.toTree n).1 t.record :=
  decodes_tag (by simp [lookup, List.lookup_cons]) (by simp [lookup, List.lookup_cons])

/-- The tree of a comment is read as its record. -/
theorem Comment.decodes_toTree (c : Comment) : Decodes (comment .currentAst) c.toTree c.record :=
  decodes_comment (by simp [lookup]) (by simp [lookup, List.lookup_cons])

/-- The tree of a cell is read as its record. -/
theorem Cell.decodes_toTree (c : Cell) : Decodes (cell .currentAst) c.toTree c.record :=
  decodes_cell (by simp [lookup]) (by simp [lookup, List.lookup_cons])

/-- The tree of a row is read as its record. -/
theorem Row.decodes_toTree (r : Row) (n : Nat) :
    Decodes (row .currentAst) (r.toTree n).1 r.record :=
  decodes_row (by simp [lookup, List.lookup_cons]) (by simp [lookup, List.lookup_cons])
    (decodes_map Cell.decodes_toTree r.cells)

/-- The tree of a doc string is read as its record. -/
theorem DocString.decodes_toTree (s : DocString) :
    Decodes (docString .currentAst) s.toTree s.record := by
  refine decodes_docString (by simp [lookup]) (by simp [lookup, List.lookup_cons]) ?_
  cases hempty : s.mediaType.isEmpty <;> simp [lookup, List.lookup_cons, optionalField]

/-- What the tree of a table is decoded into; no rows make no table. -/
theorem decodes_tableTree (rows : List Row) (n : Nat) :
    ((tableTree rows n).1 = none ∧ tableRecord rows = none)
      ∨ ∃ v r, (tableTree rows n).1 = some v ∧ v.isPresent = true
        ∧ table .currentAst v = .ok r ∧ some r.bare = tableRecord rows := by
  cases rows with
  | nil => exact .inl ⟨rfl, rfl⟩
  | cons first rest =>
    obtain ⟨r, hr, hbare⟩ : ∃ r, table .currentAst
        (.table [("location", locationTree first.loc),
          ("rows", .list (((first :: rest).mapM Row.toTree : Numbering _) n).1)]) = .ok r
        ∧ some r.bare = tableRecord (first :: rest) :=
      decodes_table rfl (by simp [lookup]) (by simp [lookup, List.lookup_cons])
        (decodes_mapM Row.decodes_toTree (first :: rest) n)
    exact .inr ⟨_, r, rfl, rfl, hr, hbare⟩

/-- The argument of a step is found by its two fields. -/
theorem Step.block_of_fields {s : Step} {fields : List (String × Value)} {n : Nat}
    (hdoc : lookup "docString" fields = s.docString.map DocString.toTree)
    (htable : lookup "dataTable" fields = (tableTree s.table n).1) :
    ∃ b, Current.block (.table fields) = .ok b ∧ b.map Record.bare = s.record.block := by
  cases hs : s.docString with
  | some t =>
    obtain ⟨r, hr, hbare⟩ := DocString.decodes_toTree t
    rw [hs, Option.map_some] at hdoc
    refine ⟨some r, ?_, by simp [record, hs, hbare]⟩
    rw [Current.block, Value.getPresent?_some hdoc rfl]
    simp only [bind, Except.bind, hr, Functor.map, Except.map]
  | none =>
    rw [hs, Option.map_none] at hdoc
    rcases decodes_tableTree s.table n with ⟨hnone, hrecord⟩ | ⟨v, r, hv, hpresent, hr, hbare⟩
    · refine ⟨none, ?_, by simp [record, hs, hrecord]⟩
      rw [hnone] at htable
      rw [Current.block, Value.getPresent?_none hdoc, Value.getPresent?_none htable]
      rfl
    · refine ⟨some r, ?_, by simp [record, hs, hbare]⟩
      rw [hv] at htable
      rw [Current.block, Value.getPresent?_none hdoc, Value.getPresent?_some htable hpresent]
      simp only [bind, Except.bind, hr, Functor.map, Except.map]

/-- The fields of the tree of a step. -/
def Step.fields (s : Step) (n : Nat) : List (String × Value) :=
  [("id", .text (Nat.toDigits 10 (tableTree s.table n).2)), ("location", locationTree s.loc),
    ("keyword", .text s.keyword), ("keywordType", .text (roleName s.role).toList),
    ("text", .text s.text)]
    ++ optionalField "dataTable" (tableTree s.table n).1
    ++ optionalField "docString" (s.docString.map DocString.toTree)

/-- The tree of a step is the table of its fields. -/
theorem Step.toTree_fst (s : Step) (n : Nat) : (s.toTree n).1 = .table (s.fields n) := rfl

/-- The tree of a step is read as its record. -/
theorem Step.decodes_toTree (s : Step) (n : Nat) :
    Decodes (step .currentAst Current.block) (s.toTree n).1 s.record := by
  have hdoc : lookup "docString" (s.fields n) = s.docString.map DocString.toTree := by
    rw [fields]
    cases (tableTree s.table n).1 <;> cases s.docString <;>
      simp [lookup, List.lookup_cons, optionalField]
  have htable : lookup "dataTable" (s.fields n) = (tableTree s.table n).1 := by
    rw [fields]
    cases (tableTree s.table n).1 <;> cases s.docString <;>
      simp [lookup, List.lookup_cons, optionalField]
  obtain ⟨b, hb, hbare⟩ := block_of_fields hdoc htable
  rw [toTree_fst]
  exact decodes_step (lineOf_table (by simp [fields, lookup, List.lookup_cons]))
    (Value.getTrimmed_text (by simp [fields, lookup, List.lookup_cons]))
    (Value.getAny_text (by simp [fields, lookup, List.lookup_cons])) hb hbare

/-! ### Titled parts -/

/-- The fields of a heading are found behind others. -/
theorem Heading.lookup_fields {key : String} {v : Value} (h : Heading)
    {before after : List (String × Value)} (hbefore : lookup key before = none)
    (hv : lookup key h.fields = some v) : lookup key (before ++ h.fields ++ after) = some v := by
  rw [lookup] at hbefore hv ⊢
  rw [List.lookup_append, List.lookup_append, hbefore, hv]
  rfl

/-- A tree with the fields of a heading has what the heading says, if no field before them is taken
for one of them. -/
theorem Heading.hasTitle {h : Heading} {tags : List Tag} {before after : List (String × Value)}
    (hbefore : ∀ key ∈ ["location", "keyword", "name", "description"], lookup key before = none)
    (htags : ∃ vs, Value.getMembers (.table (before ++ h.fields ++ after)) "tags" = .ok vs
      ∧ List.Forall₂ (Decodes (tag .currentAst)) vs (tags.map Tag.record)) :
    HasTitle .currentAst (.table (before ++ h.fields ++ after)) h tags where
  line := lineOf_table (h.lookup_fields (hbefore _ (by simp)) (by simp [fields, lookup]))
  keyword := Value.getTrimmed_text
    (h.lookup_fields (hbefore _ (by simp)) (by simp [fields, lookup, List.lookup_cons]))
  name := Value.getAny_text
    (h.lookup_fields (hbefore _ (by simp)) (by simp [fields, lookup, List.lookup_cons]))
  description := Value.getAny_text
    (h.lookup_fields (hbefore _ (by simp)) (by simp [fields, lookup, List.lookup_cons]))
  tags := htags

/-- The tree of a background is read as its record. -/
theorem Background.decodes_toTree (b : Background) (n : Nat) :
    Decodes (Current.sectionOf .background) (b.toTree n).1 b.record := by
  generalize hid : Value.text (Nat.toDigits 10 ((b.steps.mapM Step.toTree : Numbering _) n).2) = id
  have htree : (b.toTree n).1 = .table ([("id", id)] ++ b.heading.fields
      ++ [("steps", Value.list ((b.steps.mapM Step.toTree : Numbering _) n).1)]) := by
    subst hid
    rfl
  have htitle : HasTitle .currentAst (b.toTree n).1 b.heading [] := by
    rw [htree]
    refine Heading.hasTitle (by simp [lookup]) ⟨[], Value.getMembers_none ?_, .nil⟩
    simp [lookup, List.lookup_cons, Heading.fields]
  have hsteps : (b.toTree n).1.getMembers "steps"
      = .ok ((b.steps.mapM Step.toTree : Numbering _) n).1 := by
    rw [htree]
    exact Value.getMembers_list (by simp [lookup, List.lookup_cons, Heading.fields])
  have hexamples : (b.toTree n).1.getMembers "examples" = .ok [] := by
    rw [htree]
    exact Value.getMembers_none (by simp [lookup, List.lookup_cons, Heading.fields])
  have hnone : List.Forall₂ (Decodes (examples .currentAst)) []
      (([] : List Examples).map Examples.record) := .nil
  exact decodes_section .background htitle hsteps hexamples
    (decodes_mapM Step.decodes_toTree b.steps n) hnone

/-- The tree of a table of examples is read as its record. -/
theorem Examples.decodes_toTree (e : Examples) (n : Nat) :
    Decodes (examples .currentAst) (e.toTree n).1 e.record := by
  generalize hrows : (e.rows.mapM Row.toTree : Numbering _) n = rows
  generalize htags : (e.tags.mapM Tag.toTree : Numbering _) rows.2 = tags
  have htree : (e.toTree n).1 = .table ([("id", Value.text (Nat.toDigits 10 tags.2)),
      ("tags", Value.list tags.1)] ++ e.heading.fields
      ++ (optionalField "tableHeader" rows.1.head?
        ++ [("tableBody", Value.list rows.1.tail)])) := by
    subst htags hrows
    rw [← List.append_assoc]
    rfl
  have hdecodeRows := decodes_mapM Row.decodes_toTree e.rows n
  have hdecodeTags := decodes_mapM Tag.decodes_toTree e.tags rows.2
  rw [hrows] at hdecodeRows
  rw [htags] at hdecodeTags
  have htitle : HasTitle .currentAst (e.toTree n).1 e.heading e.tags := by
    rw [htree]
    refine Heading.hasTitle (by simp [lookup, List.lookup_cons])
      ⟨tags.1, Value.getMembers_list ?_, hdecodeTags⟩
    simp [lookup, List.lookup_cons]
  have hbody : (e.toTree n).1.getMembers "tableBody" = .ok rows.1.tail := by
    rw [htree]
    refine Value.getMembers_list ?_
    cases rows.1.head? <;> simp [lookup, List.lookup_cons, Heading.fields, optionalField]
  have hheader : (e.toTree n).1.getPresent? "tableHeader" = .ok rows.1.head? := by
    rw [htree]
    cases he : e.rows with
    | nil =>
      have hvalues : rows.1 = [] := by
        rw [← hrows, he]
        rfl
      rw [hvalues]
      refine Value.getPresent?_none ?_
      simp [lookup, List.lookup_cons, Heading.fields, optionalField]
    | cons first rest =>
      -- every row becomes a table with fields, so the first one counts as present
      have hvalues : rows.1.head? = some (first.toTree n).1 := by
        rw [← hrows, he, mapM_cons_fst]
        rfl
      rw [hvalues]
      refine Value.getPresent?_some ?_ rfl
      simp [lookup, List.lookup_cons, Heading.fields, optionalField]
  refine decodes_examples htitle hheader hbody ?_
  cases hvalues : rows.1 with
  | nil =>
    rw [hvalues] at hdecodeRows
    exact hdecodeRows
  | cons v vs =>
    rw [hvalues] at hdecodeRows
    exact hdecodeRows

/-- A scenario is an outline for its tree when it is one for the document. -/
theorem Scenario.decodes_toTree (words : List Text) (s : Scenario) (n : Nat) :
    Decodes (Current.scenario words) (s.toTree n).1 (s.record words) := by
  generalize hsteps : (s.steps.mapM Step.toTree : Numbering _) n = steps
  generalize hexamples : (s.examples.mapM Examples.toTree : Numbering _) steps.2 = examples
  generalize htags : (s.tags.mapM Tag.toTree : Numbering _) examples.2 = tags
  have htree : (s.toTree n).1 = .table ([("id", Value.text (Nat.toDigits 10 tags.2)),
      ("tags", Value.list tags.1)] ++ s.heading.fields
      ++ [("steps", Value.list steps.1), ("examples", Value.list examples.1)]) := by
    subst htags hexamples hsteps
    rfl
  have hdecodeSteps := decodes_mapM Step.decodes_toTree s.steps n
  have hdecodeExamples := decodes_mapM Examples.decodes_toTree s.examples steps.2
  have hdecodeTags := decodes_mapM Tag.decodes_toTree s.tags examples.2
  rw [hsteps] at hdecodeSteps
  rw [hexamples] at hdecodeExamples
  rw [htags] at hdecodeTags
  have htitle : HasTitle .currentAst (s.toTree n).1 s.heading s.tags := by
    rw [htree]
    refine Heading.hasTitle (by simp [lookup, List.lookup_cons])
      ⟨tags.1, Value.getMembers_list ?_, hdecodeTags⟩
    simp [lookup, List.lookup_cons]
  have hgetSteps : (s.toTree n).1.getMembers "steps" = .ok steps.1 := by
    rw [htree]
    exact Value.getMembers_list (by simp [lookup, List.lookup_cons, Heading.fields])
  have hfound : lookup "examples" ([("id", Value.text (Nat.toDigits 10 tags.2)),
      ("tags", Value.list tags.1)] ++ s.heading.fields
      ++ [("steps", Value.list steps.1), ("examples", Value.list examples.1)])
      = some (.list examples.1) := by
    simp [lookup, List.lookup_cons, Heading.fields]
  have hgetExamples : (s.toTree n).1.getMembers "examples" = .ok examples.1 := by
    rw [htree]
    exact Value.getMembers_list hfound
  -- the field has a value when there are examples, of which there are as many as records
  have hempty : examples.1.isEmpty = s.examples.isEmpty := by
    have hlength := hdecodeExamples.length_eq
    rw [List.length_map] at hlength
    rw [Bool.eq_iff_iff, List.isEmpty_iff, List.isEmpty_iff, ← List.length_eq_zero_iff, hlength,
      List.length_eq_zero_iff]
  have hpresent : ∃ v?, (s.toTree n).1.getPresent? "examples" = .ok v?
      ∧ v?.isSome = !s.examples.isEmpty := by
    rw [htree, Value.getPresent?_list hfound, hempty]
    refine ⟨_, rfl, ?_⟩
    cases s.examples <;> rfl
  obtain ⟨v?, hv, hsome⟩ := hpresent
  have hdecode := decodes_section (s.kind words) htitle hgetSteps hgetExamples hdecodeSteps
    hdecodeExamples
  obtain ⟨r, hr, hbare⟩ := hdecode
  refine ⟨r, ?_, hbare⟩
  simp only [Current.scenario, Current.sectionOf, hv, htitle.keyword, bind, Except.bind, hsome]
  exact hr

/-- A child that wraps a background is read as one. -/
theorem child_background (words : List Text) (v : Value) :
    Current.child words (.table [("background", v)]) = Current.sectionOf .background v := by
  simp [Current.child, lookup]

/-- A child that wraps a scenario is read as one. -/
theorem child_scenario (words : List Text) (v : Value) :
    Current.child words (.table [("scenario", v)]) = Current.scenario words v := by
  simp [Current.child, Current.ruleIn, lookup, List.lookup_cons]

/-- A child that wraps a rule is read as one. -/
theorem child_rule (words : List Text) (v : Value) :
    Current.child words (.table [("rule", v)]) = Current.rule words v := by
  simp [Current.child, Current.ruleIn, lookup, List.lookup_cons]

/-- Children that are each in a table of one field are decoded as what the field holds. -/
theorem decodes_wrapped {words : List Text} {key : String}
    {decode : Value → Except Fault Record}
    (hchild : ∀ v, Current.child words (.table [(key, v)]) = decode v) {vs : List Value}
    {rs : List Record} (h : List.Forall₂ (Decodes decode) vs rs) :
    List.Forall₂ (Decodes (Current.child words)) (vs.map fun v => .table [(key, v)]) rs := by
  rw [List.forall₂_map_left_iff]
  refine h.imp fun v r hv => ?_
  rwa [Decodes, hchild]

/-- The trees of the sections of a body are read as their records. -/
theorem Body.decodes_toTrees (words : List Text) (b : Body) (n : Nat) :
    List.Forall₂ (Decodes (Current.child words)) (b.toTrees n).1 (b.records words) := by
  obtain ⟨background, scenarios⟩ := b
  have hscenarios : ∀ n, List.Forall₂ (Decodes (Current.child words))
      (((scenarios.mapM Scenario.toTree : Numbering _) n).1.map fun v => .table [("scenario", v)])
      (scenarios.map (Scenario.record words)) := fun n =>
    decodes_wrapped (child_scenario words)
      (decodes_mapM (Scenario.decodes_toTree words) scenarios n)
  cases background with
  | none => exact hscenarios n
  | some x =>
    have hfirst : Decodes (Current.child words) (.table [("background", (x.toTree n).1)])
        x.record := by
      rw [Decodes, child_background]
      exact x.decodes_toTree n
    exact .cons hfirst (hscenarios _)

/-- The tree of a rule is read as its record. -/
theorem Rule.decodes_toTree (words : List Text) (r : Rule) (n : Nat) :
    Decodes (Current.rule words) (r.toTree n).1 (r.record words) := by
  generalize hchildren : r.body.toTrees n = children
  generalize htags : (r.tags.mapM Tag.toTree : Numbering _) children.2 = tags
  have htree : (r.toTree n).1 = .table ([("id", Value.text (Nat.toDigits 10 tags.2)),
      ("tags", Value.list tags.1)] ++ r.heading.fields
      ++ [("children", Value.list children.1)]) := by
    subst htags hchildren
    rfl
  have hdecodeChildren := r.body.decodes_toTrees words n
  have hdecodeTags := decodes_mapM Tag.decodes_toTree r.tags children.2
  rw [hchildren] at hdecodeChildren
  rw [htags] at hdecodeTags
  have htitle : HasTitle .currentAst (r.toTree n).1 r.heading r.tags := by
    rw [htree]
    refine Heading.hasTitle (by simp [lookup, List.lookup_cons])
      ⟨tags.1, Value.getMembers_list ?_, hdecodeTags⟩
    simp [lookup, List.lookup_cons]
  obtain ⟨part, hpart, hpartBare⟩ := decodes_titled .rule htitle
  obtain ⟨rs, hrs, hbare⟩ := decodes_all hdecodeChildren
  refine ⟨{ part with children := rs }, ?_, ?_⟩
  · rw [htree] at hpart ⊢
    rw [← Current.childList_eq_decodeAll] at hrs
    simp only [Current.rule, hpart, bind, Except.bind]
    simp [Current.childrenIn, Current.childrenOf, Heading.fields, hrs, pure, Except.pure]
  · rw [record, ← hpartBare, Record.bare_eq, Record.bare_eq part, hbare]

/-- The keywords for outlines are those of the language of the feature. -/
theorem Feature.outlineKeywordsFor_language (f : Feature) :
    Dialect.outlineKeywordsFor (.text f.language) = .ok f.outlineWords := by
  cases hl : f.language with
  | nil =>
    rw [Feature.outlineWords, hl]
    rfl
  | cons c cs =>
    rw [Feature.outlineWords, hl]
    rfl

/-- The tree of a feature is decoded into the record of the feature. -/
theorem Feature.decodes_toTree (f : Feature) (n : Nat) :
    Decodes Current.feature (f.toTree n).1 f.record := by
  generalize hsections : f.body.toTrees n = sections
  generalize hrules : (f.rules.mapM Rule.toTree : Numbering _) sections.2 = rules
  generalize htags : (f.tags.mapM Tag.toTree : Numbering _) rules.2 = tags
  generalize hchildren : sections.1 ++ rules.1.map (fun v => Value.table [("rule", v)]) = children
  have htree : (f.toTree n).1 = .table ([("tags", Value.list tags.1),
      ("language", Value.text f.language)] ++ f.heading.fields
      ++ [("children", Value.list children)]) := by
    subst hchildren htags hrules hsections
    rfl
  have hdecodeSections := f.body.decodes_toTrees f.outlineWords n
  have hdecodeRules := decodes_wrapped (child_rule f.outlineWords)
    (decodes_mapM (Rule.decodes_toTree f.outlineWords) f.rules sections.2)
  have hdecodeTags := decodes_mapM Tag.decodes_toTree f.tags rules.2
  rw [hsections] at hdecodeSections
  rw [hrules] at hdecodeRules
  rw [htags] at hdecodeTags
  have hdecodeChildren : List.Forall₂ (Decodes (Current.child f.outlineWords)) children
      (f.body.records f.outlineWords ++ f.rules.map (Rule.record f.outlineWords)) := by
    rw [← hchildren]
    exact List.rel_append hdecodeSections hdecodeRules
  have htitle : HasTitle .currentAst (f.toTree n).1 f.heading f.tags := by
    rw [htree]
    refine Heading.hasTitle (by simp [lookup, List.lookup_cons])
      ⟨tags.1, Value.getMembers_list ?_, hdecodeTags⟩
    simp [lookup]
  have hlanguage : (f.toTree n).1.getAny "language" = .ok (.text f.language) := by
    rw [htree]
    exact Value.getAny_text (by simp [lookup, List.lookup_cons])
  have hgetChildren : (f.toTree n).1.getPresent? "children"
      = .ok (if children.isEmpty then none else some (.list children)) := by
    rw [htree]
    exact Value.getPresent?_list (by simp [lookup, List.lookup_cons, Heading.fields])
  obtain ⟨part, hpart, hpartBare⟩ := decodes_titled .feature htitle
  obtain ⟨rs, hrs, hbare⟩ := decodes_all hdecodeChildren
  refine ⟨{ part with language := .text f.language, children := rs }, ?_, ?_⟩
  · rw [← Current.childList_eq_decodeAll] at hrs
    have hlist : Current.childrenOf f.outlineWords
        ((if children.isEmpty then none else some (Value.list children)).getD .null) = .ok rs := by
      cases hvalues : children with
      | nil =>
        rw [hvalues] at hrs
        cases hrs
        rfl
      | cons v vs =>
        rw [hvalues] at hrs
        exact hrs
    simp only [Current.feature, hgetChildren, hpart, hlanguage, f.outlineKeywordsFor_language,
      hlist, bind, Except.bind, pure, Except.pure]
  · rw [record, ← hpartBare, Record.bare_eq, Record.bare_eq part, hbare]

/-! ### Documents -/

/-- The tree of a document is decoded as one of the current schema, into the record of the
document. -/
theorem Document.normalize_toTree (d : Document) :
    detect d.toTree = .ok .currentAst
      ∧ ∃ r, Schema.normalize d.toTree = .ok r ∧ r.bare = d.record := by
  obtain ⟨cs, hcs, hcomments⟩ := decodes_all (decodes_map Comment.decodes_toTree d.comments)
  obtain ⟨feature, comments, tags⟩ := d
  cases feature with
  | none =>
    have htree : toTree ⟨none, comments, tags⟩
        = .table [("comments", .list (comments.map Comment.toTree))] := rfl
    have hdetect : detect (toTree ⟨none, comments, tags⟩) = .ok .currentAst := by
      simp [htree, detect, isTypedRoot, hasField, lookup, List.lookup_cons]
    have hbare : (DocumentRecord.mk none cs
        ⟨.currentAst, toTree ⟨none, comments, tags⟩⟩).bare = record ⟨none, comments, tags⟩ := by
      rw [DocumentRecord.bare, hcomments]
      rfl
    refine ⟨hdetect, _, ?_, hbare⟩
    have hmembers : (toTree ⟨none, comments, tags⟩).getMembers "comments"
        = .ok (comments.map Comment.toTree) := by
      rw [htree]
      exact Value.getMembers_list (by simp [lookup])
    have hfeature : (toTree ⟨none, comments, tags⟩).getPresent? "feature" = .ok none := by
      rw [htree]
      exact Value.getPresent?_none (by simp [lookup, List.lookup_cons])
    simp only [Schema.normalize, hdetect, decode, Current.document, hmembers, hfeature, hcs, bind,
      Except.bind, pure, Except.pure]
  | some f =>
    obtain ⟨rf, hrf, hbare⟩ := f.decodes_toTree 0
    have htree : toTree ⟨some f, comments, tags⟩
        = .table [("feature", (f.toTree 0).1), ("comments", .list (comments.map Comment.toTree))] :=
      rfl
    have hdetect : detect (toTree ⟨some f, comments, tags⟩) = .ok .currentAst := by
      simp [htree, detect, isTypedRoot, hasField, lookup, List.lookup_cons]
    have hbare' : (DocumentRecord.mk (some rf) cs
        ⟨.currentAst, toTree ⟨some f, comments, tags⟩⟩).bare = record ⟨some f, comments, tags⟩ := by
      rw [DocumentRecord.bare, hcomments, Option.map_some, hbare]
      rfl
    refine ⟨hdetect, _, ?_, hbare'⟩
    have hmembers : (toTree ⟨some f, comments, tags⟩).getMembers "comments"
        = .ok (comments.map Comment.toTree) := by
      rw [htree]
      exact Value.getMembers_list (by simp [lookup, List.lookup_cons])
    have hfeature : (toTree ⟨some f, comments, tags⟩).getPresent? "feature"
        = .ok (some (f.toTree 0).1) := by
      rw [htree]
      exact Value.getPresent?_some (by simp [lookup]) rfl
    simp only [Schema.normalize, hdetect, decode, Current.document, hmembers, hfeature, hrf, hcs,
      bind, Except.bind, pure, Except.pure, Functor.map, Except.map]

end Ast

end FeatureTree
