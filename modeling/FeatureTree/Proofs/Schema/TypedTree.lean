import FeatureTree.Proofs.Schema.Records
import FeatureTree.Schema.Basic

/-!
# Documents as typed trees

A document without rules written as a tree in which every part names its type: the steps of a
section have their argument in one field, a scenario names whether it is an outline, and texts that
are empty are left out. Such a tree is decoded into the records of the document, like the tree that
the parser gives out.

## Main results

* `Ast.Feature.decodes_typedTree`: the typed tree of a feature is decoded into its record
* `Ast.Document.normalize_typedTree`: the typed tree of a document is decoded as what it is
-/

namespace FeatureTree

open Schema

open Value (lookup)

namespace Ast

/-! ### Trees -/

/-- A table that names its type. -/
def typed (type : String) (fields : List (String × Value)) : Value :=
  .table (("type", .text type.toList) :: fields)

/-- A text that is left out when it is empty. -/
def optionalText (name : String) (t : Text) : List (String × Value) :=
  optionalField name (if t.isEmpty then none else some (.text t))

def Tag.typedTree (t : Tag) : Value :=
  typed "Tag" [("location", locationTree t.loc), ("name", .text t.name)]

def Comment.typedTree (c : Comment) : Value :=
  typed "Comment" [("location", locationTree c.loc), ("text", .text c.text)]

def Cell.typedTree (c : Cell) : Value :=
  typed "TableCell" [("location", locationTree c.loc), ("value", .text c.value)]

def Row.typedTree (r : Row) : Value :=
  typed "TableRow" [("location", locationTree r.loc), ("cells", .list (r.cells.map Cell.typedTree))]

/-- A table of rows; it stands where its first row stands. -/
def typedTable (first : Row) (rest : List Row) : Value :=
  typed "DataTable" [("location", locationTree first.loc),
    ("rows", .list ((first :: rest).map Row.typedTree))]

def DocString.typedTree (s : DocString) : Value :=
  typed "DocString" (("location", locationTree s.loc) :: optionalText "contentType" s.mediaType
    ++ [("content", .text s.content)])

/-- The one argument of a step: its doc string if it has one, else its table if that has rows. -/
def Step.typedArgument (s : Step) : Option Value :=
  match s.docString, s.table with
  | some t, _ => some t.typedTree
  | none, first :: rest => some (typedTable first rest)
  | none, [] => none

def Step.typedTree (s : Step) : Value :=
  typed "Step" ([("location", locationTree s.loc), ("keyword", .text s.keyword),
    ("text", .text s.text)] ++ optionalField "argument" s.typedArgument)

/-- The fields of a title and its description. -/
def Heading.typedFields (h : Heading) : List (String × Value) :=
  [("location", locationTree h.loc), ("keyword", .text h.keyword), ("name", .text h.name)]
    ++ optionalText "description" h.descriptionText

def Background.typedTree (b : Background) : Value :=
  typed "Background" (b.heading.typedFields ++ [("steps", .list (b.steps.map Step.typedTree))])

def Examples.typedTree (e : Examples) : Value :=
  typed "Examples" (("tags", .list (e.tags.map Tag.typedTree)) :: e.heading.typedFields
    ++ (optionalField "tableHeader" (e.rows.head?.map Row.typedTree)
      ++ [("tableBody", .list (e.rows.tail.map Row.typedTree))]))

/-- Only outlines have a field for examples. -/
def Scenario.typedTree (words : List Text) (s : Scenario) : Value :=
  let fields := ("tags", .list (s.tags.map Tag.typedTree)) :: s.heading.typedFields
    ++ [("steps", .list (s.steps.map Step.typedTree))]
  if s.isOutline words then
    typed "ScenarioOutline" (fields ++ [("examples", .list (s.examples.map Examples.typedTree))])
  else typed "Scenario" fields

/-- The sections of a feature, the background first. -/
def Body.typedTrees (words : List Text) (b : Body) : List Value :=
  (b.background.map Background.typedTree).toList ++ b.scenarios.map (Scenario.typedTree words)

/-- A feature without its rules, which this schema does not know. -/
def Feature.typedTree (f : Feature) : Value :=
  typed "Feature" ([("tags", .list (f.tags.map Tag.typedTree)), ("language", .text f.language)]
    ++ f.heading.typedFields ++ [("children", .list (f.body.typedTrees f.outlineWords))])

/-- The typed tree of a document. -/
def Document.typedTree (d : Document) : Value :=
  typed "GherkinDocument" (optionalField "feature" (d.feature.map Feature.typedTree)
    ++ [("comments", .list (d.comments.map Comment.typedTree))])

/-! ### Parts without a title -/

/-- The typed node of a tag is read as its record. -/
theorem Tag.decodes_typedTree (t : Tag) : Decodes (tag .typedAst) t.typedTree t.record :=
  decodes_tag (by simp [lookup, List.lookup_cons]) (by simp [lookup, List.lookup_cons])

/-- The typed node of a comment is read as its record. -/
theorem Comment.decodes_typedTree (c : Comment) :
    Decodes (comment .typedAst) c.typedTree c.record :=
  decodes_comment (by simp [lookup, List.lookup_cons]) (by simp [lookup, List.lookup_cons])

/-- The typed node of a cell is read as its record. -/
theorem Cell.decodes_typedTree (c : Cell) : Decodes (cell .typedAst) c.typedTree c.record :=
  decodes_cell (by simp [lookup, List.lookup_cons]) (by simp [lookup, List.lookup_cons])

/-- The typed node of a row is read as its record. -/
theorem Row.decodes_typedTree (r : Row) : Decodes (row .typedAst) r.typedTree r.record :=
  decodes_row (by simp [lookup, List.lookup_cons]) (by simp [lookup, List.lookup_cons])
    (decodes_map Cell.decodes_typedTree r.cells)

/-- The typed node of a doc string is read as its record. -/
theorem DocString.decodes_typedTree (s : DocString) :
    Decodes (docString .typedAst) s.typedTree s.record := by
  refine decodes_docString (by simp [lookup, List.lookup_cons]) ?_ ?_ <;>
    cases hempty : s.mediaType.isEmpty <;>
      simp [lookup, List.lookup_cons, optionalText, optionalField, hempty]

/-- The typed node of a table is read as its record. -/
theorem decodes_typedTable (first : Row) (rest : List Row) :
    ∃ r, table .typedAst (typedTable first rest) = .ok r
      ∧ some r.bare = tableRecord (first :: rest) :=
  decodes_table rfl (by simp [lookup, List.lookup_cons]) (by simp [lookup, List.lookup_cons])
    (decodes_map Row.decodes_typedTree (first :: rest))

/-- The argument of a step is found by its field and told apart by its type. -/
theorem Step.block_of_argument {s : Step} {fields : List (String × Value)}
    (h : lookup "argument" fields = s.typedArgument) :
    ∃ b, Typed.block (.table fields) = .ok b ∧ b.map Record.bare = s.record.block := by
  cases hs : s.docString with
  | some t =>
    obtain ⟨r, hr, hbare⟩ := t.decodes_typedTree
    have htype : t.typedTree.get "type" = .ok (.text "DocString".toList) := rfl
    refine ⟨some r, ?_, by simp [record, hs, hbare]⟩
    rw [typedArgument, hs] at h
    rw [Typed.block, Value.getPresent?_some h rfl]
    simp only [bind, Except.bind, htype, if_true, hr, Functor.map, Except.map]
  | none =>
    cases ht : s.table with
    | nil =>
      refine ⟨none, ?_, by simp [record, hs, ht, tableRecord]⟩
      rw [typedArgument, hs, ht] at h
      rw [Typed.block, Value.getPresent?_none h]
      rfl
    | cons first rest =>
      obtain ⟨r, hr, hbare⟩ := decodes_typedTable first rest
      have htype : (typedTable first rest).get "type" = .ok (.text "DataTable".toList) := rfl
      refine ⟨some r, ?_, by simp [record, hs, ht, hbare]⟩
      rw [typedArgument, hs, ht] at h
      rw [Typed.block, Value.getPresent?_some h rfl]
      simp only [bind, Except.bind, htype]
      rw [if_neg (by decide), hr]
      rfl

/-- The typed node of a step is read as its record. -/
theorem Step.decodes_typedTree (s : Step) :
    Decodes (step .typedAst Typed.block) s.typedTree s.record := by
  obtain ⟨b, hb, hbare⟩ : ∃ b, Typed.block s.typedTree = .ok b
      ∧ b.map Record.bare = s.record.block := by
    refine block_of_argument ?_
    cases s.typedArgument <;> simp [lookup, List.lookup_cons, optionalField]
  exact decodes_step (lineOf_table (by simp [lookup, List.lookup_cons]))
    (Value.getTrimmed_text (by simp [lookup, List.lookup_cons]))
    (Value.getAny_text (by simp [lookup, List.lookup_cons])) hb hbare

/-! ### Titled parts -/

/-- The fields of a heading behind others, of which none is taken for one of them. -/
theorem Heading.hasTypedTitle {h : Heading} {tags : List Tag} {before after : List (String × Value)}
    (hbefore : ∀ key ∈ ["location", "keyword", "name", "description"], lookup key before = none)
    (hafter : lookup "description" after = none)
    (htags : ∃ vs, Value.getMembers (.table (before ++ h.typedFields ++ after)) "tags" = .ok vs
      ∧ List.Forall₂ (Decodes (tag .typedAst)) vs (tags.map Tag.record)) :
    HasTitle .typedAst (.table (before ++ h.typedFields ++ after)) h tags := by
  have hlookup : ∀ key ∈ ["location", "keyword", "name", "description"],
      lookup key (before ++ h.typedFields ++ after)
        = (lookup key h.typedFields).or (lookup key after) := by
    intro key hkey
    have hnone := hbefore key hkey
    rw [lookup] at hnone ⊢
    rw [List.lookup_append, List.lookup_append, hnone, Option.none_or]
    rfl
  refine ⟨lineOf_table ?_, Value.getTrimmed_text ?_, Value.getAny_text ?_,
    Value.getAny_optional ?_, htags⟩
  · rw [hlookup _ (by simp)]
    simp [typedFields, lookup]
  · rw [hlookup _ (by simp)]
    simp [typedFields, lookup, List.lookup_cons]
  · rw [hlookup _ (by simp)]
    simp [typedFields, lookup, List.lookup_cons]
  · rw [hlookup _ (by simp), hafter, Option.or_none]
    cases hempty : h.descriptionText.isEmpty <;>
      simp [typedFields, lookup, List.lookup_cons, optionalText, optionalField, hempty]

/-- Fields behind a heading are found behind it, unless the heading has a field of the name. -/
theorem Heading.lookup_behind {key : String} (h : Heading) (before after : List (String × Value))
    (hbefore : lookup key before = none)
    (hkey : key ∉ ["location", "keyword", "name", "description"]) :
    lookup key (before ++ h.typedFields ++ after) = lookup key after := by
  have hnone : lookup key h.typedFields = none := by
    simp only [List.mem_cons, List.not_mem_nil, not_or] at hkey
    obtain ⟨hloc, hkeyword, hname, hdescription, -⟩ := hkey
    cases hempty : h.descriptionText.isEmpty <;>
      simp [typedFields, lookup, List.lookup_cons, optionalText, optionalField, hempty, hloc,
        hkeyword, hname, hdescription, beq_false_of_ne]
  rw [lookup] at hbefore hnone ⊢
  rw [List.lookup_append, List.lookup_append, hbefore, hnone]
  rfl

/-- The members of a list behind a heading. -/
theorem Heading.getMembers_behind {key : String} (h : Heading)
    {before after : List (String × Value)} {vs : List Value} (hbefore : lookup key before = none)
    (hkey : key ∉ ["location", "keyword", "name", "description"])
    (hafter : lookup key after = some (.list vs)) :
    (Value.table (before ++ h.typedFields ++ after)).getMembers key = .ok vs :=
  Value.getMembers_list (by rw [h.lookup_behind before after hbefore hkey, hafter])

/-- A titled node has no members under a key that none of its fields has. -/
theorem Heading.getMembers_nowhere {key : String} (h : Heading)
    {before after : List (String × Value)} (hbefore : lookup key before = none)
    (hkey : key ∉ ["location", "keyword", "name", "description"])
    (hafter : lookup key after = none) :
    (Value.table (before ++ h.typedFields ++ after)).getMembers key = .ok [] :=
  Value.getMembers_none (by rw [h.lookup_behind before after hbefore hkey, hafter])

/-- The typed node of a background is read as its record. -/
theorem Background.decodes_typedTree (b : Background) :
    Decodes Typed.child b.typedTree b.record := by
  have htree : b.typedTree = .table ([("type", Value.text "Background".toList)]
      ++ b.heading.typedFields ++ [("steps", Value.list (b.steps.map Step.typedTree))]) := rfl
  have htitle : HasTitle .typedAst b.typedTree b.heading [] := by
    rw [htree]
    refine Heading.hasTypedTitle (by simp [lookup, List.lookup_cons])
      (by simp [lookup, List.lookup_cons])
      ⟨[], b.heading.getMembers_nowhere ?_ (by simp) ?_, .nil⟩ <;> simp [lookup, List.lookup_cons]
  have hsteps : b.typedTree.getMembers "steps" = .ok (b.steps.map Step.typedTree) := by
    rw [htree]
    refine b.heading.getMembers_behind ?_ (by simp) ?_ <;> simp [lookup, List.lookup_cons]
  have hexamples : b.typedTree.getMembers "examples" = .ok [] := by
    rw [htree]
    refine b.heading.getMembers_nowhere ?_ (by simp) ?_ <;> simp [lookup, List.lookup_cons]
  have hnone : List.Forall₂ (Decodes (examples .typedAst)) []
      (([] : List Examples).map Examples.record) := .nil
  exact decodes_section .background htitle hsteps hexamples
    (decodes_map Step.decodes_typedTree b.steps) hnone

/-- The typed node of a table of examples is read as its record. -/
theorem Examples.decodes_typedTree (e : Examples) :
    Decodes (examples .typedAst) e.typedTree e.record := by
  have htree : e.typedTree = .table ([("type", Value.text "Examples".toList),
      ("tags", Value.list (e.tags.map Tag.typedTree))] ++ e.heading.typedFields
      ++ (optionalField "tableHeader" (e.rows.head?.map Row.typedTree)
        ++ [("tableBody", Value.list (e.rows.tail.map Row.typedTree))])) := rfl
  have htitle : HasTitle .typedAst e.typedTree e.heading e.tags := by
    rw [htree]
    refine Heading.hasTypedTitle (by simp [lookup, List.lookup_cons]) ?_
      ⟨_, Value.getMembers_list (by simp [lookup, List.lookup_cons]),
        decodes_map Tag.decodes_typedTree e.tags⟩
    cases e.rows <;> simp [lookup, List.lookup_cons, optionalField]
  have hbody : e.typedTree.getMembers "tableBody" = .ok (e.rows.tail.map Row.typedTree) := by
    rw [htree]
    refine e.heading.getMembers_behind (by simp [lookup, List.lookup_cons]) (by simp) ?_
    cases e.rows <;> simp [lookup, List.lookup_cons, optionalField]
  cases hrows : e.rows with
  | nil =>
    have hheader : e.typedTree.getPresent? "tableHeader" = .ok none := by
      rw [htree, hrows]
      refine Value.getPresent?_none ?_
      rw [e.heading.lookup_behind _ _ (by simp [lookup, List.lookup_cons]) (by simp)]
      simp [lookup, optionalField]
    rw [hrows] at hbody
    refine decodes_examples htitle hheader hbody ?_
    rw [hrows]
    exact .nil
  | cons first rest =>
    have hheader : e.typedTree.getPresent? "tableHeader" = .ok (some first.typedTree) := by
      rw [htree, hrows]
      refine Value.getPresent?_some ?_ rfl
      rw [e.heading.lookup_behind _ _ (by simp [lookup, List.lookup_cons]) (by simp)]
      simp [lookup, optionalField]
    rw [hrows] at hbody
    refine decodes_examples htitle hheader hbody ?_
    rw [hrows]
    exact decodes_map Row.decodes_typedTree (first :: rest)

/-- The type of a scenario says what its examples and keyword say. -/
theorem Scenario.decodes_typedTree (words : List Text) (s : Scenario) :
    Decodes Typed.child (s.typedTree words) (s.record words) := by
  generalize htype : (if s.isOutline words then "ScenarioOutline" else "Scenario") = type
  generalize hafter : ("steps", Value.list (s.steps.map Step.typedTree)) ::
    (if s.isOutline words then
      [("examples", Value.list (s.examples.map Examples.typedTree))] else []) = after
  have htree : s.typedTree words = .table ([("type", Value.text type.toList),
      ("tags", Value.list (s.tags.map Tag.typedTree))] ++ s.heading.typedFields ++ after) := by
    subst htype hafter
    cases hout : s.isOutline words <;> simp [typedTree, hout, typed]
  have htitle : HasTitle .typedAst (s.typedTree words) s.heading s.tags := by
    rw [htree]
    refine Heading.hasTypedTitle (by simp [lookup, List.lookup_cons]) ?_
      ⟨_, Value.getMembers_list (by simp [lookup, List.lookup_cons]),
        decodes_map Tag.decodes_typedTree s.tags⟩
    subst hafter
    cases s.isOutline words <;> simp [lookup, List.lookup_cons]
  have hsteps : (s.typedTree words).getMembers "steps" = .ok (s.steps.map Step.typedTree) := by
    rw [htree]
    refine s.heading.getMembers_behind (by simp [lookup, List.lookup_cons]) (by simp) ?_
    simp [← hafter, lookup]
  have hexamples : (s.typedTree words).getMembers "examples"
      = .ok (s.examples.map Examples.typedTree) := by
    rw [htree]
    cases hout : s.isOutline words with
    | true =>
      refine s.heading.getMembers_behind (by simp [lookup, List.lookup_cons]) (by simp) ?_
      simp [← hafter, hout, lookup, List.lookup_cons]
    | false =>
      rw [examples_of_not_isOutline hout]
      refine s.heading.getMembers_nowhere (by simp [lookup, List.lookup_cons]) (by simp) ?_
      simp [← hafter, hout, lookup, List.lookup_cons]
  have hkind : Typed.sectionKind? type.toList = some (s.kind words) := by
    rw [← htype, kind]
    cases s.isOutline words <;> rfl
  have hget : (s.typedTree words).get "type" = .ok (.text type.toList) := by
    rw [htree]
    rfl
  obtain ⟨r, hr, hbare⟩ := decodes_section (s.kind words) htitle hsteps hexamples
    (decodes_map Step.decodes_typedTree s.steps)
    (decodes_map Examples.decodes_typedTree s.examples)
  refine ⟨r, ?_, hbare⟩
  simp only [Typed.child, hget, hkind, bind, Except.bind]
  exact hr

/-- The typed nodes of the sections of a body are read as their records. -/
theorem Body.decodes_typedTrees (words : List Text) (b : Body) :
    List.Forall₂ (Decodes Typed.child) (b.typedTrees words) (b.records words) := by
  refine List.rel_append ?_ (decodes_map (Scenario.decodes_typedTree words) b.scenarios)
  cases b.background with
  | none => exact .nil
  | some x => exact .cons x.decodes_typedTree .nil

/-! ### Documents -/

/-- The sections of a typed feature are found, whether there are any or not. -/
theorem Feature.childrenOf_typedTree (f : Feature) :
    ∃ children, Typed.childrenOf f.typedTree = .ok children
      ∧ children.membersOrEmpty = .ok (f.body.typedTrees f.outlineWords) := by
  generalize hbefore : [("type", Value.text "Feature".toList),
    ("tags", Value.list (f.tags.map Tag.typedTree)), ("language", Value.text f.language)] = before
  generalize hsections : f.body.typedTrees f.outlineWords = sections
  have htree : f.typedTree
      = .table (before ++ f.heading.typedFields ++ [("children", Value.list sections)]) := by
    rw [← hbefore, ← hsections]
    rfl
  have hfound : lookup "children"
      (before ++ f.heading.typedFields ++ [("children", Value.list sections)])
      = some (.list sections) := by
    rw [f.heading.lookup_behind _ _ (by simp [← hbefore, lookup, List.lookup_cons]) (by simp)]
    simp [lookup]
  have hbackground : f.typedTree.getPresent? "background" = .ok none := by
    rw [htree]
    refine Value.getPresent?_none ?_
    rw [f.heading.lookup_behind _ _ (by simp [← hbefore, lookup, List.lookup_cons]) (by simp)]
    simp [lookup, List.lookup_cons]
  have hpresent := Value.getPresent?_list hfound
  rw [← htree] at hpresent
  cases sections with
  | nil =>
    have hold : f.typedTree.get "scenarioDefinitions" = .ok .null := by
      rw [htree, Value.get_table,
        f.heading.lookup_behind _ _ (by simp [← hbefore, lookup, List.lookup_cons]) (by simp)]
      simp [lookup, List.lookup_cons]
    refine ⟨.null, ?_, rfl⟩
    rw [Typed.childrenOf, hpresent]
    simp [bind, Except.bind, hold, hbackground, pure, Except.pure]
  | cons v vs =>
    refine ⟨.list (v :: vs), ?_, rfl⟩
    rw [Typed.childrenOf, hpresent]
    simp [bind, Except.bind, hbackground, pure, Except.pure]

/-- The typed tree of a feature without rules is decoded into the record of the feature. -/
theorem Feature.decodes_typedTree {f : Feature} (hrules : f.rules = []) {children : Value}
    (hchildren : children.membersOrEmpty = .ok (f.body.typedTrees f.outlineWords)) :
    Decodes (Typed.feature · children) f.typedTree f.record := by
  have htree : f.typedTree = .table ([("type", Value.text "Feature".toList),
      ("tags", Value.list (f.tags.map Tag.typedTree)), ("language", Value.text f.language)]
      ++ f.heading.typedFields
      ++ [("children", Value.list (f.body.typedTrees f.outlineWords))]) := rfl
  have htitle : HasTitle .typedAst f.typedTree f.heading f.tags := by
    rw [htree]
    exact Heading.hasTypedTitle (by simp [lookup, List.lookup_cons])
      (by simp [lookup, List.lookup_cons])
      ⟨_, Value.getMembers_list (by simp [lookup, List.lookup_cons]),
        decodes_map Tag.decodes_typedTree f.tags⟩
  have hlanguage : f.typedTree.getAny "language" = .ok (.text f.language) := by
    rw [htree]
    exact Value.getAny_text (by simp [lookup, List.lookup_cons])
  obtain ⟨part, hpart, hpartBare⟩ := decodes_titled .feature htitle
  obtain ⟨rs, hrs, hbare⟩ := decodes_all (f.body.decodes_typedTrees f.outlineWords)
  refine ⟨{ part with language := .text f.language, children := rs }, ?_, ?_⟩
  · simp only [Typed.feature, hpart, hlanguage, hchildren, hrs, bind, Except.bind, pure,
      Except.pure]
  · rw [record, ← hpartBare, hrules, List.map_nil, List.append_nil, Record.bare_eq,
      Record.bare_eq part, hbare]

/-- The typed tree of a document without rules is decoded as one of the typed schema, into the
record of the document. -/
theorem Document.normalize_typedTree {d : Document} (hrules : ∀ f ∈ d.feature, f.rules = []) :
    detect d.typedTree = .ok .typedAst
      ∧ ∃ r, Schema.normalize d.typedTree = .ok r ∧ r.bare = d.record := by
  have hdetect : detect d.typedTree = .ok .typedAst := rfl
  obtain ⟨cs, hcs, hcomments⟩ := decodes_all (decodes_map Comment.decodes_typedTree d.comments)
  have hmembers : d.typedTree.getMembers "comments" = .ok (d.comments.map Comment.typedTree) := by
    refine Value.getMembers_list ?_
    cases d.feature <;> simp [lookup, List.lookup_cons, optionalField]
  have hget : d.typedTree.get "type" = .ok (.text "GherkinDocument".toList) := rfl
  refine ⟨hdetect, ?_⟩
  cases hfeature : d.feature with
  | none =>
    have hfound : Typed.featureOf d.typedTree = .ok .null := by
      simp only [Typed.featureOf, hget, bind, Except.bind, if_true]
      rw [typedTree, hfeature]
      rfl
    refine ⟨⟨none, cs, ⟨.typedAst, d.typedTree⟩⟩, ?_, ?_⟩
    · simp only [Schema.normalize, hdetect, decode, Typed.document, hfound, hmembers, hcs, bind,
        Except.bind, pure, Except.pure, Value.isPresent, Bool.false_eq_true, if_false]
    · rw [DocumentRecord.bare, hcomments, record, hfeature]
      rfl
  | some f =>
    have hfound : Typed.featureOf d.typedTree = .ok f.typedTree := by
      simp only [Typed.featureOf, hget, bind, Except.bind, if_true]
      rw [typedTree, hfeature]
      rfl
    have hpresent : f.typedTree.isPresent = true := rfl
    obtain ⟨children, hchildren, hsections⟩ := f.childrenOf_typedTree
    obtain ⟨r, hr, hbare⟩ := Feature.decodes_typedTree (hrules f hfeature) hsections
    refine ⟨⟨some r, cs, ⟨.typedAst, d.typedTree⟩⟩, ?_, ?_⟩
    · simp only [Schema.normalize, hdetect, decode, Typed.document, hfound, hpresent, hchildren, hr,
        hmembers, hcs, bind, Except.bind, pure, Except.pure, if_true, Functor.map, Except.map]
    · rw [DocumentRecord.bare, hcomments, Option.map_some, hbare, record, hfeature]
      rfl

end Ast

end FeatureTree
