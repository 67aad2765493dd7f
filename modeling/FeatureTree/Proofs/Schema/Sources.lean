import FeatureTree.Proofs.Schema.Forms
import FeatureTree.Proofs.Store.Mentions

/-!
# What stands in a tree and in its records

A part of a tree holds lists of parts, and the record that is made from it lists of records. Which
parts these are is said of the tree alone (`Schema.sources`), for each schema and each kind of
record, with the wrappers taken off and the alternatives of a schema decided. A record is whole when
it and all records in it remember the schema and each list in them has a record for every part
(`Record.IsWhole`).

The parts that the two younger schemas describe in the same way all become whole records when they
have their forms. Only a child can fail to become one, and only when it is unknown
(`Schema.Settles`).

## Main results

* `Schema.makes_examples`, `Schema.makes_section`: parts of a form become whole records
* `Schema.settles_all`: going through a list fails over the first unknown member
-/

namespace FeatureTree

/-- The outline keywords of a language, of English when it is left out or unknown. -/
def Dialect.outlineWordsOf (language : Text) : List Text :=
  ((ofName? language).getD english).outlineKeywords

/-- The keywords for outlines of a language that is a text are found. -/
theorem Dialect.outlineKeywordsFor_text (language : Text) :
    outlineKeywordsFor (.text language) = .ok (outlineWordsOf language) := by
  cases language <;> rfl

namespace Fault

/-- A child that is of no known type, or in no known wrapper. -/
def IsUnknown : Fault → Prop
  | .unknownChildType _ | .unknownChild _ | .unknownElementType _ => True
  | _ => False

end Fault

namespace Schema

/-! ### What stands in a tree -/

/-- A part of a tree that becomes a record, with the kind of the record. -/
abbrev Source := Option Kind × Value

/-- The lists of parts in a part of a tree, and the argument of a step. -/
structure Sources where
  tags : List Source := []
  children : List Source := []
  steps : List Source := []
  examples : List Source := []
  rows : List Source := []
  cells : List Source := []
  block : Option Source := none

/-- Values that become records of one kind. -/
def sourcesOf (kind : Kind) (vs : List Value) : List Source := vs.map fun v => (some kind, v)

/-- The children of a feature or rule. In a typed feature those under the one name or the other,
behind a background that stands apart. -/
def childValues (schema : SchemaVersion) (v : Value) : List Value :=
  match schema with
  | .legacyJson => v.listAt "elements"
  | .typedAst => (v.partAt "background").toList
    ++ (if (v.listAt "children").isEmpty then v.listAt "scenarioDefinitions"
      else v.listAt "children")
  | .currentAst => v.listAt "children"

/-- What a child is read for: what stands in its wrapper, if it has one. -/
def unwrapped (schema : SchemaVersion) (child : Value) : Value :=
  match schema with
  | .currentAst =>
    (child.field? "background" <|> child.field? "rule" <|> child.field? "scenario").getD child
  | _ => child

/-- The kind of a child, if its type or wrapper is known. -/
def childKind? (schema : SchemaVersion) (words : List Text) (child : Value) : Option Kind :=
  match schema with
  | .legacyJson => ((child.field? "type").bind Value.text?).bind Legacy.sectionKind?
  | .typedAst => ((child.field? "type").bind Value.text?).bind Typed.sectionKind?
  | .currentAst =>
    match child.field? "background", child.field? "rule", child.field? "scenario" with
    | some _, _, _ => some .background
    | none, some _, _ => some .rule
    | none, none, some v =>
      let isOutline := !(v.listAt "examples").isEmpty || words.contains (v.textAt "keyword").trim
      some (if isOutline then .outline else .scenario)
    | none, none, none => none

/-- The argument of a step: its doc string if it has one, else its table. -/
def argumentOf (schema : SchemaVersion) (step : Value) : Option Source :=
  let docString (key : String) := (step.partAt key).map fun v => (some Kind.docString, v)
  let table (key : String) := (step.partAt key).map fun v => (some Kind.table, v)
  match schema with
  | .legacyJson => docString "doc_string" <|> table "rows"
  | .typedAst => (step.partAt "argument").map fun v =>
    (some (if (v.field? "type").bind Value.text? = some "DocString".toList then .docString
      else .table), v)
  | .currentAst => docString "docString" <|> table "dataTable"

/-- The rows of examples, the header in front, or of a table. -/
def rowsOf (schema : SchemaVersion) (kind : Kind) (v : Value) : List Value :=
  match schema, kind with
  | .legacyJson, .table => v.items?.getD []
  | .legacyJson, _ | _, .table => v.listAt "rows"
  | _, _ => (v.partAt "tableHeader").toList ++ v.listAt "tableBody"

/-- What stands in a part of a tree that becomes a record of a kind. -/
def sources (schema : SchemaVersion) (words : List Text) (kind : Kind) (v : Value) : Sources :=
  match kind with
  | .feature | .rule =>
    { tags := sourcesOf .tag (v.listAt "tags")
      children := (childValues schema v).map fun w =>
        (childKind? schema words w, unwrapped schema w) }
  | .background | .scenario | .outline =>
    { tags := sourcesOf .tag (v.listAt "tags")
      steps := sourcesOf .step (v.listAt "steps")
      examples := sourcesOf .example (v.listAt "examples") }
  | .example =>
    { tags := sourcesOf .tag (v.listAt "tags"), rows := sourcesOf .row (rowsOf schema kind v) }
  | .table => { rows := sourcesOf .row (rowsOf schema kind v) }
  | .step => { block := argumentOf schema v }
  | .row => { cells := sourcesOf .cell (v.listAt "cells") }
  | _ => {}

/-- A child is unknown, or it is a rule and a child in it is, at any depth. -/
inductive HasUnknown (schema : SchemaVersion) (words : List Text) : Value → Prop
  | self {child : Value} (h : childKind? schema words child = none) : HasUnknown schema words child
  | inner {rule child : Value} (hrule : childKind? schema words rule = some .rule)
    (hchild : child ∈ childValues schema (unwrapped schema rule))
    (h : HasUnknown schema words child) : HasUnknown schema words rule

end Schema

namespace Record

/-- What a record was made from. -/
def source (r : Record) : Schema.Source := (some r.kind, r.capsule.data)

/-- What the records in a record were made from. -/
def sources (r : Record) : Schema.Sources where
  tags := r.tags.map source
  children := r.children.map source
  steps := r.steps.map source
  examples := r.examples.map source
  rows := r.rows.map source
  cells := r.cells.map source
  block := r.block.map source

/-- A record and all records in it remember the schema, and each has a record for every part of what
it was made from. -/
inductive IsWhole (schema : SchemaVersion) (words : List Text) : Record → Prop
  | mk {r : Record} (capsule : r.capsule.schema = schema)
    (lists : r.sources = Schema.sources schema words r.kind r.capsule.data)
    (parts : ∀ x ∈ r.parts, IsWhole schema words x) : IsWhole schema words r

end Record

namespace Schema

open Value (lookup)

variable {schema : SchemaVersion} {words : List Text} {v : Value}

/-- A value becomes a whole record of a kind. -/
def Makes (schema : SchemaVersion) (words : List Text) (kind : Kind) (v : Value)
    (x : Except Fault Record) : Prop :=
  ∃ r, x = .ok r ∧ r.source = (some kind, v) ∧ r.IsWhole schema words

/-- Parts that are each made from their own value are made from all values, in their order. -/
theorem makes_all {decode : Value → Except Fault Record} {kind : Kind} {vs : List Value}
    (h : ∀ v ∈ vs, Makes schema words kind v (decode v)) :
    ∃ rs, vs.mapM decode = .ok rs ∧ rs.map Record.source = sourcesOf kind vs
      ∧ ∀ r ∈ rs, r.IsWhole schema words := by
  obtain ⟨rs, hrs⟩ := exists_forall₂ h
  refine ⟨rs, mapM_of_forall₂ (hrs.imp fun _ _ h => h.1), ?_, fun r hr => ?_⟩
  · exact map_eq_of_forall₂ (hrs.imp fun _ _ h => h.2.1)
  · obtain ⟨v, -, -, -, hwhole⟩ := exists_left_of_forall₂ hrs hr
    exact hwhole

/-- The kinds of sections. -/
def IsSection (kind : Kind) : Prop := kind = .background ∨ kind = .scenario ∨ kind = .outline

section Titled

variable {line : Value} {keyword : Text} {name description : Value} {tags : List Record}
  (htags : tags.map Record.source = sourcesOf .tag (v.listAt "tags"))
  (htagsWhole : ∀ r ∈ tags, r.IsWhole schema words)

include htags htagsWhole

/-- A record with all rows of a table of examples is whole. -/
theorem isWhole_examples {rows : List Record}
    (hrows : rows.map Record.source = sourcesOf .row (rowsOf schema .example v))
    (hrowsWhole : ∀ r ∈ rows, r.IsWhole schema words) :
    Record.IsWhole schema words
      { kind := .example, line, keyword, name, description, tags, rows
        capsule := ⟨schema, v⟩ } := by
  refine .mk rfl ?_ ?_
  · simp only [Record.sources, htags, hrows]
    rfl
  · simp only [Record.parts, List.append_nil, Option.toList_none]
    exact List.forall_mem_append.mpr ⟨htagsWhole, hrowsWhole⟩

/-- A record with all steps and all examples of a section is whole. -/
theorem isWhole_section {kind : Kind} {steps examples : List Record} (hkind : IsSection kind)
    (hsteps : steps.map Record.source = sourcesOf .step (v.listAt "steps"))
    (hstepsWhole : ∀ r ∈ steps, r.IsWhole schema words)
    (hexamples : examples.map Record.source = sourcesOf .example (v.listAt "examples"))
    (hexamplesWhole : ∀ r ∈ examples, r.IsWhole schema words) :
    Record.IsWhole schema words
      { kind, line, keyword, name, description, tags, steps, examples
        capsule := ⟨schema, v⟩ } := by
  refine .mk rfl ?_ ?_
  · simp only [Record.sources, htags, hsteps, hexamples]
    rcases hkind with rfl | rfl | rfl <;> rfl
  · simp only [Record.parts, List.append_nil, Option.toList_none]
    exact List.forall_mem_append.mpr
      ⟨List.forall_mem_append.mpr ⟨htagsWhole, hstepsWhole⟩, hexamplesWhole⟩

end Titled

/-! ### The parts of the two younger schemas -/

/-- A part with a location has a line. -/
theorem exists_lineOf {role : Role} (h : HasForm schema (.part role) v)
    (hf : role.form? schema "location" = some (.part .location)) : ∃ line, lineOf v = .ok line := by
  obtain ⟨hget, hlocation⟩ := h.getPresent? "location" hf
  rw [lineOf, hget]
  cases hv : v.partAt "location" with
  | none => exact ⟨.null, rfl⟩
  | some location =>
    rcases (hlocation location hv).get_line "line" rfl with hline | ⟨i, hline⟩
    · exact ⟨_, hline⟩
    · exact ⟨_, hline⟩

section Ast

variable (words) (hs : schema ≠ .legacyJson)

include hs

/-- A tag is made from its value. -/
theorem makes_tag (h : HasForm schema (.part .tag) v) :
    Makes schema words .tag v (tag schema v) := by
  obtain ⟨line, hline⟩ := exists_lineOf h (Role.form?_of_ast hs rfl rfl)
  have hname := h.getAny "name" (Role.form?_of_ast hs rfl rfl)
  rw [tag, hline, hname]
  exact ⟨_, rfl, rfl, .mk rfl rfl (by simp [Record.parts])⟩

/-- A comment is made from its value. -/
theorem makes_comment (h : HasForm schema (.part .comment) v) :
    Makes schema words .comment v (comment schema v) := by
  obtain ⟨line, hline⟩ := exists_lineOf h (Role.form?_of_ast hs rfl rfl)
  have htext := h.getTrimmed "text" (Role.form?_of_ast hs rfl rfl)
  rw [comment, hline, htext]
  exact ⟨_, rfl, rfl, .mk rfl rfl (by simp [Record.parts])⟩

/-- A cell is made from its value. -/
theorem makes_cell (h : HasForm schema (.part .cell) v) :
    Makes schema words .cell v (cell schema v) := by
  obtain ⟨line, hline⟩ := exists_lineOf h (Role.form?_of_ast hs rfl rfl)
  have htext := h.getAny "value" (Role.form?_of_ast hs rfl rfl)
  rw [cell, hline, htext]
  exact ⟨_, rfl, rfl, .mk rfl rfl (by simp [Record.parts])⟩

/-- A doc string is made from its value. -/
theorem makes_docString (h : HasForm schema (.part .docString) v) :
    Makes schema words .docString v (docString schema v) := by
  obtain ⟨line, hline⟩ := exists_lineOf h (Role.form?_of_ast hs rfl rfl)
  have htext := h.getAny "content" (Role.form?_of_ast hs rfl rfl)
  have htype := h.getAny "contentType" (Role.form?_of_ast hs rfl rfl)
  obtain ⟨hmedia, -⟩ := h.getPresent? "mediaType" (Role.form?_of_ast hs rfl rfl)
  rw [docString, hline, htext, hmedia, htype]
  cases v.partAt "mediaType" <;> exact ⟨_, rfl, rfl, .mk rfl rfl (by simp [Record.parts])⟩

/-- A row is made from its value, with all its cells. -/
theorem makes_row (h : HasForm schema (.part .row) v) :
    Makes schema words .row v (row schema v) := by
  obtain ⟨line, hline⟩ := exists_lineOf h (Role.form?_of_ast hs rfl rfl)
  obtain ⟨hget, hcells⟩ := h.getMembers "cells" (Role.form?_of_ast hs rfl rfl)
  obtain ⟨cells, hall, hsources, hwhole⟩ :=
    makes_all fun w hw => makes_cell words hs (hcells w hw)
  simp only [row, hget, hline, decodeAll, hall, bind, Except.bind]
  refine ⟨_, rfl, rfl, .mk rfl ?_ (by simpa [Record.parts] using hwhole)⟩
  rw [Record.sources, hsources]
  rfl

/-- A table is made from its value, with all its rows. -/
theorem makes_table (h : HasForm schema (.part .table) v) :
    Makes schema words .table v (table schema v) := by
  obtain ⟨line, hline⟩ := exists_lineOf h (Role.form?_of_ast hs rfl rfl)
  obtain ⟨hget, hrows⟩ := h.getMembers "rows" (Role.form?_of_ast hs rfl rfl)
  obtain ⟨rows, hall, hsources, hwhole⟩ :=
    makes_all fun w hw => makes_row words hs (hrows w hw)
  simp only [table, hget, hline, decodeAll, hall, bind, Except.bind]
  refine ⟨_, rfl, rfl, .mk rfl ?_ (by simpa [Record.parts] using hwhole)⟩
  rw [Record.sources, hsources]
  cases schema with
  | legacyJson => exact absurd rfl hs
  | typedAst => rfl
  | currentAst => rfl

/-- A titled part is read for its title and its tags. -/
theorem exists_titled {role : Role} (h : HasForm schema (.part role) v)
    (hrole : ∃ rest, role.fields schema = Role.titled schema ++ rest) (kind : Kind) :
    ∃ line keyword name description tags, titled schema kind v
        = .ok { kind, line, keyword, name, description, tags, capsule := ⟨schema, v⟩ }
      ∧ tags.map Record.source = sourcesOf .tag (v.listAt "tags")
      ∧ ∀ r ∈ tags, r.IsWhole schema words := by
  have hform : ∀ {key form}, lookup key (Role.titled schema) = some form →
      role.form? schema key = some form := fun hf => Role.form?_of_prefix hrole hf
  have htext := Role.lookup_titled_text schema
  obtain ⟨line, hline⟩ := exists_lineOf h (hform (Role.lookup_titled_location hs))
  have hkeyword := h.getTrimmed "keyword" (hform (htext _ (by simp)))
  have hname := h.getAny "name" (hform (htext _ (by simp)))
  have hdescription := h.getAny "description" (hform (htext _ (by simp)))
  obtain ⟨hget, htags⟩ := h.getMembers "tags" (hform (Role.lookup_titled_tags schema))
  obtain ⟨tags, hall, hsources, hwhole⟩ :=
    makes_all fun w hw => makes_tag words hs (htags w hw)
  simp only [titled, hline, keywordOf, hkeyword, hname, hdescription, hget, decodeAll, hall, bind,
    Except.bind]
  exact ⟨line, _, _, _, tags, rfl, hsources, hwhole⟩

/-- A table of examples is made from its value, with all its rows. -/
theorem makes_examples (h : HasForm schema (.part .examples) v) :
    Makes schema words .example v (examples schema v) := by
  obtain ⟨line, keyword, name, description, tags, htitled, htags, htagsWhole⟩ :=
    exists_titled words hs h ⟨_, rfl⟩ .example
  obtain ⟨hheader, hheaderForm⟩ := h.getPresent? "tableHeader" (Role.form?_of_ast hs rfl rfl)
  obtain ⟨hbody, hbodyForm⟩ := h.getMembers "tableBody" (Role.form?_of_ast hs rfl rfl)
  have hrowsForm : ∀ w ∈ (v.partAt "tableHeader").toList ++ v.listAt "tableBody",
      HasForm schema (.part .row) w :=
    List.forall_mem_append.mpr ⟨by simpa using hheaderForm, hbodyForm⟩
  obtain ⟨rows, hall, hrows, hrowsWhole⟩ :=
    makes_all fun w hw => makes_row words hs (hrowsForm w hw)
  have hrowsOf : rowsOf schema .example v
      = (v.partAt "tableHeader").toList ++ v.listAt "tableBody" := by
    cases schema with
    | legacyJson => exact absurd rfl hs
    | typedAst => rfl
    | currentAst => rfl
  rw [← hrowsOf] at hrows
  simp only [examples, htitled, hheader, hbody, decodeAll, hall, bind, Except.bind]
  exact ⟨_, rfl, rfl, isWhole_examples htags htagsWhole hrows hrowsWhole⟩

/-- The argument of a step is found and becomes a whole record. -/
def Argues (schema : SchemaVersion) (words : List Text)
    (block : Value → Except Fault (Option Record)) : Prop :=
  ∀ v, HasForm schema (.part .step) v → ∃ b, block v = .ok b
    ∧ b.map Record.source = argumentOf schema v ∧ ∀ r ∈ b, r.IsWhole schema words

variable {block : Value → Except Fault (Option Record)}

/-- A step is made from its value, with its block. -/
theorem makes_step (hblock : Argues schema words block) (h : HasForm schema (.part .step) v) :
    Makes schema words .step v (step schema block v) := by
  obtain ⟨line, hline⟩ := exists_lineOf h (Role.form?_of_ast hs rfl rfl)
  have hkeyword := h.getTrimmed "keyword" (Role.form?_of_ast hs rfl rfl)
  have htext := h.getAny "text" (Role.form?_of_ast hs rfl rfl)
  obtain ⟨block, hblock, hsource, hwhole⟩ := hblock v h
  simp only [step, hline, keywordOf, hkeyword, htext, hblock, bind, Except.bind]
  refine ⟨_, rfl, rfl, .mk rfl ?_ (by simpa [Record.parts] using hwhole)⟩
  rw [Record.sources, hsource]
  rfl

/-- A section is made from its value, with all its parts. -/
theorem makes_section {kind : Kind} (hkind : IsSection kind) (hblock : Argues schema words block)
    (h : HasForm schema (.part .sectionPart) v) :
    Makes schema words kind v (sectionPart schema block kind v) := by
  obtain ⟨line, keyword, name, description, tags, htitled, htags, htagsWhole⟩ :=
    exists_titled words hs h ⟨_, List.append_assoc _ _ _⟩ kind
  obtain ⟨hgetSteps, hsteps⟩ := h.getMembers "steps" (Role.form?_of_ast hs rfl rfl)
  obtain ⟨hgetExamples, hexamples⟩ := h.getMembers "examples" (Role.form?_of_ast hs rfl rfl)
  obtain ⟨steps, hallSteps, hstepSources, hstepsWhole⟩ :=
    makes_all fun w hw => makes_step words hs hblock (hsteps w hw)
  obtain ⟨examples, hallExamples, hexampleSources, hexamplesWhole⟩ :=
    makes_all fun w hw => makes_examples words hs (hexamples w hw)
  simp only [sectionPart, htitled, hgetSteps, hgetExamples, decodeAll, hallSteps, hallExamples,
    bind, Except.bind]
  exact ⟨_, rfl, rfl, isWhole_section htags htagsWhole hkind hstepSources hstepsWhole
    hexampleSources hexamplesWhole⟩

end Ast

/-! ### Unknown children -/

/-- A computation fails over something unknown, exactly if there is something unknown. Else it gives
something good. -/
def Settles {α : Type} (unknown : Prop) (good : α → Prop) (x : Except Fault α) : Prop :=
  (unknown → ∃ fault : Fault, fault.IsUnknown ∧ x = .error fault)
    ∧ (¬ unknown → ∃ a, x = .ok a ∧ good a)

/-- A fault about something unknown settles a tree in which something is unknown. -/
theorem settles_error {α : Type} {unknown : Prop} {good : α → Prop} {fault : Fault}
    (h : unknown) (hfault : fault.IsUnknown) :
    Settles unknown good (.error fault : Except Fault α) :=
  ⟨fun _ => ⟨fault, hfault, rfl⟩, fun hnot => absurd h hnot⟩

/-- A good result settles a tree in which nothing is unknown. -/
theorem settles_ok {α : Type} {unknown : Prop} {good : α → Prop} {x : Except Fault α}
    (hnot : ¬ unknown) (h : ∃ a, x = .ok a ∧ good a) : Settles unknown good x :=
  ⟨fun h => absurd h hnot, fun _ => h⟩

/-- What settles a tree settles it for any weaker demand on the result. -/
theorem Settles.imp {α : Type} {unknown unknown' : Prop} {good good' : α → Prop}
    {x : Except Fault α} (h : Settles unknown good x) (hunknown : unknown' ↔ unknown)
    (hgood : ∀ a, good a → good' a) : Settles unknown' good' x := by
  rw [Settles, hunknown]
  refine ⟨h.1, fun hnot => ?_⟩
  obtain ⟨a, hx, ha⟩ := h.2 hnot
  exact ⟨a, hx, hgood a ha⟩

/-- What is done with something good does not add to what is unknown. -/
theorem Settles.bind {α β : Type} {unknown : Prop} {good : α → Prop} {good' : β → Prop}
    {x : Except Fault α} {f : α → Except Fault β} (h : Settles unknown good x)
    (hf : ∀ a, good a → ∃ b, f a = .ok b ∧ good' b) : Settles unknown good' (x >>= f) := by
  refine ⟨fun hunknown => ?_, fun hnot => ?_⟩
  · obtain ⟨fault, hfault, hx⟩ := h.1 hunknown
    exact ⟨fault, hfault, by rw [hx]; rfl⟩
  · obtain ⟨a, ha, hgood⟩ := h.2 hnot
    rw [ha]
    exact hf a hgood

/-- Going through a list fails over the first unknown member. -/
theorem settles_all {decode : Value → Except Fault Record} {unknown : Value → Prop}
    {good : Value → Record → Prop} {vs : List Value}
    (h : ∀ v ∈ vs, Settles (unknown v) (good v) (decode v)) :
    Settles (∃ v ∈ vs, unknown v) (List.Forall₂ good vs) (vs.mapM decode) := by
  refine ⟨fun ⟨v, hv, hunknown⟩ => ?_, fun hnone => ?_⟩
  · cases hall : vs.mapM decode with
    | ok rs =>
      obtain ⟨r, -, hr⟩ := exists_right_of_forall₂ (forall₂_of_mapM hall) hv
      obtain ⟨fault, -, hfault⟩ := (h v hv).1 hunknown
      rw [hfault] at hr
      cases hr
    | error fault =>
      obtain ⟨w, hw, hfault⟩ := exists_of_mapM_error hall
      by_cases hunknown : unknown w
      · obtain ⟨fault', hfault', hw⟩ := (h w hw).1 hunknown
        rw [hfault] at hw
        cases hw
        exact ⟨fault, hfault', rfl⟩
      · obtain ⟨r, hr, -⟩ := (h w hw).2 hunknown
        rw [hfault] at hr
        cases hr
  · have hgood : ∀ v ∈ vs, ∃ r, decode v = .ok r ∧ good v r := fun v hv =>
      (h v hv).2 fun hunknown => hnone ⟨v, hv, hunknown⟩
    obtain ⟨rs, hrs⟩ := exists_forall₂ hgood
    exact ⟨rs, mapM_of_forall₂ (hrs.imp fun _ _ h => h.1), hrs.imp fun _ _ h => h.2⟩

/-- A child becomes a whole record of its kind. -/
def IsChildRecord (schema : SchemaVersion) (words : List Text) (v : Value) (r : Record) : Prop :=
  r.source = (childKind? schema words v, unwrapped schema v) ∧ r.IsWhole schema words

/-- Only a rule has children that can be unknown. -/
theorem hasUnknown_iff (h : childKind? schema words v ≠ some .rule) :
    HasUnknown schema words v ↔ childKind? schema words v = none := by
  constructor
  · intro hunknown
    cases hunknown with
    | self hnone => exact hnone
    | inner hrule => exact absurd hrule h
  · exact .self

/-- A child that is told by its type is decoded unless the type is unknown. -/
theorem settles_typed {role : Role} {sectionKind? : Text → Option Kind} {x : Except Fault Record}
    (h : HasForm schema (.part role) v) (hrole : role.form? schema "type" = some .type)
    (hkind : childKind? schema words v = ((v.field? "type").bind Value.text?).bind sectionKind?)
    (hwrapper : unwrapped schema v = v)
    (hnull : v.get "type" = .ok .null → ∃ fault : Fault, fault.IsUnknown ∧ x = .error fault)
    (hnone : ∀ t, v.get "type" = .ok (.text t) → sectionKind? t = none →
      ∃ fault : Fault, fault.IsUnknown ∧ x = .error fault)
    (hsome : ∀ t kind, v.get "type" = .ok (.text t) → sectionKind? t = some kind →
      IsSection kind ∧ Makes schema words kind v x) :
    Settles (HasUnknown schema words v) (IsChildRecord schema words v) x := by
  rcases h.get_type "type" hrole with ⟨hget, htype⟩ | ⟨t, hget, htype⟩
  · rw [htype, Option.bind_none] at hkind
    obtain ⟨fault, hfault, rfl⟩ := hnull hget
    exact settles_error (.self hkind) hfault
  · rw [htype, Option.bind_some] at hkind
    cases ht : sectionKind? t with
    | none =>
      obtain ⟨fault, hfault, rfl⟩ := hnone t hget ht
      exact settles_error (.self (hkind.trans ht)) hfault
    | some kind =>
      obtain ⟨hsection, r, hr, hsource, hwhole⟩ := hsome t kind hget ht
      rw [ht] at hkind
      have hknown : ¬ HasUnknown schema words v := by
        rw [hasUnknown_iff, hkind]
        · simp
        · rw [hkind]
          rcases hsection with rfl | rfl | rfl <;> simp
      exact settles_ok hknown ⟨r, hr, by rw [hsource, hkind, hwrapper], hwhole⟩

/-- In a rule that which is unknown is below it. -/
theorem hasUnknown_rule_iff (h : childKind? schema words v = some .rule) :
    HasUnknown schema words v
      ↔ ∃ w ∈ childValues schema (unwrapped schema v), HasUnknown schema words w := by
  constructor
  · intro hunknown
    cases hunknown with
    | self hnone =>
      rw [h] at hnone
      cases hnone
    | inner _ hchild hunknown => exact ⟨_, hchild, hunknown⟩
  · rintro ⟨w, hw, hunknown⟩
    exact .inner h hw hunknown

/-- A feature or rule with whole tags and a record for each child is whole. -/
theorem isWhole_of_children {kind : Kind} {line : Value} {keyword : Text}
    {name description language : Value} {tags records : List Record}
    (hkind : kind = .feature ∨ kind = .rule)
    (htags : tags.map Record.source = sourcesOf .tag (v.listAt "tags"))
    (htagsWhole : ∀ r ∈ tags, r.IsWhole schema words)
    (hrecords : List.Forall₂ (IsChildRecord schema words) (childValues schema v) records) :
    Record.IsWhole schema words
      { kind, line, keyword, name, description, language, tags, children := records
        capsule := ⟨schema, v⟩ } := by
  have hsources : records.map Record.source = (childValues schema v).map fun w =>
      (childKind? schema words w, unwrapped schema w) :=
    map_eq_of_forall₂ (hrecords.imp fun _ _ h => h.1)
  have hwhole : ∀ r ∈ records, r.IsWhole schema words := fun r hr => by
    obtain ⟨_, -, h⟩ := exists_left_of_forall₂ hrecords hr
    exact h.2
  refine .mk rfl ?_ ?_
  · simp only [Record.sources, htags, hsources]
    rcases hkind with rfl | rfl <;> rfl
  · simp only [Record.parts, List.append_nil, Option.toList_none]
    exact List.forall_mem_append.mpr ⟨htagsWhole, hwhole⟩

end Schema

end FeatureTree
