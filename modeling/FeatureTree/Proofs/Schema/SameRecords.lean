import FeatureTree.Proofs.Schema.Alike
import FeatureTree.Proofs.Schema.Bare
import FeatureTree.Proofs.Store.Mentions

/-!
# Records that hold the same

Parts that are alike are decoded to records that are equal but for the data that they were made
from, and in which no text is null (`Record.Same`), or fail in the same way. This is shown decoder
by decoder. In the current schema the children of rules are reached by induction on what stands in a
value, read as a child, as a rule and as a list of children (`Schema.Current.IsSteady`).

## Main results

* `Schema.sectionPart_same`: sections, with all that stands in them
* `Schema.Typed.feature_same`, `Schema.Current.feature_same`: features that are alike hold the same
-/

namespace FeatureTree

namespace Record

/-! ### Records that hold the same -/

/-- A record holds something where a text is meant. -/
structure HasTexts (r : Record) : Prop where
  ne_null : ∀ v ∈ [r.name, r.description, r.text, r.contentType, r.language], v ≠ .null

/-- No text in a record or in the records inside it is null. -/
inductive IsTextual : Record → Prop
  | mk {r : Record} (texts : r.HasTexts) (parts : ∀ x ∈ r.parts, IsTextual x) : IsTextual r

/-- A record without parts is textual if its own fields are texts. -/
theorem IsTextual.leaf {r : Record} (texts : r.HasTexts) (h : r.parts = []) : r.IsTextual :=
  .mk texts fun x hx => by rw [h] at hx; cases hx

/-- Two records are equal but for their data, and hold texts where texts are meant. -/
structure Same (r s : Record) : Prop where
  bare : r.bare = s.bare
  textual : r.IsTextual

/-- A record without the records inside it and without its data. -/
def alone (r : Record) : Record :=
  { r with
    tags := [], children := [], steps := [], examples := [], rows := [], cells := [], block := none
    comments := [], capsule := default }

/-- Records that are the same one by one have the same bare records. -/
theorem bare_of_forall₂ {rs ss : List Record} (h : List.Forall₂ Same rs ss) :
    rs.map bare = ss.map bare := by
  induction h with
  | nil => rfl
  | cons h _ ih => rw [List.map_cons, List.map_cons, h.bare, ih]

/-- Records that are the same as others are textual. -/
theorem isTextual_of_forall₂ {rs ss : List Record} (h : List.Forall₂ Same rs ss) :
    ∀ r ∈ rs, r.IsTextual := by
  intro r hr
  obtain ⟨_, -, hsame⟩ := exists_right_of_forall₂ h hr
  exact hsame.textual

/-- Optional records that are the same have the same bare record. -/
theorem bare_of_rel {r s : Option Record} (h : Option.Rel Same r s) : r.map bare = s.map bare := by
  cases h with
  | none => rfl
  | some h => exact congrArg some h.bare

/-- An optional record that is the same as another is textual. -/
theorem isTextual_of_rel {r s : Option Record} (h : Option.Rel Same r s) :
    ∀ x ∈ r.toList, x.IsTextual := by
  cases h with
  | none => simp
  | some h => simpa using h.textual

/-- Two records have the same apart from their data and from the records inside them, and those hold
the same one by one. -/
structure SameParts (r s : Record) : Prop where
  alone : r.alone = s.alone
  texts : r.HasTexts
  tags : List.Forall₂ Same r.tags s.tags
  children : List.Forall₂ Same r.children s.children
  steps : List.Forall₂ Same r.steps s.steps
  examples : List.Forall₂ Same r.examples s.examples
  rows : List.Forall₂ Same r.rows s.rows
  cells : List.Forall₂ Same r.cells s.cells
  block : Option.Rel Same r.block s.block
  comments : List.Forall₂ Same r.comments s.comments

/-- Records with the same fields and the same parts are the same. -/
theorem Same.of_parts {r s : Record} (h : SameParts r s) : Same r s := by
  constructor
  · have halone := h.alone
    have htags := bare_of_forall₂ h.tags
    have hchildren := bare_of_forall₂ h.children
    have hsteps := bare_of_forall₂ h.steps
    have hexamples := bare_of_forall₂ h.examples
    have hrows := bare_of_forall₂ h.rows
    have hcells := bare_of_forall₂ h.cells
    have hblock := bare_of_rel h.block
    have hcomments := bare_of_forall₂ h.comments
    obtain ⟨⟩ := r
    obtain ⟨⟩ := s
    simp only [Record.alone, mk.injEq, and_true] at halone
    obtain ⟨rfl, rfl, rfl, rfl, rfl, rfl, rfl, rfl⟩ := halone
    rw [bare_eq, bare_eq]
    simp only [htags, hchildren, hsteps, hexamples, hrows, hcells, hblock, hcomments]
  · refine .mk h.texts ?_
    simp only [parts, List.forall_mem_append]
    exact ⟨⟨⟨⟨⟨⟨⟨isTextual_of_forall₂ h.tags, isTextual_of_forall₂ h.children⟩,
      isTextual_of_forall₂ h.steps⟩, isTextual_of_forall₂ h.examples⟩,
      isTextual_of_forall₂ h.rows⟩, isTextual_of_forall₂ h.cells⟩, isTextual_of_rel h.block⟩,
      isTextual_of_forall₂ h.comments⟩

end Record

namespace Value

/-- With an empty text in place of nothing there is always something. -/
theorem orEmptyText_ne_null (v : Value) : v.orEmptyText ≠ .null := by
  rw [orEmptyText]
  split
  · next h => exact fun hnull => by rw [hnull] at h; cases h
  · simp

/-- What is read from a field for any value is never nothing. -/
theorem getAny_ne_null {v w : Value} {key : String} (h : v.getAny key = .ok w) : w ≠ .null := by
  obtain ⟨field, -, hw⟩ := bind_ok h
  obtain rfl := Except.ok.inj hw
  exact field.orEmptyText_ne_null

end Value

namespace Schema

open Record (Same)
open Value (lookup fieldOf)

variable {schema : SchemaVersion} {role : Role} {v w : Value}

/-! ### The parts of both schemas -/

section Ast

variable (hs : schema ≠ .legacyJson)

/-- Parts that are alike have the same line. -/
theorem lineOf_eq (h : Alike schema (.part role) v w)
    (hf : role.optional? schema "location" = some (.part .location)) : lineOf v = lineOf w := by
  refine Agree.eq_iff.mp <| (h.getPresent? "location" hf).bind fun a b hab => ?_
  cases hab with
  | none => rfl
  | some hab => exact Agree.eq_iff.mpr (hab.2.get_eq "line" rfl)

/-- Doc strings that are alike give the same record. -/
theorem docString_same (h : Alike schema (.part role) v w)
    (hlocation : role.optional? schema "location" = some (.part .location))
    (htexts : ∀ key ∈ ["content", "mediaType", "contentType"],
      role.optional? schema key = some .text) :
    Agree Same (docString schema v) (docString schema w) := by
  refine .bind_eq (lineOf_eq h hlocation) fun line _ => ?_
  refine .bind_eq (h.getAny "content" (htexts _ (by simp))) fun text htext => ?_
  have htext := Value.getAny_ne_null htext
  refine (h.getPresent? "mediaType" (htexts _ (by simp))).bind fun a b hab => ?_
  cases hab with
  | none =>
    refine .bind_eq (h.getAny "contentType" (htexts _ (by simp))) fun type htype => ?_
    exact ⟨rfl, .leaf ⟨by simp [htext, Value.getAny_ne_null htype]⟩ rfl⟩
  | @some a b hab =>
    obtain ⟨hpresent, hab⟩ := hab
    obtain rfl := hab.eq_of_text
    have htype : a ≠ .null := fun hnull => by
      rw [hnull] at hpresent
      cases hpresent
    exact ⟨rfl, .leaf ⟨by simp [htext, htype]⟩ rfl⟩

include hs

/-- Tags that are alike give the same record. -/
theorem tag_same (h : Alike schema (.part .tag) v w) :
    Agree Same (tag schema v) (tag schema w) := by
  refine .bind_eq (lineOf_eq h (Role.optional?_of_ast hs rfl rfl)) fun line _ => ?_
  refine .bind_eq (h.getAny "name" (Role.optional?_of_ast hs rfl rfl)) fun name hname => ?_
  exact ⟨rfl, .leaf ⟨by simp [Value.getAny_ne_null hname]⟩ rfl⟩

/-- Comments that are alike give the same record. -/
theorem comment_same (h : Alike schema (.part .comment) v w) :
    Agree Same (comment schema v) (comment schema w) := by
  refine .bind_eq (lineOf_eq h (Role.optional?_of_ast hs rfl rfl)) fun line _ => ?_
  refine .bind_eq (h.getTrimmed "text" (Role.optional?_of_ast hs rfl rfl)) fun text _ => ?_
  exact ⟨rfl, .leaf ⟨by simp⟩ rfl⟩

/-- Cells that are alike give the same record. -/
theorem cell_same (h : Alike schema (.part .cell) v w) :
    Agree Same (cell schema v) (cell schema w) := by
  refine .bind_eq (lineOf_eq h (Role.optional?_of_ast hs rfl rfl)) fun line _ => ?_
  refine .bind_eq (h.getAny "value" (Role.optional?_of_ast hs rfl rfl)) fun text htext => ?_
  exact ⟨rfl, .leaf ⟨by simp [Value.getAny_ne_null htext]⟩ rfl⟩

/-- Rows that are alike give the same record. -/
theorem row_same (h : Alike schema (.part .row) v w) :
    Agree Same (row schema v) (row schema w) := by
  refine (h.getMembers "cells" (Role.optional?_of_ast hs rfl rfl)).bind fun vs ws hall => ?_
  refine (Agree.mapM (hall.imp fun _ _ h => cell_same hs h)).bind fun cells cells' hcells => ?_
  refine .bind_eq (lineOf_eq h (Role.optional?_of_ast hs rfl rfl)) fun line _ => ?_
  exact Same.of_parts
    { alone := rfl, texts := ⟨by simp⟩, tags := .nil, children := .nil, steps := .nil
      examples := .nil, rows := .nil, cells := hcells, block := .none, comments := .nil }

/-- What is read for more than a table is read for a table too. -/
theorem table_same (h : Alike schema (.part role) v w)
    (hlocation : role.optional? schema "location" = some (.part .location))
    (hrows : role.optional? schema "rows" = some (.list (.part .row))) :
    Agree Same (table schema v) (table schema w) := by
  refine .bind_eq (lineOf_eq h hlocation) fun line _ => ?_
  refine (h.getMembers "rows" hrows).bind fun vs ws hall => ?_
  refine (Agree.mapM (hall.imp fun _ _ h => row_same hs h)).bind fun rows rows' hrows => ?_
  exact Same.of_parts
    { alone := rfl, texts := ⟨by simp⟩, tags := .nil, children := .nil, steps := .nil
      examples := .nil, rows := hrows, cells := .nil, block := .none, comments := .nil }

/-- Titled parts that are alike have the same title and tags that hold the same. -/
theorem titled_same (kind : Kind) (h : Alike schema (.part role) v w)
    (hrole : ∃ rest, role.fields schema = Role.titled schema ++ rest) :
    Agree (fun r s => ∃ line keyword name description tags tags', name ≠ Value.null
        ∧ description ≠ Value.null ∧ List.Forall₂ Same tags tags'
        ∧ r = { kind, line, keyword, name, description, tags, capsule := ⟨schema, v⟩ }
        ∧ s = { kind, line, keyword, name, description, tags := tags', capsule := ⟨schema, w⟩ })
      (titled schema kind v) (titled schema kind w) := by
  have hoptional : ∀ key form, lookup key (Role.titled schema) = some form →
      form ≠ .line ∧ form ≠ .type → role.optional? schema key = some form := by
    intro key form hf hform
    rw [Role.optional?, Role.form?_of_prefix hrole hf]
    simpa using hform
  have hplace := hoptional _ _ (Role.lookup_titled_location hs) (by simp)
  have hread := fun key hkey => hoptional key _ (Role.lookup_titled_text schema key hkey) (by simp)
  have htags := hoptional _ _ (Role.lookup_titled_tags schema) (by simp)
  refine .bind_eq (lineOf_eq h hplace) fun line _ => ?_
  refine .bind_eq (h.getTrimmed "keyword" (hread _ (by simp))) fun keyword _ => ?_
  refine .bind_eq (h.getAny "name" (hread _ (by simp))) fun name hname => ?_
  refine .bind_eq (h.getAny "description" (hread _ (by simp))) fun description hdescription => ?_
  refine (h.getMembers "tags" htags).bind fun vs ws hall => ?_
  refine (Agree.mapM (hall.imp fun _ _ h => tag_same hs h)).bind fun tags tags' hsame => ?_
  exact ⟨line, keyword, name, description, tags, tags', Value.getAny_ne_null hname,
    Value.getAny_ne_null hdescription, hsame, rfl, rfl⟩

/-- Tables of examples that are alike give the same record. -/
theorem examples_same (h : Alike schema (.part .examples) v w) :
    Agree Same (examples schema v) (examples schema w) := by
  refine (titled_same hs .example h ⟨_, rfl⟩).bind ?_
  rintro _ _ ⟨line, keyword, name, description, tags, tags', hname, hdescription, htags, rfl, rfl⟩
  refine (h.getPresent? "tableHeader" (Role.optional?_of_ast hs rfl rfl)).bind fun a b hheader => ?_
  refine (h.getMembers "tableBody" (Role.optional?_of_ast hs rfl rfl)).bind fun vs ws hbody => ?_
  have hrows : List.Forall₂ (Alike schema (.part .row)) (a.toList ++ vs) (b.toList ++ ws) := by
    cases hheader with
    | none => exact hbody
    | some hheader => exact .cons hheader.2 hbody
  refine (Agree.mapM (hrows.imp fun _ _ h => row_same hs h)).bind fun rows rows' hsame => ?_
  exact Same.of_parts
    { alone := rfl, texts := ⟨by simp [hname, hdescription]⟩, tags := htags, children := .nil
      steps := .nil, examples := .nil, rows := hsame, cells := .nil, block := .none
      comments := .nil }

variable {block : Value → Except Fault (Option Record)}

/-- Steps that are alike give the same record, if their blocks do. -/
theorem step_same (hblock : ∀ v w, Alike schema (.part .step) v w →
      Agree (Option.Rel Same) (block v) (block w)) (h : Alike schema (.part .step) v w) :
    Agree Same (step schema block v) (step schema block w) := by
  refine .bind_eq (lineOf_eq h (Role.optional?_of_ast hs rfl rfl)) fun line _ => ?_
  refine .bind_eq (h.getTrimmed "keyword" (Role.optional?_of_ast hs rfl rfl)) fun keyword _ => ?_
  refine .bind_eq (h.getAny "text" (Role.optional?_of_ast hs rfl rfl)) fun text htext => ?_
  refine (hblock v w h).bind fun a b hsame => ?_
  exact Same.of_parts
    { alone := rfl, texts := ⟨by simp [Value.getAny_ne_null htext]⟩, tags := .nil
      children := .nil, steps := .nil, examples := .nil, rows := .nil, cells := .nil
      block := hsame, comments := .nil }

/-- Sections that are alike give the same record, if the blocks of steps do. -/
theorem sectionPart_same (hblock : ∀ v w, Alike schema (.part .step) v w →
      Agree (Option.Rel Same) (block v) (block w)) (kind : Kind)
    (h : Alike schema (.part .sectionPart) v w) :
    Agree Same (sectionPart schema block kind v) (sectionPart schema block kind w) := by
  refine (titled_same hs kind h ⟨_, List.append_assoc _ _ _⟩).bind ?_
  rintro _ _ ⟨line, keyword, name, description, tags, tags', hname, hdescription, htags, rfl, rfl⟩
  refine (h.getMembers "steps" (Role.optional?_of_ast hs rfl rfl)).bind fun vs ws hall => ?_
  have hsteps := Agree.mapM (hall.imp fun _ _ h => step_same hs hblock h)
  refine hsteps.bind fun steps steps' hsteps => ?_
  refine (h.getMembers "examples" (Role.optional?_of_ast hs rfl rfl)).bind fun vs ws hall => ?_
  refine (Agree.mapM (hall.imp fun _ _ h => examples_same hs h)).bind fun es es' hexamples => ?_
  exact Same.of_parts
    { alone := rfl, texts := ⟨by simp [hname, hdescription]⟩, tags := htags, children := .nil
      steps := hsteps, examples := hexamples, rows := .nil, cells := .nil, block := .none
      comments := .nil }

end Ast

/-! ### The typed schema -/

namespace Typed

/-- Steps of typed nodes that are alike have the same block. -/
theorem block_same (h : Alike .typedAst (.part .step) v w) :
    Agree (Option.Rel Same) (block v) (block w) := by
  refine (h.getPresent? "argument" rfl).bind fun a b hab => ?_
  cases hab with
  | none => exact .none
  | some hab =>
    obtain ⟨-, hab⟩ := hab
    refine .bind_eq (hab.get_eq "type" rfl) fun type _ => ?_
    have htable := (table_same (by simp) hab rfl rfl).map (Q := Option.Rel Same) (f := some)
      (g := some) fun _ _ h => .some h
    have htexts : ∀ key ∈ ["content", "mediaType", "contentType"],
        Role.argument.optional? .typedAst key = some .text := by decide
    have hdocString := (docString_same hab rfl htexts).map (Q := Option.Rel Same) (f := some)
      (g := some) fun _ _ h => .some h
    cases type with
    | text type =>
      by_cases htype : type = "DocString".toList
      · simp only [htype, if_true]
        exact hdocString
      · simp only [htype, if_false]
        exact htable
    | _ => exact htable

/-- Children of typed nodes that are alike give the same record. -/
theorem child_same (h : Alike .typedAst (.part .sectionPart) v w) :
    Agree Same (child v) (child w) := by
  refine .bind_eq (h.get_eq "type" rfl) fun type _ => ?_
  cases type with
  | text type =>
    simp only
    cases sectionKind? type with
    | none => exact .error _
    | some kind => exact sectionPart_same (by simp) (fun _ _ => block_same) kind h
  | _ => exact .error _

/-- The children of features that are alike are alike. -/
theorem childrenOf_same (h : Alike .typedAst (.part role) v w)
    (hrole : ∃ rest, role.fields .typedAst = Role.featured .typedAst ++ rest) :
    Agree (fun a b => Agree (List.Forall₂ (Alike .typedAst (.part .sectionPart)))
      a.membersOrEmpty b.membersOrEmpty) (childrenOf v) (childrenOf w) := by
  have hoptional : ∀ {key form}, lookup key (Role.featured .typedAst) = some form →
      form ≠ .line ∧ form ≠ .type → role.optional? .typedAst key = some form := by
    intro key form hf hform
    rw [Role.optional?, Role.form?_of_prefix hrole hf]
    simpa using hform
  have hbackground := h.getPresent? "background" (hoptional rfl (by simp))
  refine (h.getPresent? "children" (hoptional rfl (by simp))).bind fun a b hab => ?_
  cases hab with
  | some hab =>
    have hmembers := Alike.membersOrEmpty ⟨hab.2.isPresent_list, fun _ => hab.2⟩
    refine hbackground.bind fun c d hcd => ?_
    cases hcd with
    | none => exact hmembers
    | some hcd => exact hmembers.bind fun _ _ hall => .cons hcd.2 hall
  | none =>
    refine (h.get "scenarioDefinitions" (hoptional rfl (by simp))).bind fun a b hab => ?_
    have hmembers := Alike.membersOrEmpty hab
    refine hbackground.bind fun c d hcd => ?_
    cases hcd with
    | none => exact hmembers
    | some hcd => exact hmembers.bind fun _ _ hall => .cons hcd.2 hall

/-- Features of typed nodes that are alike give the same record. -/
theorem feature_same (h : Alike .typedAst (.part role) v w)
    (hrole : ∃ rest, role.fields .typedAst = Role.featured .typedAst ++ rest) :
    Agree (fun a b => Agree Same (feature v a) (feature w b)) (childrenOf v) (childrenOf w) := by
  refine (childrenOf_same h hrole).imp fun a b hmembers => ?_
  obtain ⟨rest, hrest⟩ := hrole
  refine (titled_same (by simp) .feature h ⟨_, hrest.trans (List.append_assoc _ _ _)⟩).bind ?_
  rintro _ _ ⟨line, keyword, name, description, tags, tags', hname, hdescription, htags, rfl, rfl⟩
  have hlanguage : role.optional? .typedAst "language" = some .text := by
    rw [Role.optional?, Role.form?_of_prefix ⟨rest, hrest⟩ rfl]
    rfl
  refine .bind_eq (h.getAny "language" hlanguage) fun language hlanguage => ?_
  refine hmembers.bind fun vs ws hall => ?_
  refine (Agree.mapM (hall.imp fun _ _ h => child_same h)).bind fun rs ss hsame => ?_
  have hlanguage := Value.getAny_ne_null hlanguage
  exact Same.of_parts
    { alone := rfl, texts := ⟨by simp [hname, hdescription, hlanguage]⟩, tags := htags
      children := hsame, steps := .nil, examples := .nil, rows := .nil, cells := .nil
      block := .none, comments := .nil }

end Typed

/-! ### The current schema -/

namespace Current

variable {words : List Text}

/-- Steps of the current encoding that are alike have the same block. -/
theorem block_same (h : Alike .currentAst (.part .step) v w) :
    Agree (Option.Rel Same) (block v) (block w) := by
  refine (h.getPresent? "docString" rfl).bind fun a b hab => ?_
  cases hab with
  | some hab =>
    have htexts : ∀ key ∈ ["content", "mediaType", "contentType"],
        Role.docString.optional? .currentAst key = some .text := by decide
    exact (docString_same hab.2 rfl htexts).map fun _ _ h => .some h
  | none =>
    refine (h.getPresent? "dataTable" rfl).bind fun a b hab => ?_
    cases hab with
    | none => exact .none
    | some hab => exact (table_same (by simp) hab.2 rfl rfl).map fun _ _ h => .some h

/-- Scenarios of the current encoding that are alike give the same record. -/
theorem scenario_same (h : Alike .currentAst (.part .sectionPart) v w) :
    Agree Same (scenario words v) (scenario words w) := by
  refine (h.getPresent? "examples" rfl).bind fun a b hab => ?_
  have hsome : a.isSome = b.isSome := by cases hab <;> rfl
  rw [hsome]
  refine .bind_eq (h.getTrimmed "keyword" rfl) fun keyword _ => ?_
  exact sectionPart_same (by simp) (fun _ _ => block_same) _ h

/-- What stands in wrappers that are alike is alike. -/
theorem lookup_alike {fields fields' : List (String × Value)} {key : String}
    (h : Alike .currentAst .wrapper (.table fields) (.table fields'))
    (hkey : wrapped? key = some role) :
    Option.Rel (Alike .currentAst (.part role)) (lookup key fields) (lookup key fields') := by
  cases h with
  | refl =>
    cases lookup key fields with
    | none => exact .none
    | some v => exact .some (.refl v)
  | wrapper names inner =>
    have hiff : lookup key fields = none ↔ lookup key fields' = none := by
      rw [lookup, lookup, lookup_eq_none_iff_not_mem, lookup_eq_none_iff_not_mem, names]
    cases hv : lookup key fields with
    | none =>
      rw [hiff.mp hv]
      exact .none
    | some v =>
      cases hv' : lookup key fields' with
      | none =>
        rw [hiff.mpr hv'] at hv
        cases hv
      | some v' => exact .some (inner key role v v' hkey hv hv')

/-- What is no list of either sort gives no children. -/
theorem childrenOf_of_items? (h : v.items? = none) : childrenOf words v = (do
    match ← v.membersOrEmpty with
    | [] => return []
    | stray :: _ => throw (strayChild stray)) := by
  cases v <;> cases h <;> rfl

/-- A part with nothing for its children has none. -/
theorem childrenOf_of_absent (h : v.isPresent = false) : childrenOf words v = .ok [] := by
  cases hv : v.items? with
  | none =>
    rw [childrenOf_of_items? hv, Value.membersOrEmpty_of_absent h]
    rfl
  | some items =>
    rw [Value.isPresent_of_items? hv] at h
    obtain rfl : items = [] := by simpa using h
    exact childrenOf_items hv

/-- What is shown of a value, read as a child, as a rule and as the children of a rule. -/
structure IsSteady (words : List Text) (v : Value) : Prop where
  child : ∀ w, Alike .currentAst .wrapper v w → Agree Same (child words v) (child words w)
  rule : ∀ w, Alike .currentAst (.part .rule) v w → Agree Same (rule words v) (rule words w)
  childrenOf : ∀ w, Alike .currentAst (.list .wrapper) v w →
    Agree (List.Forall₂ Same) (childrenOf words v) (childrenOf words w)

/-- Wrapped children that are alike give the same record. -/
theorem child_same (ih : ∀ w ∈ v.inner, IsSteady words w) (h : Alike .currentAst .wrapper v w) :
    Agree Same (child words v) (child words w) := by
  cases v with
  | table fields =>
    obtain ⟨fields', rfl⟩ : ∃ fields', w = .table fields' := by cases h <;> exact ⟨_, rfl⟩
    have hbackground : Option.Rel _ (lookup "background" fields) (lookup "background" fields') :=
      lookup_alike h rfl
    have hrule : Option.Rel _ (lookup "rule" fields) (lookup "rule" fields') := lookup_alike h rfl
    have hscenario : Option.Rel _ (lookup "scenario" fields) (lookup "scenario" fields') :=
      lookup_alike h rfl
    have hsteady : ∀ a, lookup "rule" fields = some a → IsSteady words a := fun a ha =>
      ih a (Value.mem_inner_of_lookup ha)
    rw [child_table, child_table, h.names_eq]
    generalize lookup "background" fields = b, lookup "background" fields' = b' at hbackground ⊢
    generalize lookup "rule" fields = r, lookup "rule" fields' = r' at hrule hsteady ⊢
    generalize lookup "scenario" fields = s, lookup "scenario" fields' = s' at hscenario ⊢
    cases hbackground with
    | some hab => exact sectionPart_same (by simp) (fun _ _ => block_same) .background hab
    | none =>
      cases hrule with
      | some hab => exact (hsteady _ rfl).rule _ hab
      | none =>
        cases hscenario with
        | some hab => exact scenario_same hab
        | none => exact .error _
  | _ =>
    cases h
    exact .error _

/-- Rules that are alike give the same record. -/
theorem rule_same (ih : ∀ w ∈ v.inner, IsSteady words w) (h : Alike .currentAst (.part .rule) v w) :
    Agree Same (rule words v) (rule words w) := by
  cases v with
  | table fields =>
    obtain ⟨fields', rfl⟩ : ∃ fields', w = .table fields' := by cases h <;> exact ⟨_, rfl⟩
    have hchildren : AlikeOrAbsent .currentAst (.list .wrapper) (fieldOf fields "children")
        (fieldOf fields' "children") := h.get "children" rfl
    rw [rule, rule, childrenIn_eq, childrenIn_eq]
    refine (titled_same (by simp) .rule h ⟨_, rfl⟩).bind ?_
    rintro _ _ ⟨line, keyword, name, description, tags, tags', hname, hdescription, htags, rfl, rfl⟩
    have hsame : Agree (List.Forall₂ Same) (childrenOf words (fieldOf fields "children"))
        (childrenOf words (fieldOf fields' "children")) := by
      cases hpresent : (fieldOf fields "children").isPresent with
      | false =>
        rw [childrenOf_of_absent hpresent, childrenOf_of_absent (hchildren.1 ▸ hpresent)]
        exact .nil
      | true =>
        refine (ih _ ?_).childrenOf _ (hchildren.2 hpresent)
        cases hv : lookup "children" fields with
        | none =>
          rw [fieldOf, hv] at hpresent
          cases hpresent
        | some a =>
          rw [fieldOf, hv]
          exact Value.mem_inner_of_lookup hv
    refine hsame.bind fun rs ss hsame => ?_
    exact Same.of_parts
      { alone := rfl, texts := ⟨by simp [hname, hdescription]⟩, tags := htags, children := hsame
        steps := .nil, examples := .nil, rows := .nil, cells := .nil, block := .none
        comments := .nil }
  | _ =>
    cases h
    exact .error _

/-- Lists of children that are alike give the same records. -/
theorem childrenOf_same (ih : ∀ w ∈ v.inner, IsSteady words w)
    (h : Alike .currentAst (.list .wrapper) v w) :
    Agree (List.Forall₂ Same) (childrenOf words v) (childrenOf words w) := by
  have hitems : ∀ {items items'}, v.items? = some items → w.items? = some items' →
      Agree (List.Forall₂ Same) (childrenOf words v) (childrenOf words w) := by
    intro items items' hv hw
    rw [childrenOf_items hv, childrenOf_items hw]
    refine Agree.mapM <| (forall₂_with_mem (h.forall₂_items hv hw)).imp fun a b ⟨hmem, hab⟩ => ?_
    exact (ih a (Value.mem_inner_of_items? hv hmem)).child b hab
  cases h with
  | list hv hw => exact hitems hv hw
  | refl =>
    cases hv : v.items? with
    | some items => exact hitems hv hv
    | none =>
      rw [childrenOf_of_items? hv]
      refine .bind_eq rfl fun members _ => ?_
      cases members with
      | nil => exact .nil
      | cons stray _ => exact .error _

/-- Children that are alike hold the same, by induction on what stands in them. -/
theorem isSteady (words : List Text) (v : Value) : IsSteady words v := by
  induction v using Value.induction with
  | step v ih =>
    exact ⟨fun w h => child_same ih h, fun w h => rule_same ih h, fun w h => childrenOf_same ih h⟩

/-- Features of the current encoding that are alike give the same record. -/
theorem feature_same (h : Alike .currentAst (.part .feature) v w) :
    Agree Same (feature v) (feature w) := by
  refine (h.getPresent? "children" rfl).bind fun a b hab => ?_
  refine (titled_same (by simp) .feature h ⟨_, rfl⟩).bind ?_
  rintro _ _ ⟨line, keyword, name, description, tags, tags', hname, hdescription, htags, rfl, rfl⟩
  refine .bind_eq (h.getAny "language" rfl) fun language hlanguage => ?_
  refine .bind_eq rfl fun words _ => ?_
  have hchildren : Agree (List.Forall₂ Same) (childrenOf words (a.getD .null))
      (childrenOf words (b.getD .null)) := by
    cases hab with
    | none => exact (isSteady words .null).childrenOf _ (.refl _)
    | some hab => exact (isSteady words _).childrenOf _ hab.2
  refine hchildren.bind fun rs ss hsame => ?_
  have hlanguage := Value.getAny_ne_null hlanguage
  exact Same.of_parts
    { alone := rfl, texts := ⟨by simp [hname, hdescription, hlanguage]⟩, tags := htags
      children := hsame, steps := .nil, examples := .nil, rows := .nil, cells := .nil
      block := .none, comments := .nil }

end Current

end Schema

end FeatureTree
