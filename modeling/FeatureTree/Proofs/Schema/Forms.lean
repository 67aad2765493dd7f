import FeatureTree.Proofs.Lists
import FeatureTree.Schema.Basic

/-!
# The forms of trees

What each schema says of its trees: which fields a part of a document has there and what stands in
them (`Schema.Role.fields`). Other fields may stand beside them, and any field may be left out or
null. A value that has the form of a part (`Schema.HasForm`) can be read for everything that the
part is read for.

## Main results

* `Schema.HasForm.getAny`, `Schema.HasForm.getTrimmed`, `Schema.HasForm.getMembers`,
  `Schema.HasForm.getPresent?`: what is read from a part of a form
-/

namespace FeatureTree

/-! ### Fields -/

namespace Value

/-- What stands in a field, null when it is left out. -/
def fieldOf (fields : List (String × Value)) (key : String) : Value :=
  (lookup key fields).getD .null

/-- The text in a field of a table, empty when there is none. -/
def textAt (v : Value) (key : String) : Text := ((v.field? key).bind text?).getD []

/-- The members of a list in a field of a table. -/
def listAt (v : Value) (key : String) : List Value := ((v.field? key).bind items?).getD []

/-- What stands in a field of a table, if it counts as present. -/
def partAt (v : Value) (key : String) : Option Value := (v.field? key).filter isPresent

variable {fields : List (String × Value)} {key : String}

/-- Asking a table for a field gives what the field holds. -/
theorem get_eq_fieldOf : (table fields).get key = .ok (fieldOf fields key) := rfl

/-- A list has something in it just if it has an item. -/
theorem isPresent_of_items? {v : Value} {items : List Value} (h : v.items? = some items) :
    v.isPresent = !items.isEmpty := by
  cases v <;> cases h <;> rfl

/-- What is made of a field is made of null when it is left out. -/
theorem bind_field? {α : Type} {f : Value → Option α} (hf : f .null = none) :
    ((table fields).field? key).bind f = f (fieldOf fields key) := by
  rw [field?, fieldOf]
  cases lookup key fields with
  | none => exact hf.symm
  | some v => rfl

/-- A field holds a text just if the field is there and is that text. -/
theorem get_eq_text_iff {v : Value} {t : Text} :
    v.get key = .ok (.text t) ↔ (v.field? key).bind text? = some t := by
  cases v with
  | table fields =>
    rw [get_eq_fieldOf, bind_field? rfl]
    cases fieldOf fields key <;> simp [text?]
  | _ => simp [get, field?]

/-- The part of a table at a key is what the field holds, if that is anything. -/
theorem partAt_table : (table fields).partAt key
    = if (fieldOf fields key).isPresent then some (fieldOf fields key) else none := by
  rw [partAt, field?, fieldOf]
  cases lookup key fields with
  | none => rfl
  | some v => cases h : v.isPresent <;> simp [h, Option.filter]

/-- The items of a table at a key are those of the list there. -/
theorem listAt_table {items : List Value} (h : (fieldOf fields key).items? = some items) :
    (table fields).listAt key = items := by
  rw [listAt, bind_field? rfl, h, Option.getD_some]

/-- A field with nothing in it has no items. -/
theorem listAt_of_null (h : fieldOf fields key = .null) : (table fields).listAt key = [] := by
  rw [listAt, bind_field? rfl, h]
  rfl

/-- The text of a table at a key is the text there. -/
theorem textAt_table {t : Text} (h : fieldOf fields key = .text t) :
    (table fields).textAt key = t := by
  rw [textAt, bind_field? rfl, h]
  rfl

/-- A field with nothing in it has no text. -/
theorem textAt_of_null (h : fieldOf fields key = .null) : (table fields).textAt key = [] := by
  rw [textAt, bind_field? rfl, h]
  rfl

end Value

namespace Schema

open Value (lookup fieldOf)

/-! ### What the schemas say -/

/-- What a table in a tree stands for. -/
inductive Role where
  | location
  | tag
  | comment
  | cell
  | row
  | table
  | docString
  /-- The doc string or table of a step. -/
  | argument
  | step
  | examples
  /-- A background, scenario or outline. -/
  | sectionPart
  | rule
  | feature
  /-- A feature that is a whole tree. -/
  | bareFeature
  | document
deriving DecidableEq, Repr

/-- What stands in a field. -/
inductive Form where
  | text
  /-- The number of a line. -/
  | line
  /-- The name of the type of a part. -/
  | type
  | part (role : Role)
  /-- A table with one field, whose name says what stands in it. -/
  | wrapper
  | list (member : Form)
deriving DecidableEq, Repr

namespace Role

variable (schema : SchemaVersion)

/-- The field for the line of a part. -/
def placed : List (String × Form) :=
  match schema with
  | .legacyJson => [("line", .line)]
  | .typedAst | .currentAst => [("location", .part .location)]

/-- The fields of a titled part with tags. -/
def titled : List (String × Form) :=
  placed schema ++ [("keyword", .text), ("name", .text), ("description", .text),
    ("tags", .list (.part .tag))]

/-- The fields of a doc string. -/
def quoted : List (String × Form) :=
  match schema with
  | .legacyJson => placed schema ++ [("value", .text), ("content_type", .text)]
  | .typedAst | .currentAst =>
    placed schema ++ [("content", .text), ("mediaType", .text), ("contentType", .text)]

/-- The fields of a feature. -/
def featured : List (String × Form) :=
  titled schema ++ match schema with
  | .legacyJson => [("elements", .list (.part .sectionPart)), ("comments", .list (.part .comment))]
  | .typedAst => [("language", .text), ("children", .list (.part .sectionPart)),
      ("scenarioDefinitions", .list (.part .sectionPart)), ("background", .part .sectionPart)]
  | .currentAst => [("language", .text), ("children", .list .wrapper)]

/-- The fields that a part is read for. -/
def fields : Role → List (String × Form)
  | .location => [("line", .line)]
  | .tag => placed schema ++ [("name", .text)]
  | .comment => placed schema ++ match schema with
    | .legacyJson => [("value", .text)]
    | .typedAst | .currentAst => [("text", .text)]
  | .cell => placed schema ++ [("value", .text)]
  | .row => placed schema ++ match schema with
    | .legacyJson => [("cells", .list .text)]
    | .typedAst | .currentAst => [("cells", .list (.part .cell))]
  | .table => placed schema ++ [("rows", .list (.part .row))]
  | .docString => quoted schema
  | .argument => quoted schema ++ [("type", .type), ("rows", .list (.part .row))]
  | .step => placed schema ++ ("keyword", .text) :: match schema with
    | .legacyJson =>
      [("name", .text), ("doc_string", .part .docString), ("rows", .list (.part .row))]
    | .typedAst => [("text", .text), ("argument", .part .argument)]
    | .currentAst => [("text", .text), ("docString", .part .docString), ("dataTable", .part .table)]
  | .examples => titled schema ++ match schema with
    | .legacyJson => [("rows", .list (.part .row))]
    | .typedAst | .currentAst =>
      [("tableHeader", .part .row), ("tableBody", .list (.part .row))]
  | .sectionPart => titled schema ++ [("steps", .list (.part .step)),
      ("examples", .list (.part .examples))] ++ match schema with
    | .legacyJson => [("type", .type), ("comments", .list (.part .comment))]
    | .typedAst => [("type", .type)]
    | .currentAst => []
  | .rule => titled schema ++ [("children", .list .wrapper)]
  | .feature => featured schema
  | .bareFeature => featured schema ++ [("type", .type), ("comments", .list (.part .comment))]
  | .document =>
    [("type", .type), ("feature", .part .feature), ("comments", .list (.part .comment))]

/-- What stands in a field of a part, if the part is read for it. -/
def form? (role : Role) (key : String) : Option Form := lookup key (role.fields schema)

end Role

/-- What stands in the field of a wrapper. -/
def wrapped? (key : String) : Option Role :=
  lookup key [("background", .sectionPart), ("rule", .rule), ("scenario", .sectionPart)]

/-- What a tree of one of the younger schemas is read for. A typed tree is a document if its type
says so, else a feature. -/
def rootRole (schema : SchemaVersion) (raw : Value) : Role :=
  match schema with
  | .typedAst =>
    if (raw.field? "type").bind Value.text? = some "GherkinDocument".toList then .document
    else .bareFeature
  | _ => .document

/-- The feature of a tree of typed nodes is below a document node, or is the root. -/
theorem Typed.featureOf_table {fields : List (String × Value)} : featureOf (.table fields)
    = .ok (if ((Value.table fields).field? "type").bind Value.text?
        = some "GherkinDocument".toList then fieldOf fields "feature" else .table fields) := by
  by_cases hdocument : ((Value.table fields).field? "type").bind Value.text?
      = some "GherkinDocument".toList
  · rw [featureOf, Value.get_eq_text_iff.mpr hdocument, if_pos hdocument]
    rfl
  · rw [featureOf, if_neg hdocument, Value.get_eq_fieldOf]
    cases htype : fieldOf fields "type" with
    | text t =>
      have ht : t ≠ "GherkinDocument".toList := fun ht =>
        hdocument (Value.get_eq_text_iff.mp (Value.get_eq_fieldOf.trans (ht ▸ congrArg _ htype)))
      exact if_neg ht
    | _ => rfl

/-! ### Children in wrappers -/

namespace Current

variable {words : List Text} {fields : List (String × Value)}

/-- A child that has a rule is read as one. -/
theorem ruleIn_eq : ruleIn words fields = (lookup "rule" fields).map (rule words) := by
  induction fields with
  | nil => rfl
  | cons field fields ih =>
    obtain ⟨key, v⟩ := field
    rw [ruleIn, lookup, List.lookup_cons]
    by_cases hkey : key = "rule"
    · simp [hkey]
    · have hne : ("rule" == key) = false := beq_eq_false_iff_ne.mpr (Ne.symm hkey)
      rw [if_neg hkey, hne, ih]
      rfl

/-- The children of a rule are decoded from what stands in their field. -/
theorem childrenIn_eq : childrenIn words fields = childrenOf words (fieldOf fields "children") := by
  induction fields with
  | nil => rfl
  | cons field fields ih =>
    obtain ⟨key, v⟩ := field
    rw [childrenIn, fieldOf, lookup, List.lookup_cons]
    by_cases hkey : key = "children"
    · simp [hkey]
    · have hne : ("children" == key) = false := beq_eq_false_iff_ne.mpr (Ne.symm hkey)
      rw [if_neg hkey, hne, ih]
      rfl

/-- The children of a part are read one by one. -/
theorem childList_eq_decodeAll (words : List Text) (vs : List Value) :
    childList words vs = decodeAll (child words) vs := by
  induction vs with
  | nil => rfl
  | cons v vs ih =>
    rw [childList, ih, decodeAll, decodeAll, List.mapM_cons]

/-- The children in a list of either sort are decoded one by one. -/
theorem childrenOf_items {v : Value} {items : List Value} (h : v.items? = some items) :
    childrenOf words v = decodeAll (child words) items := by
  cases v <;> cases h <;> rw [childrenOf, childList_eq_decodeAll]

/-- A wrapper is read for the first of its fields that are known. -/
theorem child_table : child words (.table fields) =
    match lookup "background" fields, lookup "rule" fields, lookup "scenario" fields with
    | some v, _, _ => sectionOf .background v
    | none, some v, _ => rule words v
    | none, none, some v => scenario words v
    | none, none, none =>
      .error (unknownChild ((fields.map Prod.fst).map fun key => .text key.toList)) := by
  rw [child, ruleIn_eq]
  cases lookup "background" fields with
  | some v => rfl
  | none =>
    cases lookup "rule" fields with
    | some v => rfl
    | none =>
      cases lookup "scenario" fields with
      | some v => rfl
      | none =>
        rw [List.map_map]
        rfl

end Current

/-! ### Values of a form -/

/-- A value has a form in a schema. What stands in a field of a part has the form that the schema
gives the field, unless it is null or left out. A wrapper does not have two of the fields whose
names say what it holds. -/
inductive HasForm (schema : SchemaVersion) : Form → Value → Prop
  | text (t : Text) : HasForm schema .text (.text t)
  | line (i : Int) : HasForm schema .line (.int i)
  | type (t : Text) : HasForm schema .type (.text t)
  | part {role : Role} {fields : List (String × Value)}
    (inner : ∀ key form, role.form? schema key = some form → fieldOf fields key ≠ .null →
      HasForm schema form (fieldOf fields key)) : HasForm schema (.part role) (.table fields)
  | wrapper {fields : List (String × Value)}
    (single : (fields.filter fun (key, _) => (wrapped? key).isSome).length ≤ 1)
    (inner : ∀ key role v, wrapped? key = some role → lookup key fields = some v →
      HasForm schema (.part role) v) : HasForm schema .wrapper (.table fields)
  | list {form : Form} {v : Value} {items : List Value} (hitems : v.items? = some items)
    (inner : ∀ w ∈ items, HasForm schema form w) : HasForm schema (.list form) v

namespace HasForm

variable {schema : SchemaVersion} {role : Role} {form : Form} {v : Value}

/-- A part without fields has its form. -/
theorem nil : HasForm schema (.part role) (.table []) := .part fun _ _ _ hnull => absurd rfl hnull

/-- A field in front of a part has the form that the part gives it. -/
theorem cons {fields : List (String × Value)} {key : String}
    (h : HasForm schema (.part role) (.table fields)) (hf : role.form? schema key = some form)
    (hv : HasForm schema form v) : HasForm schema (.part role) (.table ((key, v) :: fields)) := by
  cases h with
  | part inner =>
    refine .part fun key' form' hf' hnull => ?_
    by_cases hkey : key' = key
    · have hfield : fieldOf ((key, v) :: fields) key' = v := by simp [fieldOf, lookup, hkey]
      rw [hkey, hf] at hf'
      obtain rfl := Option.some.inj hf'
      rwa [hfield]
    · have hfield : fieldOf ((key, v) :: fields) key' = fieldOf fields key' := by
        simp [fieldOf, lookup, List.lookup_cons, beq_eq_false_iff_ne.mpr hkey]
      rw [hfield] at hnull ⊢
      exact inner key' form' hf' hnull

/-- A part that is wrapped in the key of its role has the form of a wrapper. -/
theorem wrap {key : String} (hw : wrapped? key = some role) (hv : HasForm schema (.part role) v) :
    HasForm schema .wrapper (.table [(key, v)]) := by
  refine .wrapper (by simp [hw]) fun key' role' v' hw' hv' => ?_
  obtain ⟨rfl, rfl⟩ := Prod.mk.inj (List.mem_singleton.mp (mem_of_lookup_eq_some hv'))
  rw [hw] at hw'
  obtain rfl := Option.some.inj hw'
  exact hv

/-- A list of one part has its form if the part does. -/
theorem singleton (h : HasForm schema form v) : HasForm schema (.list form) (.list [v]) :=
  .list rfl (by simpa using h)

/-- A text field of a part holds a text or null. -/
theorem text_or_null {fields : List (String × Value)}
    (h : HasForm schema (.part role) (.table fields)) (key : String)
    (hf : role.form? schema key = some .text) :
    fieldOf fields key = .null ∨ ∃ t, fieldOf fields key = .text t := by
  cases h with
  | part inner =>
    by_cases hnull : fieldOf fields key = .null
    · exact .inl hnull
    · cases h : fieldOf fields key <;> cases h ▸ inner key .text hf hnull
      exact .inr ⟨_, rfl⟩

/-- A text of a part is read as it is. -/
theorem getAny (h : HasForm schema (.part role) v) (key : String)
    (hf : role.form? schema key = some .text) :
    v.getAny key = .ok (.text (v.textAt key)) := by
  cases h with
  | part inner =>
    rw [Value.getAny, Value.get_eq_fieldOf]
    rcases (HasForm.part inner).text_or_null key hf with hnull | ⟨t, ht⟩
    · rw [Value.textAt_of_null hnull, hnull]
      rfl
    · rw [Value.textAt_table ht, ht]
      cases t <;> rfl

/-- A text of a part is read without the blanks at its ends. -/
theorem getTrimmed (h : HasForm schema (.part role) v) (key : String)
    (hf : role.form? schema key = some .text) :
    v.getTrimmed key = .ok (v.textAt key).trim := by
  cases h with
  | part inner =>
    rw [Value.getTrimmed, Value.get_eq_fieldOf]
    rcases (HasForm.part inner).text_or_null key hf with hnull | ⟨t, ht⟩
    · rw [Value.textAt_of_null hnull, hnull]
      rfl
    · rw [Value.textAt_table ht, ht]
      rfl

/-- The members of a part are read, and each has its form. -/
theorem getMembers (h : HasForm schema (.part role) v) (key : String)
    (hf : role.form? schema key = some (.list form)) :
    v.getMembers key = .ok (v.listAt key) ∧ ∀ w ∈ v.listAt key, HasForm schema form w := by
  cases h with
  | @part _ fields inner =>
    rw [Value.getMembers, Value.get_eq_fieldOf]
    by_cases hnull : fieldOf fields key = .null
    · rw [Value.listAt_of_null hnull, hnull]
      exact ⟨rfl, by simp⟩
    · cases inner key _ hf hnull with
      | list hitems hinner =>
        have hmembers := Value.members_of_items? hitems
        rw [Value.listAt_table hitems]
        refine ⟨?_, hinner⟩
        simp only [bind, Except.bind, Value.membersOrEmpty, hmembers,
          Value.isPresent_of_items? hitems]
        split
        · rfl
        · simp_all

/-- A list counts as present if it has members. -/
theorem partAt_list (h : HasForm schema (.part role) v) (key : String)
    (hf : role.form? schema key = some (.list form)) :
    (v.partAt key = none ∧ v.listAt key = [])
      ∨ ∃ w, v.partAt key = some w ∧ w.items? = some (v.listAt key)
        ∧ (v.listAt key).isEmpty = false := by
  cases h with
  | @part _ fields inner =>
    rw [Value.partAt_table]
    by_cases hnull : fieldOf fields key = .null
    · exact .inl ⟨by rw [hnull]; rfl, Value.listAt_of_null hnull⟩
    · cases inner key _ hf hnull with
      | @list _ _ items hitems _ =>
        rw [Value.listAt_table hitems, Value.isPresent_of_items? hitems]
        cases items with
        | nil => exact .inl ⟨rfl, rfl⟩
        | cons => exact .inr ⟨_, rfl, hitems, rfl⟩

/-- A single part is read where there is one, and it has its form. -/
theorem getPresent? (h : HasForm schema (.part role) v) (key : String)
    (hf : role.form? schema key = some form) :
    v.getPresent? key = .ok (v.partAt key) ∧ ∀ w ∈ v.partAt key, HasForm schema form w := by
  cases h with
  | @part _ fields inner =>
    rw [Value.getPresent?, Value.get_eq_fieldOf, Value.partAt_table]
    refine ⟨rfl, fun w hw => ?_⟩
    rw [Option.mem_def, Option.ite_none_right_eq_some] at hw
    obtain ⟨hpresent, hw⟩ := hw
    obtain rfl := Option.some.inj hw
    refine inner key form hf fun hnull => ?_
    rw [hnull] at hpresent
    cases hpresent

/-- A field for a line holds a number or null. -/
theorem get_line (h : HasForm schema (.part role) v) (key : String)
    (hf : role.form? schema key = some .line) :
    v.get key = .ok .null ∨ ∃ i, v.get key = .ok (.int i) := by
  cases h with
  | @part _ fields inner =>
    rw [Value.get_eq_fieldOf]
    by_cases hnull : fieldOf fields key = .null
    · exact .inl (congrArg _ hnull)
    · cases h : fieldOf fields key <;> cases h ▸ inner key .line hf hnull
      exact .inr ⟨_, rfl⟩

/-- A field for a type holds a text or null. -/
theorem get_type (h : HasForm schema (.part role) v) (key : String)
    (hf : role.form? schema key = some .type) :
    (v.get key = .ok .null ∧ (v.field? key).bind Value.text? = none)
      ∨ ∃ t, v.get key = .ok (.text t) ∧ (v.field? key).bind Value.text? = some t := by
  cases h with
  | @part _ fields inner =>
    rw [Value.get_eq_fieldOf, Value.bind_field? rfl]
    by_cases hnull : fieldOf fields key = .null
    · exact .inl ⟨congrArg _ hnull, by rw [hnull]; rfl⟩
    · cases h : fieldOf fields key <;> cases h ▸ inner key .type hf hnull
      exact .inr ⟨_, rfl, rfl⟩

end HasForm

/-- A part is read for what its first fields say. -/
theorem Role.form?_of_prefix {schema : SchemaVersion} {role : Role} {first : List (String × Form)}
    {key : String} {form : Form} (hrole : ∃ rest, role.fields schema = first ++ rest)
    (hf : lookup key first = some form) : role.form? schema key = some form := by
  obtain ⟨rest, hrest⟩ := hrole
  rw [lookup] at hf
  rw [form?, hrest, lookup, List.lookup_append, hf]
  rfl

/-- A part that is read for more than another one has the form of that one too. -/
theorem HasForm.of_form? {schema : SchemaVersion} {role role' : Role} {v : Value}
    (h : HasForm schema (.part role) v)
    (hrole : ∀ key form, role'.form? schema key = some form → role.form? schema key = some form) :
    HasForm schema (.part role') v := by
  cases h with
  | part inner => exact .part fun key form hf => inner key form (hrole key form hf)

/-- An argument is read for what a table is read for. -/
theorem Role.form?_table {key : String} {form : Form}
    (hf : Role.form? .typedAst .table key = some form) :
    Role.form? .typedAst .argument key = some form := by
  by_cases hline : key = "location"
  · subst hline
    exact hf
  · by_cases hrows : key = "rows"
    · subst hrows
      exact hf
    · have hnone : Role.form? .typedAst .table key = none := by
        have hline : (key == "location") = false := beq_eq_false_iff_ne.mpr hline
        have hrows : (key == "rows") = false := beq_eq_false_iff_ne.mpr hrows
        simp [form?, fields, placed, lookup, List.lookup_cons, hline, hrows]
      rw [hnone] at hf
      cases hf

/-- What the two younger schemas say in the same way. -/
theorem Role.form?_of_ast {schema : SchemaVersion} {role : Role} {key : String} {form : Form}
    (hs : schema ≠ .legacyJson) (ht : role.form? .typedAst key = some form)
    (hc : role.form? .currentAst key = some form) : role.form? schema key = some form := by
  cases schema with
  | legacyJson => exact absurd rfl hs
  | typedAst => exact ht
  | currentAst => exact hc

/-- The two younger schemas say where a titled part stands. -/
theorem Role.lookup_titled_location {schema : SchemaVersion} (hs : schema ≠ .legacyJson) :
    lookup "location" (titled schema) = some (.part .location) := by
  cases schema with
  | legacyJson => exact absurd rfl hs
  | typedAst => rfl
  | currentAst => rfl

/-- The keyword, the name and the description of a titled part are texts. -/
theorem Role.lookup_titled_text (schema : SchemaVersion) :
    ∀ key ∈ ["keyword", "name", "description"], lookup key (titled schema) = some .text := by
  cases schema <;> decide

/-- The tags of a titled part are a list of tags. -/
theorem Role.lookup_titled_tags (schema : SchemaVersion) :
    lookup "tags" (titled schema) = some (.list (.part .tag)) := by
  cases schema <;> rfl

end Schema

end FeatureTree
