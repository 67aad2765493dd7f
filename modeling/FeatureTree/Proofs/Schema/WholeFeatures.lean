import FeatureTree.Proofs.Schema.Sorting
import FeatureTree.Proofs.Schema.Sources
import FeatureTree.Schema.Typed

/-!
# Features become whole records

In each of the three schemas a feature that has its form becomes a whole record, unless a child in
it is unknown. In the current schema children are found in rules at any depth; there the induction
is on the form of the tree, through wrappers, rules and lists of children
(`Schema.Current.Settled`).

## Main results

* `Schema.Typed.settles_feature`, `Schema.Current.settles_feature`,
  `Schema.Legacy.settles_feature`: a feature fails over an unknown child only
-/

namespace FeatureTree

namespace Schema

open Value (lookup)

variable {words : List Text} {v : Value}

/-! ### The typed schema -/

namespace Typed

/-- The types of typed nodes that name a kind name a section. -/
theorem isSection_of_sectionKind? {type : Text} {kind : Kind} (h : sectionKind? type = some kind) :
    IsSection kind := by
  rw [sectionKind?] at h
  split_ifs at h <;> cases h <;> simp [IsSection]

/-- The block of a step of typed nodes is made from its value. -/
theorem argues : Argues .typedAst words block := by
  intro v h
  obtain ⟨hget, hargument⟩ := h.getPresent? "argument" rfl
  rw [block, argumentOf, hget]
  cases hv : v.partAt "argument" with
  | none => exact ⟨none, rfl, rfl, by simp⟩
  | some argument =>
    have hform := hargument argument hv
    obtain ⟨quoted, hquoted, hquotedSource, hquotedWhole⟩ :=
      makes_docString words (by simp)
        (hform.of_form? fun _ _ hf => Role.form?_of_prefix ⟨_, rfl⟩ hf)
    obtain ⟨rows, hrows, hrowsSource, hrowsWhole⟩ :=
      makes_table words (by simp) (hform.of_form? fun _ _ hf => Role.form?_table hf)
    have htable : ∃ b, some <$> table .typedAst argument = .ok b
        ∧ b.map Record.source = some (some .table, argument)
        ∧ ∀ r ∈ b, r.IsWhole .typedAst words :=
      ⟨some rows, by rw [hrows]; rfl, congrArg some hrowsSource, by simpa using hrowsWhole⟩
    simp only [bind, Except.bind, Option.map_some]
    rcases hform.get_type "type" rfl with ⟨htype, hnone⟩ | ⟨t, htype, hsome⟩
    · rw [htype, hnone]
      exact htable
    · rw [htype, hsome]
      by_cases ht : t = "DocString".toList
      · simp only [ht, if_true]
        exact ⟨some quoted, by rw [hquoted]; rfl, congrArg some hquotedSource,
          by simpa using hquotedWhole⟩
      · simp only [ht, if_false, Option.some.injEq]
        exact htable

/-- A child is decoded unless its type is unknown. -/
theorem settles_child (words : List Text) (h : HasForm .typedAst (.part .sectionPart) v) :
    Settles (HasUnknown .typedAst words v) (IsChildRecord .typedAst words v) (child v) := by
  refine settles_typed h rfl rfl rfl (fun hget => ?_) (fun t hget hnone => ?_)
    fun t kind hget hsome => ?_
  · exact ⟨.unknownChildType .null, trivial, by rw [child, hget]; rfl⟩
  · refine ⟨.unknownChildType (.text t), trivial, ?_⟩
    simp only [child, hget, hnone, bind, Except.bind]
    rfl
  · have hsection := isSection_of_sectionKind? hsome
    simp only [child, hget, hsome, bind, Except.bind]
    exact ⟨hsection, makes_section words (by simp) hsection argues h⟩

/-- The children of a feature are found under their names. -/
theorem exists_childrenOf {role : Role} (h : HasForm .typedAst (.part role) v)
    (hrole : ∃ rest, role.fields .typedAst = Role.featured .typedAst ++ rest) :
    ∃ children, childrenOf v = .ok children
      ∧ children.membersOrEmpty = .ok (childValues .typedAst v)
      ∧ ∀ w ∈ childValues .typedAst v, HasForm .typedAst (.part .sectionPart) w := by
  have hform : ∀ {key form}, lookup key (Role.featured .typedAst) = some form →
      role.form? .typedAst key = some form := fun hf => Role.form?_of_prefix hrole hf
  obtain ⟨hchildren, -⟩ := h.getPresent? "children" (hform rfl)
  obtain ⟨hbackground, hbackgroundForm⟩ := h.getPresent? "background" (hform rfl)
  obtain ⟨-, hchildrenForm⟩ := h.getMembers "children" (hform rfl)
  obtain ⟨hget, hdefinitionsForm⟩ := h.getMembers "scenarioDefinitions" (hform rfl)
  obtain ⟨definitions, hdefinitions, hmembers⟩ := bind_ok hget
  generalize hlisted : (if (v.listAt "children").isEmpty then v.listAt "scenarioDefinitions"
    else v.listAt "children") = listed
  have hvalues : childValues .typedAst v = (v.partAt "background").toList ++ listed := by
    rw [← hlisted]
    rfl
  have hlistedForm : ∀ w ∈ listed, HasForm .typedAst (.part .sectionPart) w := by
    rw [← hlisted]
    split
    · exact hdefinitionsForm
    · exact hchildrenForm
  have hsections : ∃ sections, sections.membersOrEmpty = .ok listed ∧ childrenOf v
      = .ok ((v.partAt "background").elim sections fun background =>
        .list (background :: listed)) := by
    rw [childrenOf, hchildren, hbackground]
    rcases h.partAt_list "children" (hform rfl) with ⟨hnone, hempty⟩ | ⟨w, hw, hitems, hne⟩
    · rw [hempty] at hlisted
      have hmembers := hmembers.trans (congrArg _ hlisted)
      refine ⟨definitions, hmembers, ?_⟩
      simp only [hnone, hdefinitions, hmembers, bind, Except.bind]
      cases v.partAt "background" <;> rfl
    · have hmembers : w.membersOrEmpty = .ok listed := by
        rw [hne] at hlisted
        rw [Value.membersOrEmpty, Value.isPresent_of_items? hitems, hne,
          Value.members_of_items? hitems, ← hlisted]
        rfl
      refine ⟨w, hmembers, ?_⟩
      simp only [hw, hmembers, bind, Except.bind, pure, Except.pure]
      cases v.partAt "background" <;> rfl
  obtain ⟨sections, hmembers, hsections⟩ := hsections
  rw [hvalues, hsections]
  refine ⟨_, rfl, ?_, List.forall_mem_append.mpr ⟨by simpa using hbackgroundForm, hlistedForm⟩⟩
  cases v.partAt "background" with
  | none => exact hmembers
  | some background => rfl

/-- A feature is decoded unless a child of it is unknown. -/
theorem settles_feature (words : List Text) {role : Role} (h : HasForm .typedAst (.part role) v)
    (hrole : ∃ rest, role.fields .typedAst = Role.featured .typedAst ++ rest) :
    ∃ children, childrenOf v = .ok children
      ∧ Settles (∃ w ∈ childValues .typedAst v, HasUnknown .typedAst words w)
        (fun r => r.source = (some .feature, v) ∧ r.IsWhole .typedAst words)
        (feature v children) := by
  obtain ⟨rest, hrest⟩ := hrole
  obtain ⟨line, keyword, name, description, tags, htitled, htags, htagsWhole⟩ :=
    exists_titled words (by simp) h ⟨_, hrest.trans (List.append_assoc _ _ _)⟩ .feature
  have hlanguage := h.getAny "language" (Role.form?_of_prefix ⟨rest, hrest⟩ rfl)
  obtain ⟨children, hchildren, hmembers, hforms⟩ := exists_childrenOf h ⟨rest, hrest⟩
  have hall := settles_all fun w hw => settles_child words (hforms w hw)
  refine ⟨children, hchildren, ?_⟩
  simp only [feature, htitled, hlanguage, hmembers, decodeAll, bind, Except.bind]
  refine hall.bind fun records hrecords => ?_
  exact ⟨_, rfl, rfl, isWhole_of_children (.inl rfl) htags htagsWhole hrecords⟩

end Typed

/-! ### The current schema -/

namespace Current

/-- The block of a step of the current encoding is made from its value. -/
theorem argues : Argues .currentAst words block := by
  intro v h
  obtain ⟨hgetString, hstring⟩ := h.getPresent? "docString" rfl
  obtain ⟨hgetTable, htable⟩ := h.getPresent? "dataTable" rfl
  rw [block, hgetString, hgetTable]
  simp only [argumentOf, bind, Except.bind]
  cases hv : v.partAt "docString" with
  | some w =>
    obtain ⟨r, hr, hsource, hwhole⟩ := makes_docString words (by simp) (hstring w hv)
    refine ⟨some r, ?_, congrArg some hsource, by simpa using hwhole⟩
    simp only [hr]
    rfl
  | none =>
    cases hw : v.partAt "dataTable" with
    | none => exact ⟨none, rfl, rfl, by simp⟩
    | some w =>
      obtain ⟨r, hr, hsource, hwhole⟩ := makes_table words (by simp) (htable w hw)
      refine ⟨some r, ?_, congrArg some hsource, by simpa using hwhole⟩
      simp only [hr]
      rfl

/-- A scenario becomes an outline if it has examples or the keyword of one. -/
theorem makes_scenario (h : HasForm .currentAst (.part .sectionPart) v) :
    Makes .currentAst words
      (if !(v.listAt "examples").isEmpty || words.contains (v.textAt "keyword").trim then .outline
        else .scenario) v (scenario words v) := by
  obtain ⟨hget, -⟩ := h.getPresent? "examples" rfl
  have hkeyword := h.getTrimmed "keyword" rfl
  have hsome : (v.partAt "examples").isSome = !(v.listAt "examples").isEmpty := by
    rcases h.partAt_list "examples" rfl with ⟨hnone, hempty⟩ | ⟨w, hw, -, hne⟩
    · rw [hnone, hempty]
      rfl
    · rw [hw, hne]
      rfl
  have hsection : IsSection (if !(v.listAt "examples").isEmpty
      || words.contains (v.textAt "keyword").trim then .outline else .scenario) := by
    split
    · exact .inr (.inr rfl)
    · exact .inr (.inl rfl)
  have hmakes := makes_section words (by simp) hsection argues h
  simp only [scenario, hget, keywordOf, hkeyword, hsome, bind, Except.bind]
  exact hmakes

/-- Names can always be put in order, so they are all shown. -/
theorem isUnknown_unknownChild (names : List String) :
    (unknownChild (names.map fun name => .text name.toList)).IsUnknown := by
  have hordered : ∀ x ∈ names.map (fun name => Value.text name.toList),
      ∀ y ∈ names.map (fun name => Value.text name.toList), (x.less? y).isSome = true := by
    intro x hx y hy
    obtain ⟨_, -, rfl⟩ := List.mem_map.mp hx
    obtain ⟨_, -, rfl⟩ := List.mem_map.mp hy
    rfl
  obtain ⟨members, hmembers⟩ := Option.isSome_iff_exists.mp (Value.isSome_sortBy? hordered)
  rw [unknownChild, hmembers]
  trivial

/-- Children are decoded unless one of them is unknown. -/
abbrev SettlesChildren (words : List Text) (children : List Value)
    (x : Except Fault (List Record)) : Prop :=
  Settles (∃ w ∈ children, HasUnknown .currentAst words w)
    (List.Forall₂ (IsChildRecord .currentAst words) children) x

/-- A rule is decoded unless a child of it is unknown. -/
abbrev SettlesRule (words : List Text) (v : Value) : Prop :=
  Settles (∃ w ∈ childValues .currentAst v, HasUnknown .currentAst words w)
    (fun r => r.source = (some .rule, v) ∧ r.IsWhole .currentAst words) (rule words v)

/-- A part with nothing for its children is settled. -/
theorem settlesChildren_null : SettlesChildren words [] (childrenOf words .null) :=
  settles_ok (by simp) ⟨[], rfl, .nil⟩

/-- Reading a rule settles it if reading its children does. -/
theorem settles_rule {fields : List (String × Value)}
    (h : HasForm .currentAst (.part .rule) (.table fields))
    (hchildren : SettlesChildren words ((Value.table fields).listAt "children")
      (childrenOf words (Value.fieldOf fields "children"))) :
    SettlesRule words (.table fields) := by
  obtain ⟨line, keyword, name, description, tags, htitled, htags, htagsWhole⟩ :=
    exists_titled words (by simp) h ⟨_, rfl⟩ .rule
  rw [SettlesRule, rule, htitled, childrenIn_eq]
  refine hchildren.bind fun records hrecords => ?_
  exact ⟨_, rfl, rfl, isWhole_of_children (.inr rfl) htags htagsWhole hrecords⟩

/-- A wrapper is decoded unless it has none of the known names or a child of the rule in it is
unknown. -/
theorem settles_wrapper {fields : List (String × Value)}
    (hparts : ∀ key role v, wrapped? key = some role → lookup key fields = some v →
      HasForm .currentAst (.part role) v)
    (hrule : ∀ v, lookup "rule" fields = some v → SettlesRule words v) :
    Settles (HasUnknown .currentAst words (.table fields))
      (IsChildRecord .currentAst words (.table fields)) (child words (.table fields)) := by
  rw [child_table]
  cases hb : lookup "background" fields with
  | some w =>
    have hkind : childKind? .currentAst words (.table fields) = some .background := by
      simp only [childKind?, Value.field?, hb]
    have hinner : unwrapped .currentAst (.table fields) = w := by simp [unwrapped, Value.field?, hb]
    refine settles_ok (by rw [hasUnknown_iff] <;> simp [hkind]) ?_
    obtain ⟨r, hr, hsource, hwhole⟩ :=
      makes_section words (by simp) (.inl rfl) argues (hparts _ _ w rfl hb)
    exact ⟨r, hr, by rw [hsource, hkind, hinner], hwhole⟩
  | none =>
    cases hr : lookup "rule" fields with
    | some w =>
      have hkind : childKind? .currentAst words (.table fields) = some .rule := by
        simp only [childKind?, Value.field?, hb, hr]
      have hinner : unwrapped .currentAst (.table fields) = w := by
        simp [unwrapped, Value.field?, hb, hr]
      refine (hrule w hr).imp ?_ fun r hr => ?_
      · rw [hasUnknown_rule_iff hkind, hinner]
      · rw [IsChildRecord, hkind, hinner]
        exact hr
    | none =>
      cases hs : lookup "scenario" fields with
      | some w =>
        have hkind : childKind? .currentAst words (.table fields)
            = some (if !(w.listAt "examples").isEmpty
              || words.contains (w.textAt "keyword").trim then .outline else .scenario) := by
          simp only [childKind?, Value.field?, hb, hr, hs]
        have hinner : unwrapped .currentAst (.table fields) = w := by
          simp [unwrapped, Value.field?, hb, hr, hs]
        have hknown : ¬ HasUnknown .currentAst words (.table fields) := by
          rw [hasUnknown_iff, hkind]
          · simp
          · rw [hkind]
            split <;> simp
        obtain ⟨r, hr, hsource, hwhole⟩ := makes_scenario (hparts _ _ w rfl hs)
        exact settles_ok hknown ⟨r, hr, by rw [hsource, hkind, hinner], hwhole⟩
      | none =>
        have hkind : childKind? .currentAst words (.table fields) = none := by
          simp only [childKind?, Value.field?, hb, hr, hs]
        exact settles_error (.self hkind) (isUnknown_unknownChild _)

/-- What is shown of values of each form that stands between a child and the rule in it. -/
def Settled (words : List Text) : Form → Value → Prop
  | .wrapper, v =>
    Settles (HasUnknown .currentAst words v) (IsChildRecord .currentAst words v) (child words v)
  | .part .rule, v => SettlesRule words v
  | .list .wrapper, v =>
    ∀ items, v.items? = some items → SettlesChildren words items (childrenOf words v)
  | _, _ => True

/-- Children, rules and lists of children are decoded unless they are unknown, by induction on what
stands in them. -/
theorem settled_of_hasForm {form : Form} (h : HasForm .currentAst form v) :
    Settled words form v := by
  induction h with
  | text | line | type => trivial
  | @part role fields inner ih =>
    cases role with
    | rule =>
      refine settles_rule (.part inner) ?_
      by_cases hnull : Value.fieldOf fields "children" = .null
      · rw [hnull, Value.listAt_of_null hnull]
        exact settlesChildren_null
      · cases inner "children" _ rfl hnull with
        | list hitems _ =>
          rw [Value.listAt_table hitems]
          exact ih "children" _ rfl hnull _ hitems
    | _ => trivial
  | wrapper single inner ih => exact settles_wrapper inner fun w hw => ih "rule" .rule w rfl hw
  | @list form v items hitems inner ih =>
    cases form with
    | wrapper =>
      intro items' hitems'
      obtain rfl := Option.some.inj (hitems.symm.trans hitems')
      rw [childrenOf_items hitems]
      exact settles_all ih
    | _ => trivial

/-- A feature is decoded, in its language, unless a child of it is unknown. -/
theorem settles_feature (h : HasForm .currentAst (.part .feature) v)
    (hwords : words = Dialect.outlineWordsOf (v.textAt "language")) :
    Settles (∃ w ∈ childValues .currentAst v, HasUnknown .currentAst words w)
      (fun r => r.source = (some .feature, v) ∧ r.IsWhole .currentAst words) (feature v) := by
  obtain ⟨line, keyword, name, description, tags, htitled, htags, htagsWhole⟩ :=
    exists_titled words (by simp) h ⟨_, List.append_assoc _ _ _⟩ .feature
  have hlanguage := h.getAny "language" rfl
  obtain ⟨hget, hform⟩ := h.getPresent? "children" rfl
  have hchildren : SettlesChildren words (childValues .currentAst v)
      (childrenOf words ((v.partAt "children").getD .null)) := by
    rw [childValues]
    rcases h.partAt_list "children" rfl with ⟨hnone, hempty⟩ | ⟨w, hw, hitems, -⟩
    · rw [hnone, hempty]
      exact settlesChildren_null
    · rw [hw]
      exact settled_of_hasForm (hform w hw) _ hitems
  simp only [feature, hget, htitled, hlanguage, Dialect.outlineKeywordsFor_text, ← hwords, bind,
    Except.bind]
  refine hchildren.bind fun records hrecords => ?_
  exact ⟨_, rfl, rfl, isWhole_of_children (.inl rfl) htags htagsWhole hrecords⟩

end Current

/-! ### The legacy schema -/

namespace Legacy

/-- A part of the old encoding with a line has one. -/
theorem exists_lineOf {role : Role} (h : HasForm .legacyJson (.part role) v)
    (hf : role.form? .legacyJson "line" = some .line) : ∃ line, lineOf v = .ok line := by
  rcases h.get_line "line" hf with hline | ⟨i, hline⟩
  · exact ⟨_, hline⟩
  · exact ⟨_, hline⟩

/-- A tag of the old encoding is made from its value. -/
theorem makes_tag (words : List Text) (h : HasForm .legacyJson (.part .tag) v) :
    Makes .legacyJson words .tag v (tag v) := by
  obtain ⟨line, hline⟩ := exists_lineOf h rfl
  rw [tag, hline, h.getAny "name" rfl]
  exact ⟨_, rfl, rfl, .mk rfl rfl (by simp [Record.parts])⟩

/-- A titled part is read for its title and its tags. -/
theorem exists_titled (words : List Text) {role : Role} (h : HasForm .legacyJson (.part role) v)
    (hrole : ∃ rest, role.fields .legacyJson = Role.titled .legacyJson ++ rest) (kind : Kind) :
    ∃ line keyword name description tags, titled kind v
        = .ok { kind, line, keyword, name, description, tags, capsule := capsule v }
      ∧ tags.map Record.source = sourcesOf .tag (v.listAt "tags")
      ∧ ∀ r ∈ tags, r.IsWhole .legacyJson words := by
  have hform : ∀ {key form}, lookup key (Role.titled .legacyJson) = some form →
      role.form? .legacyJson key = some form := fun hf => Role.form?_of_prefix hrole hf
  obtain ⟨line, hline⟩ := exists_lineOf h (hform rfl)
  have hkeyword := h.getTrimmed "keyword" (hform rfl)
  have hname := h.getAny "name" (hform rfl)
  have hdescription := h.getAny "description" (hform rfl)
  obtain ⟨hget, htags⟩ := h.getMembers "tags" (hform rfl)
  obtain ⟨tags, hall, hsources, hwhole⟩ := makes_all fun w hw => makes_tag words (htags w hw)
  simp only [titled, hline, keywordOf, hkeyword, hname, hdescription, hget, hall, bind, Except.bind]
  exact ⟨line, _, _, _, tags, rfl, hsources, hwhole⟩

/-- A row of the old encoding is made from its value. -/
theorem makes_row (words : List Text) (h : HasForm .legacyJson (.part .row) v) :
    Makes .legacyJson words .row v (row v) := by
  obtain ⟨line, hline⟩ := exists_lineOf h rfl
  obtain ⟨hget, -⟩ := h.getMembers "cells" rfl
  simp only [row, hline, hget, bind, Except.bind]
  refine ⟨_, rfl, rfl, .mk rfl ?_ ?_⟩
  · simp only [Record.sources, List.map_map]
    rfl
  · simp only [Record.parts, List.append_nil, List.nil_append, Option.toList_none]
    intro r hr
    obtain ⟨w, -, rfl⟩ := List.mem_map.mp hr
    exact .mk rfl rfl (by simp [Record.parts, cell])

/-- A table of examples of the old encoding is made from its value, with all its rows. -/
theorem makes_examples (words : List Text) (h : HasForm .legacyJson (.part .examples) v) :
    Makes .legacyJson words .example v (examples v) := by
  obtain ⟨line, keyword, name, description, tags, htitled, htags, htagsWhole⟩ :=
    exists_titled words h ⟨_, rfl⟩ .example
  obtain ⟨hget, hrows⟩ := h.getMembers "rows" rfl
  obtain ⟨rows, hall, hrows, hrowsWhole⟩ := makes_all fun w hw => makes_row words (hrows w hw)
  simp only [examples, htitled, hget, hall, bind, Except.bind]
  exact ⟨_, rfl, rfl, isWhole_examples htags htagsWhole hrows hrowsWhole⟩

/-- The rows of a step stand where the first of them stands. -/
theorem exists_firstLine {rows : Value} {items : List Value} (hitems : rows.items? = some items)
    (hrows : ∀ w ∈ items, HasForm .legacyJson (.part .row) w) :
    ∃ line, firstLine rows = .ok line := by
  cases items with
  | nil => cases rows <;> cases hitems <;> exact ⟨_, rfl⟩
  | cons first rest =>
    have hfirst : firstLine rows = lineOf first := by cases rows <;> cases hitems <;> rfl
    rw [hfirst]
    exact exists_lineOf (hrows first List.mem_cons_self) rfl

/-- The block of a step of the old encoding is made from its value. -/
theorem argues : Argues .legacyJson words block := by
  intro v h
  obtain ⟨hgetString, hstring⟩ := h.getPresent? "doc_string" rfl
  obtain ⟨hgetRows, hrows⟩ := h.getPresent? "rows" rfl
  simp only [block, argumentOf, hgetString, hgetRows, bind, Except.bind]
  cases hv : v.partAt "doc_string" with
  | some w =>
    have hform := hstring w hv
    obtain ⟨line, hline⟩ := exists_lineOf hform rfl
    simp only [hline, hform.getAny "value" rfl, hform.getAny "content_type" rfl]
    exact ⟨_, rfl, rfl, by simpa using .mk rfl rfl (by simp [Record.parts])⟩
  | none =>
    rcases h.partAt_list "rows" rfl with ⟨hnone, -⟩ | ⟨rows, hsome, hitems, -⟩
    · simp only [hnone]
      exact ⟨none, rfl, rfl, by simp⟩
    · obtain ⟨-, hforms⟩ := h.getMembers "rows" rfl
      obtain ⟨line, hline⟩ := exists_firstLine hitems hforms
      obtain ⟨records, hall, hsources, hwhole⟩ :=
        makes_all fun w hw => makes_row words (hforms w hw)
      simp only [hsome, hline, Value.members_of_items? hitems, hall]
      have hrowsOf : rowsOf .legacyJson .table rows = v.listAt "rows" := by
        rw [rowsOf, hitems]
        rfl
      refine ⟨_, rfl, rfl, fun r hr => ?_⟩
      obtain rfl := Option.some.inj hr
      refine .mk rfl ?_ (by simpa [Record.parts] using hwhole)
      simp only [Record.sources, hsources, ← hrowsOf]
      rfl

/-- A step of the old encoding is made from its value, with its block. -/
theorem makes_step (words : List Text) (h : HasForm .legacyJson (.part .step) v) :
    Makes .legacyJson words .step v (step v) := by
  have hargues : Argues .legacyJson words block := argues
  obtain ⟨block, hblock, hsource, hwhole⟩ := hargues v h
  obtain ⟨line, hline⟩ := exists_lineOf h rfl
  simp only [step, hblock, hline, keywordOf, h.getTrimmed "keyword" rfl, h.getAny "name" rfl, bind,
    Except.bind]
  refine ⟨_, rfl, rfl, .mk rfl ?_ (by simpa [Record.parts] using hwhole)⟩
  simp only [Record.sources, hsource]
  rfl

/-- The types of elements that name a kind name a section. -/
theorem isSection_of_sectionKind? {type : Text} {kind : Kind} (h : sectionKind? type = some kind) :
    IsSection kind := by
  rw [sectionKind?] at h
  split_ifs at h <;> cases h <;> simp [IsSection]

/-- What an element of a kind is read for. -/
theorem makes_section (words : List Text) {kind : Kind} (hkind : IsSection kind)
    (h : HasForm .legacyJson (.part .sectionPart) v) :
    Makes .legacyJson words kind v (do
      let part ← titled kind v
      let steps ← (← v.getMembers "steps").mapM step
      let examples ← (← v.getMembers "examples").mapM examples
      return { part with steps, examples }) := by
  obtain ⟨line, keyword, name, description, tags, htitled, htags, htagsWhole⟩ :=
    exists_titled words h ⟨_, List.append_assoc _ _ _⟩ kind
  obtain ⟨hgetSteps, hsteps⟩ := h.getMembers "steps" rfl
  obtain ⟨hgetExamples, hexamples⟩ := h.getMembers "examples" rfl
  obtain ⟨steps, hallSteps, hstepSources, hstepsWhole⟩ :=
    makes_all fun w hw => makes_step words (hsteps w hw)
  obtain ⟨examples, hallExamples, hexampleSources, hexamplesWhole⟩ :=
    makes_all fun w hw => makes_examples words (hexamples w hw)
  simp only [htitled, hgetSteps, hgetExamples, hallSteps, hallExamples, bind, Except.bind]
  exact ⟨_, rfl, rfl, isWhole_section htags htagsWhole hkind hstepSources hstepsWhole
    hexampleSources hexamplesWhole⟩

/-- An element is decoded unless its type is unknown. -/
theorem settles_element (words : List Text) (h : HasForm .legacyJson (.part .sectionPart) v) :
    Settles (HasUnknown .legacyJson words v) (IsChildRecord .legacyJson words v) (element v) := by
  refine settles_typed h rfl rfl rfl (fun hget => ?_) (fun t hget hnone => ?_)
    fun t kind hget hsome => ?_
  · exact ⟨.unknownElementType .null, trivial, by rw [element, hget]; rfl⟩
  · refine ⟨.unknownElementType (.text t), trivial, ?_⟩
    simp only [element, hget, hnone, bind, Except.bind]
    rfl
  · have hsection := isSection_of_sectionKind? hsome
    simp only [element, hget, hsome, bind, Except.bind]
    exact ⟨hsection, makes_section words hsection h⟩

/-- A feature is decoded unless an element of it is unknown. -/
theorem settles_feature (words : List Text) (h : HasForm .legacyJson (.part .feature) v) :
    Settles (∃ w ∈ childValues .legacyJson v, HasUnknown .legacyJson words w)
      (fun r => r.source = (some .feature, v) ∧ r.IsWhole .legacyJson words) (feature v) := by
  obtain ⟨line, keyword, name, description, tags, htitled, htags, htagsWhole⟩ :=
    exists_titled words h ⟨_, rfl⟩ .feature
  obtain ⟨hget, hforms⟩ := h.getMembers "elements" rfl
  have hall := settles_all fun w hw => settles_element words (hforms w hw)
  simp only [feature, htitled, hget, bind, Except.bind]
  refine hall.bind fun records hrecords => ?_
  exact ⟨_, rfl, rfl, isWhole_of_children (.inl rfl) htags htagsWhole hrecords⟩

end Legacy

end Schema

end FeatureTree
