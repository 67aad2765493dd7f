import FeatureTree.Proofs.Schema.Sorting
import FeatureTree.Proofs.Schema.WholeFeatures
import FeatureTree.Schema.Basic

/-!
# What decoding keeps

A tree of one of the three schemas whose parts have their forms is decoded unless a child in it is
unknown, and then nothing of it is lost: each list of parts, at any depth, has become a list of
records of the same length in the same order, and each record remembers the schema
(`DocumentRecord.IsWhole`). Comments of legacy output are gathered from the feature and its elements
and come out in the order of their lines, those of one line in the order in which they were found.

One thing is given up. A step has one argument, so the table of a step that also has a doc string
has no record (`Schema.decodes_without_table`).

## Main results

* `Schema.decodes_iff_known`: trees are decoded as a whole or rejected for an unknown child
* `Schema.decodes_without_table`: a table beside a doc string is not kept
-/

namespace FeatureTree

namespace Schema

open Value (lookup)

variable {schema : SchemaVersion} {v : Value}

/-! ### Comments of the legacy schema -/

namespace Legacy

/-- The number in the field for the line of a part, zero when there is none. -/
def lineAt (v : Value) : Int :=
  match (v.field? "line").getD .null with
  | .int i => i
  | _ => 0

/-- A value without a line counts as line zero. -/
theorem lineAt_of_null (h : v.get "line" = .ok .null) : lineAt v = 0 := by
  cases v with
  | table fields =>
    have hline : (lookup "line" fields).getD .null = .null := Except.ok.inj h
    rw [lineAt, Value.field?, hline]
  | _ => cases h

/-- A value with a line counts as that line. -/
theorem lineAt_of_int {i : Int} (h : v.get "line" = .ok (.int i)) : lineAt v = i := by
  cases v with
  | table fields =>
    have hline : (lookup "line" fields).getD .null = .int i := Except.ok.inj h
    rw [lineAt, Value.field?, hline]
  | _ => cases h

/-- Every comment of the old encoding is read, from its own value and with its line. -/
theorem exists_comment (h : HasForm .legacyJson (.part .comment) v) :
    ∃ r, comment v = .ok r ∧ r.source = (some .comment, v)
      ∧ (∀ words, r.IsWhole .legacyJson words) ∧ lineNumber r = lineAt v
      ∧ (r.line = .null ∨ ∃ i, r.line = .int i) := by
  have htext := h.getTrimmed "value" rfl
  rcases h.get_line "line" rfl with hline | ⟨i, hline⟩
  · rw [comment, lineOf, hline, htext, lineAt_of_null hline]
    exact ⟨_, rfl, rfl, fun words => .mk rfl rfl (by simp [Record.parts]), rfl, .inl rfl⟩
  · rw [comment, lineOf, hline, htext, lineAt_of_int hline]
    exact ⟨_, rfl, rfl, fun words => .mk rfl rfl (by simp [Record.parts]), rfl, .inr ⟨i, rfl⟩⟩

/-- Comments come out in the order of their lines. -/
theorem exists_comments {vs : List Value} (h : ∀ v ∈ vs, HasForm .legacyJson (.part .comment) v) :
    ∃ rs zs, vs.mapM comment = .ok rs ∧ inOrder rs = .ok zs
      ∧ (∃ ws, zs.map Record.source = sourcesOf .comment ws ∧ Value.IsStableSort lineAt vs ws)
      ∧ ∀ r ∈ zs, ∀ words, r.IsWhole .legacyJson words := by
  obtain ⟨rs, hrs⟩ := exists_forall₂ fun v hv => exists_comment (h v hv)
  have hmember : ∀ r ∈ rs, r.source = (some .comment, r.capsule.data)
      ∧ (∀ words, r.IsWhole .legacyJson words) ∧ lineNumber r = lineAt r.capsule.data
      ∧ (r.line = .null ∨ ∃ i, r.line = .int i) := by
    intro r hr
    obtain ⟨v, -, -, hsource, hrest⟩ := exists_left_of_forall₂ hrs hr
    have hdata : r.capsule.data = v := congrArg Prod.snd hsource
    rw [hdata]
    exact ⟨hsource, hrest⟩
  have hdata : rs.map (·.capsule.data) = vs := by
    have := map_eq_of_forall₂ (f := id) (g := fun r : Record => r.capsule.data) <|
      hrs.imp fun _ _ h => congrArg Prod.snd h.2.1
    simpa using this
  have hordered : ∀ a ∈ rs, ∀ b ∈ rs, standsBefore? a b
      = some (decide (lineAt a.capsule.data < lineAt b.capsule.data)) := by
    intro a ha b hb
    obtain ⟨-, -, hlineA, ha⟩ := hmember a ha
    obtain ⟨-, -, hlineB, hb⟩ := hmember b hb
    rw [standsBefore?_eq ha hb, hlineA, hlineB]
  obtain ⟨zs, hzs, hsorted⟩ := Value.exists_sortBy?_stable hordered
  have hmem : ∀ r ∈ zs, r ∈ rs := fun r hr => (Value.sortBy?_perm hzs).subset hr
  refine ⟨rs, zs, mapM_of_forall₂ (hrs.imp fun _ _ h => h.1), by rw [inOrder, hzs],
    ⟨zs.map (·.capsule.data), ?_, ?_⟩, fun r hr => (hmember r (hmem r hr)).2.1⟩
  · rw [sourcesOf, List.map_map]
    exact List.map_congr_left fun r hr => (hmember r (hmem r hr)).1
  · rw [← hdata]
    exact hsorted.of_map

end Legacy

/-! ### Whole trees -/

/-- The feature of a tree. In legacy output it is the first of a list, or the tree itself. -/
def featureOf (schema : SchemaVersion) (raw : Value) : Option Value :=
  match schema with
  | .legacyJson => (raw.items?.getD [raw]).head?
  | .typedAst =>
    if (raw.field? "type").bind Value.text? = some "GherkinDocument".toList then
      raw.partAt "feature"
    else some raw
  | .currentAst => raw.partAt "feature"

/-- The comments of a tree. In legacy output they stand in its feature and in the elements of the
feature. -/
def commentValues (schema : SchemaVersion) (raw : Value) : List Value :=
  match schema with
  | .legacyJson =>
    match featureOf .legacyJson raw with
    | some v => v.listAt "comments" ++ (v.listAt "elements").flatMap (·.listAt "comments")
    | none => []
  | .typedAst | .currentAst => raw.listAt "comments"

/-- A tree has the form that its schema gives it. Of legacy output only the feature counts. -/
def IsTree (schema : SchemaVersion) (raw : Value) : Prop :=
  match schema with
  | .legacyJson => ∀ v ∈ featureOf .legacyJson raw, HasForm .legacyJson (.part .feature) v
  | .typedAst | .currentAst => HasForm schema (.part (rootRole schema raw)) raw

/-- Some child is unknown, a feature child or, at any depth, a child of a rule. -/
def HasUnknownChild (schema : SchemaVersion) (raw : Value) : Prop :=
  ∃ v ∈ featureOf schema raw, ∃ w ∈ childValues schema v,
    HasUnknown schema (Dialect.outlineWordsOf (v.textAt "language")) w

end Schema

namespace DocumentRecord

/-- A document has a whole record for the feature of a tree and one for each of its comments, those
of legacy output in the order of their lines. -/
structure IsWhole (schema : SchemaVersion) (raw : Value) (d : DocumentRecord) : Prop where
  capsule : d.capsule = ⟨schema, raw⟩
  feature : d.feature.map Record.source
    = (Schema.featureOf schema raw).map fun v => (some .feature, v)
  feature_isWhole : ∀ r ∈ d.feature,
    r.IsWhole schema (Dialect.outlineWordsOf (r.capsule.data.textAt "language"))
  comments : ∃ vs, d.comments.map Record.source = Schema.sourcesOf .comment vs
    ∧ match schema with
      | .legacyJson => Value.IsStableSort Schema.Legacy.lineAt (Schema.commentValues schema raw) vs
      | .typedAst | .currentAst => vs = Schema.commentValues schema raw
  comments_areWhole : ∀ r ∈ d.comments, ∀ words, r.IsWhole schema words

end DocumentRecord

namespace Schema

/-- The record of the feature of a tree, if the tree has one. -/
def IsFeatureRecord (schema : SchemaVersion) (raw : Value) (feature : Option Record) : Prop :=
  feature.map Record.source = (featureOf schema raw).map (fun v => (some .feature, v))
    ∧ ∀ r ∈ feature, r.IsWhole schema (Dialect.outlineWordsOf (r.capsule.data.textAt "language"))

/-- A tree without a feature is settled: nothing is read and nothing is unknown. -/
theorem settles_noFeature {raw : Value} (h : featureOf schema raw = none) :
    Settles (HasUnknownChild schema raw) (IsFeatureRecord schema raw) (pure none) := by
  refine settles_ok ?_ ⟨none, rfl, ?_⟩
  · rintro ⟨v, hv, -⟩
    rw [h] at hv
    cases hv
  · rw [IsFeatureRecord, h]
    exact ⟨rfl, by simp⟩

/-- Whether a tree has an unknown child is asked of the children of its feature. -/
theorem hasUnknownChild_iff {raw : Value} (hv : featureOf schema raw = some v) :
    HasUnknownChild schema raw ↔ ∃ w ∈ childValues schema v,
      HasUnknown schema (Dialect.outlineWordsOf (v.textAt "language")) w := by
  rw [HasUnknownChild, hv]
  simp

/-- A whole record made from the feature of a tree is its feature record. -/
theorem isFeatureRecord_some {raw : Value} {r : Record} (hv : featureOf schema raw = some v)
    (hsource : r.source = (some .feature, v))
    (hwhole : r.IsWhole schema (Dialect.outlineWordsOf (v.textAt "language"))) :
    IsFeatureRecord schema raw (some r) := by
  refine ⟨by rw [hv]; exact congrArg some hsource, fun r' hr' => ?_⟩
  obtain rfl := Option.some.inj hr'
  have hdata : r.capsule.data = v := congrArg Prod.snd hsource
  rwa [hdata]

/-- Reading the feature of a tree settles the tree. -/
theorem settles_someFeature {raw : Value} {x : Except Fault Record}
    (hv : featureOf schema raw = some v)
    (h : Settles (∃ w ∈ childValues schema v,
        HasUnknown schema (Dialect.outlineWordsOf (v.textAt "language")) w)
      (fun r => r.source = (some .feature, v)
        ∧ r.IsWhole schema (Dialect.outlineWordsOf (v.textAt "language"))) x) :
    Settles (HasUnknownChild schema raw) (IsFeatureRecord schema raw) (some <$> x) := by
  rw [map_eq_pure_bind]
  exact (h.imp (hasUnknownChild_iff hv) fun _ h => h).bind fun r ⟨hsource, hwhole⟩ =>
    ⟨some r, rfl, isFeatureRecord_some hv hsource hwhole⟩

/-- The comments of a tree of a younger schema are decoded once its feature is. -/
theorem settles_commented {raw : Value} {role : Role} {x : Except Fault (Option Record)}
    (hs : schema ≠ .legacyJson) (h : HasForm schema (.part role) raw)
    (hcomments : role.form? schema "comments" = some (.list (.part .comment)))
    (hfeature : Settles (HasUnknownChild schema raw) (IsFeatureRecord schema raw) x) :
    Settles (HasUnknownChild schema raw) (DocumentRecord.IsWhole schema raw) (do
      let feature ← x
      let comments ← decodeAll (comment schema) (← raw.getMembers "comments")
      return ⟨feature, comments, ⟨schema, raw⟩⟩) := by
  obtain ⟨hget, hforms⟩ := h.getMembers "comments" hcomments
  have hmakes := fun words => makes_all fun w hw => makes_comment words hs (hforms w hw)
  obtain ⟨comments, hall, hsources, -⟩ := hmakes []
  refine hfeature.bind fun feature ⟨hsource, hwhole⟩ => ?_
  simp only [hget, decodeAll, hall, bind, Except.bind]
  refine ⟨_, rfl, rfl, hsource, hwhole, ⟨_, hsources, ?_⟩, fun r hr words => ?_⟩
  · cases schema with
    | legacyJson => exact absurd rfl hs
    | typedAst => rfl
    | currentAst => rfl
  · obtain ⟨_, hall', -, hwhole⟩ := hmakes words
    cases hall.symm.trans hall'
    exact hwhole r hr

/-- A tree of typed nodes is read as a whole document, unless a child is unknown. -/
theorem Typed.settles_document {raw : Value} (hdetect : detect raw = .ok .typedAst)
    (h : IsTree .typedAst raw) :
    Settles (HasUnknownChild .typedAst raw) (DocumentRecord.IsWhole .typedAst raw)
      (Typed.document raw) := by
  cases raw with
  | table fields =>
    have hform : HasForm .typedAst (.part (rootRole .typedAst (.table fields))) (.table fields) := h
    by_cases htype : ((Value.table fields).field? "type").bind Value.text?
        = some "GherkinDocument".toList
    · rw [rootRole, if_pos htype] at hform
      have hv : Schema.featureOf .typedAst (.table fields) = _ :=
        (if_pos htype).trans Value.partAt_table
      obtain ⟨-, hfeature⟩ := hform.getPresent? "feature" rfl
      rw [Value.partAt_table] at hfeature
      rw [Typed.document, Typed.featureOf_table, if_pos htype]
      cases hpresent : (Value.fieldOf fields "feature").isPresent with
      | false =>
        simp only [hpresent, bind, Except.bind, Bool.false_eq_true, if_false] at hv ⊢
        exact settles_commented (by simp) hform rfl (settles_noFeature hv)
      | true =>
        simp only [hpresent, if_true] at hv hfeature
        obtain ⟨children, hchildren, hsettles⟩ :=
          Typed.settles_feature (Dialect.outlineWordsOf _) (hfeature _ rfl) ⟨[], rfl⟩
        simp only [hpresent, bind, Except.bind, if_true, hchildren]
        exact settles_commented (by simp) hform rfl (settles_someFeature hv hsettles)
    · rw [rootRole, if_neg htype] at hform
      have hpresent : (Value.table fields).isPresent = true := by
        cases fields with
        | nil => cases hdetect
        | cons => rfl
      obtain ⟨children, hchildren, hfeature⟩ :=
        Typed.settles_feature (Dialect.outlineWordsOf _) hform ⟨_, rfl⟩
      rw [Typed.document, Typed.featureOf_table, if_neg htype]
      simp only [hpresent, bind, Except.bind, if_true, hchildren]
      exact settles_commented (by simp) hform rfl (settles_someFeature (if_neg htype) hfeature)
  | _ => cases hdetect

/-- A tree in the current encoding is read as a whole document, unless a child is unknown. -/
theorem Current.settles_document {raw : Value} (h : IsTree .currentAst raw) :
    Settles (HasUnknownChild .currentAst raw) (DocumentRecord.IsWhole .currentAst raw)
      (Current.document raw) := by
  have hform : HasForm .currentAst (.part .document) raw := h
  obtain ⟨hget, hfeature⟩ := hform.getPresent? "feature" rfl
  rw [Current.document, hget]
  cases hv : raw.partAt "feature" with
  | none => exact settles_commented (by simp) hform rfl (settles_noFeature hv)
  | some v =>
    exact settles_commented (by simp) hform rfl <|
      settles_someFeature hv (Current.settles_feature (hfeature v hv) rfl)

/-- The comments of legacy output are found, each with the form of one. -/
theorem Legacy.commentsOf_eq (h : HasForm .legacyJson (.part .feature) v) :
    commentsOf v = .ok (v.listAt "comments" ++ (v.listAt "elements").flatMap (·.listAt "comments"))
      ∧ ∀ w ∈ v.listAt "comments" ++ (v.listAt "elements").flatMap (·.listAt "comments"),
        HasForm .legacyJson (.part .comment) w := by
  obtain ⟨hown, hownForms⟩ := h.getMembers "comments" rfl
  obtain ⟨helements, hforms⟩ := h.getMembers "elements" rfl
  have hinner : (v.listAt "elements").mapM (·.getMembers "comments")
      = .ok ((v.listAt "elements").map (·.listAt "comments")) :=
    mapM_of_forall₂ <| List.forall₂_map_right_iff.mpr <| List.forall₂_same.mpr fun w hw =>
      ((hforms w hw).getMembers "comments" rfl).1
  refine ⟨?_, ?_⟩
  · simp only [commentsOf, hown, helements, hinner, bind, Except.bind, List.flatMap]
    rfl
  · refine List.forall_mem_append.mpr ⟨hownForms, fun w hw => ?_⟩
    obtain ⟨element, helement, hw⟩ := List.mem_flatMap.mp hw
    exact ((hforms element helement).getMembers "comments" rfl).2 w hw

/-- A tree in the old encoding is read as a whole document, unless an element is unknown. -/
theorem Legacy.settles_document {raw : Value} (h : IsTree .legacyJson raw) :
    Settles (HasUnknownChild .legacyJson raw) (DocumentRecord.IsWhole .legacyJson raw)
      (Legacy.document raw) := by
  rw [Legacy.document]
  cases hitems : raw.items?.getD [raw] with
  | nil =>
    have hv : featureOf .legacyJson raw = none := by
      rw [featureOf, hitems]
      rfl
    refine settles_ok ?_ ⟨_, rfl, rfl, by rw [hv]; rfl, by simp, ⟨[], rfl, ?_⟩, by simp⟩
    · rintro ⟨v, hmem, -⟩
      rw [hv] at hmem
      cases hmem
    · simp only [commentValues, hv]
      exact ⟨.nil, fun _ => rfl⟩
  | cons v rest =>
    have hv : featureOf .legacyJson raw = some v := by
      rw [featureOf, hitems]
      rfl
    obtain ⟨hcomments, hforms⟩ := commentsOf_eq (h v hv)
    obtain ⟨rs, zs, hrs, hzs, ⟨ws, hsources, hsorted⟩, hwhole⟩ := exists_comments hforms
    simp only [hcomments]
    refine ((settles_feature _ (h v hv)).imp (hasUnknownChild_iff hv) fun _ h => h).bind
      fun r ⟨hsource, hrecord⟩ => ?_
    simp only [hrs, hzs, bind, Except.bind]
    obtain ⟨hfeature, hfeatureWhole⟩ := isFeatureRecord_some hv hsource hrecord
    refine ⟨_, rfl, rfl, hfeature, hfeatureWhole, ⟨ws, hsources, ?_⟩, hwhole⟩
    simp only [commentValues, hv]
    exact hsorted

/-- A tree is rejected exactly if a child in it is unknown, and else decoded as a whole. -/
theorem decodes_iff_known {raw : Value} (hdetect : detect raw = .ok schema)
    (h : IsTree schema raw) :
    (HasUnknownChild schema raw ↔ ∃ fault : Fault, fault.IsUnknown ∧ normalize raw = .error fault)
      ∧ (¬ HasUnknownChild schema raw → ∃ d, normalize raw = .ok d ∧ d.IsWhole schema raw) := by
  have hsettles : Settles (HasUnknownChild schema raw) (DocumentRecord.IsWhole schema raw)
      (normalize raw) := by
    simp only [normalize, hdetect, bind, Except.bind]
    cases schema with
    | legacyJson => exact Legacy.settles_document h
    | typedAst => exact Typed.settles_document hdetect h
    | currentAst => exact Current.settles_document h
  refine ⟨⟨hsettles.1, fun hunknown => ?_⟩, hsettles.2⟩
  obtain ⟨fault, -, hfault⟩ := hunknown
  by_contra hknown
  obtain ⟨d, hd, -⟩ := hsettles.2 hknown
  rw [hfault] at hd
  cases hd

/-- A feature in German with a scenario in a rule that has the keyword of an outline. -/
def germanOutline : Value :=
  let outline := Value.table [("keyword", .text "Szenariogrundriss ".toList)]
  let rule := Value.table [("children", .list [.table [("scenario", outline)]])]
  .table [("feature", .table [("language", .text "de".toList),
    ("children", .list [.table [("rule", rule)]])])]

/-- A German outline in a rule is read as a whole document. -/
theorem decodes_iff_known_germanOutline :
    ∃ d, normalize germanOutline = .ok d ∧ d.IsWhole .currentAst germanOutline := by
  have hrule : HasForm .currentAst (.part .rule) (.table [("children", .list [.table [("scenario",
      .table [("keyword", .text "Szenariogrundriss ".toList)])]])]) :=
    .cons .nil rfl (.singleton (.wrap rfl (.cons .nil rfl (.text _))))
  have htree : IsTree .currentAst germanOutline :=
    .cons .nil rfl (.cons (.cons .nil rfl (.singleton (.wrap rfl hrule))) rfl (.text _))
  obtain ⟨hunknown, hwhole⟩ := decodes_iff_known rfl htree
  refine hwhole fun h => ?_
  obtain ⟨fault, -, hfault⟩ := hunknown.mp h
  have hok : (normalize germanOutline).isOk = true := by decide +kernel
  rw [hfault] at hok
  cases hok

/-- A step with a doc string and a table with one cell. -/
def twiceArgued : Value :=
  .table [("docString", .table [("content", .text "d".toList)]),
    ("dataTable", .table [("rows", .list [.table [("cells",
      .list [.table [("value", .text "c".toList)]])]])])]

/-- A feature with one scenario that has this step. -/
def twiceArguedTree : Value :=
  .table [("feature", .table [("children", .list [.table [("scenario",
    .table [("steps", .list [twiceArgued])])]])])]

/-- A table that stands beside a doc string is not kept, though its tree is decoded: the step has a
record, and no record in that one has rows or cells. -/
theorem decodes_without_table :
    detect twiceArguedTree = .ok .currentAst ∧ IsTree .currentAst twiceArguedTree
      ∧ ¬ HasUnknownChild .currentAst twiceArguedTree
      ∧ (∃ table row cell, twiceArgued.partAt "dataTable" = some table
        ∧ table.listAt "rows" = [row] ∧ row.listAt "cells" = [cell])
      ∧ ∃ d f s step, normalize twiceArguedTree = .ok d ∧ d.feature = some f ∧ s ∈ f.children
        ∧ step ∈ s.steps ∧ step.source = (some .step, twiceArgued)
        ∧ ∀ x ∈ step.parts, x.rows = [] ∧ x.cells = [] := by
  have hcell : HasForm .currentAst (.part .cell) (.table [("value", .text "c".toList)]) :=
    .cons .nil rfl (.text _)
  have htable : HasForm .currentAst (.part .table) (.table [("rows", .list [.table [("cells",
      .list [.table [("value", .text "c".toList)]])]])]) :=
    .cons .nil rfl (.singleton (.cons .nil rfl (.singleton hcell)))
  have hstep : HasForm .currentAst (.part .step) twiceArgued :=
    .cons (.cons .nil rfl htable) rfl (.cons .nil rfl (.text _))
  have htree : IsTree .currentAst twiceArguedTree :=
    .cons .nil rfl (.cons .nil rfl (.singleton (.wrap rfl (.cons .nil rfl (.singleton hstep)))))
  have hrun : ∃ d f s step, normalize twiceArguedTree = .ok d ∧ d.feature = some f
      ∧ f.children = [s] ∧ s.steps = [step] ∧ step.source = (some .step, twiceArgued)
      ∧ step.parts.map (fun x => x.rows.length + x.cells.length) = [0] :=
    ⟨_, _, _, _, rfl, rfl, rfl, rfl, rfl, rfl⟩
  obtain ⟨d, f, s, step, hd, hf, hs, hsteps, hsource, hlengths⟩ := hrun
  refine ⟨rfl, htree, fun h => ?_, ⟨_, _, _, rfl, rfl, rfl⟩, d, f, s, step, hd, hf, by simp [hs],
    by simp [hsteps], hsource, fun x hx => ?_⟩
  · obtain ⟨fault, -, hfault⟩ := (Current.settles_document htree).1 h
    cases hd.symm.trans hfault
  · have hlength := List.mem_map_of_mem (f := fun x : Record => x.rows.length + x.cells.length) hx
    rw [hlengths, List.mem_singleton, Nat.add_eq_zero_iff] at hlength
    exact hlength.imp List.length_eq_zero_iff.mp List.length_eq_zero_iff.mp

end Schema

end FeatureTree
