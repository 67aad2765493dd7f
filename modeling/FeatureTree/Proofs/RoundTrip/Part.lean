import FeatureTree.Proofs.Plain.Parts
import FeatureTree.Proofs.Plain.ReadFragments
import FeatureTree.Proofs.RoundTrip.File

/-!
# Parts that are written and read back

Each part of a file is written as a text that is read, in the document that is put around a part of
its kind, as the same part again. The document around an argument of a step starts the step with a
bullet, so the dialect has to have it.

## Main results

* `Plain.Part.exists_read_in`: the lines of a part that is fit are read as the part
* `Node.readPart_roundTrip`: what stands below a file that was read is read back from its text
-/

namespace FeatureTree

open Ast (Document)
open Dialect (english)

namespace Plain

/-- Whether some lines are read, in the document around a part of a kind, as a node. -/
def IsReadBack (d : Dialect) (fallback : Value) (kind : Kind) (lines : List Text)
    (p : Node) : Prop :=
  ∃ n, Node.readPart fallback (.text d.name) (Text.joinLines lines) kind = .ok n ∧ n.bare = p

/-- Adding no rules changes nothing. -/
theorem addRules_nil (document : Document) : document.addRules [] = document :=
  document.onFeature_eq_self fun t => by simp

section

variable {d : Dialect} (hd : d ∈ Dialect.all) (fallback : Value)

include hd

/-! ### Parts behind the title of a feature -/

/-- A feature that fits is read back. -/
theorem Feature.isReadBack {p : Feature} (hp : p.Fit d) :
    IsReadBack d fallback .feature p.lines p.node := by
  obtain ⟨x, rfl, hparse⟩ := parse_feature hd hp
  have hwrapped : Document.parse d (Fragment.wrap d.primaryKeywords
      (Text.joinLines x.plain.lines) .feature) = .ok (Document.empty.withFeature x) := by
    rw [Fragment.wrap]
    exact hparse
  exact Node.readPart_of_parse_in hd fallback hwrapped rfl x.isSound_record (x.bare_ofRecord none)
    rfl

/-- A background that fits is read back. -/
theorem Background.isReadBack {p : Background} (hp : p.Fit d) :
    IsReadBack d fallback .background p.lines p.node := by
  have hlegible := Background.Fit.legible hp
  obtain ⟨hjoinable, hne⟩ := Background.Legible.joinable hlegible
  obtain ⟨document, ⟨loc, x, rfl, rfl⟩, hparse⟩ :=
    exists_parse_inFeature hd hjoinable hne
      (Q := fun document => ∃ loc x, document = framed d loc [] ⟨some x, []⟩ ∧ x.plain = p)
      fun loc ls hls => by
        have hready : (behind d (.heading .feature) (framed d loc [] .empty)).Ready :=
          ready_behind hd rfl rfl
        obtain ⟨x, hx, hlead⟩ :=
          leads_background (j := 0) hready rfl hlegible (by simpa using hls)
        exact ⟨_, ⟨loc, x, rfl, hx.trans (Background.Fit.reread_eq hp)⟩,
          hlead.mono fun _ => mayEnd_of_isWithin⟩
  have hwrapped : Document.parse d (Fragment.wrap d.primaryKeywords
      (Text.joinLines x.plain.lines) .background) = .ok (framed d loc [] ⟨some x, []⟩) := by
    rw [Fragment.wrap]
    exact hparse
  exact Node.readPart_of_parse_in hd fallback hwrapped rfl x.isSound_record (x.bare_ofRecord none)
    rfl

/-- The first section of a feature around a part. -/
theorem firstSection?_framed (loc : Location) (tags : List Ast.Tag) (b : Ast.Body)
    (rules : List Ast.Rule) :
    Fragment.firstSection? ((framed d loc tags b).addRules rules).record
      = (b.records d.outlineKeywords
        ++ rules.map (Ast.Rule.record d.outlineKeywords)).head? := by
  have hwords : ∀ heading, Ast.Feature.outlineWords ⟨heading, tags, d.name, b, rules⟩
      = d.outlineKeywords := by
    intro heading
    rw [Ast.Feature.outlineWords, Dialect.ofName?_name hd, Option.getD_some]
  simp only [Fragment.firstSection?, Document.record, framed, Document.addRules,
    Document.onFeature, Document.withFeature, Option.map_some, List.nil_append,
    Ast.Feature.record, hwords]
  rfl

/-- A scenario or outline that fits is read back. -/
theorem Scenario.isReadBack {p : Scenario} (hp : p.Fit d) :
    IsReadBack d fallback p.node.kind p.lines p.node := by
  have hlegible := Scenario.Fit.legible hp
  obtain ⟨hjoinable, hne⟩ := Scenario.Legible.joinable hlegible
  obtain ⟨document, ⟨loc, x, rfl, rfl⟩, hparse⟩ :=
    exists_parse_inFeature hd hjoinable hne
      (Q := fun document => ∃ loc x, document = framed d loc [] ⟨none, [x]⟩
        ∧ x.plain d.outlineKeywords = p)
      fun loc ls hls => by
        have hready : (behind d (.heading .feature) (framed d loc [] .empty)).Ready :=
          ready_behind hd rfl rfl
        obtain ⟨x, hx, hlead⟩ := leads_scenario (j := 0) hready rfl hlegible (by simpa using hls)
        exact ⟨_, ⟨loc, x, rfl, hx.trans (Scenario.Fit.reread_eq hp)⟩,
          hlead.mono fun _ => mayEnd_of_isWithin⟩
  have hselect : Fragment.firstSection? (framed d loc [] ⟨none, [x]⟩).record
      = some (x.record d.outlineKeywords) := by
    rw [← addRules_nil (framed d loc [] ⟨none, [x]⟩), firstSection?_framed hd]
    rfl
  -- scenarios and outlines have the same document around them
  have hkind : ∀ kind, kind = .scenario ∨ kind = .outline →
      Fragment.wrap d.primaryKeywords
          (Text.joinLines (x.plain d.outlineKeywords).lines) kind
        = Fragment.inFeature d.primaryKeywords
          (Text.joinLines (x.plain d.outlineKeywords).lines)
      ∧ Fragment.select? (framed d loc [] ⟨none, [x]⟩).record kind
        = some (x.record d.outlineKeywords) := by
    rintro kind (rfl | rfl)
    · exact ⟨rfl, hselect⟩
    · exact ⟨rfl, hselect⟩
  obtain ⟨hwrap, hselect⟩ := hkind _ (x.plain d.outlineKeywords).kind_node
  exact Node.readPart_of_parse_in hd fallback (hwrap ▸ hparse) hselect (x.isSound_record _)
    (x.bare_ofRecord none _) rfl

/-- A rule that fits is read back. -/
theorem Rule.isReadBack {p : Rule} (hp : p.Fit d) :
    IsReadBack d fallback .rule p.lines p.node := by
  have hlegible := Rule.Fit.legible hp
  obtain ⟨hjoinable, hne⟩ := Rule.Legible.joinable hlegible
  obtain ⟨document, ⟨loc, x, rfl, rfl⟩, hparse⟩ :=
    exists_parse_inFeature hd hjoinable hne
      (Q := fun document => ∃ loc x, document = (framed d loc [] .empty).addRules [x]
        ∧ x.plain d.outlineKeywords = p)
      fun loc ls hls => by
        have hready : (behind d (.heading .feature) (framed d loc [] .empty)).Ready :=
          ready_behind hd rfl rfl
        obtain ⟨x, hx, hlead⟩ :=
          leads_rule (j := 0) hready ⟨.feature, rfl⟩ hlegible (by simpa using hls)
        exact ⟨_, ⟨loc, x, rfl, hx.trans (Rule.Fit.reread_eq hp)⟩,
          hlead.mono fun _ => mayEnd_of_isBehindTitle⟩
  have hselect : Fragment.select? ((framed d loc [] .empty).addRules [x]).record .rule
      = some (x.record d.outlineKeywords) := by
    rw [Fragment.select?, firstSection?_framed hd]
    rfl
  have hwrapped : Document.parse d (Fragment.wrap d.primaryKeywords
      (Text.joinLines (x.plain d.outlineKeywords).lines) .rule)
      = .ok ((framed d loc [] .empty).addRules [x]) := by
    rw [Fragment.wrap]
    exact hparse
  exact Node.readPart_of_parse_in hd fallback hwrapped hselect (x.isSound_record _)
    (x.bare_ofRecord none _) rfl

/-! ### Parts behind the title of a scenario -/

/-- The step that is put into a scenario is its first one. -/
theorem firstSection?_step (loc : Location) (h : Ast.Heading) (x : Ast.Step) :
    ((Fragment.firstSection? (framed d loc [] ⟨none, [⟨h, [], [x], []⟩]⟩).record).bind
      (·.steps.head?)) = some x.record := by
  rw [← addRules_nil (framed d loc [] ⟨none, [⟨h, [], [x], []⟩]⟩), firstSection?_framed hd]
  rfl

/-- The lines of a step that is legible are read as what comes back of it. -/
theorem Step.isReadBack_reread {p : Step} (hp : p.Legible d) :
    IsReadBack d fallback .step p.lines (p.reread d).node := by
  have hne : p.lines ≠ [] := List.cons_ne_nil _ _
  obtain ⟨document, ⟨loc, h, x, rfl, hx⟩, hparse⟩ :=
    exists_parse_inScenario hd (titleWord_frameScenario hd) hp.joinable hne
      (Q := fun document => ∃ loc h x, document = framed d loc [] ⟨none, [⟨h, [], [x], []⟩]⟩
        ∧ x.plain = p.reread d)
      fun loc h ls hls => by
        have hready : (behindScenario d loc h).Ready := ready_behind hd rfl rfl
        have hplace : (behindScenario d loc h).place.TakesSteps .feature .scenario := ⟨rfl, rfl⟩
        have hls' : Line.Spell ls (p.lines.map (withMargin [])) := by
          rwa [map_withMargin_nil]
        obtain ⟨x, given, hx, hgiven, hrun, hragged⟩ :=
          passes_step hready hplace .nil hp hls'
        exact ⟨_, ⟨loc, h, x, rfl, hx⟩, .step .feature .scenario given,
          mayEnd_of_isWithin ⟨rfl, hgiven⟩, hrun, Ready.addSteps hready hragged⟩
  have hwrapped : Document.parse d (Fragment.wrap d.primaryKeywords
      (Text.joinLines p.lines) .step) = .ok (framed d loc [] ⟨none, [⟨h, [], [x], []⟩]⟩) := by
    rw [Fragment.wrap, inScenario_joinLines hne, ← inFeature_joinLines (by simp)]
    exact hparse
  rw [← hx]
  exact Node.readPart_of_parse_in hd fallback hwrapped (firstSection?_step hd loc h x)
    x.isSound_record (x.bare_ofRecord none) rfl

/-- A step that fits is read back. -/
theorem Step.isReadBack {p : Step} (hp : p.Fit d) :
    IsReadBack d fallback .step p.lines p.node := by
  have hback := Step.isReadBack_reread hd fallback hp.legible
  rwa [hp.reread_eq] at hback

/-- The argument of the step that is put into a scenario is the first one. -/
theorem firstBlock?_framed (loc : Location) (h : Ast.Heading) (x : Ast.Step) :
    Fragment.firstBlock? (framed d loc [] ⟨none, [⟨h, [], [x], []⟩]⟩).record = x.record.block := by
  have hassoc : ∀ d, Fragment.firstBlock? d
      = ((Fragment.firstSection? d).bind (·.steps.head?)).bind (·.block) := by
    intro d
    rw [Option.bind_assoc]
    rfl
  rw [hassoc, firstSection?_step hd]
  rfl

end

/-! ### Parts behind a step -/

/-- The rows of a grid behind a step have the record of its table. -/
theorem exists_tableRecord {x : Ast.Step} {rows : List (List Text)} (hne : rows ≠ [])
    (hdoc : x.docString = none) (hx : x.table.map Ast.Row.values = rows) :
    ∃ t, x.record.block = some t ∧ t.isSound = true ∧ t.rows = x.table.map Ast.Row.record
      ∧ (Node.ofRecord none t).bare = (Block.table rows).node := by
  have hblock : x.record.block = Ast.tableRecord x.table := by simp [Ast.Step.record, hdoc]
  have hnode := Ast.bare_tableRecord none x.table
  cases htable : x.table with
  | nil =>
    rw [htable] at hx
    exact absurd hx.symm hne
  | cons first rest =>
    rw [htable] at hblock hnode hx
    refine ⟨_, hblock, @Ast.isSound_tableRecord (first :: rest) _ rfl, rfl, ?_⟩
    rw [hx] at hnode
    exact Option.some.inj hnode

/-- The cells of one row form a grid. -/
theorem grid_singleton {values : List Text} (hne : values ≠ [])
    (htidy : ∀ v ∈ values, Cell.Tidy v) :
    Grid [values] :=
  ⟨by simpa using hne, by simpa using htidy, by simp⟩

section

variable {d : Dialect} (hd : d ∈ Dialect.all) (hbullet : ['*', ' '] ∈ d.stepKeywords)
  (fallback : Value)

include hd hbullet

/-- The rows of a grid behind a step are read as its table. -/
theorem exists_parse_rows {rows : List (List Text)} (hne : rows ≠ []) (hgrid : Grid rows) :
    ∃ loc h x, x.docString = none ∧ x.table.map Ast.Row.values = rows
      ∧ Document.parse d (Fragment.inStep d.primaryKeywords
          (Text.joinLines (Layout.tableLines rows)))
        = .ok (framed d loc [] ⟨none, [⟨h, [], [x], []⟩]⟩) := by
  have hlines : Layout.tableLines rows ≠ [] := by
    simpa [Layout.tableLines, Layout.gridLines] using hne
  obtain ⟨document, ⟨loc, h, x, rfl, hdoc, hx⟩, hparse⟩ :=
    exists_parse_inStep hd hbullet (titleWord_frameScenario hd) hgrid.joinable hlines
      (Q := fun document => ∃ loc h x, document = framed d loc [] ⟨none, [⟨h, [], [x], []⟩]⟩
        ∧ x.docString = none ∧ x.table.map Ast.Row.values = rows)
      fun loc h x ls htable hdoc hls => by
        have hready : (behindStep d loc h x).Ready := ready_behind hd rfl rfl
        have hls' : Line.Spell ls ((Layout.tableLines rows).map (withMargin [])) := by
          rwa [map_withMargin_nil]
        have hnext : (behindStep d loc h x).place.next? .tableRow
            = some (.step .feature .scenario .table) := rfl
        obtain ⟨xs, hxs, hrun⟩ := passes_rows hready.distinct hready.fence hnext rfl
          (fun _ _ => rfl) (hready.settled _) .nil hne hgrid hls'
        have hrows : (behindStep d loc h x).document.onRows (behindStep d loc h x).place (· ++ xs)
            = framed d loc [] ⟨none, [⟨h, [], [{ x with table := x.table ++ xs }], []⟩]⟩ := rfl
        rw [htable, List.nil_append] at hrows
        rw [hrows] at hrun
        have hragged : Ast.firstRagged? xs = none := firstRagged?_eq_none (hxs ▸ hgrid)
        exact ⟨_, ⟨loc, h, { x with table := xs }, rfl, hdoc, hxs⟩, .step .feature .scenario .table,
          mayEnd_of_isWithin ⟨rfl, rfl⟩, hrun, hready.distinct, rfl, rfl,
          ParseState.settled_of_openRows hragged⟩
  refine ⟨loc, h, x, hdoc, hx, ?_⟩
  rw [inStep_joinLines hlines, ← inFeature_joinLines (by simp)]
  exact hparse

/-- A table that is a grid is read back. -/
theorem isReadBack_table {rows : List (List Text)} (hne : rows ≠ []) (hgrid : Grid rows) :
    IsReadBack d fallback .table (Layout.tableLines rows) (Block.table rows).node := by
  obtain ⟨loc, h, x, hdoc, hx, hparse⟩ := exists_parse_rows hd hbullet hne hgrid
  obtain ⟨t, hblock, hsound, -, hnode⟩ := exists_tableRecord hne hdoc hx
  have hwrapped : Document.parse d (Fragment.wrap d.primaryKeywords
      (Text.joinLines (Layout.tableLines rows)) .table)
      = .ok (framed d loc [] ⟨none, [⟨h, [], [x], []⟩]⟩) := by
    rw [Fragment.wrap]
    exact hparse
  exact Node.readPart_of_parse_in hd fallback hwrapped
    ((firstBlock?_framed hd loc h x).trans hblock) hsound hnode rfl

/-- A row of tidy cells is read back. -/
theorem isReadBack_row {values : List Text} (hne : values ≠ [])
    (htidy : ∀ v ∈ values, Cell.Tidy v) :
    IsReadBack d fallback .row (Layout.tableLines [values]) (rowNode values) := by
  obtain ⟨loc, h, x, hdoc, hx, hparse⟩ :=
    exists_parse_rows hd hbullet (List.cons_ne_nil _ _) (grid_singleton hne htidy)
  obtain ⟨t, hblock, -, hrows, -⟩ := exists_tableRecord (List.cons_ne_nil _ _) hdoc hx
  obtain ⟨r, htable, hr⟩ := List.map_eq_singleton_iff.mp hx
  have hwrapped : Document.parse d (Fragment.wrap d.primaryKeywords
      (Text.joinLines (Layout.tableLines [values])) .row)
      = .ok (framed d loc [] ⟨none, [⟨h, [], [x], []⟩]⟩) := by
    rw [Fragment.wrap]
    exact hparse
  have hselect : Fragment.select? (framed d loc [] ⟨none, [⟨h, [], [x], []⟩]⟩).record .row
      = some r.record := by
    have hfirst : (x.record.block.bind (·.rows.head?)) = some r.record := by
      rw [hblock, Option.bind_some, hrows, htable]
      rfl
    rw [← hfirst, ← firstBlock?_framed hd loc h x]
    rfl
  exact Node.readPart_of_parse_in hd fallback hwrapped hselect r.isSound_record
    ((r.bare_ofRecord none).trans (congrArg rowNode hr)) rfl

/-- A tidy cell is read back. -/
theorem isReadBack_cell {value : Text} (htidy : Cell.Tidy value) :
    IsReadBack d fallback .cell [Cell.escape value] (cellNode value) := by
  have hgrid : Grid [[value]] := grid_singleton (by simp) (by simpa using htidy)
  obtain ⟨loc, h, x, hdoc, hx, hparse⟩ := exists_parse_rows hd hbullet (List.cons_ne_nil _ _) hgrid
  obtain ⟨t, hblock, -, hrows, -⟩ := exists_tableRecord (List.cons_ne_nil _ _) hdoc hx
  obtain ⟨r, htable, hr⟩ := List.map_eq_singleton_iff.mp hx
  obtain ⟨c, hcells, hc⟩ := List.map_eq_singleton_iff.mp hr
  have hline : Text.joinLines (Layout.tableLines [[value]])
      = "| ".toList ++ Text.joinLines [Cell.escape value] ++ " |".toList := by
    simp [Layout.tableLines, Layout.gridLines, Layout.columnWidths, Layout.widest, Layout.widen,
      Layout.tableLine, Layout.padCells, Text.padRight]
  have hwrapped : Document.parse d (Fragment.wrap d.primaryKeywords
      (Text.joinLines [Cell.escape value]) .cell)
      = .ok (framed d loc [] ⟨none, [⟨h, [], [x], []⟩]⟩) := by
    rw [Fragment.wrap, ← hline]
    exact hparse
  have hselect : Fragment.select? (framed d loc [] ⟨none, [⟨h, [], [x], []⟩]⟩).record .cell
      = some c.record := by
    have hfirst : (x.record.block.bind fun t => t.rows.head?.bind (·.cells.head?))
        = some c.record := by
      rw [hblock, Option.bind_some, hrows, htable]
      simp [Ast.Row.record, hcells]
    rw [← hfirst, ← firstBlock?_framed hd loc h x]
    rfl
  exact Node.readPart_of_parse_in hd fallback hwrapped hselect (Record.isSound_of_kind (.inl rfl))
    ((c.bare_ofRecord none).trans (congrArg cellNode hc)) rfl

/-- The lines of a doc string are read as what comes back of it. -/
theorem isReadBack_reread_docString {content contentType : Text}
    (h : Quotable content contentType) :
    IsReadBack d fallback .docString (Layout.docStringLines content contentType)
      (Block.docString content contentType).reread.node := by
  have hne : Layout.docStringLines content contentType ≠ [] := List.cons_ne_nil _ _
  obtain ⟨document, ⟨loc, heading, x, t, rfl, hdoc, hblock⟩, hparse⟩ :=
    exists_parse_inStep hd hbullet (titleWord_frameScenario hd) h.joinable hne
      (Q := fun document => ∃ loc heading x t,
        document = framed d loc [] ⟨none, [⟨heading, [], [x], []⟩]⟩ ∧ x.docString = some t
          ∧ Block.docString t.content t.mediaType = (Block.docString content contentType).reread)
      fun loc heading x ls htable hdoc hls => by
        have hready : (behindStep d loc heading x).Ready := ready_behind hd rfl rfl
        have hls' : Line.Spell ls
            ((Layout.docStringLines content contentType).map (withMargin [])) := by
          rwa [map_withMargin_nil]
        obtain ⟨t, hblock, hrun⟩ := passes_docString rfl hready.distinct hready.fence .nil h hls'
        exact ⟨_, ⟨loc, heading, { x with docString := some t }, t, rfl, rfl, hblock⟩,
          .step .feature .scenario .text, mayEnd_of_isWithin ⟨rfl, rfl⟩, hrun,
          ready_behind hd rfl rfl⟩
  have hwrapped : Document.parse d (Fragment.wrap d.primaryKeywords
      (Text.joinLines (Layout.docStringLines content contentType)) .docString)
      = .ok (framed d loc [] ⟨none, [⟨heading, [], [x], []⟩]⟩) := by
    rw [Fragment.wrap, inStep_joinLines hne, ← inFeature_joinLines (by simp)]
    exact hparse
  have hselect : x.record.block = some t.record := by simp [Ast.Step.record, hdoc]
  rw [← hblock]
  exact Node.readPart_of_parse_in hd fallback hwrapped
    ((firstBlock?_framed hd loc heading x).trans hselect) t.isSound_record rfl rfl

/-- A doc string that can be fenced is read back. -/
theorem isReadBack_docString {content contentType : Text} (h : Fenceable content contentType) :
    IsReadBack d fallback .docString (Layout.docStringLines content contentType)
      (Block.docString content contentType).node := by
  have hback := isReadBack_reread_docString hd hbullet fallback h.quotable
  rwa [(Block.Fit.docString h).reread_eq] at hback

/-- Examples that fit are read back, in every dialect. -/
theorem Examples.isReadBack_in {p : Examples} (hp : p.Fit d) :
    IsReadBack d fallback .example p.lines p.node := by
  have hlegible := Examples.Fit.legible hp
  obtain ⟨hjoinable, hne⟩ := Examples.Legible.joinable hlegible
  obtain ⟨document, ⟨loc, h, x, e, rfl, rfl⟩, hparse⟩ :=
    exists_parse_inStep hd hbullet (titleWord_frameOutline hd) hjoinable hne
      (Q := fun document => ∃ loc h x e, document = framed d loc [] ⟨none, [⟨h, [], [x], [e]⟩]⟩
        ∧ e.plain = p)
      fun loc h x ls htable hdoc hls => by
        have hready : (behindStep d loc h x).Ready := ready_behind hd rfl rfl
        have hplace : (behindStep d loc h x).place.IsInScenario .feature := ⟨rfl, rfl, rfl⟩
        obtain ⟨e, he, hlead⟩ :=
          leads_examples (j := 0) hready hplace hlegible (by simpa using hls)
        exact ⟨_, ⟨loc, h, x, e, rfl, he.trans (Examples.Fit.reread_eq hp)⟩,
          hlead.mono fun _ hplace => mayEnd_of_isWithin hplace.isWithin⟩
  have hwrapped : Document.parse d (Fragment.wrap d.primaryKeywords
      (Text.joinLines e.plain.lines) .example)
      = .ok (framed d loc [] ⟨none, [⟨h, [], [x], [e]⟩]⟩) := by
    rw [Fragment.wrap, inOutline_joinLines hne, ← inFeature_joinLines (by simp)]
    exact hparse
  have hselect : Fragment.select? (framed d loc [] ⟨none, [⟨h, [], [x], [e]⟩]⟩).record .example
      = some e.record := by
    rw [← addRules_nil (framed d loc [] ⟨none, [⟨h, [], [x], [e]⟩]⟩), Fragment.select?,
      firstSection?_framed hd]
    rfl
  exact Node.readPart_of_parse_in hd fallback hwrapped hselect e.isSound_record
    (e.bare_ofRecord none) rfl

end

/-! ### Tags -/

/-- A tag is read back. -/
theorem isReadBack_tag {d : Dialect} (hd : d ∈ Dialect.all) (fallback : Value) {name : Text}
    (h : IsTag name) :
    IsReadBack d fallback .tag [name] (tagNode name) := by
  have htags : ∀ t ∈ [name], IsTag t := by simpa using h
  have hspell : Line.Spell
      (Line.ofText (Fragment.wrap d.primaryKeywords (Text.joinLines [name]) .tag))
      (tagLines [name] ++ [frameTitle d]) := by
    have hspell := spell_inFront hd (Line.oneLine_tagLine htags)
    have hlines : tagLines [name] ++ [frameTitle d] = [name, frameTitle d] := by simp [tagLines]
    rw [Line.tagLine_singleton] at hspell
    rwa [Fragment.wrap, Text.joinLines_singleton, hlines]
  obtain ⟨ts, loc, hts, hrun⟩ := passes_frame hd htags hspell
  obtain ⟨t, rfl, rfl⟩ := List.map_eq_singleton_iff.mp hts
  have hparse := parse_of_passes hrun (ParseState.settled_of_not_inTable rfl)
    (mayEnd_of_isBehindTitle ⟨.feature, rfl⟩) rfl
  exact Node.readPart_of_parse_in hd fallback hparse rfl t.isSound_record (t.bare_ofRecord none)
    rfl

/-! ### All parts -/

/-- The lines of a part that is fit are read, in the document around a part of its kind, as the
part, in every dialect that has the bullet of steps. -/
theorem Part.exists_read_in {d : Dialect} (hd : d ∈ Dialect.all)
    (hbullet : ['*', ' '] ∈ d.stepKeywords) (fallback : Value) {p : Part} (hp : p.Fit d) :
    IsReadBack d fallback p.node.kind p.lines p.node := by
  cases p with
  | tag name => exact isReadBack_tag hd fallback hp
  | cell value => exact isReadBack_cell hd hbullet fallback hp
  | row values => exact isReadBack_row hd hbullet fallback hp.1 hp.2
  | block b =>
    cases hp with
    | table hne hgrid => exact isReadBack_table hd hbullet fallback hne hgrid
    | docString hfenceable => exact isReadBack_docString hd hbullet fallback hfenceable
  | step s => exact Step.isReadBack hd fallback hp
  | background b => exact Background.isReadBack hd fallback hp
  | examples e => exact Examples.isReadBack_in hd hbullet fallback hp
  | scenario s => exact Scenario.isReadBack hd fallback hp
  | rule r => exact Rule.isReadBack hd fallback hp
  | feature f => exact Feature.isReadBack hd fallback hp

/-- Every part that fits English is read back in English. -/
theorem Part.exists_read (fallback : Value) {p : Part} (hp : p.Fit english) :
    IsReadBack english fallback p.node.kind p.lines p.node :=
  exists_read_in Dialect.english_mem (by decide) fallback hp

/-- Examples that fit English are read back in English. -/
theorem Examples.isReadBack (fallback : Value) {p : Examples} (hp : p.Fit english) :
    IsReadBack english fallback .example p.lines p.node :=
  isReadBack_in Dialect.english_mem (by decide) fallback hp

/-- No part is a feature file. -/
theorem Part.kind_ne_featureFile (p : Part) : p.node.kind ≠ .featureFile := by
  cases p with
  | block b => cases b <;> simp [node, Block.node, Node.kind, Node.shape, Shape.kind]
  | scenario s =>
    rcases s.kind_node with h | h <;> rw [node, h] <;> decide
  | _ => simp [node, tagNode, cellNode, rowNode, Step.node, Background.node, Examples.node,
      Rule.node, Feature.node, Node.kind, Node.shape, Shape.kind]

end Plain

namespace Node

/-- What stands anywhere below a file that was read is read back from its text on its own, as a part
of its kind that holds the same, and has the same text again. -/
theorem readPart_roundTrip {default : Value} {path source : Text} {n : Node} {d : Document}
    (hread : readFile default (.text english.name) path source = .ok n)
    (hparse : Document.parse english source = .ok d)
    (hlanguage : ∀ f ∈ d.feature, f.language = english.name)
    (hwritable : d.Obeys Ast.Law.writable) {m : Node} (hm : n.IsBelow m) (fallback : Value) :
    ∃ t m', m.text fallback = .ok t ∧ read default (.text english.name) [] t m.kind = .ok m'
      ∧ m'.bare = m.bare ∧ m'.text fallback = .ok t := by
  obtain ⟨f, hbare, hfit⟩ := exists_fit_of_readFile hread hparse hlanguage hwritable
  obtain ⟨q, hq, hqfit⟩ := Plain.Part.exists_of_isBelow hfit hbare hm
  obtain ⟨m', hm', hmbare⟩ := Plain.Part.exists_read default hqfit
  have hkind : m.kind = q.node.kind := by rw [← hq, kind_bare]
  refine ⟨_, m', text_of_lines (Plain.Part.lines_of_bare hqfit hq fallback), ?_,
    hmbare.trans hq.symm, text_of_lines (Plain.Part.lines_of_bare hqfit hmbare fallback)⟩
  rw [read, hkind, if_neg q.kind_ne_featureFile]
  exact hm'

/-- The feature of the small file is read back from its text. -/
theorem readPart_roundTrip_small :
    ∃ n m t m', readFile .null (.text english.name) []
        "@a\nFeature: b\n\n  c\n\n  Scenario: d\n    * e\n      | f |\n".toList = .ok n
      ∧ n.IsBelow m ∧ m.text .null = .ok t
      ∧ read .null (.text english.name) [] t m.kind = .ok m'
      ∧ m'.bare = m.bare ∧ m'.text .null = .ok t := by
  obtain ⟨d, hparse, hlanguage, hwritable, hfeature⟩ := exists_parse_small
  obtain ⟨n, hread, hbare⟩ := readFile_of_parse .null [] hparse
  obtain ⟨f, hf⟩ := Option.ne_none_iff_exists'.mp hfeature
  have hchildren : n.children.map bare = [f.plain.node] := by
    rw [← children_bare, hbare, hf]
    rfl
  obtain ⟨m, hm, -⟩ := List.map_eq_singleton_iff.mp hchildren
  have hbelow : n.IsBelow m := .child (by simp [hm])
  obtain ⟨t, m', h⟩ := readPart_roundTrip hread hparse hlanguage hwritable hbelow .null
  exact ⟨n, m, t, m', hread, hbelow, h⟩

end Node

end FeatureTree
