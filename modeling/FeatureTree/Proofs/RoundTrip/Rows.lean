import FeatureTree.Proofs.RoundTrip.Steps
import FeatureTree.Proofs.Schema.Written

/-!
# Tables and rows that are read, written and read again

The rows of a table that is read have as many cells in each, which may be none: a line with a single
pipe is a row without cells. Such a row is written like a row with one empty cell, between two
pipes, and comes back as that. All other rows come back with their cells, and the second text is the
first one in every case.

## Main results

* `Plain.isReadBack_reread_table`, `Plain.isReadBack_reread_row`: what comes back of rows
* `Node.rows_reread`: what comes back of tables and rows that were read
-/

namespace FeatureTree

open Ast (Document)
open Dialect (english)

namespace Plain

variable {rows : List (List Text)} {values : List Text}

/-! ### What comes back of rows -/

/-- A row has a cell once it is filled in. -/
theorem fillRow_ne_nil (values : List Text) : fillRow values ≠ [] := by
  rw [fillRow]
  split
  · simp
  · next h => simpa using h

/-- A row has nothing filled in if it has cells. -/
theorem fillRow_eq_self_iff : fillRow values = values ↔ values ≠ [] :=
  ⟨fun h => h ▸ fillRow_ne_nil values, fillRow_of_ne_nil⟩

/-- Rows come back as they are exactly if each of them has cells. -/
theorem map_fillRow_eq_self_iff : rows.map fillRow = rows ↔ [] ∉ rows := by
  constructor
  · intro h hnil
    rw [← h] at hnil
    obtain ⟨r, -, hr⟩ := List.mem_map.mp hnil
    exact fillRow_ne_nil r hr
  · intro h
    refine (List.map_congr_left fun r hr => ?_).trans (List.map_id rows)
    exact fillRow_of_ne_nil fun hnil => h (hnil ▸ hr)

/-- Cells are the same if their nodes are. -/
theorem cellNode_injective : Function.Injective cellNode := fun v v' h => by
  simpa [cellNode] using h

/-- Rows are the same if their nodes are. -/
theorem rowNode_injective : Function.Injective rowNode := fun r r' h => by
  simp only [rowNode, Node.mk.injEq, Shape.row.injEq, true_and] at h
  exact cellNode_injective.list_map h

/-- Tables are the same if their nodes are. -/
theorem Block.table_node_inj {rows' : List (List Text)} :
    (Block.table rows).node = (Block.table rows').node ↔ rows = rows' := by
  constructor
  · intro h
    simp only [node, Node.mk.injEq, Shape.table.injEq, true_and] at h
    exact rowNode_injective.list_map h
  · exact congrArg fun rows => (Block.table rows).node

/-- One row is an even table. -/
theorem even_singleton (htidy : ∀ v ∈ values, Cell.Tidy v) : Even [values] :=
  ⟨by simpa using htidy, by simp⟩

section

variable {d : Dialect} (hd : d ∈ Dialect.all) (hbullet : ['*', ' '] ∈ d.stepKeywords)
  (fallback : Value)

include hd hbullet

/-- The lines of even rows are read as what comes back of them. -/
theorem isReadBack_reread_table (hne : rows ≠ []) (heven : Even rows) :
    IsReadBack d fallback .table (Layout.tableLines rows)
      (Block.table (rows.map fillRow)).node := by
  rw [← tableLines_fillRow heven]
  exact isReadBack_table hd hbullet fallback (by simpa using hne) heven.grid

/-- A row of tidy cells is read back with a cell filled in if it has none. -/
theorem isReadBack_reread_row (htidy : ∀ v ∈ values, Cell.Tidy v) :
    IsReadBack d fallback .row (Layout.tableLines [values]) (rowNode (fillRow values)) := by
  have heven := even_singleton htidy
  rw [← tableLines_fillRow heven]
  exact isReadBack_row hd hbullet fallback (fillRow_ne_nil values) (heven.grid.tidy _ (by simp))

end

end Plain

/-! ### Rows that were read -/

namespace Node

variable {d : Dialect} {source path : Text} {n : Node}

/-- What was read behind a step that is legible, and is no doc string, are its rows. -/
theorem exists_rows_of_block {x : Ast.Step} {t : Record} (hlegible : x.plain.Legible d)
    (h : x.record.block = some t) (hdoc : x.docString = none) :
    x.table ≠ [] ∧ t.rows = x.table.map Ast.Row.record
      ∧ Plain.Even (x.table.map Ast.Row.values)
      ∧ (ofRecord none t).bare = (Plain.Block.table (x.table.map Ast.Row.values)).node := by
  have hne : x.table ≠ [] := by
    intro hnil
    simp [Ast.Step.record, hdoc, hnil, Ast.tableRecord] at h
  obtain ⟨t', ht', -, hrows, hnode⟩ := Plain.exists_tableRecord (by simpa using hne) hdoc rfl
  obtain rfl : t' = t := Option.some.inj (ht'.symm.trans h)
  have hblock : x.plain.block = some (.table (x.table.map Ast.Row.values)) := by
    simp [Ast.Step.plain, hdoc, hne]
  refine ⟨hne, hrows, ?_, hnode⟩
  cases hlegible.block _ hblock with
  | table _ heven => exact heven

/-- The first argument of a document is that of its first step. -/
theorem exists_step_of_firstBlock? {document : DocumentRecord} {t : Record}
    (h : Fragment.firstBlock? document = some t) :
    ∃ y, (Fragment.firstSection? document).bind (·.steps.head?) = some y ∧ y.block = some t := by
  obtain ⟨q, hq, h⟩ := Option.bind_eq_some_iff.mp h
  obtain ⟨y, hy, h⟩ := Option.bind_eq_some_iff.mp h
  exact ⟨y, Option.bind_eq_some_iff.mpr ⟨q, hq, hy⟩, h⟩

section

variable (hd : d ∈ Dialect.all) {default dialect : Value}
  (hdialect : Dialect.nameOr default dialect = .text d.name)

include hd hdialect

/-- A table that is read has rows with as many cells in each. -/
theorem exists_rows_of_read_table (h : read default dialect path source .table = .ok n) :
    ∃ rows, rows ≠ [] ∧ Plain.Even rows ∧ n.bare = (Plain.Block.table rows).node := by
  have hkind := (isWritten_of_read h).2
  rw [← read_nameOr, hdialect] at h
  obtain ⟨document, r, hparse, hselect, hn⟩ := exists_parse_of_readPart_in hd h
  have hbare := bare_of_build hn
  obtain ⟨y, hy, hblock⟩ := exists_step_of_firstBlock? hselect
  obtain ⟨x, rfl, -, hlegible⟩ := exists_legible_step hd hparse hy
  have hdoc : x.docString = none := by
    cases hdoc : x.docString with
    | none => rfl
    | some t =>
      have hrecord : r.bare = t.record := by simpa [Ast.Step.record, hdoc] using hblock.symm
      rw [← kind_bare, hbare, hrecord] at hkind
      cases hkind
  obtain ⟨hne, -, heven, hnode⟩ := exists_rows_of_block hlegible hblock hdoc
  exact ⟨_, by simpa using hne, heven, hbare.trans hnode⟩

/-- A row that is read has values without padding. -/
theorem exists_values_of_read_row (h : read default dialect path source .row = .ok n) :
    ∃ values, (∀ v ∈ values, Cell.Tidy v) ∧ n.bare = Plain.rowNode values := by
  rw [← read_nameOr, hdialect] at h
  obtain ⟨document, r, hparse, hselect, hn⟩ := exists_parse_of_readPart_in hd h
  obtain ⟨t, ht, hfirst⟩ := Option.bind_eq_some_iff.mp hselect
  obtain ⟨y, hy, hblock⟩ := exists_step_of_firstBlock? ht
  obtain ⟨x, rfl, -, hlegible⟩ := exists_legible_step hd hparse hy
  have hdoc : x.docString = none := by
    cases hdoc : x.docString with
    | none => rfl
    | some s =>
      have hrecord : t = s.record := by simpa [Ast.Step.record, hdoc] using hblock.symm
      rw [hrecord] at hfirst
      cases hfirst
  obtain ⟨-, hrows, heven, -⟩ := exists_rows_of_block hlegible hblock hdoc
  rw [hrows] at hfirst
  obtain ⟨row, hrow, hrecord⟩ := List.mem_map.mp (List.mem_of_mem_head? (Option.mem_def.mpr hfirst))
  refine ⟨row.values, heven.tidy _ (List.mem_map_of_mem hrow), ?_⟩
  rw [bare_of_build hn, ← hrecord, Ast.Row.bare_ofRecord]

variable (hbullet : ['*', ' '] ∈ d.stepKeywords)

include hbullet

/-- Tables and rows that were read are written and read again, and then they have the same text.
They hold the same exactly if each row has cells; else it has one empty cell afterwards. -/
theorem rows_reread (fallback : Value) :
    (∀ (path source : Text) (n : Node), read default dialect path source .table = .ok n →
      ∃ (rows : List (List Text)) (t : Text) (m : Node), n.bare = (Plain.Block.table rows).node
        ∧ n.text fallback = .ok t ∧ read default dialect path t .table = .ok m
        ∧ m.bare = (Plain.Block.table (rows.map Plain.fillRow)).node
        ∧ m.text fallback = .ok t ∧ (m.bare = n.bare ↔ [] ∉ rows))
    ∧ ∀ (path source : Text) (n : Node), read default dialect path source .row = .ok n →
      ∃ (values : List Text) (t : Text) (m : Node), n.bare = Plain.rowNode values
        ∧ n.text fallback = .ok t ∧ read default dialect path t .row = .ok m
        ∧ m.bare = Plain.rowNode (Plain.fillRow values)
        ∧ m.text fallback = .ok t ∧ (m.bare = n.bare ↔ values ≠ []) := by
  have hreads : ∀ {path t : Text} {kind : Kind} {m : Node}, kind ≠ .featureFile →
      readPart default (.text d.name) t kind = .ok m →
      read default dialect path t kind = .ok m := by
    intro path t kind m hkind hm
    rw [← read_nameOr, hdialect, read, if_neg hkind]
    exact hm
  constructor
  · intro path source n hread
    obtain ⟨rows, hne, heven, hbare⟩ := exists_rows_of_read_table hd hdialect hread
    obtain ⟨m, hm, hmbare⟩ := Plain.isReadBack_reread_table hd hbullet default hne heven
    have htext := text_of_lines ((Plain.Block.table rows).shows_of_bare fallback hbare)
    have hmtext := text_of_lines
      ((Plain.Block.table (rows.map Plain.fillRow)).shows_of_bare fallback hmbare)
    rw [Plain.Block.lines, Plain.tableLines_fillRow heven] at hmtext
    refine ⟨rows, _, m, hbare, htext, hreads (by decide) hm, hmbare, hmtext, ?_⟩
    rw [hmbare, hbare, Plain.Block.table_node_inj, Plain.map_fillRow_eq_self_iff]
  · intro path source n hread
    obtain ⟨values, htidy, hbare⟩ := exists_values_of_read_row hd hdialect hread
    obtain ⟨m, hm, hmbare⟩ := Plain.isReadBack_reread_row hd hbullet default htidy
    have htext := text_of_lines (Plain.Part.lines_of_bare_row hbare fallback)
    have hmtext := text_of_lines (Plain.Part.lines_of_bare_row hmbare fallback)
    have hfill : Layout.tableLines [Plain.fillRow values] = Layout.tableLines [values] :=
      Plain.tableLines_fillRow (Plain.even_singleton htidy)
    rw [hfill] at hmtext
    refine ⟨values, _, m, hbare, htext, hreads (by decide) hm, hmbare, hmtext, ?_⟩
    rw [hmbare, hbare, Plain.rowNode_injective.eq_iff, Plain.fillRow_eq_self_iff]

end

/-- A step with a table of one row without cells. -/
def emptyRowStep : Ast.Step where
  loc := ⟨3, 1⟩
  keyword := "* ".toList
  role := .unknown
  text := "fake step".toList
  table := [⟨⟨4, 1⟩, []⟩]
  docString := none

/-- A line with a single pipe, in English. -/
theorem exists_read_pipe : ∃ n, read .null (.text english.name) [] ['|'] .table = .ok n
    ∧ n.bare = (Plain.Block.table [[]]).node := by
  have hparse : Document.parse english (Fragment.wrap english.primaryKeywords ['|'] .table)
      = .ok (Plain.framed english ⟨1, 1⟩ [] ⟨none, [⟨.ofTitle ⟨2, 1⟩
          ⟨english.primaryKeywords.scenario, []⟩, [], [emptyRowStep], []⟩]⟩) := by
    decide
  have hdoc : emptyRowStep.docString = none := rfl
  have hrows : emptyRowStep.table.map Ast.Row.values = [[]] := rfl
  obtain ⟨t, hblock, hsound, -, hnode⟩ :=
    Plain.exists_tableRecord (List.cons_ne_nil [] []) hdoc hrows
  exact readPart_of_parse_in Dialect.english_mem .null hparse
    ((Plain.firstBlock?_framed Dialect.english_mem _ _ emptyRowStep).trans hblock) hsound hnode rfl

/-- The row without cells is written between two pipes, and comes back with an empty cell. -/
theorem rows_reread_pipe :
    ∃ (n : Node) (t : Text) (m : Node),
      read .null (.text english.name) [] ['|'] .table = .ok n
      ∧ n.bare = (Plain.Block.table [[]]).node ∧ n.text .null = .ok t
      ∧ read .null (.text english.name) [] t .table = .ok m
      ∧ m.bare = (Plain.Block.table [[[]]]).node ∧ m.bare ≠ n.bare := by
  have hdialect : Dialect.nameOr .null (.text english.name) = .text english.name := rfl
  obtain ⟨n, hn, hbare⟩ := exists_read_pipe
  obtain ⟨rows, t, m, hrows, ht, hm, hmbare, -, hiff⟩ :=
    (rows_reread Dialect.english_mem hdialect (by decide) .null).1 [] ['|'] n hn
  obtain rfl : rows = [[]] := Plain.Block.table_node_inj.mp (hrows.symm.trans hbare)
  exact ⟨n, t, m, hn, hbare, ht, hm, hmbare, fun h => hiff.mp h (by simp)⟩

end Node

end FeatureTree
