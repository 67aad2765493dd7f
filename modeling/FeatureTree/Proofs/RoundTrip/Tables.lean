import FeatureTree.Proofs.RoundTrip.Part
import FeatureTree.Proofs.Store.Keywords

/-!
# Tables that are built and read back

A table, a row or a cell that was built is written in columns, with its values escaped, and read
back from that in a small document around it. The values come back if they are trimmed, whatever
they hold otherwise: pipes, backslashes in any number, and line feeds, of which each is written as a
backslash and a letter. A row needs a cell, and the rows of a table need as many cells in each.

The document around a part is in the dialect of the reader, which may be left out, and all of this
holds in every dialect that has the bullet of steps.

## Main results

* `Plain.Part.roundTrips`: a part that needs no keyword is written as its lines and read back
* `Plain.Part.roundTrips_table_row_cell`: so are tables, rows and cells of trimmed values
-/

namespace FeatureTree

open Dialect (english)

/-! ### The dialect of a reader -/

/-- A name that was chosen is chosen again. -/
theorem Dialect.nameOr_nameOr (default name : Value) :
    nameOr default (nameOr default name) = nameOr default name := by
  by_cases h : name.isPresent = true
  · rw [nameOr, nameOr, if_pos h, if_pos h]
  · rw [nameOr, nameOr, if_neg h, ite_self]

/-- It makes no difference whether a dialect is named or left to the default. -/
theorem Node.read_nameOr (default dialect : Value) (path source : Text) (kind : Kind) :
    read default (Dialect.nameOr default dialect) path source kind
      = read default dialect path source kind := by
  simp only [read, readFile, readPart, DocumentRecord.parse, Dialect.keywordsFor,
    Dialect.nameOr_nameOr]

namespace Plain

/-! ### Parts -/

/-- Whether a part is written as its lines, as a tree on its own and by whatever node of a store
stands for it, and is read back from them. -/
structure Part.RoundTrips (default dialect : Value) (p : Part) : Prop where
  text : ∀ n : Node, n.bare = p.node → ∀ fallback, n.text fallback = .ok (Text.joinLines p.lines)
  store_text : ∀ (s : Store) (i : NodeId), s.Represents i p.node →
    s.text i = .ok (Text.joinLines p.lines)
  read : ∃ m, Node.read default dialect [] (Text.joinLines p.lines) p.node.kind = .ok m
    ∧ m.bare = p.node

/-- The node of a row has no origin to be forgotten. -/
theorem bare_rowNode (values : List Text) : (rowNode values).bare = rowNode values := by
  have hcell : Node.bare ∘ cellNode = cellNode := funext fun _ => rfl
  simp [rowNode, Node.bare_mk, Shape.map, Shape.withoutComments, hcell]

/-- The node of an argument knows nothing of its origin. -/
theorem Block.bare_node (b : Block) : b.node.bare = b.node := by
  cases b with
  | table rows =>
    have hrow : Node.bare ∘ rowNode = rowNode := funext bare_rowNode
    simp [node, Node.bare_mk, Shape.map, Shape.withoutComments, hrow]
  | docString content contentType => rfl

section

variable {d : Dialect} (hd : d ∈ Dialect.all) (hbullet : ['*', ' '] ∈ d.stepKeywords)
  {default dialect : Value} (hdialect : Dialect.nameOr default dialect = .text d.name)

include hd hbullet hdialect

/-- A part that is fit and needs no keyword is written as its lines and read back. -/
theorem Part.roundTrips {p : Part} (hp : p.Fit d) (hbare : p.node.bare = p.node)
    (hworded : p.node.IsWorded) : p.RoundTrips default dialect where
  text n hn fallback := Node.text_of_lines (Part.lines_of_bare hp hn fallback)
  store_text s i h := by
    rw [Store.text_of_prints (h.prints_of_worded hworded) .null]
    exact Node.text_of_lines (Part.lines_of_bare hp hbare .null)
  read := by
    obtain ⟨m, hm, hmbare⟩ := Part.exists_read_in hd hbullet default hp
    refine ⟨m, ?_, hmbare⟩
    rw [← Node.read_nameOr, hdialect, Node.read, if_neg p.kind_ne_featureFile]
    exact hm

/-- An argument that fits is written and read back. -/
theorem Block.roundTrips {b : Block} (hb : b.Fit) :
    (Part.block b).RoundTrips default dialect :=
  Part.roundTrips hd hbullet hdialect hb b.bare_node b.isWorded_node

/-- Tables, rows and cells of trimmed values are written and read back, whatever else the values
hold. -/
theorem Part.roundTrips_table_row_cell :
    (∀ (rows : List (List Text)) (k : Nat), rows ≠ [] → 0 < k →
      (∀ r ∈ rows, r.length = k ∧ ∀ v ∈ r, Text.Trimmed v) →
      (Part.block (.table rows)).RoundTrips default dialect)
    ∧ (∀ values : List Text, values ≠ [] → (∀ v ∈ values, v.Trimmed) →
      (Part.row values).RoundTrips default dialect)
    ∧ ∀ value : Text, value.Trimmed → (Part.cell value).RoundTrips default dialect := by
  refine ⟨fun rows k hne hk hrows => ?_, fun values hne hvalues => ?_, fun value hvalue => ?_⟩
  · have hgrid : Grid rows := {
      ne_nil := fun r hr => List.ne_nil_of_length_pos ((hrows r hr).1 ▸ hk)
      tidy := fun r hr v hv => Cell.tidy_of_trimmed ((hrows r hr).2 v hv)
      length_eq := fun r hr r' hr' => (hrows r hr).1.trans (hrows r' hr').1.symm }
    exact Block.roundTrips hd hbullet hdialect (.table hne hgrid)
  · have hfit : (Part.row values).Fit d :=
      ⟨hne, fun v hv => Cell.tidy_of_trimmed (hvalues v hv)⟩
    exact Part.roundTrips hd hbullet hdialect hfit (bare_rowNode values) (isWorded_rowNode values)
  · have hfit : (Part.cell value).Fit d := Cell.tidy_of_trimmed hvalue
    exact Part.roundTrips hd hbullet hdialect hfit rfl (isWorded_cellNode value)

end

/-- Values with pipes, backslashes and a line feed come back where the dialect is left out and
English is the default. -/
theorem Part.roundTrips_table_row_cell_english :
    (Part.block (.table [["|\\|".toList, "\\\\n".toList], [[], "a\nb".toList]])).RoundTrips
        (.text english.name) .null
      ∧ (Part.row ["\\n".toList, "\\\n|".toList]).RoundTrips (.text english.name) .null
      ∧ (Part.cell "\\\\\\".toList).RoundTrips (.text english.name) .null := by
  have hdialect : Dialect.nameOr (.text english.name) .null = .text english.name := rfl
  obtain ⟨htable, hrow, hcell⟩ :=
    Part.roundTrips_table_row_cell Dialect.english_mem (by decide) hdialect
  have hrows : ∀ r ∈ [["|\\|".toList, "\\\\n".toList], [[], "a\nb".toList]],
      r.length = 2 ∧ ∀ v ∈ r, Text.trim v = v := by
    decide
  have hvalues : ∀ v ∈ ["\\n".toList, "\\\n|".toList], Text.trim v = v := by decide
  have hvalue : Text.trim "\\\\\\".toList = "\\\\\\".toList := by decide
  exact ⟨htable _ 2 (by simp) (by simp) hrows, hrow _ (by simp) hvalues, hcell _ hvalue⟩

end Plain

end FeatureTree
