import FeatureTree.Proofs.RoundTrip.Part
import FeatureTree.Proofs.RoundTrip.Sources
import FeatureTree.Proofs.Store.ExampleRows

/-!
# Examples whose rows come and go are read back

Examples that are read from a text stay a table while rows are added and removed: the row of
parameters stays the first, every row has as many cells as it has, what was added is trimmed, and
rows and cells are attached to what lists them. After every run the text of the examples is read
back as examples with the same values.

A row is added from a mapping, or from a sequence of as many items as there are parameters; rows are
removed by whatever data. An operation that fails changes nothing.

## Main results

* `Store.RowInvariant.next`: what one operation on rows keeps
* `Store.exists_rowsKept_of_run`: what holds after a run of operations on rows
-/

namespace FeatureTree

open Dialect (english)

namespace Plain.Examples

variable {p : Examples}

/-- The node of examples knows nothing of its origin. -/
theorem bare_node (p : Examples) : p.node.bare = p.node := by
  have htag : Node.bare ∘ tagNode = tagNode := funext fun _ => rfl
  have hrow : Node.bare ∘ rowNode = rowNode := funext fun values => by
    have hcell : Node.bare ∘ cellNode = cellNode := funext fun _ => rfl
    simp [rowNode, Node.bare_mk, Shape.map, Shape.withoutComments, hcell]
  simp [node, Node.bare_mk, Shape.map, Shape.withoutComments, htag, hrow]

/-- Examples that are fit have a keyword, and nothing in them misses one. -/
theorem Fit.isWorded (hp : p.Fit english) : p.node.IsWorded := by
  refine .mk (fun v hv => ?_) p.heading.values_title (List.forall_mem_append.mpr ⟨?_, ?_⟩)
  · obtain rfl := Option.some.inj hv
    simpa [Heading.title, Value.isPresent] using hp.heading.word.ne_nil
  · simpa using fun t _ => isWorded_tagNode t
  · simpa using fun r _ => isWorded_rowNode r

end Plain.Examples

namespace Store

variable {s t : Store} {i j : NodeId} {name : String} {n : Node}

/-! ### Names -/

/-- Letting a name hold a node leaves other names alone. -/
theorem held?_hold_of_ne {name' : String} (h : name ≠ name') (s : Store) (j : Option NodeId) :
    (s.hold name' j).held? name = s.held? name := by
  have hne : (name == name') = false := by simpa using h
  rw [held?, held?, hold, release, List.lookup_cons, hne]
  exact (lookup_filter_ne name' name s.held).trans (by simp [hne])

/-- A node that a name holds is in reach. -/
theorem reaches_of_held? (h : s.held? name = some (some i)) (hi : i < s.size) : s.Reaches i :=
  .held hi (List.mem_filterMap.mpr ⟨(name, some i), Value.mem_of_lookup h, rfl⟩)

/-! ### Examples that are read -/

/-- The text of examples that are fit consists of their lines. -/
theorem Holds.text_eq {h : Plain.Heading} {tags : List (NodeId × Text)}
    {rows : List (NodeId × List Text)} (hh : s.Holds i h tags rows)
    {p : Plain.Examples} (hp : p = ⟨h, tags.map Prod.snd, rows.map Prod.snd⟩)
    (hfit : p.Fit english) : s.text i = .ok (Text.joinLines p.lines) := by
  have hrepresents := hh.represents
  rw [← hp] at hrepresents
  rw [text_of_prints (hrepresents.prints_of_worded hfit.isWorded) .null]
  exact Node.text_of_lines (Plain.Part.lines_of_bare (p := .examples p) hfit p.bare_node .null)

/-- A tree that says what examples say, planted and held by a name, holds them. -/
theorem exists_holds_of_plant {p : Plain.Examples} (hn : n.bare = p.node) (s : Store)
    (name : String) :
    ∃ tags rows, ((s.plant n).2.hold name (some (s.plant n).1)).Holds (s.plant n).1 p.heading tags
        rows ∧ tags.map Prod.snd = p.tags ∧ rows.map Prod.snd = p.rows := by
  have hgrown := grown_plant n.within_any s
  have hrepresents : (s.plant n).2.Represents (s.plant n).1 p.node := by
    rw [← hn]
    exact (represents_plant n s).bare (.of_bare (hn ▸ p.isInner_node))
  obtain ⟨tags, rows, hholds, htags, hrows⟩ := hrepresents.exists_holds fun e he =>
    hgrown.parts_nodup _ e (hgrown.tops_new _ (by simp)).1 he
  exact ⟨tags, rows, hholds.of_entries rfl, htags, hrows⟩

end Store

/-- An operation adds a row to examples, or removes one. A sequence has as many items as there are
parameters, and a row does not take the name that holds the examples. -/
inductive Operation.OnRows (i : NodeId) (name : String) (parameters : Nat) : Operation → Prop
  | addRow (data : RowData) (given : Option String)
    (fits : ∀ items, data = .sequence items → items.length = parameters)
    (other : given ≠ some name) : OnRows i name parameters (.addRow i data given)
  | removeRow (data : RowData) : OnRows i name parameters (.removeRow i data)

namespace Store

variable {s : Store} {i : NodeId} {name : String} {base : Nat} {h : Plain.Heading}
  {tags : List (NodeId × Text)} {first : NodeId × List Text} {rows : List (NodeId × List Text)}

/-- What operations on rows keep: a name holds examples that can be written, the first row is the
same as ever, and the rows since a number of nodes are trimmed. -/
structure RowInvariant (base : Nat) (name : String) (i : NodeId) (h : Plain.Heading)
    (tags : List (NodeId × Text)) (first : NodeId × List Text) (s : Store)
    (rows : List (NodeId × List Text)) : Prop where
  held : s.held? name = some (some i)
  holds : s.Holds i h tags (first :: rows)
  fit : (Plain.Examples.mk h (tags.map Prod.snd) ((first :: rows).map Prod.snd)).Fit english
  trimmed : ∀ r ∈ rows, base ≤ r.1 → ∀ v ∈ r.2, v.Trimmed
  le : base ≤ s.size

namespace RowInvariant

variable (hk : RowInvariant base name i h tags first s rows)

include hk

/-- The examples are in reach. -/
theorem reaches : s.Reaches i := by
  obtain ⟨e, entry, -⟩ := hk.holds.entry
  exact reaches_of_held? hk.held (get?_lt entry)

/-- The row of parameters has cells. -/
theorem first_ne_nil : first.2 ≠ [] := hk.fit.grid.ne_nil _ List.mem_cons_self

/-- Every row has as many cells as there are parameters. -/
theorem length_eq {r : NodeId × List Text} (hr : r ∈ rows) : r.2.length = first.2.length :=
  hk.fit.grid.length_eq _ (List.mem_map_of_mem (List.mem_cons_of_mem _ hr)) _ List.mem_cons_self

/-- Examples can still be written when rows of as many tidy cells come and others go. -/
theorem fit_of_rows {rows' : List (NodeId × List Text)}
    (hrows : ∀ r ∈ rows', r ∈ rows ∨ r.2.length = first.2.length ∧ ∀ v ∈ r.2, v.Trimmed) :
    (Plain.Examples.mk h (tags.map Prod.snd) ((first :: rows').map Prod.snd)).Fit english := by
  have hrow : ∀ v ∈ (first :: rows').map Prod.snd,
      v.length = first.2.length ∧ ∀ c ∈ v, Cell.Tidy c := by
    intro v hv
    obtain ⟨r, hr, rfl⟩ := List.mem_map.mp hv
    have hold : r ∈ first :: rows → r.2.length = first.2.length ∧ ∀ c ∈ r.2, Cell.Tidy c :=
      fun hr => ⟨hk.fit.grid.length_eq _ (List.mem_map_of_mem hr) _ List.mem_cons_self,
        hk.fit.grid.tidy _ (List.mem_map_of_mem hr)⟩
    rcases List.mem_cons.mp hr with rfl | hr
    · exact hold List.mem_cons_self
    · rcases hrows r hr with hr | ⟨hlength, htrimmed⟩
      · exact hold (List.mem_cons_of_mem _ hr)
      · exact ⟨hlength, fun c hc => Cell.tidy_of_trimmed (htrimmed c hc)⟩
  refine ⟨hk.fit.heading, hk.fit.tags, fun v hv => ?_, fun v hv => (hrow v hv).2,
    fun v hv w hw => (hrow v hv).1.trans (hrow w hw).1.symm⟩
  have hpos := List.length_pos_of_ne_nil hk.first_ne_nil
  exact List.ne_nil_of_length_pos ((hrow v hv).1 ▸ hpos)

/-- An operation on rows keeps what it should. -/
theorem next {op : Operation} (hop : op.OnRows i name first.2.length) :
    ∃ rows', RowInvariant base name i h tags first (s.next op) rows' := by
  cases hop with
  | addRow data given fits other =>
    cases hadd : s.addRow i data with
    | error f =>
      have hperform : s.perform (.addRow i data given) = .error f := by
        rw [perform, hadd]
        rfl
      rw [next_of_error hperform]
      exact ⟨rows, hk⟩
    | ok result =>
      obtain ⟨texts, htexts⟩ := exists_rowTexts_of_addRow hadd
      have hfits : data.Fits first.2.length := by
        cases data with
        | mapping pairs => trivial
        | sequence items => exact fits items rfl
        | unsupported kindName => cases htexts
      obtain ⟨row, t, hadd, hholds, hlength, htrimmed, hrow, hsize, hheld⟩ :=
        hk.holds.exists_addRow hk.first_ne_nil hfits htexts
      have hperform : s.perform (.addRow i data given)
          = .ok ((given.map fun name => t.hold name (some row)).getD t) := by
        rw [perform, hadd]
        rfl
      have ht : RowInvariant base name i h tags first t (rows ++ [(row, texts)]) := by
        refine ⟨by rw [held?, hheld]; exact hk.held, hholds, hk.fit_of_rows fun r hr => ?_,
          fun r hr hle => ?_, Nat.le_trans hk.le hsize⟩
        · rcases List.mem_append.mp hr with hr | hr
          · exact .inl hr
          · obtain rfl := List.mem_singleton.mp hr
            exact .inr ⟨hlength, htrimmed⟩
        · rcases List.mem_append.mp hr with hr | hr
          · exact hk.trimmed r hr hle
          · obtain rfl := List.mem_singleton.mp hr
            exact htrimmed
      rw [next_of_ok hperform]
      refine ⟨rows ++ [(row, texts)], ?_⟩
      cases given with
      | none => exact ht
      | some name' =>
        have hne : name ≠ name' := fun heq => other (by rw [heq])
        exact ⟨(held?_hold_of_ne hne t _).trans ht.held, ht.holds.of_entries rfl, ht.fit,
          ht.trimmed, ht.le⟩
  | removeRow data =>
    cases hperform : s.perform (.removeRow i data) with
    | error f =>
      rw [next_of_error hperform]
      exact ⟨rows, hk⟩
    | ok t =>
      rw [next_of_ok hperform]
      obtain ⟨rows', hsub, hholds, hsize, hheld⟩ := hk.holds.removeRow hk.reaches hperform
      exact ⟨rows', by rw [held?, hheld]; exact hk.held, hholds,
        hk.fit_of_rows fun r hr => .inl (hsub.subset hr),
        fun r hr => hk.trimmed r (hsub.subset hr), hsize ▸ hk.le⟩

/-- So does a run of operations on rows. -/
theorem run {ops : List Operation} (hops : ∀ op ∈ ops, op.OnRows i name first.2.length) :
    ∃ rows', RowInvariant base name i h tags first (ops.foldl Store.next s) rows' := by
  induction ops generalizing s rows with
  | nil => exact ⟨rows, hk⟩
  | cons op ops ih =>
    rw [List.forall_mem_cons] at hops
    obtain ⟨rows', hk'⟩ := hk.next hops.1
    exact ih hk' hops.2

end RowInvariant

/-! ### From a text to a text -/

/-- Making examples from a text reads them, plants them and lets a name hold them. -/
theorem make_examples_inv {s t : Store} {path source : Text}
    (hmade : s.perform (.make (.text .example (.text english.name) path source) name) = .ok t)
    (hi : t.held? name = some (some i)) :
    ∃ n, Node.readPart s.dialect (.text english.name) source .example = .ok n
      ∧ t = (s.plant n).2.hold name (some (s.plant n).1) ∧ i = (s.plant n).1 := by
  obtain ⟨n, u, hn, hu, ht⟩ := make_inv hmade
  have hplant : s.plant n = u := hu
  have hread : Node.readPart s.dialect (.text english.name) source .example = .ok n := hn
  subst hplant ht
  rw [held?_hold, Option.some.injEq, Option.some.injEq] at hi
  exact ⟨n, hread, rfl, hi.symm⟩

/-- Examples with parameters that were made from a text are what operations on rows keep. -/
theorem exists_rowInvariant {s t : Store} {path source : Text}
    (hsource : ∀ c ∈ source, isLineBreak c = true → c = '\n')
    (hmade : s.perform (.make (.text .example (.text english.name) path source) name) = .ok t)
    (hi : t.held? name = some (some i)) {values : List Value}
    (hvalues : t.parameters i = .ok (.list values)) (hne : values ≠ []) :
    ∃ h tags first rows, RowInvariant t.size name i h tags first t rows
      ∧ first.2.map .text = values := by
  obtain ⟨n, hread, rfl, rfl⟩ := make_examples_inv hmade hi
  obtain ⟨p, hn, hfit⟩ := Node.exists_examples_of_readPart hread hsource
  obtain ⟨tags, rows, hholds, htags, hrows⟩ := exists_holds_of_plant hn s name
  cases rows with
  | nil =>
    have hnil := hholds.parameters_nil.symm.trans hvalues
    cases hnil
    exact absurd rfl hne
  | cons first rows =>
    have heq := hholds.parameters.2.symm.trans hvalues
    obtain rfl : first.2.map Value.text = values := Value.list.inj (Except.ok.inj heq)
    refine ⟨p.heading, tags, first, rows, ⟨hi, hholds, ?_, fun r hr hle => ?_, Nat.le_refl _⟩, rfl⟩
    · rw [htags, hrows]
      refine hfit fun r hr => ?_
      rw [← hrows] at hr
      obtain rfl : first.2 = r := Option.some.inj hr
      simpa using hne
    · -- a row with an identity from later on would not be there yet
      have hlt := lt_of_remembered (hholds.row r (List.mem_cons_of_mem _ hr)).1
      exact absurd hlt (Nat.not_lt.mpr hle)

/-- Examples that hold what can be written are read back from their text, into whatever name. -/
theorem RowInvariant.exists_make (hk : RowInvariant base name i h tags first s rows) (path : Text)
    (name' : String) :
    ∃ t u j table, s.text i = .ok t
      ∧ s.perform (.make (.text .example (.text english.name) path t) name') = .ok u
      ∧ u.held? name' = some (some j) ∧ u.IsTable j table
      ∧ table.map (·.2.map Prod.snd) = (first :: rows).map Prod.snd := by
  obtain ⟨n, hn, hbare⟩ := Plain.Examples.isReadBack s.dialect hk.fit
  obtain ⟨tags', rows', hholds, -, hrows⟩ := exists_holds_of_plant hbare s name'
  have hread : Node.read s.dialect (.text english.name) path _ .example = .ok n := hn
  have hheld := held?_hold (s.plant n).2 name' (some (s.plant n).1)
  obtain ⟨e, entry, -⟩ := hholds.entry
  obtain ⟨table, htable, hvalues⟩ :=
    hholds.exists_isTable (reaches_of_held? hheld (get?_lt entry))
  refine ⟨_, _, _, table, hk.holds.text_eq rfl hk.fit, ?_, hheld, htable, ?_⟩
  · simp only [perform, Making.keep, Making.node, hread, bind, Except.bind]
    rfl
  · refine Eq.trans ?_ hrows
    rw [← hvalues, List.map_map]
    rfl

/-- What holds of examples after a run of operations on rows that began in a store. The first row is
the row of parameters that it was then; all rows have as many cells; rows that were not there then
have trimmed cells; rows can still be added from data that has texts; and the text of the examples
is read back as examples with the same values. -/
structure RowsKept (before s : Store) (i : NodeId) (parameters : List Value)
    (first : NodeId × List (NodeId × Text)) (rows : List (NodeId × List (NodeId × Text))) :
    Prop where
  table : s.IsTable i (first :: rows)
  same : before.parameterRow i = .ok (.node first.1)
  parameters : first.2.map (fun c => .text c.2) = parameters
  even : ∀ r ∈ rows, r.2.length = first.2.length
  trimmed : ∀ r ∈ rows, before.size ≤ r.1 → ∀ c ∈ r.2, c.2.Trimmed
  grows : ∀ (data : RowData) (texts : List Text), data.Fits first.2.length →
    s.rowTexts i data = .ok texts → ∃ row t, s.addRow i data = .ok (row, t)
  readBack : ∀ path name, ∃ t u j table, s.text i = .ok t
    ∧ s.perform (.make (.text .example (.text english.name) path t) name) = .ok u
    ∧ u.held? name = some (some j) ∧ u.IsTable j table
    ∧ table.map (·.2.map Prod.snd) = (first :: rows).map (·.2.map Prod.snd)

/-- Examples with parameters that were read in English, from a text without odd line breaks, keep
their parameters and stay a table that is read back, whichever rows are added and removed. -/
theorem exists_rowsKept_of_run {before start : Store} {path source : Text}
    (hsource : ∀ c ∈ source, isLineBreak c = true → c = '\n')
    (hmade : before.perform (.make (.text .example (.text english.name) path source) name)
      = .ok start)
    (hi : start.held? name = some (some i)) {parameters : List Value}
    (hparameters : start.parameters i = .ok (.list parameters)) (hne : parameters ≠ [])
    {ops : List Operation} (hops : ∀ op ∈ ops, op.OnRows i name parameters.length) :
    ∃ first rows, RowsKept start (ops.foldl Store.next start) i parameters first rows := by
  obtain ⟨h, tags, first, rows, hk, rfl⟩ :=
    exists_rowInvariant hsource hmade hi hparameters hne
  rw [List.length_map] at hops
  obtain ⟨rows', hk'⟩ := hk.run hops
  obtain ⟨table, htable, hvalues⟩ := hk'.holds.exists_isTable hk'.reaches
  cases table with
  | nil => cases hvalues
  | cons head table =>
    rw [List.map_cons, List.cons.injEq] at hvalues
    obtain ⟨rfl, rfl⟩ := hvalues
    refine ⟨head, table, htable, hk.holds.parameters.1, by simp, fun r hr => ?_,
      fun r hr hle c hc => ?_, fun data texts hfits htexts => ?_, fun path name' => ?_⟩
    · have hlength := hk'.length_eq (List.mem_map_of_mem hr)
      simpa using hlength
    · exact hk'.trimmed _ (List.mem_map_of_mem hr) hle _ (List.mem_map_of_mem hc)
    · obtain ⟨row, t, hadd, -⟩ :=
        hk'.holds.exists_addRow hk'.first_ne_nil (by simpa using hfits) htexts
      exact ⟨row, t, hadd⟩
    · obtain ⟨t, u, j, table', htext, hmake, hheld, htable', hsame⟩ := hk'.exists_make path name'
      exact ⟨t, u, j, table', htext, hmake, hheld, htable',
        by simpa [Function.comp_def] using hsame⟩

/-- Examples with one parameter and one row of arguments. -/
def oneParameter : Plain.Examples :=
  ⟨⟨"Examples".toList, [], []⟩, [], [[['a']], [['1']]]⟩

/-- Examples with one parameter fit English. -/
theorem fit_oneParameter : oneParameter.Fit english := by
  have hword : english.TitleWord .examplesLine "Examples".toList :=
    Dialect.titleWord_english (by decide) (by decide)
  have hfree : ∀ l ∈ Text.splitLines [], Plain.Free english .examplesLine l := by
    intro l hl
    obtain rfl := List.mem_singleton.mp hl
    exact Plain.free_nil (Dialect.distinct_of_mem Dialect.english_mem) _
  have htidy : ∀ c ∈ ['a', '1'], Cell.Tidy [c] := by
    intro c hc
    have hpadding : (['a', '1'].all fun c => !Cell.isPadding c) = true := by decide
    have hc := List.all_eq_true.mp hpadding c hc
    exact ⟨by simpa using hc, by simpa using hc⟩
  have hgrid : Plain.Grid [[['a']], [['1']]] :=
    ⟨by simp, by simpa using htidy, by simp⟩
  have hheading : (Plain.Heading.mk "Examples".toList [] []).Fit english .examplesLine :=
    ⟨hword, Text.trimmed_nil, List.not_mem_nil, Text.normal_trimDescription [], hfree⟩
  exact ⟨hheading, List.forall_mem_nil _, hgrid⟩

/-- A row of a pipe is added, the row of parameters is not removed, and the row that was read is. -/
theorem exists_rowsKept_of_run_oneParameter :
    ∃ start i first rows, ({} : Store).perform (.make (.text .example (.text english.name) []
        "Examples:\n  | a |\n  | 1 |".toList) "examples") = .ok start
      ∧ start.held? "examples" = some (some i) ∧ start.parameters i = .ok (.list [.text ['a']])
      ∧ RowsKept start ([Operation.addRow i (.sequence [.text " |".toList]) (some "row"),
          .removeRow i (.sequence [.text ['a']]),
          .removeRow i (.mapping [(.text ['a'], .int 1)])].foldl Store.next start)
        i [.text ['a']] first rows := by
  obtain ⟨n, hn, hbare⟩ := Plain.Examples.isReadBack (({} : Store).dialect) fit_oneParameter
  have hlines : Text.joinLines oneParameter.lines = "Examples:\n  | a |\n  | 1 |".toList := by
    decide
  rw [hlines] at hn
  have hmade : ({} : Store).perform (.make (.text .example (.text english.name) []
      "Examples:\n  | a |\n  | 1 |".toList) "examples")
      = .ok ((({} : Store).plant n).2.hold "examples" (some (({} : Store).plant n).1)) := by
    have hread : Node.read ({} : Store).dialect (.text english.name) []
        "Examples:\n  | a |\n  | 1 |".toList .example = .ok n := hn
    simp only [perform, Making.keep, Making.node, hread, bind, Except.bind]
    rfl
  have hheld := held?_hold (({} : Store).plant n).2 "examples" (some (({} : Store).plant n).1)
  obtain ⟨tags, rows, hholds, -, hrows⟩ := exists_holds_of_plant hbare {} "examples"
  obtain ⟨first, rest, rfl, hfirst, -⟩ := List.map_eq_cons_iff.mp hrows
  have hparameters := hholds.parameters.2
  rw [hfirst] at hparameters
  generalize (({} : Store).plant n).2.hold "examples" (some (({} : Store).plant n).1) = start
    at hmade hheld hparameters
  generalize (({} : Store).plant n).1 = i at hheld hparameters
  have hops : ∀ op ∈ [Operation.addRow i (.sequence [.text " |".toList]) (some "row"),
      .removeRow i (.sequence [.text ['a']]), .removeRow i (.mapping [(.text ['a'], .int 1)])],
      op.OnRows i "examples" [Value.text ['a']].length := by
    refine List.forall_mem_cons.mpr ⟨.addRow _ _ (fun items hitems => ?_) (by decide), ?_⟩
    · obtain rfl := RowData.sequence.inj hitems
      rfl
    · simpa using ⟨.removeRow _, .removeRow _⟩
  have hbreaks : ∀ c ∈ "Examples:\n  | a |\n  | 1 |".toList, isLineBreak c = true → c = '\n' := by
    simp [isLineBreak]
  obtain ⟨first, rows, hkept⟩ :=
    exists_rowsKept_of_run hbreaks hmade hheld hparameters (by simp) hops
  exact ⟨start, i, first, rows, hmade, hheld, hparameters, hkept⟩

end Store

end FeatureTree
