import FeatureTree.Proofs.Plain.Fit

/-!
# What comes back

The lines of a legible document are read as some document, which need not be the one they were
written for. A step comes back with the longest keyword that starts its line; a row without cells
has one empty cell on its line; and a doc string that holds the written form of its delimiter comes
back with the delimiter itself. Titles, tags and the language come back as they are, and so does all
of a document that is fit.

## Main results

* `Plain.tableLines_fillRow`: a row without cells is written like one with an empty cell
* `Plain.Feature.Fit.reread_eq`: a feature that is fit comes back as it is
-/

namespace FeatureTree

namespace Plain

variable {d : Dialect}

/-! ### Rows and doc strings -/

/-- A row as it comes back. -/
def fillRow (values : List Text) : List Text := if values.isEmpty then [[]] else values

/-- The lines of content of a doc string; an empty content has none. -/
def contentLines (content : Text) : List Text :=
  if content.isEmpty then [] else content.splitLines

/-- The lines of a content make up the content. -/
theorem joinLines_contentLines (content : Text) :
    Text.joinLines (contentLines content) = content := by
  rw [contentLines]
  split
  · next h => rw [List.isEmpty_iff.mp h, Text.joinLines_nil]
  · exact Text.joinLines_splitLines content

/-- The lines of a content are among those that it is split into. -/
theorem mem_splitLines_of_mem_contentLines {content t : Text} (h : t ∈ contentLines content) :
    t ∈ content.splitLines := by
  rw [contentLines] at h
  split at h
  · cases h
  · exact h

/-- The argument of a step as it comes back. -/
def Block.reread : Block → Block
  | .table rows => .table (rows.map fillRow)
  | .docString content contentType =>
    .docString (Text.joinLines
      ((contentLines content).map (Reading.rereadLine (Layout.fenceFor content)))) contentType

/-- A row with cells has nothing filled in. -/
theorem fillRow_of_ne_nil {values : List Text} (h : values ≠ []) : fillRow values = values := by
  simp [fillRow, h]

/-- The rows of a grid have nothing filled in. -/
theorem Grid.map_fillRow {rows : List (List Text)} (h : Grid rows) : rows.map fillRow = rows :=
  (List.map_congr_left fun r hr => fillRow_of_ne_nil (h.ne_nil r hr)).trans (List.map_id _)

/-- Rows that are even have cells in every row or in none. -/
theorem Even.eq_or_grid {rows : List (List Text)} (h : Even rows) :
    rows = List.replicate rows.length [] ∨ Grid rows := by
  by_cases hnil : [] ∈ rows
  · refine .inl (List.eq_replicate_iff.mpr ⟨rfl, fun r hr => ?_⟩)
    exact List.eq_nil_of_length_eq_zero (h.length_eq r hr [] hnil)
  · exact .inr ⟨fun r hr he => hnil (he ▸ hr), h.tidy, h.length_eq⟩

/-- What comes back of even rows is a grid. -/
theorem Even.grid {rows : List (List Text)} (h : Even rows) : Grid (rows.map fillRow) := by
  rcases h.eq_or_grid with heq | hgrid
  · rw [heq, List.map_replicate]
    have hfill : fillRow [] = [[]] := rfl
    constructor
    · intro r hr
      rw [List.eq_of_mem_replicate hr, hfill]
      simp
    · intro r hr v hv
      rw [List.eq_of_mem_replicate hr, hfill] at hv
      rw [List.mem_singleton.mp hv]
      exact Cell.tidy_trim []
    · intro r hr r' hr'
      rw [List.eq_of_mem_replicate hr, List.eq_of_mem_replicate hr']
  · rwa [hgrid.map_fillRow]

/-- Rows of one empty cell each make one column without width. -/
theorem columnWidths_replicate (n : Nat) :
    Layout.columnWidths (List.replicate (n + 1) [[]]) = [0] := by
  rw [Layout.columnWidths, Layout.widest, List.map_replicate, List.replicate_succ, List.foldl_cons]
  induction n with
  | zero => rfl
  | succ n ih =>
    rw [List.replicate_succ, List.foldl_cons]
    exact ih

/-- A row without cells is written like one with an empty cell. -/
theorem tableLines_fillRow {rows : List (List Text)} (h : Even rows) :
    Layout.tableLines (rows.map fillRow) = Layout.tableLines rows := by
  rcases h.eq_or_grid with heq | hgrid
  · rw [heq]
    generalize rows.length = n
    cases n with
    | zero => rfl
    | succ n =>
      have hempty : List.map Cell.escape [[]] = [[]] := rfl
      have hfill : fillRow [] = [[]] := rfl
      have hline : ∀ widths, Layout.tableLine [0] [[]] = Layout.tableLine widths [] := by
        intro widths
        simp [Layout.tableLine, Layout.padCells, Text.padRight]
      simp only [Layout.tableLines, Layout.gridLines, List.map_replicate, hfill, hempty,
        columnWidths_replicate, List.map_nil]
      rw [hline]
  · rw [hgrid.map_fillRow]

/-- A doc string that can be written without a change comes back as it is. -/
theorem Fenceable.map_rereadLine {content contentType : Text} (h : Fenceable content contentType) :
    (contentLines content).map (Reading.rereadLine (Layout.fenceFor content))
      = contentLines content := by
  refine (List.map_congr_left fun t ht => ?_).trans (List.map_id _)
  have hmem := mem_splitLines_of_mem_contentLines ht
  refine Reading.rereadLine_eq_self (isFence_fenceFor content) (h.lines t hmem) ?_
  rw [← Bool.not_eq_true]
  intro hp
  have hcontent := Text.hasPart_of_infix hp (Text.infix_of_mem_splitLines hmem)
  rw [h.not_hasPart] at hcontent
  cases hcontent

/-- An argument that fits is read again as itself. -/
theorem Block.Fit.reread_eq {b : Block} (h : b.Fit) : b.reread = b := by
  cases h with
  | table hne hgrid => rw [reread, hgrid.map_fillRow]
  | docString hfenceable => rw [reread, hfenceable.map_rereadLine, joinLines_contentLines]

/-! ### Parts -/

/-- A step as it comes back. -/
def Step.reread (d : Dialect) (s : Step) : Step :=
  let line := s.keyword ++ ' ' :: s.text
  let word := (d.stepKeywordOf? line).getD []
  ⟨word.trim, Text.trim (line.drop word.length), s.block.map Block.reread⟩

def Background.reread (d : Dialect) (b : Background) : Background :=
  { b with steps := b.steps.map (Step.reread d) }

def Examples.reread (e : Examples) : Examples := { e with rows := e.rows.map fillRow }

def Scenario.reread (d : Dialect) (s : Scenario) : Scenario :=
  { s with
    steps := s.steps.map (Step.reread d)
    examples := s.examples.map (·.map Examples.reread) }

def Body.reread (d : Dialect) (b : Body) : Body :=
  ⟨b.background.map (Background.reread d), b.scenarios.map (Scenario.reread d)⟩

def Rule.reread (d : Dialect) (r : Rule) : Rule := { r with body := r.body.reread d }

/-- A feature as it comes back from its lines. -/
def Feature.reread (d : Dialect) (f : Feature) : Feature :=
  { f with body := f.body.reread d, rules := f.rules.map (Rule.reread d) }

/-- A step that fits is read again as itself. -/
theorem Step.Fit.reread_eq {s : Step} (h : s.Fit d) : s.reread d = s := by
  have hline : s.keyword ++ ' ' :: s.text = (s.keyword ++ [' ']) ++ s.text := by simp
  have hword : d.stepKeywordOf? (s.keyword ++ ' ' :: s.text) = some (s.keyword ++ [' ']) :=
    Reading.stepKeywordOf?_eq_some h.word.mark ⟨s.text, hline.symm⟩
  have hkeyword : Text.trim (s.keyword ++ [' ']) = s.keyword :=
    Text.trim_append_of_blank h.word.trimmed (by simp)
  have hblock : s.block.map Block.reread = s.block := by
    cases hb : s.block with
    | none => rfl
    | some b => rw [Option.map_some, (h.block b hb).reread_eq]
  have htext : Text.trim s.text = s.text := h.text_trimmed
  simp only [reread, hword, Option.getD_some, hkeyword, hblock]
  rw [hline, List.drop_left, htext]

/-- Steps that fit are read again as themselves. -/
theorem map_reread {steps : List Step} (h : ∀ s ∈ steps, s.Fit d) :
    steps.map (Step.reread d) = steps :=
  (List.map_congr_left fun s hs => (h s hs).reread_eq).trans (List.map_id _)

/-- A background that fits is read again as itself. -/
theorem Background.Fit.reread_eq {b : Background} (h : b.Fit d) : b.reread d = b := by
  rw [reread, map_reread h.steps]

/-- Examples that fit are read again as themselves. -/
theorem Examples.Fit.reread_eq {e : Examples} (h : e.Fit d) : e.reread = e := by
  have hgrid : Grid e.rows := h.grid
  rw [reread, hgrid.map_fillRow]

/-- A scenario that fits is read again as itself. -/
theorem Scenario.Fit.reread_eq {s : Scenario} (h : s.Fit d) : s.reread d = s := by
  have hexamples : s.examples.map (·.map Examples.reread) = s.examples := by
    cases hes : s.examples with
    | none => rfl
    | some es =>
      have hmem : ∀ e ∈ es, e.Fit d := fun e he => h.examples e (by simpa [hes] using he)
      rw [Option.map_some]
      exact congrArg some
        ((List.map_congr_left fun e he => (hmem e he).reread_eq).trans (List.map_id _))
  rw [reread, map_reread h.steps, hexamples]

/-- A body that fits is read again as itself. -/
theorem Body.Fit.reread_eq {b : Body} (h : b.Fit d) : b.reread d = b := by
  have hbackground : b.background.map (Background.reread d) = b.background := by
    cases hx : b.background with
    | none => rfl
    | some x =>
      have hfit : x.Fit d := h.background x hx
      rw [Option.map_some, hfit.reread_eq]
  have hscenarios : b.scenarios.map (Scenario.reread d) = b.scenarios :=
    (List.map_congr_left fun x hx => Scenario.Fit.reread_eq (h.scenarios x hx)).trans
      (List.map_id _)
  rw [reread, hbackground, hscenarios]

/-- A rule that fits is read again as itself. -/
theorem Rule.Fit.reread_eq {r : Rule} (h : r.Fit d) : r.reread d = r := by
  rw [reread, Body.Fit.reread_eq h.body]

/-- A feature that is fit comes back as it is. -/
theorem Feature.Fit.reread_eq {f : Feature} (h : f.Fit d) : f.reread d = f := by
  have hrules : f.rules.map (Rule.reread d) = f.rules :=
    (List.map_congr_left fun r hr => Rule.Fit.reread_eq (h.rules r hr)).trans (List.map_id _)
  rw [reread, Body.Fit.reread_eq h.body, hrules]

end Plain

end FeatureTree
