import FeatureTree.Proofs.Plain.Reread

/-!
# Steps that are read back

The lines of tables, doc strings and steps, behind any margin, lead the reader over the document
that has them as its last parts. A reader that is about to read such lines is `Ready`: no doc string
is open, no tags wait for their title, and the table that was read last may end.

## Main results

* `Plain.passes_rows`: the rows of a grid extend the table that is being read
* `Plain.passes_docString`: a doc string becomes the argument of the last step
* `Plain.passes_steps`: steps become the last steps of the section
-/

namespace FeatureTree

open Ast (Document)

namespace ParseState

/-- Whether the reader may begin a part that is no part of a doc string. -/
structure Ready (s : ParseState) : Prop where
  distinct : s.reading.dialect.Distinct
  fence : s.reading.fence = none
  tags : s.document.tags = []
  settled : s.Settled

end ParseState

namespace Plain

variable {s : ParseState} {m : Text} {ls : List Line}

/-! ### Tables -/

/-- A row leads to the place where a table is read, and extends the table. -/
theorem passes_row (hd : s.reading.dialect.Distinct) (hf : s.reading.fence = none) {place : State}
    (hnext : s.place.next? .tableRow = some place) (hleave : s.leave place = s)
    {widths : List Nat} {values : List Text} (hne : values ≠ [])
    (hlen : values.length ≤ widths.length) (htidy : ∀ v ∈ values, Cell.Tidy v) (hm : IsMargin m)
    {l : Line} (hl : l.Shows (m ++ Layout.tableLine widths (values.map Cell.escape))) :
    ∃ row : Ast.Row, row.values = values
      ∧ s.Passes [l] (s.moved place (s.document.onRows s.place (· ++ [row]))) := by
  obtain ⟨cs, honly, hcs⟩ := Reading.only_row hd hf hne hlen htidy hm hl
  refine ⟨.ofCells l.location cs, ?_, ?_⟩
  · rw [← hcs, Ast.Row.values, Ast.Row.ofCells, List.map_map]
    rfl
  · have hrun := ParseState.passes_of_only honly (by decide) (by decide) hnext hleave
    rw [ParseState.goes_eq_moved rfl] at hrun
    rwa [← Document.takeRow_eq_onRows]

/-- Further rows extend the table that is being read. -/
theorem passes_rows_here (hd : s.reading.dialect.Distinct) (hf : s.reading.fence = none)
    (hnext : s.place.next? .tableRow = some s.place) {widths : List Nat} (hm : IsMargin m)
    {rows : List (List Text)} (hne : ∀ r ∈ rows, r ≠ [])
    (hlen : ∀ r ∈ rows, r.length ≤ widths.length) (htidy : ∀ r ∈ rows, ∀ v ∈ r, Cell.Tidy v)
    (hls : Line.Spell ls (rows.map fun r => m ++ Layout.tableLine widths (r.map Cell.escape))) :
    ∃ xs : List Ast.Row, xs.map Ast.Row.values = rows
      ∧ s.Passes ls (s.moved s.place (s.document.onRows s.place (· ++ xs))) := by
  induction rows generalizing s ls with
  | nil =>
    cases hls
    refine ⟨[], rfl, ?_⟩
    have hid : s.document.onRows s.place (· ++ []) = s.document :=
      Document.onRows_eq_self _ _ List.append_nil
    rw [hid]
    exact .nil s
  | cons r rows ih =>
    obtain _ | ⟨hl, hls⟩ := hls
    obtain ⟨x, hx, hrow⟩ := passes_row hd hf hnext ParseState.leave_self (hne r (by simp))
      (hlen r (by simp)) (htidy r (by simp)) hm hl
    obtain ⟨xs, hxs, hrest⟩ := ih (s := s.moved s.place (s.document.onRows s.place (· ++ [x])))
      hd hf hnext (fun q hq => hne q (List.mem_cons_of_mem _ hq))
      (fun q hq => hlen q (List.mem_cons_of_mem _ hq))
      (fun q hq => htidy q (List.mem_cons_of_mem _ hq)) hls
    refine ⟨x :: xs, by rw [List.map_cons, hx, hxs], ?_⟩
    have hrun := hrow.append hrest
    rw [List.singleton_append] at hrun
    have hdoc : (s.document.onRows s.place (· ++ [x])).onRows s.place (· ++ xs)
        = s.document.onRows s.place (· ++ x :: xs) := by
      rw [Document.onRows_onRows]
      simp only [List.append_assoc, List.singleton_append]
    exact hdoc ▸ hrun

/-- The lines of a table get the margin one by one. -/
theorem map_withMargin_tableLines (m : Text) (rows : List (List Text)) :
    (Layout.tableLines rows).map (withMargin m) = rows.map fun r =>
      m ++ Layout.tableLine (Layout.columnWidths (rows.map (·.map Cell.escape)))
        (r.map Cell.escape) := by
  rw [Layout.tableLines, Layout.gridLines, List.map_map, List.map_map]
  refine List.map_congr_left fun r _ => ?_
  have hne : Layout.tableLine (Layout.columnWidths (rows.map (·.map Cell.escape)))
      (r.map Cell.escape) ≠ [] := by
    rw [Layout.tableLine]
    exact List.cons_ne_nil _ _
  exact withMargin_of_ne_nil hne

/-- The rows of a grid extend the table that is being read. -/
theorem passes_rows (hd : s.reading.dialect.Distinct) (hf : s.reading.fence = none) {place : State}
    (hnext : s.place.next? .tableRow = some place) (hhere : place.next? .tableRow = some place)
    (hsame : ∀ (d : Document) f, d.onRows place f = d.onRows s.place f)
    (hleave : s.leave place = s) (hm : IsMargin m) {rows : List (List Text)} (hne : rows ≠ [])
    (hgrid : Grid rows) (hls : Line.Spell ls ((Layout.tableLines rows).map (withMargin m))) :
    ∃ xs : List Ast.Row, xs.map Ast.Row.values = rows
      ∧ s.Passes ls (s.moved place (s.document.onRows s.place (· ++ xs))) := by
  have hlen : ∀ r ∈ rows, r.length ≤ _ := fun r hr => Layout.length_le_columnWidths hr
  rw [map_withMargin_tableLines] at hls
  generalize Layout.columnWidths (rows.map (·.map Cell.escape)) = widths at hls hlen
  obtain ⟨r, rest, rfl⟩ := List.exists_cons_of_ne_nil hne
  obtain _ | ⟨hl, hls⟩ := hls
  obtain ⟨x, hx, hrow⟩ := passes_row hd hf hnext hleave (hgrid.ne_nil r (by simp))
    (hlen r (by simp)) (hgrid.tidy r (by simp)) hm hl
  obtain ⟨xs, hxs, hrest⟩ :=
    passes_rows_here (s := s.moved place (s.document.onRows s.place (· ++ [x]))) hd hf hhere hm
      (fun q hq => hgrid.ne_nil q (List.mem_cons_of_mem _ hq))
      (fun q hq => hlen q (List.mem_cons_of_mem _ hq))
      (fun q hq => hgrid.tidy q (List.mem_cons_of_mem _ hq)) hls
  refine ⟨x :: xs, by rw [List.map_cons, hx, hxs], ?_⟩
  have hdoc : (s.document.onRows s.place (· ++ [x])).onRows place (· ++ xs)
      = s.document.onRows s.place (· ++ x :: xs) := by
    rw [hsame, Document.onRows_onRows]
    simp only [List.append_assoc, List.singleton_append]
  exact hdoc ▸ hrow.append hrest

/-- A row has as many values as cells. -/
theorem length_values (x : Ast.Row) : x.values.length = x.cells.length := List.length_map _

/-- A grid is not ragged. -/
theorem firstRagged?_eq_none {xs : List Ast.Row} (h : Grid (xs.map Ast.Row.values)) :
    Ast.firstRagged? xs = none := by
  cases xs with
  | nil => rfl
  | cons x xs =>
    rw [Ast.firstRagged?, List.find?_eq_none]
    intro y hy
    have := h.length_eq y.values (by simp [List.mem_map_of_mem hy]) x.values (by simp)
    rw [length_values, length_values] at this
    simp [this]

/-! ### Doc strings -/

/-- A line that shows a text behind a margin is indented by the margin. -/
theorem indent_eq_length {l : Line} {t : Text} (hl : l.Shows (m ++ t)) (hm : IsMargin m)
    (ht : ∀ c ∈ t.head?, isBlank c = false) (hne : t ≠ []) : l.indent = m.length := by
  obtain ⟨e, htext, -⟩ := hl.exists_end
  have hhead : ∀ c ∈ (t ++ e).head?, isBlank c = false := by
    obtain ⟨c, r, rfl⟩ := List.exists_cons_of_ne_nil hne
    exact fun d hd => ht d (by simpa using hd)
  rw [Line.indent, htext, List.append_assoc, Text.indentOf_append_trimStart hm.blank hhead]

/-- The lines of a doc string extend its content. -/
theorem passes_content {scope : Scope} {owner : Owner} {fence : Fence}
    (hplace : s.place = .step scope owner .openText) (hf : s.reading.fence = some fence)
    (hmark : Text.IsFence fence.mark) (hm : IsMargin m) (hindent : fence.indent = m.length)
    {ts : List Text} (hls : Line.Spell ls (ts.map (Reading.fencedLine m fence.mark))) :
    s.Passes ls (s.moved s.place (s.document.onDocString s.place (Option.map fun x =>
      { x with lines := x.lines ++ ts.map (Reading.rereadLine fence.mark) }))) := by
  induction ts generalizing s ls with
  | nil =>
    cases hls
    have hid : s.document.onDocString s.place
        (Option.map fun x => { x with lines := x.lines ++ [] }) = s.document :=
      Document.onDocString_eq_self _ _ fun x => by cases x <;> simp
    rw [List.map_nil, hid]
    exact .nil s
  | cons t ts ih =>
    obtain _ | @⟨l, _, _, _, hl, hls⟩ := hls
    obtain ⟨hclose, hread⟩ := Reading.reads_fenced hf hmark hm hindent hl
    have hentries : s.place.entries = [State.on .docStringSeparator (.step scope owner .text),
        State.on .other (.step scope owner .openText)] := by rw [hplace]; rfl
    have hfree : ∀ e ∈ s.place.entries, e.kind ≠ .other →
        s.reading.token? l e.kind = .ok none := by
      intro e he ho
      rw [hentries] at he
      rcases List.mem_pair.mp he with rfl | rfl
      · exact hclose
      · exact absurd rfl ho
    have hnext : s.place.text? = some s.place := by rw [hplace]; rfl
    have hline := ParseState.passes_of_free hread hfree hnext ParseState.leave_self
    rw [ParseState.goes_eq_moved rfl] at hline
    rw [List.map_cons]
    generalize Reading.rereadLine fence.mark t = u at hline ⊢
    have hrest := ih (s := s.moved s.place (s.document.takeText u s.place)) hplace hf hls
    have hdoc : ∀ us, (s.document.takeText u s.place).onDocString s.place
          (Option.map fun x => { x with lines := x.lines ++ us })
        = s.document.onDocString s.place
          (Option.map fun x => { x with lines := x.lines ++ u :: us }) := by
      intro us
      rw [hplace, Document.takeText_step, Document.onDocString_onDocString]
      simp [Function.comp_def]
    exact hdoc (ts.map (Reading.rereadLine fence.mark)) ▸ hline.append hrest

/-- The lines of a doc string get the margin, those of the content behind their fences. -/
theorem map_withMargin_docStringLines (m content contentType : Text) :
    (Layout.docStringLines content contentType).map (withMargin m)
      = (m ++ (Layout.fenceFor content ++ contentType))
        :: ((contentLines content).map (Reading.fencedLine m (Layout.fenceFor content))
          ++ [m ++ Layout.fenceFor content]) := by
  have hfence := isFence_fenceFor content
  have hlines : (if (Text.protect (Layout.fenceFor content) content).isEmpty then []
      else (Text.protect (Layout.fenceFor content) content).splitLines)
        = (contentLines content).map (Text.protect (Layout.fenceFor content)) := by
    rw [contentLines]
    by_cases hc : content = []
    · rw [if_pos (by simp [(Text.protect_eq_nil_iff hfence).mpr hc]), if_pos (by simp [hc])]
      rfl
    · rw [if_neg (by simp [Text.protect_eq_nil_iff hfence, hc]), if_neg (by simp [hc]),
        Text.splitLines_protect hfence]
  obtain ⟨q, hq, -, -, -, -⟩ := hfence.eq_triple
  rw [Layout.docStringLines, ← Text.protect, hlines, List.cons_append, List.map_cons,
    List.map_append, List.map_map, List.map_singleton, withMargin_of_ne_nil (by simp [hq]),
    withMargin_of_ne_nil (by simp [hq])]
  rfl

/-- The reader inside a doc string. -/
def insideText (s : ParseState) (scope : Scope) (owner : Owner) (fence : Fence)
    (document : Document) : ParseState :=
  { s with
    place := .step scope owner .openText
    reading := { s.reading with fence := some fence }
    document }

/-- A doc string becomes the argument of the last step, as it comes back. -/
theorem passes_docString {scope : Scope} {owner : Owner}
    (hplace : s.place = .step scope owner .bare) (hd : s.reading.dialect.Distinct)
    (hf : s.reading.fence = none) (hm : IsMargin m) {content contentType : Text}
    (h : Quotable content contentType)
    (hls : Line.Spell ls ((Layout.docStringLines content contentType).map (withMargin m))) :
    ∃ x : Ast.DocString,
      Block.docString x.content x.mediaType = (Block.docString content contentType).reread
      ∧ s.Passes ls (s.moved (.step scope owner .text)
        (s.document.onDocString s.place fun _ => some x)) := by
  have hmark := isFence_fenceFor content
  rw [map_withMargin_docStringLines] at hls
  rw [Block.reread]
  generalize Layout.fenceFor content = mark at hls hmark ⊢
  obtain ⟨q, hq, -, -, -, hblank⟩ := hmark.eq_triple
  obtain _ | @⟨l₁, _, _, _, hopen, hls⟩ := hls
  obtain ⟨ls, ls', rfl, hcontent, hclose⟩ := Line.Spell.append_inv hls
  obtain _ | @⟨l₂, _, _, _, hclose, hnil⟩ := hclose
  cases hnil
  -- the opening delimiter
  have hindent : l₁.indent = m.length := by
    refine indent_eq_length hopen hm (fun c hc => ?_) (by simp [hq])
    obtain rfl : q = c := by simpa [hq] using hc
    exact hblank
  have honly := Reading.only_fence hd hf hmark h.type_trimmed hm hopen
  have hsettled : s.Settled := ParseState.settled_of_not_inTable (by rw [hplace]; rfl)
  have hnext : s.place.next? .docStringSeparator = some (.step scope owner .openText) := by
    rw [hplace]
    rfl
  have hrun₁ := ParseState.passes_of_only honly (by decide) (by decide) hnext (hsettled _)
  let x : Ast.DocString := ⟨l₁.location, mark, contentType, []⟩
  have hopened : s.goes l₁ (.step scope owner .openText) (.docStringSeparator mark contentType)
      = insideText s scope owner ⟨mark, m.length⟩
        (s.document.onDocString s.place fun _ => some x) := by
    simp only [ParseState.goes, Reading.after, hf, hindent, hplace]
    rfl
  rw [hopened] at hrun₁
  -- the content
  have hrun₂ := passes_content
    (s := insideText s scope owner ⟨mark, m.length⟩
      (s.document.onDocString s.place fun _ => some x)) rfl rfl hmark hm rfl hcontent
  generalize (contentLines content).map (Reading.rereadLine mark) = ts at hrun₂ ⊢
  -- the closing delimiter
  have hread := Reading.reads_closing (r := ⟨s.reading.dialect, some ⟨mark, m.length⟩⟩) rfl hmark
    hm hclose
  have hrun₃ : ∀ d, (insideText s scope owner ⟨mark, m.length⟩ d).Passes [l₂]
      ((insideText s scope owner ⟨mark, m.length⟩ d).goes l₂ (.step scope owner .text)
        (.docStringSeparator mark [])) := fun d =>
    ParseState.passes_of_first (e := State.on .docStringSeparator (.step scope owner .text)) rfl rfl
      hread (ParseState.settled_of_not_inTable rfl _)
  refine ⟨{ x with lines := ts }, rfl, ?_⟩
  have hreading : s.reading = ⟨s.reading.dialect, none⟩ := by rw [← hf]
  have hclosed : ∀ d, (insideText s scope owner ⟨mark, m.length⟩ d).goes l₂
      (.step scope owner .text) (.docStringSeparator mark [])
      = s.moved (.step scope owner .text) d := by
    intro d
    rw [ParseState.moved, hreading]
    rfl
  simp only [hclosed] at hrun₃
  have hdoc : (s.document.onDocString s.place fun _ => some x).onDocString
        (.step scope owner .openText)
        (Option.map fun x => { x with lines := x.lines ++ ts })
      = s.document.onDocString s.place fun _ => some { x with lines := ts } := by
    rw [hplace]
    exact Document.onDocString_onDocString s.document (.step scope owner .bare) _ _
  exact hdoc ▸ hrun₁.append (hrun₂.append (hrun₃ _))

/-! ### Steps -/

/-- The lines of a step get the margin, and those of its argument a deeper one. -/
theorem map_withMargin_lines (m : Text) (p : Step) :
    p.lines.map (withMargin m) = (m ++ (p.keyword ++ ' ' :: p.text))
      :: (p.block.map fun b => b.lines.map (withMargin (m ++ Layout.indentUnit))).getD [] := by
  rw [Step.lines, List.map_cons, withMargin_of_ne_nil (by simp)]
  cases p.block with
  | none => rfl
  | some b =>
    simp only [Option.map_some, Option.getD_some, indent_eq_map, List.map_map]
    refine congrArg _ (List.map_congr_left fun l _ => ?_)
    exact withMargin_withMargin m _ l

/-- A table that is a grid may end. -/
theorem settled_addStep {scope : Scope} {owner : Owner} {given : Argument} {x : Ast.Step}
    (d : Document) (h : Ast.firstRagged? x.table = none) :
    (s.moved (.step scope owner given)
      (d.onBody scope (·.onSteps owner (· ++ [x])))).Settled := by
  refine ParseState.settled_of_openRows ?_
  rcases d.openRows_addStep scope owner given x with hopen | hopen
  · exact (congrArg Ast.firstRagged? hopen).trans h
  · exact congrArg Ast.firstRagged? hopen

/-- The line of a step begins a step without an argument, of the longest keyword that starts it. -/
theorem passes_stepLine {scope : Scope} {owner : Owner} (hs : s.Ready)
    (hplace : s.place.TakesSteps scope owner) (hm : IsMargin m) {k text : Text}
    (hk : s.reading.dialect.StepStart k) {l : Line} (hl : l.Shows (m ++ (k ++ ' ' :: text))) :
    ∃ (w : Text) (loc : Location) (role : StepRole),
      s.reading.dialect.stepKeywordOf? (k ++ ' ' :: text) = some w
      ∧ s.Passes [l] (s.moved (.step scope owner .bare) (s.document.onBody scope (·.onSteps owner
        (· ++ [⟨loc, w, role, Text.trim ((k ++ ' ' :: text).drop w.length), [], none⟩])))) := by
  obtain ⟨w, hw, honly⟩ := Reading.only_stepStart hs.distinct hs.fence hk text hm hl
  have hrun := ParseState.passes_of_only honly (by decide) (by decide)
    (State.next?_stepLine hplace) (hs.settled _)
  rw [ParseState.goes_eq_moved rfl] at hrun
  exact ⟨w, _, _, hw, hrun⟩

/-- A step is added to the steps of its section as it comes back, with its argument. -/
theorem passes_step {scope : Scope} {owner : Owner} (hs : s.Ready)
    (hplace : s.place.TakesSteps scope owner) (hm : IsMargin m) {p : Step}
    (h : p.Legible s.reading.dialect) (hls : Line.Spell ls (p.lines.map (withMargin m))) :
    ∃ (x : Ast.Step) (given : Argument), x.plain = p.reread s.reading.dialect
      ∧ given.isClosed = true
      ∧ s.Passes ls (s.moved (.step scope owner given)
        (s.document.onBody scope (·.onSteps owner (· ++ [x]))))
      ∧ Ast.firstRagged? x.table = none := by
  obtain ⟨k, text, block⟩ := p
  rw [map_withMargin_lines] at hls
  obtain _ | @⟨l, _, ls, _, hl, hls⟩ := hls
  obtain ⟨w, loc, role, hw, hrun₁⟩ := passes_stepLine hs hplace hm h.word hl
  let x : Ast.Step := ⟨loc, w, role, Text.trim ((k ++ ' ' :: text).drop w.length), [], none⟩
  cases block with
  | none =>
    cases hls
    refine ⟨x, .bare, ?_, rfl, hrun₁, rfl⟩
    simp [Ast.Step.plain, Step.reread, x, hw]
  | some b =>
    have hb := h.block b rfl
    have hm' : IsMargin (m ++ Layout.indentUnit) := hm.append isMargin_indentUnit
    cases b with
    | table rows =>
      obtain ⟨hne, heven⟩ : rows ≠ [] ∧ Even rows := by
        cases hb with
        | table hne heven => exact ⟨hne, heven⟩
      change Line.Spell ls ((Layout.tableLines rows).map (withMargin (m ++ Layout.indentUnit)))
        at hls
      rw [← tableLines_fillRow heven] at hls
      obtain ⟨xs, hxs, hrun₂⟩ := passes_rows
        (s := s.moved (.step scope owner .bare)
          (s.document.onBody scope (·.onSteps owner (· ++ [x]))))
        hs.distinct hs.fence rfl rfl (fun _ _ => rfl) (ParseState.settled_of_not_inTable rfl _)
        hm' (by simpa using hne) heven.grid hls
      refine ⟨{ x with table := xs }, .table, ?_, rfl, ?_,
        firstRagged?_eq_none (hxs ▸ heven.grid)⟩
      · have hxs' : xs ≠ [] := by
          rintro rfl
          exact hne (List.map_eq_nil_iff.mp hxs.symm)
        simp [Ast.Step.plain, Step.reread, Block.reread, x, hw, hxs', hxs]
      · have hdoc := s.document.onRows_addStep scope owner .bare x (· ++ xs)
        exact hdoc ▸ hrun₁.append hrun₂
    | docString content contentType =>
      have hquotable : Quotable content contentType := by
        cases hb with
        | docString hquotable => exact hquotable
      obtain ⟨t, hblock, hrun₂⟩ := passes_docString
        (s := s.moved (.step scope owner .bare)
          (s.document.onBody scope (·.onSteps owner (· ++ [x]))))
        rfl hs.distinct hs.fence hm' hquotable hls
      refine ⟨{ x with docString := some t }, .text, ?_, rfl, ?_, rfl⟩
      · simp [Ast.Step.plain, Step.reread, x, hw, ← hblock]
      · have hdoc := s.document.onDocString_addStep scope owner .bare x fun _ => some t
        exact hdoc ▸ hrun₁.append hrun₂

/-- The reader is ready behind a step with a table that is not ragged. -/
theorem Ready.addSteps {scope : Scope} {owner : Owner} {given : Argument} {x : Ast.Step}
    (hs : s.Ready) (h : Ast.firstRagged? x.table = none) :
    (s.moved (.step scope owner given)
      (s.document.onBody scope (·.onSteps owner (· ++ [x])))).Ready :=
  ⟨hs.distinct, hs.fence, hs.tags, settled_addStep _ h⟩

/-- Steps are added to the steps of their section as they come back. Behind them, or where there are
none, the reader is ready for the next part. -/
theorem passes_steps {scope : Scope} {owner : Owner} (hs : s.Ready)
    (hplace : s.place.TakesSteps scope owner) (hm : IsMargin m) {ps : List Step}
    (h : ∀ p ∈ ps, p.Legible s.reading.dialect)
    (hls : Line.Spell ls (ps.flatMap fun p => p.lines.map (withMargin m))) :
    ∃ (xs : List Ast.Step) (place : State),
      xs.map Ast.Step.plain = ps.map (Step.reread s.reading.dialect)
      ∧ (place = s.place ∧ ps = []
        ∨ ∃ given, place = .step scope owner given ∧ given.isClosed = true)
      ∧ s.Passes ls (s.moved place (s.document.onBody scope (·.onSteps owner (· ++ xs))))
      ∧ (s.moved place (s.document.onBody scope (·.onSteps owner (· ++ xs)))).Ready := by
  induction ps generalizing s ls with
  | nil =>
    cases hls
    refine ⟨[], s.place, rfl, .inl ⟨rfl, rfl⟩, ?_⟩
    have hid : s.document.onBody scope (·.onSteps owner (· ++ [])) = s.document :=
      s.document.onBody_eq_self scope fun b => b.onSteps_eq_self owner List.append_nil
    rw [hid]
    exact ⟨.nil s, hs⟩
  | cons p ps ih =>
    rw [List.flatMap_cons] at hls
    obtain ⟨ls, ls', rfl, hfirst, hrest⟩ := Line.Spell.append_inv hls
    obtain ⟨x, given, hx, hgiven, hrun₁, hragged⟩ :=
      passes_step hs hplace hm (h p (by simp)) hfirst
    obtain ⟨xs, place, hxs, hplace', hrun₂, hready⟩ :=
      ih (s := s.moved (.step scope owner given)
          (s.document.onBody scope (·.onSteps owner (· ++ [x]))))
        (Ready.addSteps hs hragged) ⟨rfl, rfl, hgiven⟩
        (fun q hq => h q (List.mem_cons_of_mem _ hq)) hrest
    have hdoc : (s.document.onBody scope (·.onSteps owner (· ++ [x]))).onBody scope
          (·.onSteps owner (· ++ xs))
        = s.document.onBody scope (·.onSteps owner (· ++ x :: xs)) := by
      simp only [Document.onBody_onBody, Ast.Body.onSteps_onSteps, List.append_assoc,
        List.singleton_append]
    refine ⟨x :: xs, place, by rw [List.map_cons, hx, hxs]; rfl, .inr ?_, hdoc ▸ hrun₁.append hrun₂,
      hdoc ▸ hready⟩
    rcases hplace' with ⟨rfl, -⟩ | hstep
    · exact ⟨given, rfl, hgiven⟩
    · exact hstep

end Plain

end FeatureTree
