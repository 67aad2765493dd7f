import FeatureTree.Proofs.Gherkin.OwnLines
import FeatureTree.Proofs.Schema.LineOrder

/-!
# The own lines of nodes

A record has the line number of the part that it was decoded from, and its node keeps that number.
So every node of a tree that is read stands on a line that shows its sign: its title, its step, its
row, its tag or comment, or the delimiter of its doc string. Around that line its parts are placed
by their kinds (`Kind.Placed`): tags above it, cells on it, and all else below, but for the first
row of a table, which is where the table begins.

## Main results

* `Ast.Document.stands_record`: the records of a document stand on the lines that they name
* `DocumentRecord.stands_of_parse`: so do the records of what is parsed
* `Node.stands_ofRecord`: a tree stands where its record stands
-/

namespace FeatureTree

open Ast (Spot)
open Sign (StandsAt)

/-- The kind of the title line of a titled kind. -/
def Kind.titleLine? : Kind → Option TokenKind
  | .background => some .backgroundLine
  | .scenario | .outline => some .scenarioLine
  | .example => some .examplesLine
  | .rule => some .ruleLine
  | .feature => some .featureLine
  | _ => none

/-- How the line `i` of a part stands to the line of what it is inside of: a cell stands on the line
of its row, a tag above its title, the rows of a table from where the table begins, and all else
below. -/
def Kind.Placed (outer inner : Kind) (line i : Nat) : Prop :=
  match inner with
  | .cell => i = line
  | .tag => i < line
  | .row => if outer = .table then line ≤ i else line < i
  | _ => line < i

namespace Kind

variable {outer inner : Kind} {line i : Nat}

/-- A part below a line is placed there. -/
theorem placed_of_lt (hshares : inner.sharesLine = false) (h : line < i) :
    Placed outer inner line i := by
  cases inner with
  | cell | tag => cases hshares
  | row =>
    rw [Placed]
    split
    · exact Nat.le_of_lt h
    · exact h
  | _ => exact h

/-- A part with a line of its own is below what it is part of, except that a table starts with a
row. -/
theorem Placed.below (h : Placed outer inner line i) (hshares : inner.sharesLine = false) :
    if outer = .table then line ≤ i else line < i := by
  cases inner with
  | cell | tag => cases hshares
  | row => exact h
  | _ =>
    split
    · exact Nat.le_of_lt h
    · exact h

end Kind

/-! ### Records -/

namespace Record

/-- The texts of the cells of a row. -/
def cellTexts (r : Record) : List Value := r.cells.map (·.text)

/-- What the line on which a record stands says of it. A table stands where its first row stands. -/
def sign? (r : Record) : Option Sign :=
  match r.kind with
  | .cell => some (.cell r.text)
  | .row => some (.row r.cellTexts)
  | .tag => some (.tag r.name)
  | .table => r.rows.head?.map fun x => .row x.cellTexts
  | .docString => some (.delimiter r.contentType)
  | .step => some (.step (.text r.keyword) r.text)
  | .comment => some (.comment r.text)
  | kind => kind.titleLine?.map fun line => .title line (.text r.keyword) r.name

variable {first : Nat} {texts : List Text} {r x : Record}

/-- Whether a record and the records inside it stand on the lines that they name, in order and each
placed below, above or on the line of what it is inside of. The lines given are those from `first`
on. -/
inductive Stands (first : Nat) (texts : List Text) : Record → Prop
  | mk {r : Record} {line : Nat} {sign : Sign} (place : r.line = .int line)
      (named : r.sign? = some sign) (own : sign.StandsAt first texts line)
      (placed : ∀ x ∈ r.parts, ∃ i : Nat, x.line = .int i ∧ r.kind.Placed x.kind line i)
      (order : r.InOrder) (parts : ∀ x ∈ r.parts, Stands first texts x) : Stands first texts r

/-- The parts of a record that stands in a text stand there. -/
theorem Stands.parts (h : r.Stands first texts) : ∀ x ∈ r.parts, x.Stands first texts := by
  cases h
  assumption

/-- A record that stands in a text has its parts in order. -/
theorem Stands.order (h : r.Stands first texts) : r.InOrder := by
  cases h
  assumption

/-- What has no parts stands where its sign stands. -/
theorem Stands.leaf {line : Nat} {sign : Sign} (hline : r.line = .int line)
    (hsign : r.sign? = some sign) (hown : sign.StandsAt first texts line) (hparts : r.parts = []) :
    r.Stands first texts := by
  have hshape : r.shape.parts = [] := List.eq_nil_iff_forall_not_mem.mpr fun x hx => by
    have := mem_parts_of_mem_shape hx
    rw [hparts] at this
    cases this
  have hnone : ∀ {p : Record → Prop}, ∀ x ∈ r.parts, p x := by
    rw [hparts]
    exact nofun
  exact .mk hline hsign hown hnone (.mk [] (hshape ▸ .nil) .nil (by rw [hshape]; exact nofun)) hnone

/-- What is laid out behind a spot is placed below it, if it cannot share its line. -/
theorem LaidOut.placed {rs : List Record} {line : Nat} {spots : List Spot} (h : LaidOut rs spots)
    (hspots : (⟨line, false⟩ :: spots).Pairwise Spot.Before) (hx : x ∈ rs)
    (hshares : x.kind.sharesLine = false) (outer : Kind) :
    ∃ i : Nat, x.line = .int i ∧ outer.Placed x.kind line i := by
  obtain ⟨ms, hms, hsub⟩ := h.places
  obtain ⟨m, hm, hline, hkind⟩ := exists_right_of_forall₂ hms hx
  refine ⟨m.line, hline, Kind.placed_of_lt hshares ?_⟩
  rcases (List.pairwise_cons.mp hspots).1 m (hsub.subset hm) with hlt | ⟨-, hm⟩
  · exact hlt
  · rw [← hkind, hshares] at hm
    cases hm

/-- A bare record has the same sign in the text. -/
@[simp] theorem sign?_bare (r : Record) : r.bare.sign? = r.sign? := by
  rw [bare_eq]
  cases hk : r.kind <;> simp [sign?, hk, cellTexts, bare_eq, Function.comp_def]

/-- Nothing of it depends on the data that a record was made from. -/
theorem Stands.of_bare (h : r.bare.Stands first texts) : r.Stands first texts := by
  generalize hx : r.bare = x at h
  induction h generalizing r with
  | mk place named own placed order _ ih =>
    subst hx
    rw [line_bare] at place
    rw [sign?_bare] at named
    rw [parts_bare] at placed ih
    refine .mk place named own (fun y hy => ?_) order.of_bare fun y hy =>
      ih y.bare (List.mem_map_of_mem hy) rfl
    simpa using placed y.bare (List.mem_map_of_mem hy)

end Record

/-! ### Records of documents -/

namespace Ast

open Record (LaidOut)

variable {first : Nat} {texts : List Text}

/-- A tag stands where its sign does. -/
theorem Tag.stands_record {t : Tag} (h : t.sign.StandsAt first texts t.loc.line) :
    t.record.Stands first texts := .leaf rfl rfl h rfl

/-- A cell stands where its sign does. -/
theorem Cell.stands_record {c : Cell} (h : c.sign.StandsAt first texts c.loc.line) :
    c.record.Stands first texts := .leaf rfl rfl h rfl

/-- A doc string stands where its sign does. -/
theorem DocString.stands_record {s : DocString} (h : s.sign.StandsAt first texts s.loc.line) :
    s.record.Stands first texts := .leaf rfl rfl h rfl

/-- A comment stands where its sign does. -/
theorem Comment.stands_record {c : Comment} (h : c.sign.StandsAt first texts c.loc.line) :
    c.record.Stands first texts := .leaf rfl rfl h rfl

/-- The texts in the cells of a row are its values. -/
theorem Row.cellTexts_record (r : Row) : r.record.cellTexts = r.values.map .text := by
  simp [Record.cellTexts, record, values, Cell.record, Function.comp_def]

/-- A row stands on its line, and its cells with it. -/
theorem Row.stands_record {r : Row} (h : r.OnLines first texts)
    (hspots : r.spots.Pairwise Spot.Before) : r.record.Stands first texts := by
  have hsign : r.record.sign? = some r.sign := congrArg (some <| Sign.row ·) r.cellTexts_record
  have hparts : r.record.parts = r.cells.map Cell.record := by simp [record, Record.parts]
  refine .mk rfl hsign h.row ?_ ((laidOut_rows [r]).parts (by simpa using hspots) _ (by simp)) ?_
  · rw [hparts, List.forall_mem_map]
    exact fun c hc => ⟨c.loc.line, rfl, (h.cells c hc).1⟩
  · rw [hparts, List.forall_mem_map]
    exact fun c hc => Cell.stands_record (h.cells c hc).2

/-- The parts of a table are its rows. -/
theorem parts_of_tableRecord {rows : List Row} {x : Record} (h : tableRecord rows = some x) :
    x.parts = rows.map Row.record := by
  obtain ⟨top, -, rfl⟩ := Option.map_eq_some_iff.mp h
  simp [Record.parts]

/-- A table stands where its first row stands, and the other rows stand below. -/
theorem stands_tableRecord {rows : List Row} (h : ∀ r ∈ rows, r.OnLines first texts)
    (hspots : (rows.flatMap Row.spots).Pairwise Spot.Before) {x : Record}
    (hx : tableRecord rows = some x) : x.Stands first texts := by
  have horder : x.InOrder := (laidOut_tableRecord rows).parts hspots x (Option.mem_toList.mpr hx)
  have hparts := parts_of_tableRecord hx
  have hrow : ∀ r ∈ rows, r.spots.Pairwise Spot.Before := (List.pairwise_flatMap.mp hspots).1
  cases rows with
  | nil => cases hx
  | cons top rows =>
    cases hx
    refine .mk rfl (congrArg (some <| Sign.row ·) top.cellTexts_record) (h top (by simp)).row ?_
      horder ?_
    · rw [hparts, List.forall_mem_map]
      intro r hr
      refine ⟨r.loc.line, rfl, show top.loc.line ≤ r.loc.line from ?_⟩
      rcases List.mem_cons.mp hr with rfl | hr
      · exact Nat.le_refl _
      · have hmem : r.spot ∈ top.cells.map Cell.spot ++ rows.flatMap Row.spots :=
          List.mem_append_right _ (List.mem_flatMap.mpr ⟨r, hr, List.mem_cons_self⟩)
        rcases (List.pairwise_cons.mp hspots).1 r.spot hmem with hlt | ⟨heq, -⟩
        · exact Nat.le_of_lt hlt
        · exact Nat.le_of_eq heq
    · rw [hparts, List.forall_mem_map]
      exact fun r hr => Row.stands_record (h r hr) (hrow r hr)

/-- A step stands on its line, and what it is given below it. -/
theorem Step.stands_record {s : Step} (h : (Law.onLines first texts).step s)
    (hspots : s.spots.Pairwise Spot.Before) : s.record.Stands first texts := by
  obtain ⟨hown, hrows, hdoc⟩ := h
  have hparts : s.record.parts = s.record.block.toList := by simp [record, Record.parts]
  have hblock : ∀ x ∈ s.record.block.toList, x.kind.sharesLine = false := by
    cases s.isWritten_record with
    | mk _ _ _ hplaces _ =>
      intro x hx
      rcases hplaces.block x (Option.mem_toList.mp hx) with hk | hk <;> rw [hk] <;> rfl
  refine .mk rfl rfl hown (fun x hx => ?_)
    ((laidOut_steps [s]).parts (by simpa using hspots) _ (by simp)) fun x hx => ?_
  · rw [hparts] at hx
    exact s.laidOut_given.placed hspots hx (hblock x hx) .step
  · rw [hparts, record] at hx
    have hgiven := hspots.of_cons
    rw [Step.givenSpots] at hgiven
    cases hd : s.docString with
    | some t =>
      simp only [hd, Option.map_some, Option.orElse_eq_orElse, Option.orElse_eq_or,
        Option.some_or, Option.toList_some, List.mem_singleton] at hx
      exact hx ▸ DocString.stands_record (hdoc t hd)
    | none =>
      simp only [hd, Option.map_none, Option.orElse_eq_orElse, Option.orElse_eq_or,
        Option.none_or, Option.mem_toList] at hx
      rw [hd] at hgiven
      exact stands_tableRecord hrows hgiven hx

/-- A titled part stands where its title stands, if its tags stand above and what is behind its
title stands below. -/
theorem stands_titled {r : Record} {line : Nat} {sign : Sign} {tags : List Tag}
    {inner : List Record} {spots : List Spot} (hline : r.line = .int line)
    (hsign : r.sign? = some sign) (hown : sign.StandsAt first texts line)
    (hparts : ∀ x ∈ r.parts, x ∈ tags.map Tag.record ∨ x ∈ inner)
    (htags : ∀ t ∈ tags, t.sign.StandsAt first texts t.loc.line) (hinner : LaidOut inner spots)
    (hshares : ∀ x ∈ inner, x.kind.sharesLine = false)
    (hspots : (tags.map Tag.spot ++ ⟨line, false⟩ :: spots).Pairwise Spot.Before)
    (horder : r.InOrder) (hstands : ∀ x ∈ inner, x.Stands first texts) : r.Stands first texts := by
  obtain ⟨-, hbehind, habove⟩ := List.pairwise_append.mp hspots
  refine .mk hline hsign hown (fun x hx => ?_) horder fun x hx => ?_ <;>
    rcases hparts x hx with hx | hx
  · obtain ⟨t, ht, rfl⟩ := List.mem_map.mp hx
    refine ⟨t.loc.line, rfl, show t.loc.line < line from ?_⟩
    rcases habove t.spot (List.mem_map_of_mem ht) _ List.mem_cons_self with hlt | ⟨-, hm⟩
    · exact hlt
    · cases hm
  · exact hinner.placed hbehind hx (hshares x hx) r.kind
  · obtain ⟨t, ht, rfl⟩ := List.mem_map.mp hx
    exact Tag.stands_record (htags t ht)
  · exact hstands x hx

/-- Steps on their lines stand in the text. -/
theorem stands_steps {steps : List Step} (h : ∀ s ∈ steps, (Law.onLines first texts).step s)
    (hspots : (steps.flatMap Step.spots).Pairwise Spot.Before) :
    ∀ x ∈ steps.map Step.record, x.Stands first texts :=
  List.forall_mem_map.mpr fun s hs =>
    Step.stands_record (h s hs) ((List.pairwise_flatMap.mp hspots).1 s hs)

/-- A background stands on its line, and its steps below it. -/
theorem Background.stands_record {b : Background} (h : b.Obeys (.onLines first texts))
    (hspots : b.spots.Pairwise Spot.Before) : b.record.Stands first texts :=
  stands_titled rfl rfl h.heading (by simp [record, Heading.record, Record.parts])
    (List.forall_mem_nil _) (laidOut_steps b.steps) (List.forall_mem_map.mpr fun _ _ => rfl) hspots
    (b.inOrder_record hspots) (stands_steps h.steps hspots.of_cons)

/-- A table of examples stands on its line, and its rows below it. -/
theorem Examples.stands_record {e : Examples} (h : e.Obeys (.onLines first texts))
    (hspots : e.spots.Pairwise Spot.Before) : e.record.Stands first texts := by
  have hrows := (List.pairwise_append.mp hspots).2.1.of_cons
  refine stands_titled rfl rfl h.heading (by simp [record, Heading.record, Record.parts]) h.tags
    (laidOut_rows e.rows) (List.forall_mem_map.mpr fun _ _ => rfl) hspots
    ((laidOut_examples [e]).parts (by simpa using hspots) _ (by simp)) ?_
  exact List.forall_mem_map.mpr fun r hr =>
    Row.stands_record (h.rows r hr) ((List.pairwise_flatMap.mp hrows).1 r hr)

/-- The sign of a scenario is its title line. -/
theorem Scenario.sign?_record (words : List Text) (s : Scenario) :
    (s.record words).sign? = some (s.heading.sign .scenarioLine) := by
  cases hout : s.isOutline words <;>
    simp [record, Heading.record, kind, hout, Record.sign?, Kind.titleLine?, Heading.sign]

/-- A scenario stands on its line, and its parts around it. -/
theorem Scenario.stands_record (words : List Text) {s : Scenario}
    (h : s.Obeys (.onLines first texts)) (hspots : s.spots.Pairwise Spot.Before) :
    (s.record words).Stands first texts := by
  obtain ⟨hsteps, hexamples, -⟩ :=
    List.pairwise_append.mp (List.pairwise_append.mp hspots).2.1.of_cons
  refine stands_titled rfl (s.sign?_record words) h.heading
    (by simp [record, Heading.record, Record.parts]) h.tags
    ((laidOut_steps s.steps).append (laidOut_examples s.examples)) ?_ hspots
    ((laidOut_scenarios words [s]).parts (by simpa using hspots) _ (by simp)) ?_
  · exact List.forall_mem_append.mpr
      ⟨List.forall_mem_map.mpr fun _ _ => rfl, List.forall_mem_map.mpr fun _ _ => rfl⟩
  · refine List.forall_mem_append.mpr ⟨stands_steps h.steps hsteps, ?_⟩
    exact List.forall_mem_map.mpr fun e he =>
      Examples.stands_record (h.examples e he) ((List.pairwise_flatMap.mp hexamples).1 e he)

/-- No section of a body shares a line with what it is part of. -/
theorem Body.sharesLine_records (words : List Text) (b : Body) :
    ∀ x ∈ b.records words, x.kind.sharesLine = false := fun x hx => by
  rcases (b.isWritten_records words x hx).2 with hk | hk | hk <;> rw [hk] <;> rfl

/-- The sections of a body stand in the text. -/
theorem Body.stands_records (words : List Text) {b : Body} (h : b.Obeys (.onLines first texts))
    (hspots : b.spots.Pairwise Spot.Before) : ∀ x ∈ b.records words, x.Stands first texts := by
  obtain ⟨hbackground, hscenarios, -⟩ := List.pairwise_append.mp hspots
  refine List.forall_mem_append.mpr ⟨fun x hx => ?_, List.forall_mem_map.mpr fun s hs => ?_⟩
  · obtain ⟨y, hy, rfl⟩ := Option.map_eq_some_iff.mp (Option.mem_toList.mp hx)
    exact Background.stands_record (h.background y hy)
      ((List.pairwise_flatMap.mp hbackground).1 y (Option.mem_toList.mpr hy))
  · exact Scenario.stands_record words (h.scenarios s hs)
      ((List.pairwise_flatMap.mp hscenarios).1 s hs)

/-- A rule stands on its line, and its sections below it. -/
theorem Rule.stands_record (words : List Text) {r : Rule} (h : r.Obeys (.onLines first texts))
    (hspots : r.spots.Pairwise Spot.Before) : (r.record words).Stands first texts :=
  stands_titled rfl rfl h.heading (by simp [record, Heading.record, Record.parts]) h.tags
    (laidOut_records words r.body) (r.body.sharesLine_records words) hspots
    ((laidOut_rules words [r]).parts (by simpa using hspots) _ (by simp))
    (Body.stands_records words h.body (List.pairwise_append.mp hspots).2.1.of_cons)

/-- A feature stands on its line, and its sections below it. -/
theorem Feature.stands_record {f : Feature} (h : f.Obeys (.onLines first texts))
    (hspots : f.spots.Pairwise Spot.Before) : f.record.Stands first texts := by
  obtain ⟨hbody, hrules, -⟩ :=
    List.pairwise_append.mp (List.pairwise_append.mp hspots).2.1.of_cons
  refine stands_titled rfl rfl h.heading (by simp [record, Heading.record, Record.parts]) h.tags
    ((laidOut_records f.outlineWords f.body).append (laidOut_rules f.outlineWords f.rules)) ?_
    hspots (f.inOrder_record hspots) ?_
  · exact List.forall_mem_append.mpr
      ⟨f.body.sharesLine_records _, List.forall_mem_map.mpr fun _ _ => rfl⟩
  · refine List.forall_mem_append.mpr ⟨Body.stands_records _ h.body hbody, ?_⟩
    exact List.forall_mem_map.mpr fun r hr =>
      Rule.stands_record _ (h.rules r hr) ((List.pairwise_flatMap.mp hrules).1 r hr)

/-- The records of a document stand on the lines that they name. -/
theorem Document.stands_record {d : Document} {line : Nat} (h : d.OnLines texts)
    (horder : d.InOrder line) : (∀ r ∈ d.record.feature, r.Stands 1 texts)
      ∧ ∀ r ∈ d.record.comments, r.Stands 1 texts := by
  refine ⟨fun r hr => ?_,
    List.forall_mem_map.mpr fun c hc => Comment.stands_record (h.comments c hc)⟩
  obtain ⟨f, hf, rfl⟩ := Option.map_eq_some_iff.mp hr
  have hspots : (f.spots ++ d.tags.map Tag.spot).Pairwise Spot.Before := by
    simpa [Document.spots, hf] using horder.spots
  exact Feature.stands_record (h.parts f hf) (List.pairwise_append.mp hspots).1

end Ast

/-- The records of what is parsed stand on the lines that they name. -/
theorem DocumentRecord.stands_of_parse {default dialect : Value} {file source : Text}
    {d : DocumentRecord} (h : DocumentRecord.parse default dialect file source = .ok d) :
    (∀ r ∈ d.feature, r.Stands 1 source.splitLines)
      ∧ ∀ r ∈ d.comments, r.Stands 1 source.splitLines := by
  obtain ⟨_, hdialect, document, hparse, hbare⟩ := exists_of_parse h
  obtain ⟨hfeature, hcomments⟩ := Ast.Document.stands_record
    (Ast.Document.onLines_of_parse hdialect hparse) (Ast.Document.inOrder_of_parse hparse)
  rw [← hbare] at hfeature hcomments
  exact ⟨fun x hx => (hfeature x.bare (Option.mem_map_of_mem _ hx)).of_bare,
    fun x hx => (hcomments x.bare (List.mem_map_of_mem hx)).of_bare⟩

/-! ### Nodes -/

namespace Node

/-- The values of the cells of a row. -/
def cellTexts (n : Node) : List Value :=
  match n.shape with
  | .row cells => cells.flatMap (·.shape.values)
  | _ => []

/-- What the line on which a node stands says of it. A table stands where its first row stands. -/
def sign? (n : Node) : Option Sign :=
  match n.shape with
  | .cell value => some (.cell value)
  | .row _ => some (.row n.cellTexts)
  | .tag name => some (.tag name)
  | .table rows => rows.head?.map fun x => .row x.cellTexts
  | .docString _ contentType => some (.delimiter contentType)
  | .step keyword text _ => some (.step keyword text)
  | .comment text => some (.comment text)
  | shape => shape.title?.bind fun title =>
    shape.kind.titleLine?.map fun line => .title line title.keyword title.name

/-- Whether a node and everything inside it stand on the lines that they name, each placed below,
above or on the line of what it is inside of. The lines given are those from `first` on; a file
stands on no line. -/
inductive Stands (first : Nat) (texts : List Text) : Node → Prop
  | file {o : Origin} {path : Value} {held : Option Node} {comments : List Node}
      (parts : ∀ n ∈ held.toList ++ comments, Stands first texts n) :
      Stands first texts (.mk o (.featureFile path held comments))
  | mk {o : Origin} {s : Shape Node} {line : Nat} {sign : Sign} (place : o.line = .int line)
      (named : sign? (.mk o s) = some sign) (own : sign.StandsAt first texts line)
      (placed : ∀ n ∈ s.parts, ∃ i : Nat, n.origin.line = .int i ∧ s.kind.Placed n.kind line i)
      (parts : ∀ n ∈ s.parts, Stands first texts n) : Stands first texts (.mk o s)

variable {first : Nat} {texts : List Text} {r : Record} {language : Option Value}

/-- A row node has the texts of its record. -/
theorem cellTexts_ofRecord (hkind : r.kind = .row) (hw : r.IsWritten) :
    (ofRecord language r).cellTexts = r.cellTexts := by
  obtain ⟨inner, heq⟩ := ofRecord_eq language r
  cases hw with
  | mk _ _ _ hplaces _ =>
    have hvalue : ∀ x ∈ r.cells, (ofRecord inner x).shape.values = [x.text] := by
      intro x hx
      obtain ⟨inner', heq'⟩ := ofRecord_eq inner x
      rw [heq', Node.shape, Record.shape, hplaces.cells x hx]
      rfl
    rw [heq, cellTexts, Node.shape, Record.shape, hkind]
    simp only [Shape.map, List.flatMap_map, Record.cellTexts]
    rw [List.map_eq_flatMap]
    exact List.flatMap_congr hvalue

/-- A node built from a record has the sign of the record. -/
theorem sign?_ofRecord (hw : r.IsWritten) : (ofRecord language r).sign? = r.sign? := by
  obtain ⟨inner, heq⟩ := ofRecord_eq language r
  cases hk : r.kind
  case row =>
    have hcells : (ofRecord language r).cellTexts = r.cellTexts := cellTexts_ofRecord hk hw
    rw [heq] at hcells ⊢
    simp only [sign?, Node.shape, Record.sign?, Record.shape, hk, Shape.map] at hcells ⊢
    rw [hcells]
  case table =>
    cases hw with
    | mk _ _ _ hplaces hparts =>
      have hrow : ∀ x ∈ r.rows, (ofRecord inner x).cellTexts = x.cellTexts := fun x hx =>
        cellTexts_ofRecord (hplaces.rows x hx) (hparts x (by simp [Record.parts, hx]))
      rw [heq]
      simp only [sign?, Node.shape, Record.sign?, Record.shape, hk, Shape.map]
      cases hrows : r.rows with
      | nil => rfl
      | cons x rows => simp [hrow x (by simp [hrows])]
  case cell | tag | docString | step | comment =>
    rw [heq]
    simp only [sign?, Node.shape, Record.sign?, Record.shape, hk, Shape.map]
  all_goals
    rw [heq]
    simp only [sign?, Node.shape, Record.sign?, Record.shape, hk, Shape.map]
    rfl

/-- A tree stands where its record stands. -/
theorem stands_ofRecord (h : r.Stands first texts) (hw : r.IsWritten) (language : Option Value) :
    (ofRecord language r).Stands first texts := by
  induction h generalizing language with
  | @mk r line sign place named own placed _ _ ih =>
    have hnamed : (ofRecord language r).sign? = some sign := (sign?_ofRecord hw).trans named
    obtain ⟨inner, heq⟩ := ofRecord_eq language r
    rw [heq] at hnamed ⊢
    refine .mk place hnamed own ?_ ?_
    · rw [Shape.parts_map, List.forall_mem_map, Shape.kind_map, Record.kind_shape]
      intro x hx
      rw [kind_ofRecord, line_ofRecord]
      exact placed x (Record.mem_parts_of_mem_shape hx)
    · rw [Shape.parts_map, List.forall_mem_map]
      intro x hx
      have hx := Record.mem_parts_of_mem_shape hx
      exact ih x hx (hw.parts x hx) inner

end Node

end FeatureTree
