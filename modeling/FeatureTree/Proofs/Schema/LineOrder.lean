import FeatureTree.Proofs.Gherkin.Order
import FeatureTree.Proofs.Schema.Worded
import Mathlib.Data.List.Flatten

/-!
# The order of lines in a tree

The parts of a node are kept in several lists, by kind, and its children are these lists one after
the other. In a tree that is read from text that is the order of the text: children stand in the
order of their lines (`Node.InOrder`). That is so because the lists of a document are in that order
(`Ast.Document.inOrder_of_parse`), and what is decoded and built keeps the lines.

## Main results

* `Record.Places.pairwise_rank`: the children of a record are sorted by kind
* `Ast.Feature.inOrder_record`: the record of a feature in order is in order
* `Node.inOrder_of_readFile`: the children of every node of a tree that is read stand in the order
  of their lines, and so do the comments of the file
-/

namespace FeatureTree

open Ast (Spot)

namespace Kind

/-- Whether nodes of a kind can stand on the same line as what is in front of them. -/
def sharesLine : Kind → Bool
  | .tag | .cell => true
  | _ => false

/-- The rank of a kind among the children of a node: tags are first, the background is in front of
the tests and these in front of the rules, and steps are in front of examples. -/
def rank : Kind → Nat
  | .tag => 0
  | .scenario | .outline | .example => 2
  | .rule => 3
  | _ => 1

end Kind

/-! ### Records -/

namespace Record

variable {r x : Record}

/-- Whether a record is that of a part at a spot. -/
def IsAt (r : Record) (m : Spot) : Prop := r.line = .int m.line ∧ r.kind.sharesLine = m.shares

/-- Whether the records inside a record, as its node has them, stand in the order of their lines. -/
inductive InOrder : Record → Prop
  | mk {r : Record} (spots : List Spot) (places : List.Forall₂ IsAt r.shape.parts spots)
      (order : spots.Pairwise Spot.Before) (parts : ∀ x ∈ r.shape.parts, InOrder x) : InOrder r

/-- Whether the line of a record is below that of another one, or the same if it may share it. -/
def IsBelow (b a : Record) : Prop :=
  ∃ i j : Nat, a.line = .int i ∧ b.line = .int j ∧ i ≤ j ∧ (b.kind.sharesLine = false → i < j)

/-- A bare record keeps its line. -/
@[simp] theorem line_bare (r : Record) : r.bare.line = r.line := by rw [bare_eq]

/-- Records at spots that follow each other are below each other. -/
theorem isBelow_of_before {a b : Record} {m m' : Spot} (ha : a.IsAt m) (hb : b.IsAt m')
    (h : m.Before m') : b.IsBelow a := by
  refine ⟨m.line, m'.line, ha.1, hb.1, ?_, fun hshares => ?_⟩
  · rcases h with h | ⟨h, -⟩ <;> omega
  · rcases h with h | ⟨-, h⟩
    · exact h
    · rw [← hb.2, hshares] at h
      cases h

/-- Nothing of it depends on the data that a record was made from. -/
theorem InOrder.of_bare (h : r.bare.InOrder) : r.InOrder := by
  generalize hx : r.bare = x at h
  induction h generalizing r with
  | mk spots places order _ ih =>
    subst hx
    rw [shape_bare, Shape.parts_map, List.forall₂_map_left_iff] at places
    refine .mk spots (places.imp fun x m hm => ?_) order fun y hy => ?_
    · rwa [IsAt, kind_bare, line_bare] at hm
    · refine ih y.bare ?_ rfl
      rw [shape_bare, Shape.parts_map]
      exact List.mem_map_of_mem hy

/-- Records of one rank are in the order of their ranks. -/
theorem pairwise_of_rank {rs : List Record} {n : Nat} (h : ∀ x ∈ rs, x.kind.rank = n) :
    rs.Pairwise fun a b => a.kind.rank ≤ b.kind.rank :=
  List.pairwise_of_forall_mem_list fun a ha b hb => Nat.le_of_eq ((h a ha).trans (h b hb).symm)

/-- The children of a record are sorted by kind. -/
theorem Places.pairwise_rank (h : r.Places) :
    r.shape.children.Pairwise fun a b => a.kind.rank ≤ b.kind.rank := by
  have htags : ∀ x ∈ r.tags, x.kind.rank = 0 := fun x hx => by rw [h.tags x hx]; rfl
  have hsteps : ∀ x ∈ r.steps, x.kind.rank = 1 := fun x hx => by rw [h.steps x hx]; rfl
  have hexamples : ∀ x ∈ r.examples, x.kind.rank = 2 := fun x hx => by rw [h.examples x hx]; rfl
  have hrows : ∀ x ∈ r.rows, x.kind.rank = 1 := fun x hx => by rw [h.rows x hx]; rfl
  have hcells : ∀ x ∈ r.cells, x.kind.rank = 1 := fun x hx => by rw [h.cells x hx]; rfl
  have hblock : ∀ x ∈ r.block.toList, x.kind.rank = 1 := by
    intro x hx
    rcases h.block x (Option.mem_toList.mp hx) with hk | hk <;> rw [hk] <;> rfl
  have hsetup : ∀ x ∈ (r.singles .background).toList, x.kind.rank = 1 := by
    intro x hx
    have hk := (mem_childrenOf (List.mem_of_getLast? (Option.mem_toList.mp hx))).2
    rw [List.mem_singleton.mp hk]
    rfl
  have htests : ∀ x ∈ r.lists .tests, x.kind.rank = 2 := by
    intro x hx
    have hk := (mem_childrenOf hx).2
    simp only [List.mem_cons, List.not_mem_nil, or_false] at hk
    rcases hk with hk | hk <;> rw [hk] <;> rfl
  have hrules : ∀ x ∈ r.lists .rules, x.kind.rank = 3 := by
    intro x hx
    rw [List.mem_singleton.mp (mem_childrenOf hx).2]
    rfl
  cases hk : r.kind <;>
    simp only [shape, hk, Shape.children, List.pairwise_append, List.mem_append,
      pairwise_of_rank htags, pairwise_of_rank hsteps, pairwise_of_rank hexamples,
      pairwise_of_rank hrows, pairwise_of_rank hcells, pairwise_of_rank hblock,
      pairwise_of_rank hsetup, pairwise_of_rank htests, pairwise_of_rank hrules, List.Pairwise.nil,
      Option.pairwise_toList, true_and]
  all_goals grind

end Record

/-! ### Records of documents -/

/-- How the records of a list of parts stand to the spots of all that begins in these parts: each
record is at one of the spots, in their order, and is in order if the spots are. -/
structure Record.LaidOut (rs : List Record) (spots : List Spot) : Prop where
  places : ∃ ms, List.Forall₂ IsAt rs ms ∧ ms.Sublist spots
  parts : spots.Pairwise Spot.Before → ∀ x ∈ rs, x.InOrder

namespace Record.LaidOut

variable {α : Type} {rs rs' : List Record} {spots spots' : List Spot} {f : α → Record}
  {g : α → Spot}

/-- No records are laid out anywhere. -/
theorem nil (spots : List Spot) : LaidOut [] spots := ⟨⟨[], .nil, List.nil_sublist _⟩, nofun⟩

/-- A record whose parts are laid out is in order if their spots are. -/
theorem inOrder {r : Record} (h : LaidOut r.shape.parts spots)
    (hspots : spots.Pairwise Spot.Before) : r.InOrder := by
  obtain ⟨ms, hms, hsub⟩ := h.places
  exact .mk ms hms (hspots.sublist hsub) (h.parts hspots)

/-- Records that are laid out one after the other are laid out together. -/
theorem append (h : LaidOut rs spots) (h' : LaidOut rs' spots') :
    LaidOut (rs ++ rs') (spots ++ spots') := by
  obtain ⟨ms, hms, hsub⟩ := h.places
  obtain ⟨ms', hms', hsub'⟩ := h'.places
  refine ⟨⟨ms ++ ms', List.rel_append hms hms', hsub.append hsub'⟩, fun hspots => ?_⟩
  obtain ⟨hleft, hright, -⟩ := List.pairwise_append.mp hspots
  exact List.forall_mem_append.mpr ⟨h.parts hleft, h'.parts hright⟩

/-- The title of a part stands between its tags and its sections. -/
theorem skip (h : LaidOut rs spots) (m : Spot) : LaidOut rs (m :: spots) := by
  obtain ⟨ms, hms, hsub⟩ := h.places
  exact ⟨⟨ms, hms, hsub.cons m⟩, fun hspots => h.parts hspots.of_cons⟩

/-- A part whose spot is among those of all that begins in it. -/
theorem single {r : Record} {m : Spot} (hat : r.IsAt m) (hm : m ∈ spots)
    (ho : spots.Pairwise Spot.Before → r.InOrder) : LaidOut [r] spots :=
  ⟨⟨[m], .cons hat .nil, List.singleton_sublist.mpr hm⟩, fun hspots => by simpa using ho hspots⟩

/-- Records that are each in order, at spots that follow each other, are laid out. -/
theorem map {spots : α → List Spot} (hat : ∀ x, (f x).IsAt (g x)) (hmem : ∀ x, g x ∈ spots x)
    (ho : ∀ x, (spots x).Pairwise Spot.Before → (f x).InOrder) :
    (xs : List α) → LaidOut (xs.map f) (xs.flatMap spots)
  | [] => nil _
  | x :: xs => (single (hat x) (hmem x) (ho x)).append (map hat hmem ho xs)

/-- Tags and cells have no parts. -/
theorem leaves (hat : ∀ x, (f x).IsAt (g x)) (hleaf : ∀ x, (f x).shape.parts = []) (xs : List α) :
    LaidOut (xs.map f) (xs.map g) := by
  rw [List.map_eq_flatMap (f := g)]
  refine map hat (fun x => List.mem_singleton_self _) (fun x _ => ?_) xs
  exact .mk [] (hleaf x ▸ .nil) .nil (by simp [hleaf x])

end Record.LaidOut

namespace Ast

open Record (LaidOut)

/-- Tags are laid out on the spots of their names. -/
theorem laidOut_tags (tags : List Tag) : LaidOut (tags.map Tag.record) (tags.map Tag.spot) :=
  .leaves (fun _ => ⟨rfl, rfl⟩) (fun _ => rfl) tags

/-- Rows are laid out on their spots, with the spots of their cells in between. -/
theorem laidOut_rows (rows : List Row) :
    LaidOut (rows.map Row.record) (rows.flatMap Row.spots) := by
  refine .map (g := Row.spot) (fun _ => ⟨rfl, rfl⟩) (fun _ => List.mem_cons_self) (fun r => ?_) rows
  have hcells : LaidOut (r.cells.map Cell.record) (r.cells.map Cell.spot) :=
    .leaves (fun _ => ⟨rfl, rfl⟩) (fun _ => rfl) r.cells
  exact LaidOut.inOrder (r := r.record) (hcells.skip r.spot)

/-- A table stands where its first row stands. -/
theorem laidOut_tableRecord (rows : List Row) :
    LaidOut (tableRecord rows).toList (rows.flatMap Row.spots) := by
  cases rows with
  | nil => exact .nil _
  | cons first rows =>
    refine .single (m := first.spot) ⟨rfl, rfl⟩ (by simp [Row.spots]) ?_
    exact LaidOut.inOrder (laidOut_rows (first :: rows))

/-- What a step is given is laid out below its line. -/
theorem Step.laidOut_given (s : Step) : LaidOut s.record.block.toList s.givenSpots := by
  rw [record, givenSpots]
  cases s.docString with
  | some t => exact .leaves (g := DocString.spot) (fun _ => ⟨rfl, rfl⟩) (fun _ => rfl) [t]
  | none => exact laidOut_tableRecord s.table

/-- Steps are laid out on their spots. -/
theorem laidOut_steps (steps : List Step) :
    LaidOut (steps.map Step.record) (steps.flatMap Step.spots) := by
  refine .map (g := Step.spot) (fun _ => ⟨rfl, rfl⟩) (fun _ => List.mem_cons_self)
    (fun s => ?_) steps
  exact LaidOut.inOrder (r := s.record) (s.laidOut_given.skip s.spot)

/-- Tables of examples are laid out on their spots. -/
theorem laidOut_examples (examples : List Examples) :
    LaidOut (examples.map Examples.record) (examples.flatMap Examples.spots) := by
  refine .map (g := fun e => e.heading.spot) (fun _ => ⟨rfl, rfl⟩) (fun e => ?_) (fun e => ?_)
    examples
  · simp [Examples.spots]
  · exact LaidOut.inOrder (r := e.record)
      ((laidOut_tags e.tags).append ((laidOut_rows e.rows).skip e.heading.spot))

/-- A background whose spots follow each other has its parts in order. -/
theorem Background.inOrder_record (b : Background) (h : b.spots.Pairwise Spot.Before) :
    b.record.InOrder :=
  LaidOut.inOrder (r := b.record) ((laidOut_steps b.steps).skip b.heading.spot) h

/-- A scenario has its tags, its steps and its examples as parts, in this order. -/
theorem Scenario.parts_shape_record (words : List Text) (s : Scenario) :
    (s.record words).shape.parts
      = s.tags.map Tag.record ++ (s.steps.map Step.record ++ s.examples.map Examples.record) := by
  cases hout : s.isOutline words with
  | true => simp [record, kind, hout, Heading.record, Record.shape, Shape.parts, Shape.children]
  | false =>
    simp [record, kind, hout, Heading.record, Record.shape, Shape.parts, Shape.children,
      examples_of_not_isOutline hout]

/-- Scenarios are laid out on their spots. -/
theorem laidOut_scenarios (words : List Text) (scenarios : List Scenario) :
    LaidOut (scenarios.map (Scenario.record words)) (scenarios.flatMap Scenario.spots) := by
  refine .map (g := fun s => s.heading.spot) (fun s => ?_) (fun s => ?_) (fun s => ?_) scenarios
  · refine ⟨rfl, ?_⟩
    simp only [Scenario.record, Heading.record, Scenario.kind]
    split <;> rfl
  · simp [Scenario.spots]
  · refine LaidOut.inOrder (r := s.record words) (s.parts_shape_record words ▸ ?_)
    exact (laidOut_tags s.tags).append
      (((laidOut_steps s.steps).append (laidOut_examples s.examples)).skip s.heading.spot)

/-- The sections of a feature or rule, one after the other. -/
theorem laidOut_records (words : List Text) (b : Body) : LaidOut (b.records words) b.spots := by
  refine .append ?_ (laidOut_scenarios words b.scenarios)
  cases b.background with
  | none => exact .nil _
  | some x =>
    refine .single (m := x.heading.spot) ⟨rfl, rfl⟩ (by simp [Background.spots]) fun h => ?_
    exact x.inOrder_record (by simpa using h)

/-- A rule has its tags and its sections as parts, in this order. -/
theorem Rule.parts_shape_record (words : List Text) (r : Rule) :
    (r.record words).shape.parts = r.tags.map Tag.record ++ r.body.records words := by
  obtain ⟨hbackground, htests, -⟩ := r.body.filter_records words []
  simp only [List.map_nil, List.append_nil] at hbackground htests
  simp only [Record.shape, record, Heading.record, Shape.parts, Shape.children, Record.singles,
    Record.lists, Record.childrenOf, hbackground, htests, List.append_assoc]
  cases hb : r.body.background <;> simp [Body.records, hb]

/-- A feature has its tags, its sections and its rules as parts, in this order. -/
theorem Feature.parts_shape_record (f : Feature) :
    f.record.shape.parts = f.tags.map Tag.record
      ++ (f.body.records f.outlineWords ++ f.rules.map (Rule.record f.outlineWords)) := by
  obtain ⟨hbackground, htests, hrules⟩ := f.body.filter_records f.outlineWords f.rules
  simp only [Record.shape, record, Heading.record, Shape.parts, Shape.children, Record.singles,
    Record.lists, Record.childrenOf, hbackground, htests, hrules, List.append_assoc]
  cases hb : f.body.background <;> simp [Body.records, hb]

/-- Rules are laid out on their spots. -/
theorem laidOut_rules (words : List Text) (rules : List Rule) :
    LaidOut (rules.map (Rule.record words)) (rules.flatMap Rule.spots) := by
  refine .map (g := fun r => r.heading.spot) (fun _ => ⟨rfl, rfl⟩) (fun r => ?_) (fun r => ?_) rules
  · simp [Rule.spots]
  · refine LaidOut.inOrder (r := r.record words) (r.parts_shape_record words ▸ ?_)
    exact (laidOut_tags r.tags).append ((laidOut_records words r.body).skip r.heading.spot)

/-- The record of a feature in order is in order. -/
theorem Feature.inOrder_record {f : Feature} (h : f.spots.Pairwise Spot.Before) :
    f.record.InOrder := by
  refine LaidOut.inOrder (r := f.record) (f.parts_shape_record ▸ ?_) h
  exact (laidOut_tags f.tags).append
    (((laidOut_records _ f.body).append (laidOut_rules _ f.rules)).skip f.heading.spot)

end Ast

/-! ### Nodes -/

namespace Node

/-- How two nodes of which one stands in front of the other are placed: their kinds are in order,
and the line of the second is below that of the first, or the same if it may share it. -/
structure Above (a b : Node) : Prop where
  kinds : a.kind.rank ≤ b.kind.rank
  lines : ∃ i j : Nat, a.origin.line = .int i ∧ b.origin.line = .int j ∧ i ≤ j
    ∧ (b.kind.sharesLine = false → i < j)

/-- Whether in a node and in everything inside it the children stand in the order of their lines,
and comments each on a line of their own. -/
inductive InOrder : Node → Prop
  | mk {o : Origin} {s : Shape Node} (numbered : ∀ n ∈ s.parts, ∃ i : Nat, n.origin.line = .int i)
      (children : s.children.Pairwise Above)
      (comments : ∀ cs, s.list? .comments = some cs → cs.Pairwise fun a b =>
        ∃ i j : Nat, a.origin.line = .int i ∧ b.origin.line = .int j ∧ i < j)
      (parts : ∀ n ∈ s.parts, InOrder n) : InOrder (.mk o s)

variable {language : Option Value}

/-- A node has the line of the record it was built from. -/
theorem line_ofRecord (language : Option Value) (r : Record) :
    (ofRecord language r).origin.line = r.line := by
  obtain ⟨inner, heq⟩ := ofRecord_eq language r
  rw [heq]
  rfl

/-- Nodes built from records that are below each other are above one another in the same way. -/
theorem above_ofRecord {a b : Record} (hkinds : a.kind.rank ≤ b.kind.rank) (h : b.IsBelow a) :
    Above (ofRecord language a) (ofRecord language b) := by
  refine ⟨?_, ?_⟩
  · rwa [kind_ofRecord, kind_ofRecord]
  · rwa [line_ofRecord, line_ofRecord, kind_ofRecord]

/-- The tree of a record in order is in order. -/
theorem inOrder_ofRecord {r : Record} (h : r.InOrder) (hw : r.IsWritten)
    (language : Option Value) : (ofRecord language r).InOrder := by
  induction h generalizing language with
  | @mk r spots places order _ ih =>
    cases hw with
    | mk _ _ _ hplaces hparts =>
      obtain ⟨inner, heq⟩ := ofRecord_eq language r
      have hbelow : r.shape.parts.Pairwise fun a b => b.IsBelow a :=
        pairwise_of_forall₂ places.flip order fun _ _ _ _ ha hb => Record.isBelow_of_before ha hb
      rw [heq]
      constructor
      case numbered =>
        rw [Shape.parts_map, List.forall_mem_map]
        intro x hx
        obtain ⟨m, hm⟩ := exists_right_of_forall₂ places hx
        exact ⟨m.line, (line_ofRecord inner x).trans hm.2.1⟩
      case children =>
        rw [Shape.children_map, List.pairwise_map]
        exact (hplaces.pairwise_rank.and (hbelow.sublist r.shape.children_sublist)).imp fun hab =>
          above_ofRecord hab.1 hab.2
      case comments =>
        intro cs hcs
        rw [Shape.list?_map] at hcs
        cases hk : r.kind <;> simp [Record.shape, hk, Shape.list?] at hcs
        subst hcs
        simp only [Record.shape, hk, Shape.parts, List.pairwise_append] at hbelow
        refine List.pairwise_map.mpr (hbelow.2.1.imp_of_mem fun {a b} _ hb hab => ?_)
        obtain ⟨i, j, hi, hj, -, hlt⟩ := hab
        rw [hplaces.comments b hb] at hlt
        exact ⟨i, j, (line_ofRecord inner a).trans hi, (line_ofRecord inner b).trans hj, hlt rfl⟩
      case parts =>
        rw [Shape.parts_map, List.forall_mem_map]
        exact fun x hx => ih x hx (hparts x (Record.mem_parts_of_mem_shape hx)) inner

end Node

/-- Whether the records of a document are in order, and its comments among themselves. -/
structure DocumentRecord.InOrder (d : DocumentRecord) : Prop where
  feature : ∀ r ∈ d.feature, r.InOrder ∧ ∃ m, r.IsAt m
  comments : ∀ r ∈ d.comments, r.InOrder ∧ ∃ m, r.IsAt m
  rising : d.comments.Pairwise fun a b => ∃ i j : Nat, a.line = .int i ∧ b.line = .int j ∧ i < j

/-- A document whose spots follow each other gives a record in order. -/
theorem Ast.Document.inOrder_record {d : Document} {line : Nat} (h : d.InOrder line) :
    d.record.InOrder := by
  constructor
  case feature =>
    intro r hr
    obtain ⟨f, hf, rfl⟩ := Option.map_eq_some_iff.mp hr
    have hspots : (f.spots ++ d.tags.map Tag.spot).Pairwise Spot.Before := by
      simpa [Document.spots, hf] using h.spots
    exact ⟨Feature.inOrder_record (List.pairwise_append.mp hspots).1, f.heading.spot, rfl, rfl⟩
  case comments =>
    intro r hr
    obtain ⟨c, -, rfl⟩ := List.mem_map.mp hr
    exact ⟨.mk [] .nil .nil (List.forall_mem_nil _), ⟨c.loc.line, false⟩, rfl, rfl⟩
  case rising =>
    exact List.pairwise_map.mpr (h.comments.imp fun {a b} hab =>
      ⟨a.loc.line, b.loc.line, rfl, rfl, hab⟩)

/-- Nothing of it depends on the data that records were made from. -/
theorem DocumentRecord.InOrder.of_bare {d : DocumentRecord} (h : d.bare.InOrder) : d.InOrder := by
  have hbare : ∀ {r : Record}, (r.bare.InOrder ∧ ∃ m, r.bare.IsAt m) →
      r.InOrder ∧ ∃ m, r.IsAt m := by
    rintro r ⟨ho, m, hm⟩
    exact ⟨ho.of_bare, m, by rwa [Record.IsAt, Record.kind_bare, Record.line_bare] at hm⟩
  refine ⟨fun r hr => hbare (h.feature r.bare (Option.mem_map_of_mem _ hr)),
    fun r hr => hbare (h.comments r.bare (List.mem_map_of_mem hr)), ?_⟩
  simpa only [Record.line_bare] using List.pairwise_map.mp h.rising

namespace Node

/-- A file built from a document in order is in order. -/
theorem inOrder_ofDocument {d : DocumentRecord} (h : d.InOrder) (hw : d.IsWritten) (path : Text) :
    (ofDocument path d).InOrder := by
  have hat : ∀ {r : Record}, (r.InOrder ∧ ∃ m, r.IsAt m) →
      ∃ i : Nat, (ofRecord none r).origin.line = .int i := by
    rintro r ⟨-, m, hm⟩
    exact ⟨m.line, (line_ofRecord none r).trans hm.1⟩
  constructor
  case numbered =>
    simp only [Shape.parts, List.forall_mem_append, Option.mem_toList, Option.map_eq_some_iff,
      List.forall_mem_map]
    refine ⟨?_, fun r hr => hat (h.comments r hr)⟩
    rintro _ ⟨r, hr, rfl⟩
    exact hat (h.feature r hr)
  case children =>
    rw [Shape.children]
    cases d.feature <;> simp
  case comments =>
    rintro _ ⟨⟩
    simpa only [List.pairwise_map, line_ofRecord] using h.rising
  case parts =>
    simp only [Shape.parts, List.forall_mem_append, Option.mem_toList, Option.map_eq_some_iff,
      List.forall_mem_map]
    refine ⟨?_, fun r hr => inOrder_ofRecord (h.comments r hr).1 (hw.comments r hr) none⟩
    rintro _ ⟨r, hr, rfl⟩
    exact inOrder_ofRecord (h.feature r hr).1 (hw.feature r hr).2 none

/-- In a tree that is read from text, children stand in the order of their lines, and so do the
comments of the file. -/
theorem inOrder_of_readFile {default dialect : Value} {path source : Text} {n : Node}
    (h : readFile default dialect path source = .ok n) : n.kind = .featureFile ∧ n.InOrder := by
  obtain ⟨_, d, hd, rfl⟩ := exists_of_readFile h
  obtain ⟨_, -, document, hparse, hbare⟩ := DocumentRecord.exists_of_parse hd
  have horder : d.bare.InOrder :=
    hbare ▸ Ast.Document.inOrder_record (Ast.Document.inOrder_of_parse hparse)
  exact ⟨rfl, inOrder_ofDocument horder.of_bare (DocumentRecord.isWritten_of_parse hd) path⟩

/-- A file with tags and cells that share lines, a background, a scenario, a rule and comments. -/
def crowdedFile : Text :=
  ("# a\n@b @c\nFeature: d\nBackground:\n* e\n# f\n@g\nScenario: h\n* i\n|j|k|\n|l|m|\n"
    ++ "Rule: n\nExample: o").toList

/-- A file with parts of all kinds is read in order. -/
theorem inOrder_of_readFile_crowdedFile : ∃ n,
    readFile .null (.text Dialect.english.name) [] crowdedFile = .ok n
      ∧ n.kind = .featureFile ∧ n.InOrder := by
  have hok : (readFile .null (.text Dialect.english.name) [] crowdedFile).isOk = true := by
    decide +kernel
  cases h : readFile .null (.text Dialect.english.name) [] crowdedFile with
  | error fault =>
    rw [h] at hok
    cases hok
  | ok n => exact ⟨n, rfl, inOrder_of_readFile h⟩

end Node

end FeatureTree
