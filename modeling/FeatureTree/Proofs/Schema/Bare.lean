import FeatureTree.Node.Build

/-!
# Records and nodes without their origin

Two trees agree in what they hold if they are equal once everything that tells where they come from
is forgotten: the data that a record was made from (`Record.bare`), and the origin of a node, to
which the comments of a file count (`Node.bare`). What a node holds depends only on what its record
holds.

## Main results

* `Node.bare_ofRecord`: records that hold the same become nodes that hold the same
* `Record.isSound_bare`: what can be built can be built from any data
-/

namespace FeatureTree

/-! ### Records -/

namespace Record

mutual

/-- A record without the data that it and its parts were made from. -/
def bare : Record → Record
  | ⟨kind, line, keyword, name, description, text, contentType, language, tags, children, steps,
      examples, rows, cells, block, comments, _⟩ =>
    ⟨kind, line, keyword, name, description, text, contentType, language, bareList tags,
      bareList children, bareList steps, bareList examples, bareList rows, bareList cells,
      bareOption block, bareList comments, default⟩

/-- The records of a list without their data. -/
def bareList : List Record → List Record
  | [] => []
  | r :: rs => r.bare :: bareList rs

/-- A single record without its data. -/
def bareOption : Option Record → Option Record
  | none => none
  | some r => some r.bare

end

/-- The bare records of a list are the bare forms of its records. -/
@[simp] theorem bareList_eq_map (rs : List Record) : bareList rs = rs.map bare := by
  induction rs with
  | nil => rfl
  | cons r rs ih => rw [bareList, ih, List.map_cons]

/-- An optional record is made bare where there is one. -/
@[simp] theorem bareOption_eq_map (r : Option Record) : bareOption r = r.map bare := by
  cases r <;> rfl

/-- What is forgotten is the data of the record and of its parts. -/
theorem bare_eq (r : Record) :
    r.bare =
      { r with
        tags := r.tags.map bare
        children := r.children.map bare
        steps := r.steps.map bare
        examples := r.examples.map bare
        rows := r.rows.map bare
        cells := r.cells.map bare
        block := r.block.map bare
        comments := r.comments.map bare
        capsule := default } := by
  cases r
  simp [bare]

/-- A bare record keeps its kind. -/
@[simp] theorem kind_bare (r : Record) : r.bare.kind = r.kind := by rw [bare_eq]

mutual

/-- Whether a record can be built does not depend on the data that it was made from. -/
theorem isSound_bare : (r : Record) → r.bare.isSound = r.isSound
  | ⟨kind, line, keyword, name, description, text, contentType, language, tags, children, steps,
      examples, rows, cells, block, comments, capsule⟩ => by
    simp only [bare]
    cases kind <;> simp only [isSound, areSound_bare, isFeatureSound_bare, isBlockSound_bare]

/-- Making records bare changes nothing about whether they can be built. -/
theorem areSound_bare (counts : Kind → Bool) :
    (rs : List Record) → areSound counts (bareList rs) = areSound counts rs
  | [] => rfl
  | r :: rs => by
    rw [bareList, areSound, areSound, kind_bare, isSound_bare r, areSound_bare counts rs]

/-- Making a feature bare changes nothing about whether its file can be built. -/
theorem isFeatureSound_bare :
    (rs : List Record) → isFeatureSound (bareList rs) = isFeatureSound rs
  | [] => rfl
  | r :: rs => by
    rw [bareList, isFeatureSound, isFeatureSound, kind_bare, isSound_bare r, isFeatureSound_bare rs]

/-- Making a block bare changes nothing about whether its step can be built. -/
theorem isBlockSound_bare : (r : Option Record) → isBlockSound (bareOption r) = isBlockSound r
  | none => rfl
  | some r => by rw [bareOption, isBlockSound, isBlockSound, isSound_bare r]

end

end Record

/-- A document without the data that it and its parts were made from. -/
def DocumentRecord.bare (r : DocumentRecord) : DocumentRecord :=
  ⟨r.feature.map Record.bare, r.comments.map Record.bare, default⟩

/-- A document with a feature of a given language. -/
def DocumentRecord.withLanguage (language : Value) (r : DocumentRecord) : DocumentRecord :=
  { r with feature := r.feature.map ({ · with language }) }

/-! ### Nodes -/

/-- A shape without the comments of a file. -/
def Shape.withoutComments {α : Type} : Shape α → Shape α
  | .featureFile path held _ => .featureFile path held []
  | shape => shape

/-- A shape keeps its kind without its comments. -/
@[simp] theorem Shape.kind_withoutComments {α : Type} (s : Shape α) :
    s.withoutComments.kind = s.kind := by
  cases s <;> rfl

namespace Node

/-- A node without its origin and those of its parts. -/
def bare : Node → Node := fold fun _ s => .mk {} (s.map Prod.snd).withoutComments

/-- A bare node has bare parts, no comments and no origin. -/
theorem bare_mk (o : Origin) (s : Shape Node) :
    (mk o s).bare = mk {} (s.map bare).withoutComments := by
  rw [bare, fold_mk, Shape.map_map]

/-- A bare node keeps its kind. -/
@[simp] theorem kind_bare (n : Node) : n.bare.kind = n.kind := by
  obtain ⟨o, s⟩ := n
  rw [bare_mk]
  cases s <;> rfl

/-- Choosing nodes by kind and making them bare can be done in either order. -/
theorem map_bare_ofKinds (kinds : List Kind) (ns : List Node) :
    (ofKinds kinds ns).map bare = ofKinds kinds (ns.map bare) := by
  rw [ofKinds, ofKinds, List.filter_map]
  simp [Function.comp_def]

/-- Building records and choosing by kind is choosing the records by kind first. -/
theorem ofKinds_map_ofRecord (language : Option Value) (kinds : List Kind) (rs : List Record) :
    ofKinds kinds (rs.map (ofRecord language))
      = (rs.filter fun x => kinds.contains x.kind).map (ofRecord language) := by
  rw [ofKinds, List.filter_map]
  simp only [Function.comp_def, kind_ofRecord]

/-- A list of records is built record by record. -/
@[simp] theorem ofRecords_eq_map (language : Option Value) (rs : List Record) :
    ofRecords language rs = rs.map (ofRecord language) := by
  induction rs with
  | nil => rfl
  | cons r rs ih => rw [ofRecords, ih, List.map_cons]

/-- A block is built where a step has one. -/
@[simp] theorem ofBlock_eq_map (language : Option Value) (r : Option Record) :
    ofBlock language r = r.map (ofRecord language) := by
  cases r <;> rfl

mutual

/-- What a node holds depends neither on the data that its record was made from nor on the feature
that it is attached under. -/
theorem bare_ofRecord (language language' : Option Value) :
    (r : Record) → (ofRecord language r).bare = (ofRecord language' r.bare).bare
  | ⟨kind, line, keyword, name, description, text, contentType, own, tags, children, steps,
      examples, rows, cells, block, comments, capsule⟩ => by
    have htags := fun l l' => map_bare_ofRecords l l' tags
    have hchildren := fun l l' => map_bare_ofRecords l l' children
    have hsteps := fun l l' => map_bare_ofRecords l l' steps
    have hexamples := fun l l' => map_bare_ofRecords l l' examples
    have hrows := fun l l' => map_bare_ofRecords l l' rows
    have hcells := fun l l' => map_bare_ofRecords l l' cells
    have hblock := fun l l' => map_bare_ofBlock l l' block
    have hkinds : ∀ l l' kinds, (ofKinds kinds (ofRecords l children)).map bare
        = (ofKinds kinds (ofRecords l' (Record.bareList children))).map bare := by
      intro l l' kinds
      rw [map_bare_ofKinds, map_bare_ofKinds, hchildren l l']
    have hlast : ∀ l l' kinds, (ofKinds kinds (ofRecords l children)).getLast?.map bare
        = (ofKinds kinds (ofRecords l' (Record.bareList children))).getLast?.map bare := by
      intro l l' kinds
      rw [← List.getLast?_map, ← List.getLast?_map, hkinds l l']
    have hhead : ∀ l l' kinds, (ofKinds kinds (ofRecords l children)).head?.map bare
        = (ofKinds kinds (ofRecords l' (Record.bareList children))).head?.map bare := by
      intro l l' kinds
      rw [← List.head?_map, ← List.head?_map, hkinds l l']
    cases kind <;> simp only [Record.bare, ofRecord, bare_mk, Shape.map, Shape.withoutComments,
      reduceCtorEq, if_false, if_true]
    case row => rw [hcells language language']
    case table => rw [hrows language language']
    case step => rw [hblock language language']
    case background => rw [hsteps language language']
    case scenario => rw [htags language language', hsteps language language']
    case outline =>
      rw [htags language language', hsteps language language', hexamples language language']
    case rule =>
      rw [htags language language', hkinds language language', hlast language language']
    case feature =>
      rw [htags (some own) (some own), hkinds (some own) (some own) [.scenario, .outline],
        hkinds (some own) (some own) [.rule], hlast (some own) (some own)]
    case featureFile => rw [hhead language language']
    -- examples have tags and rows, the other kinds no parts
    all_goals first
      | rfl
      | rw [htags language language', hrows language language']

/-- Bare records build the bare nodes of the records. -/
theorem map_bare_ofRecords (language language' : Option Value) : (rs : List Record) →
    (ofRecords language rs).map bare = (ofRecords language' (Record.bareList rs)).map bare
  | [] => rfl
  | r :: rs => by
    rw [ofRecords, Record.bareList, ofRecords, List.map_cons, List.map_cons,
      bare_ofRecord language language' r, map_bare_ofRecords language language' rs]

/-- A bare block builds the bare node of the block. -/
theorem map_bare_ofBlock (language language' : Option Value) : (r : Option Record) →
    (ofBlock language r).map bare = (ofBlock language' (Record.bareOption r)).map bare
  | none => rfl
  | some r => by
    rw [ofBlock, Record.bareOption, ofBlock, Option.map_some, Option.map_some,
      bare_ofRecord language language' r]

end

end Node

end FeatureTree
