import FeatureTree.Proofs.Lists
import FeatureTree.Proofs.Schema.Bare
import FeatureTree.Proofs.Store.Mentions
import Mathlib.Data.List.Perm.Basic

/-!
# Records that fit

A record has fields for every kind of part, so that most of them say nothing for any one kind. A
record fits when the fields that its kind does not have are empty, the records inside it are of the
kinds that their places are for, and there is one background at most. Such a record is built into a
tree, and nothing that it holds is left behind: the records inside it are the parts of the node.

## Main results

* `Node.ofRecord_eq`: the tree of a record, with the trees of the records inside it as parts
* `Node.build_fileRecord`: a file is built from its record as from its document
* `Record.Fits.isSound`: a record that fits can be built
* `Record.Fits.perm_parts`: the parts of the node are all the records inside a record that fits
-/

namespace FeatureTree

/-! ### What kinds have -/

namespace Kind

/-- Whether nodes of a kind have a text. -/
def has (kind : Kind) (field : TextField) : Bool :=
  ((Shape.empty kind : Shape Unit).field? field).isSome

/-- Whether nodes of a kind have a list of parts. -/
def hasList (kind : Kind) (field : ListField) : Bool :=
  ((Shape.empty kind : Shape Unit).list? field).isSome

/-- Whether nodes of a kind have a single part. -/
def hasPart (kind : Kind) (field : PartField) : Bool :=
  ((Shape.empty kind : Shape Unit).part? field).isSome

end Kind

namespace Record

/-! ### What a record says -/

/-- What a record says of a text of its node. The text of a record is the text of a step or comment,
the value of a cell and the content of a doc string. -/
def texts (r : Record) : TextField → Value
  | .keyword => .text r.keyword
  | .name => r.name
  | .description => Node.normalDescription r.description
  | .text | .value | .content => r.text
  | .contentType => r.contentType
  | .language => r.language
  | .path => .text []

/-- The records among the children of a record that are of given kinds. -/
def childrenOf (r : Record) (kinds : List Kind) : List Record :=
  r.children.filter fun x => kinds.contains x.kind

/-- The records that a record holds for a list of parts. -/
def lists (r : Record) : ListField → List Record
  | .tags => r.tags
  | .steps => r.steps
  | .examples => r.examples
  | .rows => r.rows
  | .cells => r.cells
  | .tests => r.childrenOf [.scenario, .outline]
  | .rules => r.childrenOf [.rule]
  | .comments => r.comments
  | .featureFiles | .directories => []

/-- The record that a record holds for a single part. -/
def singles (r : Record) : PartField → Option Record
  | .background => (r.childrenOf [.background]).getLast?
  | .block => r.block
  | .feature => (r.childrenOf [.feature]).head?

/-- What a record says, with the records inside it in the place of parts. -/
def shape (r : Record) : Shape Record :=
  let title : Title := ⟨.text r.keyword, r.name, Node.normalDescription r.description⟩
  match r.kind with
  | .cell => .cell r.text
  | .row => .row r.cells
  | .tag => .tag r.name
  | .table => .table r.rows
  | .docString => .docString r.text r.contentType
  | .step => .step (.text r.keyword) r.text r.block
  | .background => .background title r.steps
  | .scenario => .scenario title r.tags r.steps
  | .outline => .outline title r.tags r.steps r.examples
  | .example => .example title r.tags r.rows
  | .rule => .rule title r.tags (r.singles .background) (r.lists .tests)
  | .feature =>
    .feature title r.language r.tags (r.singles .background) (r.lists .tests) (r.lists .rules)
  | .featureFile => .featureFile (.text []) (r.singles .feature) r.comments
  | .directory => .directory (.text []) [] []
  | .comment => .comment r.text

variable {r : Record}

/-- The shape of a record has its kind. -/
theorem kind_shape (r : Record) : r.shape.kind = r.kind := by
  cases h : r.kind <;> simp only [shape, h] <;> rfl

/-- A shape answers with the texts of its record. -/
theorem ask_shape {field : TextField} (h : r.kind.has field) :
    r.shape.ask field = .ok (r.texts field) := by
  cases field <;> cases hk : r.kind <;> rw [hk] at h <;> simp only [shape, hk] <;> cases h <;> rfl

/-- A shape has the lists of its record. -/
theorem list?_shape {field : ListField} (h : r.kind.hasList field) :
    r.shape.list? field = some (r.lists field) := by
  cases field <;> cases hk : r.kind <;> rw [hk] at h <;> simp only [shape, hk] <;> cases h <;> rfl

/-- A shape has the single parts of its record. -/
theorem part?_shape {field : PartField} (h : r.kind.hasPart field) :
    r.shape.part? field = some (r.singles field) := by
  cases field <;> cases hk : r.kind <;> rw [hk] at h <;> simp only [shape, hk] <;> cases h <;> rfl

end Record

/-! ### The tree of a record -/

namespace Node

/-- The tree of a record has the trees of the records inside it as parts. -/
theorem ofRecord_eq (language : Option Value) (r : Record) : ∃ inner,
    ofRecord language r
      = .mk { line := r.line, capsule := some r.capsule, language }
          (r.shape.map (ofRecord inner)) := by
  refine ⟨if r.kind = .feature then some r.language else language, ?_⟩
  obtain ⟨kind, line, keyword, name, description, text, contentType, own, tags, children, steps,
    examples, rows, cells, block, comments, capsule⟩ := r
  simp only [ofRecord, ofRecords_eq_map, ofBlock_eq_map, ofKinds_map_ofRecord, List.getLast?_map,
    List.head?_map]
  cases kind <;> rfl

end Node

/-- The record of a file that holds what a document holds. -/
def DocumentRecord.fileRecord (d : DocumentRecord) : Record :=
  { kind := .featureFile, children := d.feature.toList, comments := d.comments
    capsule := d.capsule }

/-- A file that is built from its record is the file of the document, without a path. -/
theorem Node.build_fileRecord {d : DocumentRecord} (h : ∀ r ∈ d.feature, r.kind = .feature) :
    build d.fileRecord = buildFile [] d := by
  obtain ⟨feature, comments, capsule⟩ := d
  have hkind : ∀ r ∈ feature, r.kind = .feature := h
  have hsound : (DocumentRecord.fileRecord ⟨feature, comments, capsule⟩).isSound
      = Record.areSound (fun _ => true) (feature.toList ++ comments) := by
    cases feature <;>
      simp_all [DocumentRecord.fileRecord, Record.isSound, Record.isFeatureSound, Record.areSound]
  have hnode : ofRecord none (DocumentRecord.fileRecord ⟨feature, comments, capsule⟩)
      = ofDocument [] ⟨feature, comments, capsule⟩ := by
    cases feature <;>
      simp_all [DocumentRecord.fileRecord, ofRecord, ofDocument, ofKinds, kind_ofRecord]
  rw [build, buildFile, hsound, hnode]

namespace Record

/-! ### Records that fit -/

/-- The fields that the kind of a record does not have are empty, and the description is a text.
There are no comments either, which only files have and which no walk comes by. -/
structure Fills (r : Record) : Prop where
  keyword : ¬ r.kind.has .keyword → r.keyword = []
  name : ¬ r.kind.has .name → r.name = .text []
  description : ∃ t, r.description = .text t ∧ (¬ r.kind.has .description → t = [])
  text : ¬ r.kind.has .text → ¬ r.kind.has .value → ¬ r.kind.has .content → r.text = .text []
  contentType : ¬ r.kind.has .contentType → r.contentType = .text []
  language : ¬ r.kind.has .language → r.language = .text []
  tags : ¬ r.kind.hasList .tags → r.tags = []
  children : ¬ r.kind.hasList .tests → ∀ x ∈ r.children, x.kind = .feature ∧ r.kind = .featureFile
  steps : ¬ r.kind.hasList .steps → r.steps = []
  examples : ¬ r.kind.hasList .examples → r.examples = []
  rows : ¬ r.kind.hasList .rows → r.rows = []
  cells : ¬ r.kind.hasList .cells → r.cells = []
  block : ¬ r.kind.hasPart .block → r.block = none
  comments : r.comments = []

/-- The records inside a record are of the kinds that their places are for, among the children there
is one background at most, and a file has one feature at most. -/
structure Places (r : Record) : Prop where
  tags : ∀ x ∈ r.tags, x.kind = .tag
  children : ∀ x ∈ r.children, x.kind = .background ∨ x.kind = .scenario ∨ x.kind = .outline
    ∨ (x.kind = .rule ∧ r.kind = .feature) ∨ (x.kind = .feature ∧ r.kind = .featureFile)
  steps : ∀ x ∈ r.steps, x.kind = .step
  examples : ∀ x ∈ r.examples, x.kind = .example
  rows : ∀ x ∈ r.rows, x.kind = .row
  cells : ∀ x ∈ r.cells, x.kind = .cell
  block : ∀ x ∈ r.block, x.kind = .table ∨ x.kind = .docString
  background : (r.childrenOf [.background]).length ≤ 1
  comments : ∀ x ∈ r.comments, x.kind = .comment
  feature : r.kind = .featureFile → r.children.length ≤ 1

/-- A record fits: it fills the fields of its kind only, the records inside it stand where their
kinds belong, and they fit too. -/
inductive Fits : Record → Prop where
  | mk {r : Record} (fills : r.Fills) (places : r.Places) (parts : ∀ x ∈ r.parts, Fits x) : Fits r

variable {r : Record}

/-- A record that fits has only fields its kind has. -/
theorem Fits.fills (h : r.Fits) : r.Fills := by
  cases h
  assumption

/-- A record that fits has only parts its kind has a place for. -/
theorem Fits.places (h : r.Fits) : r.Places := by
  cases h
  assumption

/-- The parts of a record that fits do fit. -/
theorem Fits.parts (h : r.Fits) : ∀ x ∈ r.parts, x.Fits := by
  cases h
  assumption

/-- Records can be built if each of them can. -/
theorem areSound_of_forall {rs : List Record} (counts : Kind → Bool)
    (h : ∀ x ∈ rs, x.isSound = true) : areSound counts rs = true := by
  induction rs with
  | nil => rfl
  | cons x rs ih =>
    rw [List.forall_mem_cons] at h
    rw [areSound, h.1, ih h.2, Bool.or_true, Bool.and_true]

/-- The feature of a file can be built if all parts of the file can. -/
theorem isFeatureSound_of_forall {rs : List Record} (h : ∀ x ∈ rs, x.isSound = true) :
    isFeatureSound rs = true := by
  induction rs with
  | nil => rfl
  | cons x rs ih =>
    rw [List.forall_mem_cons] at h
    rw [isFeatureSound, h.1, ih h.2, ite_self]

/-- A record can be built if its description is a text and the records inside it can be built. -/
theorem isSound_of_parts (hdescription : ∃ t, r.description = .text t)
    (hparts : ∀ x ∈ r.parts, x.isSound = true) : r.isSound = true := by
  obtain ⟨t, hdescription⟩ := hdescription
  obtain ⟨kind, line, keyword, name, description, text, contentType, own, tags, children, steps,
    examples, rows, cells, block, comments, capsule⟩ := r
  simp only [Record.parts, List.mem_append, Option.mem_toList] at hparts
  obtain rfl : description = .text t := hdescription
  have hl : ∀ {rs : List Record}, (∀ x ∈ rs, x.isSound = true) → ∀ counts, areSound counts rs :=
    fun h counts => areSound_of_forall counts h
  have htags := hl fun x (hx : x ∈ tags) => hparts x (by simp [hx])
  have hchildren := hl fun x (hx : x ∈ children) => hparts x (by simp [hx])
  have hsteps := hl fun x (hx : x ∈ steps) => hparts x (by simp [hx])
  have hexamples := hl fun x (hx : x ∈ examples) => hparts x (by simp [hx])
  have hrows := hl fun x (hx : x ∈ rows) => hparts x (by simp [hx])
  have hcells := hl fun x (hx : x ∈ cells) => hparts x (by simp [hx])
  have hcomments := hl fun x (hx : x ∈ comments) => hparts x (by simp [hx])
  have hfeature := isFeatureSound_of_forall fun x (hx : x ∈ children) => hparts x (by simp [hx])
  have hblock : isBlockSound block = true := by
    cases block with
    | none => rfl
    | some x => exact hparts x (by simp)
  cases kind <;>
    simp only [Record.isSound, htags, hchildren, hsteps, hexamples, hrows, hcells, hcomments,
      hfeature, hblock, Value.text?, Option.isSome_some, Bool.and_true]

/-- A record that fits can be built. -/
theorem Fits.isSound (h : r.Fits) : r.isSound = true := by
  induction h with
  | mk fills _ _ ih =>
    obtain ⟨t, hdescription, -⟩ := fills.description
    exact isSound_of_parts ⟨t, hdescription⟩ ih

/-! ### Nothing is left behind -/

/-- The children of some kinds and those of others, none of which are the same. -/
theorem perm_childrenOf_append {kinds kinds' : List Kind} (h : ∀ k ∈ kinds, k ∉ kinds')
    (r : Record) :
    (r.childrenOf kinds ++ r.childrenOf kinds').Perm (r.childrenOf (kinds ++ kinds')) := by
  simp only [childrenOf]
  induction r.children with
  | nil => exact .refl _
  | cons x xs ih =>
    simp only [List.filter_cons, List.contains_eq_mem, List.mem_append, decide_eq_true_eq] at ih ⊢
    by_cases hk : x.kind ∈ kinds
    · simpa [hk, h _ hk] using ih
    · by_cases hk' : x.kind ∈ kinds'
      · simpa [hk, hk'] using List.perm_middle.trans (ih.cons x)
      · simpa [hk, hk'] using ih

/-- The last of at most one thing is all there is. -/
theorem toList_getLast? {α : Type} {xs : List α} (h : xs.length ≤ 1) :
    xs.getLast?.toList = xs := by
  match xs, h with
  | [], _ => rfl
  | [x], _ => rfl

/-- The first of at most one thing is all there is. -/
theorem toList_head? {α : Type} {xs : List α} (h : xs.length ≤ 1) : xs.head?.toList = xs := by
  match xs, h with
  | [], _ => rfl
  | [x], _ => rfl

/-- The children of a record that fits are its background, its tests and its rules, unless it is
the record of a file. -/
theorem Fits.perm_children (h : r.Fits) (hk : r.kind ≠ .featureFile) :
    ((r.singles .background).toList ++ r.lists .tests ++ r.lists .rules).Perm r.children := by
  have hall : r.childrenOf ([.background] ++ [.scenario, .outline] ++ [.rule]) = r.children := by
    refine List.filter_eq_self.mpr fun x hx => ?_
    rcases h.places.children x hx with hx | hx | hx | ⟨hx, -⟩ | ⟨-, hx⟩
    case inr.inr.inr.inr => exact absurd hx hk
    all_goals
      rw [hx]
      rfl
  have hsections : (r.childrenOf [.background] ++ r.childrenOf [.scenario, .outline]).Perm
      (r.childrenOf ([.background] ++ [.scenario, .outline])) :=
    perm_childrenOf_append (by decide) r
  rw [singles, toList_getLast? h.places.background, ← hall]
  exact (hsections.append_right _).trans (perm_childrenOf_append (by decide) r)

/-- The only child of the record of a file that fits is its feature. -/
theorem Fits.toList_feature (h : r.Fits) (hk : r.kind = .featureFile) :
    (r.singles .feature).toList = r.children := by
  have hall : r.childrenOf [.feature] = r.children := by
    refine List.filter_eq_self.mpr fun x hx => ?_
    rw [(h.fills.children (by rw [hk]; decide) x hx).1]
    rfl
  rw [singles, hall]
  exact toList_head? (h.places.feature hk)

/-- The parts of the node of a record that fits are all children. -/
theorem Fits.children_shape (h : r.Fits) : r.shape.children = r.shape.parts := by
  cases hk : r.kind <;>
    simp only [shape, hk, Shape.parts, Shape.children, h.fills.comments, List.append_nil]

/-- The parts of the node are all the records inside a record that fits. -/
theorem Fits.perm_parts (h : r.Fits) : r.shape.parts.Perm r.parts := by
  have hchildren := fun hk => (h.perm_children hk).append_left r.tags
  have hrules : r.kind = .rule → r.lists .rules = [] := fun hk => by
    refine List.filter_eq_nil_iff.mpr fun x hx => ?_
    rcases h.places.children x hx with hx | hx | hx | ⟨-, hf⟩ | ⟨-, hf⟩
    · simp [hx]
    · simp [hx]
    · simp [hx]
    · rw [hk] at hf
      cases hf
    · rw [hk] at hf
      cases hf
  have hc : ¬ r.kind.hasList .tests → r.kind ≠ .featureFile → r.children = [] := fun htests hk =>
    List.eq_nil_iff_forall_not_mem.mpr fun x hx => hk (h.fills.children htests x hx).2
  obtain ⟨-, -, -, -, -, -, ht, -, hs, he, hr, hl, hb, hcomments⟩ := h.fills
  cases hk : r.kind <;> rw [hk] at ht hc hs he hr hl hb <;>
    simp only [Kind.hasList, Kind.hasPart, Shape.empty, Shape.list?, Shape.part?,
      Option.isSome_none, Option.isSome_some, Bool.false_eq_true, not_true_eq_false,
      not_false_eq_true, forall_const, IsEmpty.forall_iff, ne_eq, reduceCtorEq]
      at ht hc hs he hr hl hb <;>
    simp only [shape, hk, Shape.parts, Shape.children, Record.parts, ht, hc, hs, he, hr, hl, hb,
      hcomments, List.nil_append, List.append_nil, Option.toList_none, List.Perm.refl]
  case rule =>
    have hchildren := hchildren (by rw [hk]; decide)
    rwa [hrules hk, List.append_nil, ← List.append_assoc] at hchildren
  case feature =>
    have hchildren := hchildren (by rw [hk]; decide)
    rwa [← List.append_assoc, ← List.append_assoc] at hchildren
  case featureFile => rw [h.toList_feature hk]

/-- The parts of a record are smaller than the record. -/
theorem sizeOf_lt_of_mem_parts {r x : Record} (h : x ∈ r.parts) : sizeOf x < sizeOf r := by
  have hl : ∀ {xs : List Record}, x ∈ xs → sizeOf x < sizeOf xs := List.sizeOf_lt_of_mem
  obtain ⟨kind, line, keyword, name, description, text, contentType, own, tags, children, steps,
    examples, rows, cells, block, comments, capsule⟩ := r
  simp only [Record.parts, List.mem_append, Option.mem_toList] at h
  have ho : block = some x → sizeOf x < sizeOf block := by
    rintro rfl
    simp
  simp only [Record.mk.sizeOf_spec]
  rcases h with ((((((h | h) | h) | h) | h) | h) | h) | h
  · have := hl h; omega
  · have := hl h; omega
  · have := hl h; omega
  · have := hl h; omega
  · have := hl h; omega
  · have := hl h; omega
  · have := ho h; omega
  · have := hl h; omega

/-- A record and all records inside it. -/
def all (r : Record) : List Record := r :: r.parts.attach.flatMap fun x => all x.1
termination_by sizeOf r
decreasing_by exact sizeOf_lt_of_mem_parts x.2

/-- All records of a tree are its top and all records of its parts. -/
theorem all_eq (r : Record) : r.all = r :: r.parts.flatMap all := by
  rw [all, List.flatMap_subtype (fun _ _ => rfl), List.unattach_attach]

end Record

end FeatureTree
