import FeatureTree.Fault
import FeatureTree.Files.Path

/-!
# The shape of a node

What a node of each kind holds. The type of its parts is left open: in a finished tree the parts
are trees again, in a store they are the identities of other nodes. Every list of parts can hold
nodes of any kind; that a scenario's steps are steps is a matter of how a tree is built. In the same
way a field that is meant to be a text can hold any value, because trees are also built from data of
other programs and fields can be assigned; what was read from text has texts there.

## Contents

* `Shape`: the fifteen kinds with their fields and parts
* `TextField`, `PartField`, `ListField`: the names of texts, single parts and lists of parts
* `Shape.nameOf`: the name of a node, which for files and directories follows from their path
* `Shape.children`: the parts in the order in which they stand in a document

## Main results

* `Shape.mem_parts_of_mem_children`: children are parts
* `Shape.children_map`: mapping the parts maps the children
-/

namespace FeatureTree

/-- The title line of a part and the description below it. -/
structure Title where
  keyword : Value := .text []
  name : Value := .text []
  description : Value := .text []

/-- The three values of a title. -/
def Title.values (t : Title) : List Value := [t.keyword, t.name, t.description]

/-- Changes the three values of a title. -/
def Title.map (f : Value → Value) (t : Title) : Title := ⟨f t.keyword, f t.name, f t.description⟩

/-- What a node of each kind holds, over a type of parts. -/
inductive Shape (α : Type) where
  | cell (value : Value)
  | row (cells : List α)
  | tag (name : Value)
  | table (rows : List α)
  | docString (content contentType : Value)
  | step (keyword text : Value) (block : Option α)
  | background (title : Title) (steps : List α)
  | scenario (title : Title) (tags steps : List α)
  | outline (title : Title) (tags steps examples : List α)
  | example (title : Title) (tags rows : List α)
  | rule (title : Title) (tags : List α) (background : Option α) (tests : List α)
  | feature (title : Title) (language : Value) (tags : List α) (background : Option α)
      (tests rules : List α)
  | featureFile (path : Value) (feature : Option α) (comments : List α)
  | directory (path : Value) (featureFiles directories : List α)
  | comment (text : Value)

/-- The names of texts. -/
inductive TextField where
  | keyword
  | name
  | description
  | text
  | value
  | content
  | contentType
  | language
  | path
deriving DecidableEq, Repr

/-- The names of single parts. -/
inductive PartField where
  | background
  | block
  | feature
deriving DecidableEq, Repr

/-- The names of lists of parts. -/
inductive ListField where
  | tags
  | steps
  | examples
  | rows
  | cells
  | tests
  | rules
  | comments
  | featureFiles
  | directories
deriving DecidableEq, Repr

namespace Shape

variable {α β : Type}

/-- The kind of a node. -/
def kind : Shape α → Kind
  | .cell _ => .cell
  | .row _ => .row
  | .tag _ => .tag
  | .table _ => .table
  | .docString _ _ => .docString
  | .step _ _ _ => .step
  | .background _ _ => .background
  | .scenario _ _ _ => .scenario
  | .outline _ _ _ _ => .outline
  | .example _ _ _ => .example
  | .rule _ _ _ _ => .rule
  | .feature _ _ _ _ _ _ => .feature
  | .featureFile _ _ _ => .featureFile
  | .directory _ _ _ => .directory
  | .comment _ => .comment

/-- A node of a kind that holds nothing. -/
def empty : Kind → Shape α
  | .cell => .cell (.text [])
  | .row => .row []
  | .tag => .tag (.text [])
  | .table => .table []
  | .docString => .docString (.text []) (.text [])
  | .step => .step (.text []) (.text []) none
  | .background => .background {} []
  | .scenario => .scenario {} [] []
  | .outline => .outline {} [] [] []
  | .example => .example {} [] []
  | .rule => .rule {} [] none []
  | .feature => .feature {} (.text []) [] none [] []
  | .featureFile => .featureFile (.text []) none []
  | .directory => .directory (.text []) [] []
  | .comment => .comment (.text [])

/-- Replaces the parts. -/
def map (f : α → β) : Shape α → Shape β
  | .cell value => .cell value
  | .row cells => .row (cells.map f)
  | .tag name => .tag name
  | .table rows => .table (rows.map f)
  | .docString content contentType => .docString content contentType
  | .step keyword text block => .step keyword text (block.map f)
  | .background title steps => .background title (steps.map f)
  | .scenario title tags steps => .scenario title (tags.map f) (steps.map f)
  | .outline title tags steps examples =>
    .outline title (tags.map f) (steps.map f) (examples.map f)
  | .example title tags rows => .example title (tags.map f) (rows.map f)
  | .rule title tags setup tests =>
    .rule title (tags.map f) (setup.map f) (tests.map f)
  | .feature title language tags setup tests rules =>
    .feature title language (tags.map f) (setup.map f) (tests.map f) (rules.map f)
  | .featureFile path held comments => .featureFile path (held.map f) (comments.map f)
  | .directory path featureFiles directories =>
    .directory path (featureFiles.map f) (directories.map f)
  | .comment text => .comment text

/-- Replaces the parts by the results of actions, which are taken in the order of the parts. -/
def mapM {m : Type → Type} [Monad m] (f : α → m β) : Shape α → m (Shape β)
  | .cell value => pure (.cell value)
  | .row cells => return .row (← cells.mapM f)
  | .tag name => pure (.tag name)
  | .table rows => return .table (← rows.mapM f)
  | .docString content contentType => pure (.docString content contentType)
  | .step keyword text block => return .step keyword text (← block.mapM f)
  | .background title steps => return .background title (← steps.mapM f)
  | .scenario title tags steps => return .scenario title (← tags.mapM f) (← steps.mapM f)
  | .outline title tags steps examples =>
    return .outline title (← tags.mapM f) (← steps.mapM f) (← examples.mapM f)
  | .example title tags rows => return .example title (← tags.mapM f) (← rows.mapM f)
  | .rule title tags setup tests =>
    return .rule title (← tags.mapM f) (← setup.mapM f) (← tests.mapM f)
  | .feature title language tags setup tests rules =>
    return .feature title language (← tags.mapM f) (← setup.mapM f) (← tests.mapM f)
      (← rules.mapM f)
  | .featureFile path held comments =>
    return .featureFile path (← held.mapM f) (← comments.mapM f)
  | .directory path featureFiles directories =>
    return .directory path (← featureFiles.mapM f) (← directories.mapM f)
  | .comment text => pure (.comment text)

/-- The parts that stand in the document itself, in their order there. -/
def children : Shape α → List α
  | .cell _ | .tag _ | .docString _ _ | .comment _ => []
  | .row cells => cells
  | .table rows => rows
  | .step _ _ block => block.toList
  | .background _ steps => steps
  | .scenario _ tags steps => tags ++ steps
  | .outline _ tags steps examples => tags ++ steps ++ examples
  | .example _ tags rows => tags ++ rows
  | .rule _ tags setup tests => tags ++ setup.toList ++ tests
  | .feature _ _ tags setup tests rules => tags ++ setup.toList ++ tests ++ rules
  | .featureFile _ held _ => held.toList
  | .directory _ featureFiles directories => featureFiles ++ directories

/-- Everything that a node owns: its children and, for a feature file, its comments. -/
def parts : Shape α → List α
  | .featureFile _ held comments => held.toList ++ comments
  | shape => shape.children

/-- The title of a titled node. -/
def title? : Shape α → Option Title
  | .background title _ => some title
  | .scenario title _ _ => some title
  | .outline title _ _ _ => some title
  | .example title _ _ => some title
  | .rule title _ _ _ => some title
  | .feature title _ _ _ _ _ => some title
  | _ => none

/-- Changes the title of a titled node. -/
def mapTitle (f : Title → Title) : Shape α → Shape α
  | .background title steps => .background (f title) steps
  | .scenario title tags steps => .scenario (f title) tags steps
  | .outline title tags steps examples => .outline (f title) tags steps examples
  | .example title tags rows => .example (f title) tags rows
  | .rule title tags setup tests => .rule (f title) tags setup tests
  | .feature title language tags setup tests rules =>
    .feature (f title) language tags setup tests rules
  | shape => shape

/-- Everything that a node has in the place of a text. -/
def values : Shape α → List Value
  | .cell value => [value]
  | .row _ | .table _ => []
  | .tag name => [name]
  | .docString content contentType => [content, contentType]
  | .step keyword text _ => [keyword, text]
  | .background title _ | .scenario title _ _ | .outline title _ _ _ | .example title _ _
  | .rule title _ _ _ => title.values
  | .feature title language _ _ _ _ => language :: title.values
  | .featureFile path _ _ | .directory path _ _ => [path]
  | .comment text => [text]

/-- Changes everything that a node has in the place of a text. -/
def mapValues (f : Value → Value) : Shape α → Shape α
  | .cell value => .cell (f value)
  | .row cells => .row cells
  | .tag name => .tag (f name)
  | .table rows => .table rows
  | .docString content contentType => .docString (f content) (f contentType)
  | .step keyword text block => .step (f keyword) (f text) block
  | .background title steps => .background (title.map f) steps
  | .scenario title tags steps => .scenario (title.map f) tags steps
  | .outline title tags steps examples => .outline (title.map f) tags steps examples
  | .example title tags rows => .example (title.map f) tags rows
  | .rule title tags setup tests => .rule (title.map f) tags setup tests
  | .feature title language tags setup tests rules =>
    .feature (title.map f) (f language) tags setup tests rules
  | .featureFile path held comments => .featureFile (f path) held comments
  | .directory path featureFiles directories => .directory (f path) featureFiles directories
  | .comment text => .comment (f text)

/-- What a node has in the place of a text, for the kinds that have it. -/
def field? (shape : Shape α) : TextField → Option Value
  | .keyword => match shape with
    | .step keyword _ _ => some keyword
    | _ => shape.title?.map (·.keyword)
  | .name => match shape with
    | .tag name => some name
    | _ => shape.title?.map (·.name)
  | .description => shape.title?.map (·.description)
  | .text => match shape with
    | .step _ text _ => some text
    | .comment text => some text
    | _ => none
  | .value => match shape with
    | .cell value => some value
    | _ => none
  | .content => match shape with
    | .docString content _ => some content
    | _ => none
  | .contentType => match shape with
    | .docString _ contentType => some contentType
    | _ => none
  | .language => match shape with
    | .feature _ language _ _ _ _ => some language
    | _ => none
  | .path => match shape with
    | .featureFile path _ _ => some path
    | .directory path _ _ => some path
    | _ => none

/-- Changes what a node has in the place of a text, for the kinds that have it. -/
def setField (shape : Shape α) (field : TextField) (value : Value) : Option (Shape α) :=
  match field, shape with
  | .keyword, .step _ text block => some (.step value text block)
  | .keyword, shape => shape.title?.map fun _ => shape.mapTitle ({ · with keyword := value })
  | .name, .tag _ => some (.tag value)
  | .name, shape => shape.title?.map fun _ => shape.mapTitle ({ · with name := value })
  | .description, shape =>
    shape.title?.map fun _ => shape.mapTitle ({ · with description := value })
  | .text, .step keyword _ block => some (.step keyword value block)
  | .text, .comment _ => some (.comment value)
  | .value, .cell _ => some (.cell value)
  | .content, .docString _ contentType => some (.docString value contentType)
  | .contentType, .docString content _ => some (.docString content value)
  | .language, .feature title _ tags setup tests rules =>
    some (.feature title value tags setup tests rules)
  | .path, .featureFile _ held comments => some (.featureFile value held comments)
  | .path, .directory _ featureFiles directories =>
    some (.directory value featureFiles directories)
  | _, _ => none

/-- A single part of a node, for the kinds that have it. -/
def part? (shape : Shape α) : PartField → Option (Option α)
  | .background => match shape with
    | .rule _ _ setup _ => some setup
    | .feature _ _ _ setup _ _ => some setup
    | _ => none
  | .block => match shape with
    | .step _ _ block => some block
    | _ => none
  | .feature => match shape with
    | .featureFile _ held _ => some held
    | _ => none

/-- Changes a single part of a node, for the kinds that have it. -/
def setPart (shape : Shape α) (field : PartField) (part : Option α) : Option (Shape α) :=
  match field, shape with
  | .background, .rule title tags _ tests => some (.rule title tags part tests)
  | .background, .feature title language tags _ tests rules =>
    some (.feature title language tags part tests rules)
  | .block, .step keyword text _ => some (.step keyword text part)
  | .feature, .featureFile path _ comments => some (.featureFile path part comments)
  | _, _ => none

/-- A list of parts of a node, for the kinds that have it. -/
def list? (shape : Shape α) : ListField → Option (List α)
  | .tags => match shape with
    | .scenario _ tags _ => some tags
    | .outline _ tags _ _ => some tags
    | .example _ tags _ => some tags
    | .rule _ tags _ _ => some tags
    | .feature _ _ tags _ _ _ => some tags
    | _ => none
  | .steps => match shape with
    | .background _ steps => some steps
    | .scenario _ _ steps => some steps
    | .outline _ _ steps _ => some steps
    | _ => none
  | .examples => match shape with
    | .outline _ _ _ examples => some examples
    | _ => none
  | .rows => match shape with
    | .table rows => some rows
    | .example _ _ rows => some rows
    | _ => none
  | .cells => match shape with
    | .row cells => some cells
    | _ => none
  | .tests => match shape with
    | .rule _ _ _ tests => some tests
    | .feature _ _ _ _ tests _ => some tests
    | _ => none
  | .rules => match shape with
    | .feature _ _ _ _ _ rules => some rules
    | _ => none
  | .comments => match shape with
    | .featureFile _ _ comments => some comments
    | _ => none
  | .featureFiles => match shape with
    | .directory _ featureFiles _ => some featureFiles
    | _ => none
  | .directories => match shape with
    | .directory _ _ directories => some directories
    | _ => none

/-- Changes a list of parts of a node, for the kinds that have it. -/
def setList (shape : Shape α) (field : ListField) (parts : List α) : Option (Shape α) :=
  match field, shape with
  | .tags, .scenario title _ steps => some (.scenario title parts steps)
  | .tags, .outline title _ steps examples => some (.outline title parts steps examples)
  | .tags, .example title _ rows => some (.example title parts rows)
  | .tags, .rule title _ setup tests => some (.rule title parts setup tests)
  | .tags, .feature title language _ setup tests rules =>
    some (.feature title language parts setup tests rules)
  | .steps, .background title _ => some (.background title parts)
  | .steps, .scenario title tags _ => some (.scenario title tags parts)
  | .steps, .outline title tags _ examples => some (.outline title tags parts examples)
  | .examples, .outline title tags steps _ => some (.outline title tags steps parts)
  | .rows, .table _ => some (.table parts)
  | .rows, .example title tags _ => some (.example title tags parts)
  | .cells, .row _ => some (.row parts)
  | .tests, .rule title tags setup _ => some (.rule title tags setup parts)
  | .tests, .feature title language tags setup _ rules =>
    some (.feature title language tags setup parts rules)
  | .rules, .feature title language tags setup tests _ =>
    some (.feature title language tags setup tests parts)
  | .comments, .featureFile path held _ => some (.featureFile path held parts)
  | .featureFiles, .directory path _ directories => some (.directory path parts directories)
  | .directories, .directory path featureFiles _ => some (.directory path featureFiles parts)
  | _, _ => none

/-- The name that a path gives: its last part, nothing if it is left out. -/
def pathName (path : Value) : Except Fault Value :=
  match path with
  | .text t => .ok (.text (Path.baseName t))
  | path => if path.isPresent then .error .unusableValue else .ok (.text [])

/-- The name of a node: the one it was given, or the one of its path. -/
def nameOf (shape : Shape α) : Except Fault Value :=
  match shape.field? .path, shape.field? .name with
  | some path, _ => pathName path
  | none, some name => .ok name
  | none, none => .error .noAttribute

/-- What a node has in the place of a text; a kind without it is at fault. Files and directories
have a name too. -/
def ask (shape : Shape α) : TextField → Except Fault Value
  | .name => shape.nameOf
  | field => Fault.ofOption (shape.field? field)

/-- The field by which a textual node is compared. -/
def textField? : Shape α → Option TextField
  | .cell _ => some .value
  | .docString _ _ => some .content
  | .step _ _ _ | .comment _ => some .text
  | _ => none

/-- The one value by which a textual node is compared. -/
def textValue? (shape : Shape α) : Option Value := shape.textField?.bind shape.field?

/-! ### Laws -/

/-- An empty node of a kind is of this kind. -/
@[simp] theorem kind_empty (k : Kind) : (empty k : Shape α).kind = k := by cases k <;> rfl

/-- Changing the values of a shape leaves its kind alone. -/
@[simp] theorem kind_mapValues (f : Value → Value) (s : Shape α) :
    (s.mapValues f).kind = s.kind := by
  cases s <;> rfl

/-- Changing the values of a shape leaves its parts alone. -/
@[simp] theorem parts_mapValues (f : Value → Value) (s : Shape α) :
    (s.mapValues f).parts = s.parts := by
  cases s <;> rfl

/-- Mapping the parts twice is mapping them once. -/
theorem map_map {γ : Type} (g : β → γ) (f : α → β) (s : Shape α) :
    (s.map f).map g = s.map fun a => g (f a) := by
  cases s <;> simp [map, Function.comp_def]

/-- Changing the parts of a shape leaves its kind alone. -/
@[simp] theorem kind_map (f : α → β) (s : Shape α) : (s.map f).kind = s.kind := by
  cases s <;> rfl

/-- A single part that is changed is changed in the list of it. -/
theorem toList_map (f : α → β) (o : Option α) : (o.map f).toList = o.toList.map f := by
  cases o <;> rfl

/-- Mapping the parts maps the children. -/
@[simp] theorem children_map (f : α → β) (s : Shape α) :
    (s.map f).children = s.children.map f := by
  cases s <;> simp [children, map, toList_map]

/-- The children are among the parts, in the same order. -/
theorem children_sublist (s : Shape α) : s.children.Sublist s.parts := by
  cases s <;> simp [parts, children]

/-- Children are parts. -/
theorem mem_parts_of_mem_children {s : Shape α} {a : α} (h : a ∈ s.children) : a ∈ s.parts :=
  s.children_sublist.subset h

/-- Setting a list of parts leaves the kind alone. -/
theorem kind_of_setList {s t : Shape α} {field : ListField} {xs : List α}
    (h : s.setList field xs = some t) : t.kind = s.kind := by
  cases field <;> cases s <;> cases h <;> rfl

/-- A list that was set is found again. -/
theorem list?_of_setList {s t : Shape α} {field : ListField} {xs : List α}
    (h : s.setList field xs = some t) : t.list? field = some xs := by
  cases field <;> cases s <;> cases h <;> rfl

end Shape

end FeatureTree
