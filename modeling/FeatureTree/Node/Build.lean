import FeatureTree.Node.Basic
import FeatureTree.Text.Description

/-!
# Building trees from records

A record becomes a node of its kind; what the kind has no place for is left behind. Descriptions are
put into their normal form, so a tree is only built if all descriptions that count are texts. Of
several backgrounds in one feature or rule the last one counts in the tree, but all are built; of
several features in one file only the first one is.

## Main results

* `Node.kind_ofRecord`: a record becomes a node of its own kind
* `Record.isSound_of_kind`: what has no description and no parts can always be built
-/

namespace FeatureTree

namespace Record

/-- The kinds that are sections of a rule. -/
def isSection (kind : Kind) : Bool := [Kind.background, .scenario, .outline].contains kind

/-- The kinds that are sections of a feature. -/
def isSectionOrRule (kind : Kind) : Bool := isSection kind || kind = .rule

mutual

/-- Whether every description that counts in a record is a text: its own, if its kind has one, and
those of the parts that its kind has a place for. -/
def isSound : Record → Bool
  | ⟨kind, _, _, _, description, _, _, _, tags, children, steps, examples, rows, cells, block,
      comments, _⟩ =>
    match kind with
    | .cell | .tag | .docString | .comment | .directory => true
    | .row => areSound (fun _ => true) cells
    | .table => areSound (fun _ => true) rows
    | .step => isBlockSound block
    | .background => description.text?.isSome && areSound (fun _ => true) steps
    | .scenario =>
      description.text?.isSome && areSound (fun _ => true) tags && areSound (fun _ => true) steps
    | .outline =>
      description.text?.isSome && areSound (fun _ => true) tags && areSound (fun _ => true) steps
        && areSound (fun _ => true) examples
    | .example =>
      description.text?.isSome && areSound (fun _ => true) tags && areSound (fun _ => true) rows
    | .rule =>
      description.text?.isSome && areSound (fun _ => true) tags && areSound isSection children
    | .feature =>
      description.text?.isSome && areSound (fun _ => true) tags
        && areSound isSectionOrRule children
    | .featureFile => isFeatureSound children && areSound (fun _ => true) comments

/-- Whether every record of some kinds in a list is sound. -/
def areSound (counts : Kind → Bool) : List Record → Bool
  | [] => true
  | r :: rs => (!counts r.kind || r.isSound) && areSound counts rs

/-- Whether the first feature in a list is sound, if there is one. -/
def isFeatureSound : List Record → Bool
  | [] => true
  | r :: rs => if r.kind = .feature then r.isSound else isFeatureSound rs

/-- Whether the argument of a step is sound. -/
def isBlockSound : Option Record → Bool
  | none => true
  | some r => r.isSound

end

/-- What has no description and no parts can always be built. -/
theorem isSound_of_kind {r : Record}
    (h : r.kind = .cell ∨ r.kind = .tag ∨ r.kind = .docString ∨ r.kind = .comment) :
    r.isSound = true := by
  rcases r with ⟨kind, _, _, _, _, _, _, _, _, _, _, _, _, _, _, _, _⟩
  rcases h with h | h | h | h <;> simp only at h <;> subst h <;> simp [isSound]

end Record

namespace Node

/-- The normal form of a description, which has to be a text. -/
def trimmedDescription : Value → Except Fault Text
  | .text t => .ok t.trimDescription
  | _ => .error .noAttribute

/-- The normal form of a description; a value that is no text is left alone. -/
def normalDescription : Value → Value
  | .text t => .text t.trimDescription
  | v => v

/-- The nodes of given kinds in a list. -/
def ofKinds (kinds : List Kind) (ns : List Node) : List Node :=
  ns.filter fun n => kinds.contains n.kind

mutual

/-- The tree of a record, attached under a feature of a language or under none. -/
def ofRecord (language : Option Value) : Record → Node
  | ⟨kind, line, keyword, name, description, text, contentType, own, tags, children, steps,
      examples, rows, cells, block, comments, capsule⟩ =>
    let inner := if kind = .feature then some own else language
    let title : Title := ⟨.text keyword, name, normalDescription description⟩
    let tags := ofRecords inner tags
    let children := ofRecords inner children
    let setup := (ofKinds [.background] children).getLast?
    let tests := ofKinds [.scenario, .outline] children
    let held := (ofKinds [.feature] children).head?
    let shape : Shape Node := match kind with
      | .cell => .cell text
      | .row => .row (ofRecords inner cells)
      | .tag => .tag name
      | .table => .table (ofRecords inner rows)
      | .docString => .docString text contentType
      | .step => .step (.text keyword) text (ofBlock inner block)
      | .background => .background title (ofRecords inner steps)
      | .scenario => .scenario title tags (ofRecords inner steps)
      | .outline => .outline title tags (ofRecords inner steps) (ofRecords inner examples)
      | .example => .example title tags (ofRecords inner rows)
      | .rule => .rule title tags setup tests
      | .feature => .feature title own tags setup tests (ofKinds [.rule] children)
      | .featureFile => .featureFile (.text []) held (ofRecords inner comments)
      | .directory => .directory (.text []) [] []
      | .comment => .comment text
    .mk { line, capsule := some capsule, language } shape

/-- The trees of a list of records. -/
def ofRecords (language : Option Value) : List Record → List Node
  | [] => []
  | r :: rs => ofRecord language r :: ofRecords language rs

/-- The tree of the argument of a step. -/
def ofBlock (language : Option Value) : Option Record → Option Node
  | none => none
  | some r => some (ofRecord language r)

end

/-- The feature file of a document, read from a path. -/
def ofDocument (path : Text) (d : DocumentRecord) : Node :=
  .mk { capsule := some d.capsule }
    (.featureFile (.text path) (d.feature.map (ofRecord none)) (d.comments.map (ofRecord none)))

/-- Builds the tree of a record that stands alone. -/
def build (r : Record) : Except Fault Node :=
  if r.isSound then .ok (ofRecord none r) else .error .noAttribute

/-- Builds the feature file of a document. -/
def buildFile (path : Text) (d : DocumentRecord) : Except Fault Node :=
  if Record.areSound (fun _ => true) (d.feature.toList ++ d.comments) then .ok (ofDocument path d)
  else .error .noAttribute

/-- A row of new cells. -/
def ofValues (values : List Value) : Node :=
  .mk {} (.row (values.map fun v => .mk {} (.cell v)))

/-- A record becomes a node of its own kind. -/
theorem kind_ofRecord (language : Option Value) (r : Record) :
    (ofRecord language r).kind = r.kind := by
  rcases r with ⟨kind, _, _, _, _, _, _, _, _, _, _, _, _, _, _, _, _⟩
  cases kind <;> simp [ofRecord, Node.kind, Node.shape, Shape.kind]

end Node

end FeatureTree
