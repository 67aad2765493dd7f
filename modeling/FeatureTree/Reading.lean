import FeatureTree.Gherkin.Tree
import FeatureTree.Node.Build
import FeatureTree.Node.Render
import FeatureTree.Schema.Basic

/-!
# Reading nodes from text

Only whole documents can be parsed. A part that stands alone, such as a step or a row, is put into
a small document around it, and its record is picked out again.

## Main results

* `Node.read_featureFile`: a feature file is read as it is, without a document around it
-/

namespace FeatureTree

/-- Parses a text in a dialect into a document record. The file is named in the fault of a text that
is refused. -/
def DocumentRecord.parse (default dialect : Value) (file source : Text) :
    Except Fault DocumentRecord :=
  let name := Dialect.nameOr default dialect
  match name.text?.bind Dialect.ofName? with
  | none => .error (.unreadableDialect name)
  | some d =>
    match Ast.Document.parse d source with
    | .error faults =>
      .error (.rejected file
        ("Parser errors:\n".toList ++ Text.joinLines (faults.map SyntaxFault.message)))
    | .ok document => Schema.normalize document.toTree

namespace Fragment

/-- The name that stands for the file of a part that was given as text. -/
def fileName (kind : Text) : Text :=
  "featuremodel_stand_alone_".toList ++ kind ++ ".feature".toList

/-- Puts a text into a feature. -/
def inFeature (k : PrimaryKeywords) (source : Text) : Text :=
  k.feature ++ ": Fake feature to parse\n".toList ++ source

/-- Puts a text into a scenario. -/
def inScenario (k : PrimaryKeywords) (source : Text) : Text :=
  inFeature k (k.scenario ++ ":\n".toList ++ source)

/-- Puts a text behind a step. -/
def inStep (k : PrimaryKeywords) (source : Text) : Text :=
  inScenario k ("* fake step\n".toList ++ source)

/-- Puts a text behind the step of an outline. -/
def inOutline (k : PrimaryKeywords) (source : Text) : Text :=
  inFeature k (k.outline ++ ":\n* fake step\n".toList ++ source)

/-- The document around a part of a kind. -/
def wrap (k : PrimaryKeywords) (source : Text) : Kind → Text
  | .cell => inStep k ("| ".toList ++ source ++ " |".toList)
  | .row | .table | .docString => inStep k source
  | .step => inScenario k source
  | .background | .scenario | .outline | .rule => inFeature k source
  | .example => inOutline k source
  | .tag | .comment => source ++ '\n' :: inFeature k []
  | .feature | .featureFile | .directory => source

/-- The first section of the feature of a document. -/
def firstSection? (d : DocumentRecord) : Option Record := do (← d.feature).children.head?

/-- The argument of the first step of a document. -/
def firstBlock? (d : DocumentRecord) : Option Record := do
  let step ← (← firstSection? d).steps.head?
  step.block

/-- The record of a part in the document around it. -/
def select? (d : DocumentRecord) : Kind → Option Record
  | .cell => do
    let row ← (← firstBlock? d).rows.head?
    row.cells.head?
  | .row => do (← firstBlock? d).rows.head?
  | .table | .docString => firstBlock? d
  | .step => do (← firstSection? d).steps.head?
  | .background | .scenario | .outline | .rule => firstSection? d
  | .example => do (← firstSection? d).examples.head?
  | .tag => do (← d.feature).tags.head?
  | .comment => d.comments.head?
  | .feature => d.feature
  | .featureFile | .directory => none

/-- What is said of a text that is a document, but not around a part of the kind asked for. -/
def mismatch (kind : Kind) : Text :=
  "Source text does not describe a ".toList ++ kind.name.toList

end Fragment

namespace Node

/-- Reads a feature file from text. Its path, if it has one, names it in faults. -/
def readFile (default dialect : Value) (path source : Text) : Except Fault Node := do
  let file := if path.isEmpty then Fragment.fileName Kind.featureFile.name.toList else path
  let document ← DocumentRecord.parse default dialect file source
  buildFile path document

/-- Reads a part of a kind from text. The keywords of the dialect are needed for the document around
it, so an unknown dialect is noticed before the text is looked at. -/
def readPart (default dialect : Value) (source : Text) (kind : Kind) : Except Fault Node := do
  let file := Fragment.fileName kind.name.toList
  let keywords ← Dialect.keywordsFor default dialect
  let document ← DocumentRecord.parse default dialect file (Fragment.wrap keywords source kind)
  match Fragment.select? document kind with
  | some record =>
    if record.kind = kind then build record
    else throw (.rejected file (Fragment.mismatch kind))
  | none => throw (.rejected file (Fragment.mismatch kind))

/-- Reads a node of a kind from text. -/
def read (default dialect : Value) (path source : Text) (kind : Kind) : Except Fault Node :=
  if kind = .featureFile then readFile default dialect path source
  else readPart default dialect source kind

/-- A feature file is read as it is, without a document around it. -/
theorem read_featureFile (default dialect : Value) (path source : Text) :
    read default dialect path source .featureFile = readFile default dialect path source := rfl

/-- Builds the node of a document record: its feature file, or its feature if it has one. -/
def buildAs (asFile : Bool) (d : DocumentRecord) : Except Fault (Option Node) :=
  if asFile then some <$> buildFile [] d
  else match d.feature with
    | some feature => some <$> build feature
    | none => .ok none

end Node

end FeatureTree
