import FeatureTree.Kind
import FeatureTree.Value.Basic

/-!
# Records

A record is a part of a document as it was found, in one shape for all parts and all sources. It
has a field for everything that some kind of part has; what a part does not have stays empty. Lines
and texts are kept as they were found, whatever values they are; the tree of a document that was
parsed from text has numbers and texts there. Every record holds the data it was made from in a
capsule, for diagnosis only.
-/

namespace FeatureTree

/-- The shapes in which parsers have given out their trees. -/
inductive SchemaVersion where
  /-- Lists of features with elements, lines and plain cells. -/
  | legacyJson
  /-- Tables that each name their own type. -/
  | typedAst
  /-- Tables without types, children wrapped in tables of one field. -/
  | currentAst
deriving DecidableEq, Repr, Inhabited

/-- The name of a schema. -/
def SchemaVersion.name : SchemaVersion → String
  | .legacyJson => "legacy_json"
  | .typedAst => "typed_ast"
  | .currentAst => "current_ast"

/-- The data that a part was made from, and its schema. -/
structure Capsule where
  schema : SchemaVersion
  data : Value
deriving Inhabited

/-- A part of a document as it was found. `children` are the sections and rules of a feature or
rule, or the feature of a file; `rows` are those of a table or of examples; `comments` are those of
a file. -/
structure Record where
  kind : Kind
  /-- The line of the part, null when it is not known. -/
  line : Value := .null
  keyword : Text := []
  name : Value := .text []
  description : Value := .text []
  text : Value := .text []
  contentType : Value := .text []
  language : Value := .text []
  tags : List Record := []
  children : List Record := []
  steps : List Record := []
  examples : List Record := []
  rows : List Record := []
  cells : List Record := []
  block : Option Record := none
  comments : List Record := []
  capsule : Capsule
deriving Inhabited

/-- A document as it was found: its feature, if there is one, and its comments. -/
structure DocumentRecord where
  feature : Option Record
  comments : List Record
  capsule : Capsule

end FeatureTree
