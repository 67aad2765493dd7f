import FeatureTree.Kind
import FeatureTree.Value.Basic

/-!
# Faults

The ways in which an operation of the library can fail, as causes. The wording of those that are
shown to the user is in `Fault.message`.
-/

namespace FeatureTree

/-- The cause of a failure. -/
inductive Fault where
  /-- A text that is no document, or not the part of one that was asked for. -/
  | rejected (file detail : Text)
  /-- A dialect whose keywords are asked for and that is not known. -/
  | unknownDialect (name : Value)
  /-- A text that is to be read in a dialect that is not known. -/
  | unreadableDialect (name : Value)
  | unknownKind (name : Value)
  | unknownOrder (name : Value)
  /-- A value that is no parser's tree at all. -/
  | unsupportedTree (kindName : String)
  /-- A typed feature child of an unknown type. -/
  | unknownChildType (type : Value)
  /-- A wrapped feature child with none of the known fields, given by its members in order. -/
  | unknownChild (members : List Value)
  /-- A legacy element of an unknown type. -/
  | unknownElementType (type : Value)
  /-- Data for a table row that is neither a mapping nor a sequence. -/
  | unsupportedRow (kindName : String)
  /-- A row for a table that has no parameters, and what is said of it. -/
  | noParameters (message : Text)
  /-- A node that is to be attached while it has another parent; both given by their labels. -/
  | alreadyAttached (child parent : Text)
  /-- A node that was attached below itself where its tree is asked for. -/
  | endless
  /-- An attribute that the kind of node or value does not have. -/
  | noAttribute
  /-- A value of a kind that the operation has no use for. -/
  | unusableValue
  /-- A field that is needed and that a table does not have. -/
  | missingField
  /-- A reference to no node. -/
  | noSuchNode
  | invalidConfig
  /-- A name that a configuration sets twice within one table. -/
  | repeatedName
  /-- A table that a configuration opens twice. -/
  | reopenedTable
  /-- An integer with more digits than are read. -/
  | integerTooLong
  | notUtf8
  /-- A path with a character that no path can have. -/
  | unusablePath
  /-- A path, or a part of one, that is longer than paths can be. -/
  | pathTooLong
  | fileNotFound
  | notADirectory
  | isADirectory
deriving Inhabited

namespace Fault

/-- What is there, or the fault of asking for what is not there. -/
def ofOption {α : Type} : Option α → Except Fault α
  | some a => .ok a
  | none => .error .noAttribute

/-- The message of a rejected text. -/
def rejectedMessage (file detail : Text) : Text :=
  "Error encountered while parsing '".toList ++ file ++ ['\'']
    ++ (if detail.isEmpty then [] else '\n' :: detail)

/-- The message of a fault, for those that have one. -/
def message : Fault → Option Text
  | .rejected file detail => some (rejectedMessage file detail)
  | .unknownDialect name => some ("Unknown dialect: ".toList ++ name.shown)
  | .unknownKind name => some (name.shown ++ " is not a valid NodeKind".toList)
  | .unknownOrder name => some ("Unknown traversal order: ".toList ++ name.asText)
  | .unsupportedTree kind => some ("Unsupported parser output: ".toList ++ kind.toList)
  | .unknownChildType type => some ("Unknown feature child type: ".toList ++ type.shown)
  | .unknownChild members =>
    some ("Unknown feature child: ".toList ++ (Value.list members).shown)
  | .unknownElementType type => some ("Unknown element type: ".toList ++ type.shown)
  | .unsupportedRow kind =>
    some ("A row must be a mapping or a sequence, not ".toList ++ kind.toList)
  | .noParameters message => some message
  | .alreadyAttached child parent => some (child ++ " is already attached to ".toList ++ parent)
  | .invalidConfig => some "Invalid configuration".toList
  | _ => none

end Fault

end FeatureTree
