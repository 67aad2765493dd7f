import FeatureTree.Fault

/-!
# Tables under construction

A TOML document sets its tables piece by piece. The inside of a table under construction is the list
of its entries in the order in which they came. A name can occur in it more than once, as long as it
stands for parts of one table, which have to fit together; what the parts make together is kept
beside them as it was when they were last looked at.

## Main results

* `Toml.Section.latest?_push`: the entry that was put in last is the latest one of its name
* `Toml.Section.entries_keepJoined`: keeping what the parts of a table make changes no entry
-/

namespace FeatureTree

namespace Toml

/-- The name of an entry, and whether it is the inner part of a dotted key. -/
structure Label where
  key : String
  dotted : Bool := false
deriving DecidableEq, Repr

/-- A key: one name or several with points between them. -/
structure Key where
  first : String
  others : List String := []
deriving DecidableEq, Repr

/-- The names of a key. -/
def Key.names (k : Key) : List String := k.first :: k.others

/-- How a table came to be. -/
inductive Opening where
  | header
  /-- Only longer keys went through the table. -/
  | implied
  /-- A longer header of a list went through the table below a further table of a list of its name,
  which makes it one more table of a list. -/
  | member
deriving DecidableEq, Repr

mutual

/-- A value, a table under construction, or a list of such tables. -/
inductive Draft where
  | value (v : Value)
  | table (opening : Opening) (inside : Section)
  | tables (items : List Draft)

/-- The inside of a table under construction: its entries, and for tables in parts how many of the
parts have been put together and what they make. -/
inductive Section where
  | mk (entries : List (Label × Draft)) (joined : List (String × Nat × Section))

end

namespace Draft

/-- Whether this is a single table. -/
def isTable : Draft → Bool
  | .table _ _ => true
  | _ => false

/-- The same table as one more table of a list. -/
def asMember : Draft → Draft
  | .table _ inside => .table .member inside
  | d => d

end Draft

namespace Section

/-- Nothing has been set. -/
def empty : Section := .mk [] []

/-- The entries, in the order in which they came. -/
def entries : Section → List (Label × Draft)
  | .mk es _ => es

/-- What the parts of tables make together. -/
def joined : Section → List (String × Nat × Section)
  | .mk _ js => js

/-- The keys that occur, each once. -/
def keys (s : Section) : List String := (s.entries.map (·.1.key)).eraseDups

/-- The entries under a key. -/
def under (key : String) (s : Section) : List (Label × Draft) :=
  s.entries.filter (·.1.key = key)

/-- The latest entry under a key. -/
def latest? (key : String) (s : Section) : Option (Label × Draft) := (s.under key).getLast?

/-- Whether a key occurs more than once. -/
def isSplit (key : String) (s : Section) : Bool := 1 < (s.under key).length

/-- The entries of the parts of a table, without those of the first few parts. -/
def partEntries (key : String) (skipped : Nat) (s : Section) : List (Label × Draft) :=
  ((s.under key).drop skipped).flatMap fun
    | (_, .table _ inside) => inside.entries
    | _ => []

/-- Changes the entries. -/
def mapEntries (f : List (Label × Draft) → List (Label × Draft)) : Section → Section
  | .mk es js => .mk (f es) js

/-- Puts an entry behind the others. -/
def push (name : Label) (d : Draft) (s : Section) : Section := s.mapEntries (· ++ [(name, d)])

/-- Replaces the first entry under a key. -/
def replaceFirst (key : String) (d : Draft) : List (Label × Draft) → List (Label × Draft)
  | [] => []
  | (name, old) :: es =>
    if name.key = key then (name, d) :: es else (name, old) :: replaceFirst key d es

/-- Replaces the latest entry under a key. -/
def replaceLatest (key : String) (d : Draft) (s : Section) : Section :=
  s.mapEntries fun es => (replaceFirst key d es.reverse).reverse

/-- Replaces all the entries under a key by one, in the place of the first. -/
def replaceAll (key : String) (d : Draft) : List (Label × Draft) → List (Label × Draft)
  | [] => []
  | (name, old) :: es =>
    if name.key = key then (name, d) :: es.filter (·.1.key ≠ key)
    else (name, old) :: replaceAll key d es

/-- The key of the latest table. -/
def lastTable? (s : Section) : Option String :=
  ((s.entries.filter (·.2.isTable)).getLast?).map (·.1.key)

/-- How many parts of a table have been put together, and what they make. -/
def joinedAs (key : String) (s : Section) : Nat × Section :=
  (s.joined.lookup key).getD (0, .empty)

/-- Keeps what the first few parts of a table make together. -/
def keepJoined (s : Section) (key : String) (count : Nat) (together : Section) : Section :=
  .mk s.entries ((key, count, together) :: s.joined.filter (·.1 ≠ key))

/-! ### Laws -/

/-- A pushed entry stands behind the others. -/
@[simp] theorem entries_push (name : Label) (d : Draft) (s : Section) :
    (s.push name d).entries = s.entries ++ [(name, d)] := by
  cases s
  rfl

/-- The entry that was put in last is the latest one of its name. -/
theorem latest?_push (name : Label) (d : Draft) (s : Section) :
    (s.push name d).latest? name.key = some (name, d) := by
  simp [latest?, under]

/-- Keeping what the parts of a table make changes no entry. -/
@[simp] theorem entries_keepJoined (s : Section) (key : String) (count : Nat)
    (together : Section) : (s.keepJoined key count together).entries = s.entries := rfl

end Section

/-- The entry that a key and its value make: a dotted key goes through implied tables. -/
def Draft.ofKey (v : Value) : String → List String → Label × Draft
  | key, [] => (⟨key, false⟩, .value v)
  | key, next :: others =>
    let (name, d) := ofKey v next others
    (⟨key, true⟩, .table .implied (Section.empty.push name d))

/-- The entry that a header of several names makes: all but the last table are implied. -/
def Draft.ofHeader (leaf : Draft) : String → List String → Label × Draft
  | key, [] => (⟨key, false⟩, leaf)
  | key, next :: others =>
    let (name, d) := ofHeader leaf next others
    (⟨key, false⟩, .table .implied (Section.empty.push name d))

end Toml

end FeatureTree
