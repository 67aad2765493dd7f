import FeatureTree.Toml.Statement

/-!
# TOML documents

A header opens a section, which goes on up to the next header whose key does not go on behind its
own; the sections of longer keys that follow are parts of it. A section is put together as a whole
before it is set in the table around it. Headers of one list that follow one another make its
tables. Inside all but the first of these tables, a longer header of a list that goes through a
table with the name of the list makes that table one more table of a list.

A header is only looked at up to its key until its turn comes, so that what stands before a torn one
counts first. A name that is set twice is refused: inside a section that is reported as such, and at
the top of the document as a text that is no configuration.

## Main results

* `Toml.read_nil`: an empty text sets nothing
-/

namespace FeatureTree

namespace Toml

/-- Whether a key goes on behind another one. -/
def Key.isBelow (k above : Key) : Bool :=
  above.names.isPrefixOf k.names && above.names.length < k.names.length

/-- The tables under headers of a list that follow one another, each read by `table`; the first
argument bounds their number. -/
def siblings (table : List Statement → Except Fault (Section × List Statement)) (k : Key) :
    Nat → List Statement → Except Fault (List Draft × List Statement)
  | n + 1, .header true torn other :: rest => do
    if other = k then
      if torn then throw .invalidConfig
      let (inside, rest) ← table rest
      let (items, rest) ← siblings table k n rest
      return (.table .header inside :: items, rest)
    else return ([], .header true torn other :: rest)
  | _, rest => .ok ([], rest)

mutual

/-- Reads what belongs to the table that a header has opened, after what was read before. The lists
are those of which a further table is being read. -/
def tableInside (depth : Nat) (trouble : Option Fault) (lists : List Key) (k : Key) :
    Nat → Section → List Statement → Except Fault (Section × List Statement)
  | 0, _, _ => .error .invalidConfig
  | n + 1, s, rest =>
    match rest with
    | .pair inner v :: rest => do
      tableInside depth trouble lists k n (← s.setKey depth inner v) rest
    | .header listed torn below :: after =>
      if below.isBelow k then do
        if torn then throw .invalidConfig
        let (name, d, rest) ← tableSection depth trouble lists k.names.length n listed below after
        tableInside depth trouble lists k n (← s.attach depth false name d) rest
      else do
        return (← s.joinAll depth, rest)
    | [] => do
      if let some f := trouble then throw f
      return (← s.joinAll depth, [])

/-- Reads the section of a header, of whose key some names belong to the table around it. -/
def tableSection (depth : Nat) (trouble : Option Fault) (lists : List Key) (outer : Nat) :
    Nat → Bool → Key → List Statement → Except Fault (Label × Draft × List Statement)
  | 0, _, _, _ => .error .invalidConfig
  | n + 1, listed, k, rest => do
    let (inside, rest) ← tableInside depth trouble lists k n .empty rest
    let leaf : Draft := .table .header inside
    match k.names.drop outer, listed with
    | [name], true =>
      let further := tableInside depth trouble (k :: lists) k n .empty
      let (items, rest) ← siblings further k rest.length rest
      return (⟨name, false⟩, .tables (leaf :: items), rest)
    | name :: others, true =>
      let (label, d) := Draft.ofHeader (.tables [leaf]) name others
      return (label, if lists.contains ⟨name, []⟩ then d.asMember else d, rest)
    | name :: others, false =>
      let (label, d) := Draft.ofHeader leaf name others
      return (label, d, rest)
    | [], _ => throw .invalidConfig

end

/-- Sets an entry at the top of a document. -/
def setTop (depth : Nat) (s : Section) (name : Label) (d : Draft) : Except Fault Section :=
  match s.append depth true name d with
  | .ok s => .ok s
  | .error _ => .error .invalidConfig

/-- Reads a document, after what was read before. -/
def document (depth : Nat) (trouble : Option Fault) :
    Nat → Section → List Statement → Except Fault Section
  | 0, _, _ => .error .invalidConfig
  | n + 1, s, rest =>
    match rest with
    | .pair k v :: rest => do
      let (name, d) := Draft.ofKey v k.first k.others
      document depth trouble n (← setTop depth s name d) rest
    | .header listed torn k :: rest => do
      if torn then throw .invalidConfig
      let (name, d, rest) ← tableSection depth trouble [] 0 (3 * rest.length + 3) listed k rest
      document depth trouble n (← setTop depth s name d) rest
    | [] =>
      match trouble with
      | some f => .error f
      | none => .ok s

/-- Reads a text as a configuration. -/
def read (t : Text) : Except Fault (List (String × Value)) := do
  let depth := 4 * t.length + 8
  let (ss, trouble) := statements depth (t.length + 1) t
  Section.fieldsValue depth (← document depth trouble (ss.length + 1) .empty ss)

/-- An empty text sets nothing. -/
theorem read_nil : read [] = .ok [] := rfl

end Toml

end FeatureTree
