import FeatureTree.Toml.Assembly
import FeatureTree.Toml.Number

/-!
# Statements of TOML

A TOML text is a list of statements: a key and its value, or the header of a table or of one more
table in a list. Inline tables are put together while they are read, so reading one can fail in the
ways in which setting a table piece by piece can.

A list and an inline table can go on over many lines, with comments at the ends of the lines and a
comma behind the last member. A line ends with a line feed, before which there may be a carriage
return; between the members of a list or an inline table a carriage return may stand alone, and
anywhere else that is refused. Keys have no more than a hundred names, and lists and inline tables
stand in one another no deeper than that.

## Main results

* `Toml.endOfLine_nil`: the end of the text ends a line
* `Toml.statements_nil`: an empty text has no statements
-/

namespace FeatureTree

namespace Toml

/-- A statement. -/
inductive Statement where
  | pair (key : Key) (v : Value)
  /-- The header of a table, or of one more table in a list. The line of a torn one cannot be read
  behind its key. -/
  | header (listed torn : Bool) (key : Key)

/-- The most names that a key has. -/
def maxNames : Nat := 100

/-- How deep lists and inline tables stand in one another at most. -/
def maxNesting : Nat := 100

/-- Whether a character is white space within a line. -/
def isSpace (c : Char) : Bool := c = ' ' || c = '\t'

/-- Drops white space within a line. -/
def skipSpaces (t : Text) : Text := t.dropWhile isSpace

/-- Whether a character can occur in a bare key. -/
def isKeyChar (c : Char) : Bool :=
  c = '-' || c = '_' || ('0' ≤ c && c ≤ '9') || ('a' ≤ c && c ≤ 'z') || ('A' ≤ c && c ≤ 'Z')

/-- Reads a comment after its mark, up to the end of the line. -/
def comment : Text → Except Fault Text
  | [] => .ok []
  | c :: t =>
    if c = '\n' || c = '\r' then .ok (c :: t)
    else if isControl c then .error .invalidConfig
    else comment t

/-- Reads the rest of a line on which a statement has ended. -/
def endOfLine (t : Text) : Except Fault Text := do
  let rest ← match skipSpaces t with
    | '#' :: t => comment t
    | t => pure t
  match rest with
  | [] => return []
  | '\n' :: rest => return rest
  | '\r' :: '\n' :: rest => return rest
  | _ => throw .invalidConfig

/-- Turns an answer without a reason into one. -/
def orInvalid {α : Type} : Option α → Except Fault α
  | some a => .ok a
  | none => .error .invalidConfig

/-- Reads one name of a key: a string on one line, or a bare word. -/
def keyName (t : Text) : Except Fault (String × Text) := do
  let quoted (quote : Char) (t : Text) : Except Fault (Text × Text) :=
    if Quoted.opensManyLines quote t then .error .invalidConfig
    else orInvalid (Quoted.string? quote t)
  let (name, rest) ← match skipSpaces t with
    | '"' :: t => quoted '"' t
    | '\'' :: t => quoted '\'' t
    | t =>
      let name := t.takeWhile isKeyChar
      if name.isEmpty then .error .invalidConfig else .ok (name, t.drop name.length)
  return (String.ofList name, skipSpaces rest)

/-- Reads a key, whose names are divided by points. The first argument bounds their number. -/
def key : Nat → Text → Except Fault (Key × Text)
  | 0, _ => .error .invalidConfig
  | n + 1, t => do
    let (name, rest) ← keyName t
    match rest with
    | '.' :: rest =>
      let (others, rest) ← key n rest
      return (⟨name, others.names⟩, rest)
    | rest => return (⟨name, []⟩, rest)

/-- Reads the sign between a key and its value, and the white space behind it. -/
def equalsSign : Text → Except Fault Text
  | '=' :: t => .ok (skipSpaces t)
  | _ => .error .invalidConfig

/-- Whether a character goes on a number or word. -/
def isTokenChar (c : Char) : Bool := !(isSpaceOrEnd c || c = '#' || c = ',' || c = ']' || c = '}')

/-- Reads a value that is neither a list nor a table. A number or word goes on up to white space, a
comment or punctuation. -/
def scalar (t : Text) : Except Fault (Value × Text) :=
  let string (quote : Char) (t : Text) : Except Fault (Value × Text) :=
    orInvalid ((Quoted.string? quote t).map fun (s, rest) => (.text s, rest))
  match t with
  | '"' :: t => string '"' t
  | '\'' :: t => string '\'' t
  | t =>
    let token := t.takeWhile isTokenChar
    let v :=
      if token = "true".toList then some (.bool true)
      else if token = "false".toList then some (.bool false)
      else Number.read? token
    orInvalid (v.map fun v => (v, t.drop token.length))

/-- Skips white space, ends of lines and comments between members. The first argument bounds the
length. -/
def skipBetween : Nat → Text → Except Fault Text
  | 0, t => .ok t
  | n + 1, t =>
    match t.dropWhile isSpaceOrEnd with
    | '#' :: t => do skipBetween n (← comment t)
    | t => .ok t

mutual

/-- Reads a value. The first argument bounds how deep tables stand in one another, the second one
nesting and length; the third one is how many lists and inline tables may still be opened inside one
another. -/
def value (depth : Nat) : Nat → Nat → Text → Except Fault (Value × Text)
  | 0, _, _ => .error .invalidConfig
  | n + 1, room, t =>
    match t, room with
    | '[' :: t, room + 1 => do
      let (vs, rest) ← items depth n room t
      return (.list vs, rest)
    | '{' :: t, room + 1 => do
      let (inside, rest) ← fields depth n room .empty t
      return (.table (← inside.fieldsValue depth), rest)
    | '[' :: _, 0 | '{' :: _, 0 => .error .invalidConfig
    | t, _ => scalar t

/-- Reads the members of a list up to its closing bracket. A comma may stand behind the last one. -/
def items (depth : Nat) : Nat → Nat → Text → Except Fault (List Value × Text)
  | 0, _, _ => .error .invalidConfig
  | n + 1, room, t => do
    match ← skipBetween (t.length + 1) t with
    | ']' :: rest => return ([], rest)
    | t =>
      let (v, rest) ← value depth n room t
      match ← skipBetween (rest.length + 1) rest with
      | ',' :: rest =>
        let (vs, rest) ← items depth n room rest
        return (v :: vs, rest)
      | ']' :: rest => return ([v], rest)
      | _ => throw .invalidConfig

/-- Reads fields of an inline table, after those that were read before, up to its closing brace. A
comma may stand behind the last one. -/
def fields (depth : Nat) : Nat → Nat → Section → Text → Except Fault (Section × Text)
  | 0, _, _, _ => .error .invalidConfig
  | n + 1, room, before, t => do
    match ← skipBetween (t.length + 1) t with
    | '}' :: rest => return (before, rest)
    | t =>
      let (k, rest) ← key maxNames t
      let (v, rest) ← value depth n room (← equalsSign rest)
      let (name, d) := Draft.ofKey v k.first k.others
      let done ← before.append depth true name d
      match ← skipBetween (rest.length + 1) rest with
      | ',' :: rest => fields depth n room done rest
      | '}' :: rest => return (done, rest)
      | _ => throw .invalidConfig

end

/-- Reads a header after its opening bracket. The brackets of a double one stand side by side.
Behind a torn header nothing is read. -/
def header (t : Text) : Except Fault (Statement × Text) := do
  let (listed, t) := match t with
    | '[' :: t => (true, t)
    | t => (false, t)
  let (k, rest) ← key maxNames t
  let after := match listed, rest with
    | true, ']' :: ']' :: rest | false, ']' :: rest => endOfLine rest
    | _, _ => .error .invalidConfig
  match after with
  | .ok rest => return (.header listed false k, rest)
  | .error _ => return (.header listed true k, [])

/-- Reads a key and its value to the end of the line. -/
def pair (depth : Nat) (t : Text) : Except Fault (Statement × Text) := do
  let (k, rest) ← key maxNames t
  let t ← equalsSign rest
  let (v, rest) ← value depth (2 * t.length + 2) maxNesting t
  return (.pair k v, ← endOfLine rest)

/-- Reads a line that may hold a statement, and the lines that the statement goes on over. -/
def line (depth : Nat) (t : Text) : Except Fault (Option Statement × Text) := do
  match skipSpaces t with
  | [] => return (none, [])
  | '[' :: t =>
    let (s, rest) ← header t
    return (some s, rest)
  | c :: t =>
    if c = '#' || startsLineEnd (c :: t) then return (none, ← endOfLine (c :: t))
    else
      let (s, rest) ← pair depth (c :: t)
      return (some s, rest)

/-- Reads statements up to the end of the text or the first one that cannot be read, and gives the
reason if there is such a one. The second argument bounds the number of lines. -/
def statements (depth : Nat) : Nat → Text → List Statement × Option Fault
  | 0, _ => ([], some .invalidConfig)
  | n + 1, t =>
    if t.isEmpty then ([], none)
    else match line depth t with
      | .error f => ([], some f)
      | .ok (s, rest) =>
        let (ss, trouble) := statements depth n rest
        (s.toList ++ ss, trouble)

/-- The end of the text ends a line. -/
theorem endOfLine_nil : endOfLine [] = .ok [] := rfl

/-- An empty text has no statements. -/
theorem statements_nil (depth n : Nat) : statements depth (n + 1) [] = ([], none) := rfl

end Toml

end FeatureTree
