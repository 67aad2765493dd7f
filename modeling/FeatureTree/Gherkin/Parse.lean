import FeatureTree.Gherkin.Document

/-!
# Reading a document

The reader takes the lines in order. At each line it tries the entries of its place until one
applies; if none does, it notes what was expected and stays where it is, so that one pass reports
all the lines that do not fit. Every fault is noted once, and after the eleventh no more are.

## Main results

* `Ast.Document.parse_ok_iff`: a text is accepted exactly when the reader notes no fault
* `ParseState.note_of_full`: after the eleventh fault no more are noted
-/

namespace FeatureTree

/-- What is wrong with a document, and where. -/
inductive SyntaxFault where
  /-- A line that does not fit its place. -/
  | unexpectedLine (loc : Location) (expected : List TokenKind) (line : Text)
  /-- An end of file, given with its line number, that does not fit its place. -/
  | unexpectedEnd (line : Nat) (expected : List TokenKind)
  /-- A tag with a blank inside. -/
  | blankInTag (loc : Location)
  | unknownLanguage (loc : Location) (name : Text)
  /-- A table row with another number of cells than the first row of its table. -/
  | raggedTable (loc : Location)
deriving DecidableEq, Repr

namespace SyntaxFault

/-- A place as it stands at the start of a message. -/
def placeText (line column : Nat) : Text :=
  '(' :: Nat.toDigits 10 line ++ ':' :: Nat.toDigits 10 column ++ ")".toList

/-- The names of token kinds, with commas between them. -/
def kindsText (kinds : List TokenKind) : Text :=
  [',', ' '].intercalate (kinds.map (·.name.toList))

/-- The message of a fault. -/
def message : SyntaxFault → Text
  | .unexpectedLine p expected line =>
    placeText p.line p.column ++ ": expected: ".toList ++ kindsText expected
      ++ ", got '".toList ++ line ++ ['\'']
  | .unexpectedEnd line expected =>
    placeText line 0 ++ ": unexpected end of file, expected: ".toList ++ kindsText expected
  | .blankInTag p => placeText p.line p.column ++ ": A tag may not contain whitespace".toList
  | .unknownLanguage p name =>
    placeText p.line p.column ++ ": Language not supported: ".toList ++ name
  | .raggedTable p =>
    placeText p.line p.column ++ ": inconsistent cell count within the table".toList

end SyntaxFault

/-- The most faults that are noted. -/
def faultLimit : Nat := 11

/-- The state of the reader between two lines. -/
structure ParseState where
  place : State
  reading : Reading
  document : Ast.Document
  faults : List SyntaxFault
deriving Repr

namespace ParseState

/-- Notes a fault, unless one with the same message was noted before or the limit is reached. -/
def note (s : ParseState) (fault : SyntaxFault) : ParseState :=
  if s.faults.length < faultLimit && !(s.faults.any (·.message = fault.message)) then
    { s with faults := s.faults ++ [fault] }
  else s

/-- The fault of a line that is faulty as a token. -/
def ofTokenFault (l : Line) : TokenFault → SyntaxFault
  | .blankInTag column => .blankInTag ⟨l.number, column⟩
  | .unknownLanguage name => .unknownLanguage l.location name

/-- Tries a line as a token of one kind; a faulty line is noted and counts as no such token. -/
def tryKind (s : ParseState) (l : Line) (kind : TokenKind) : ParseState × Option Token :=
  match s.reading.token? l kind with
  | .ok token => (s, token)
  | .error fault => (s.note (ofTokenFault l fault), none)

/-- Tries kinds of token in order until one applies. -/
def tryKinds (s : ParseState) (l : Line) : List TokenKind → ParseState × Option Token
  | [] => (s, none)
  | kind :: kinds =>
    match s.tryKind l kind with
    | (s, some token) => (s, some token)
    | (s, none) => s.tryKinds l kinds

/-- Looks ahead for a kind of token behind blank lines, comments and tag lines. -/
def looksAhead (s : ParseState) (kind : TokenKind) : List Line → ParseState × Bool
  | [] => (s, false)
  | l :: rest =>
    match s.tryKind l kind with
    | (s, some _) => (s, true)
    | (s, none) =>
      match s.tryKinds l [.empty, .comment, .tagLine] with
      | (s, some _) => s.looksAhead kind rest
      | (s, none) => (s, false)

/-- Tries the entries of a place in order until one applies, and gives it with its token. `rest` is
what follows the line. -/
def choose (s : ParseState) (l : Line) (rest : List Line) :
    List Entry → ParseState × Option (Entry × Token)
  | [] => (s, none)
  | entry :: entries =>
    match s.tryKind l entry.kind with
    | (s, none) => s.choose l rest entries
    | (s, some token) =>
      match entry.ahead with
      | none => (s, some (entry, token))
      | some kind =>
        match s.looksAhead kind rest with
        | (s, true) => (s, some (entry, token))
        | (s, false) => s.choose l rest entries

/-- Notes a ragged table if the table that is being read ends here. -/
def leave (s : ParseState) (next : State) : ParseState :=
  if s.place.inTable && s.place != next then
    match Ast.firstRagged? (s.document.openRows s.place) with
    | some row => s.note (.raggedTable row.loc)
    | none => s
  else s

/-- Goes on by one line. -/
def advance (s : ParseState) (l : Line) (rest : List Line) : ParseState :=
  match s.choose l rest s.place.entries with
  | (s, none) => s.note (.unexpectedLine l.location s.place.expected l.text.trim)
  | (s, some (entry, token)) =>
    let s := s.leave entry.next
    let reading := s.reading.after l token
    { s with
      place := entry.next
      reading
      document := s.document.take reading.dialect.name l s.place entry.next token }

/-- Goes through all lines. -/
def run (s : ParseState) : List Line → ParseState
  | [] => s
  | l :: rest => (s.advance l rest).run rest

/-- Ends the document; `line` is the number of the line after the last. -/
def finish (s : ParseState) (line : Nat) : ParseState :=
  if s.place.entries.any (·.kind = .eof) then { s.leave .done with place := .done }
  else s.note (.unexpectedEnd line s.place.expected)

/-- The reader before the first line. -/
def start (dialect : Dialect) : ParseState :=
  ⟨.start, ⟨dialect, none⟩, .empty, []⟩

/-- After the eleventh fault no more are noted. -/
theorem note_of_full {s : ParseState} (h : faultLimit ≤ s.faults.length) (fault : SyntaxFault) :
    s.note fault = s := by
  have : ¬s.faults.length < faultLimit := by omega
  simp [note, this]

/-- Going through two runs of lines is going through the first with the second ahead. -/
theorem run_cons (s : ParseState) (l : Line) (rest : List Line) :
    s.run (l :: rest) = (s.advance l rest).run rest := rfl

end ParseState

namespace Ast.Document

/-- The reader after a whole text. -/
def read (dialect : Dialect) (source : Text) : ParseState :=
  let lines := Line.ofText source
  ((ParseState.start dialect).run lines).finish (lines.length + 1)

/-- The document that a text describes, or what is wrong with the text. -/
def parse (dialect : Dialect) (source : Text) : Except (List SyntaxFault) Ast.Document :=
  let s := read dialect source
  if s.faults.isEmpty then .ok s.document else .error s.faults

/-- A text is accepted exactly when the reader notes no fault. -/
theorem parse_ok_iff {dialect : Dialect} {source : Text} {d : Ast.Document} :
    parse dialect source = .ok d ↔
      (read dialect source).faults = [] ∧ (read dialect source).document = d := by
  by_cases h : (read dialect source).faults = []
  · simp [parse, h]
  · simp [parse, h]

end Ast.Document

end FeatureTree
