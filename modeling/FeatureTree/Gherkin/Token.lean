import FeatureTree.Gherkin.Cells
import FeatureTree.Gherkin.Dialect.Table

/-!
# Tokens

What a line can be read as. The same line can be several tokens, and the grammar decides in which
order the kinds are tried; `Reading.token?` answers for one kind. Some lines are faulty in a way
that shows only in one kind: a tag line with a blank inside a tag, and a language line that names
an unknown dialect.

## Contents

* `TokenKind`, `Token`: the kinds, and the kinds with what was read
* `Reading`: the dialect in force and the doc string that is open
* `Reading.token?`: reads a line as a token of one kind
-/

namespace FeatureTree

/-- The kinds of token, in the words used for them in messages. -/
inductive TokenKind where
  | eof
  | empty
  | comment
  | tagLine
  | featureLine
  | ruleLine
  | backgroundLine
  | scenarioLine
  | examplesLine
  | stepLine
  | docStringSeparator
  | tableRow
  | language
  | other
deriving DecidableEq, Repr

/-- The name of a kind in messages. -/
def TokenKind.name : TokenKind → String
  | .eof => "#EOF"
  | .empty => "#Empty"
  | .comment => "#Comment"
  | .tagLine => "#TagLine"
  | .featureLine => "#FeatureLine"
  | .ruleLine => "#RuleLine"
  | .backgroundLine => "#BackgroundLine"
  | .scenarioLine => "#ScenarioLine"
  | .examplesLine => "#ExamplesLine"
  | .stepLine => "#StepLine"
  | .docStringSeparator => "#DocStringSeparator"
  | .tableRow => "#TableRow"
  | .language => "#Language"
  | .other => "#Other"

/-- The line of a titled part: its keyword and the rest of the line. -/
structure TitleLine where
  keyword : Text
  name : Text
deriving DecidableEq, Repr

/-- A token: what a line was read as. Tags and cells come with their columns. -/
inductive Token where
  | eof
  | empty
  | comment (text : Text)
  | tagLine (tags : List (Nat × Text))
  | featureLine (title : TitleLine)
  | ruleLine (title : TitleLine)
  | backgroundLine (title : TitleLine)
  | scenarioLine (title : TitleLine)
  | examplesLine (title : TitleLine)
  | stepLine (keyword : Text) (role : StepRole) (text : Text)
  | docStringSeparator (mark mediaType : Text)
  | tableRow (cells : List (Nat × Text))
  | language (name : Text)
  | other (text : Text)
deriving DecidableEq, Repr

/-- A line that is faulty as a token of one kind. -/
inductive TokenFault where
  /-- A tag with a blank inside, at a column. -/
  | blankInTag (column : Nat)
  /-- A language line with an unknown dialect. -/
  | unknownLanguage (name : Text)
deriving DecidableEq, Repr

/-- An open doc string: its delimiter and the indentation that its lines lose. -/
structure Fence where
  mark : Text
  indent : Nat
deriving DecidableEq, Repr

/-- What the reading of a line depends on: the dialect in force and the open doc string. -/
structure Reading where
  dialect : Dialect
  fence : Option Fence
deriving DecidableEq, Repr

/-- The usual delimiter of doc strings. -/
def quoteFence : Text := ['"', '"', '"']

/-- The other delimiter of doc strings. -/
def backtickFence : Text := ['`', '`', '`']

/-- A delimiter as it is written inside the doc string that it delimits: each of its characters
after a backslash. -/
def escapedFence (mark : Text) : Text := mark.flatMap (['\\', ·])

namespace Line

/-- Reads a titled line: one of the keywords, tried in order, directly before a colon. -/
def title? (l : Line) (keywords : List Text) : Option TitleLine :=
  (keywords.find? fun k => (k ++ [':']).isPrefixOf l.trimmed).map fun k =>
    ⟨k, Text.trim (l.trimmed.drop (k.length + 1))⟩

/-- The part of a tag line before its comment, which starts at a `#` after a blank. -/
def beforeComment : Text → Text
  | [] => []
  | [c] => [c]
  | c :: d :: t => if isBlank c && d = '#' then [] else c :: beforeComment (d :: t)

/-- Gives the tags of a tag line their columns, or finds the first with a blank inside. -/
def tagsFrom (column : Nat) : List Text → Except TokenFault (List (Nat × Text))
  | [] => .ok []
  | piece :: rest =>
    let tag := piece.trim
    if tag.any isBlank then .error (.blankInTag column)
    else (tagsFrom (column + piece.length + 1) rest).map ((column, '@' :: tag) :: ·)

/-- Reads a tag line: everything between one `@` and the next is a tag. -/
def tags? (l : Line) : Except TokenFault (Option (List (Nat × Text))) :=
  if l.trimmed.head? = some '@' then
    let line := (beforeComment l.trimmed.trim).trim
    (tagsFrom l.column (line.splitAtChar '@').tail).map some
  else .ok none

/-- Drops a text from the start of another, and the blanks after it. -/
def dropWord? (word t : Text) : Option Text :=
  if word.isPrefixOf t then some (Text.trimStart (t.drop word.length)) else none

/-- Whether a character can occur in the name of a language. -/
def isLanguageChar (c : Char) : Bool := c.isAlpha || c = '-' || c = '_'

/-- Reads a language line: `# language: name`, with blanks allowed between its parts. -/
def language? (l : Line) : Option Text := do
  let t ← dropWord? ['#'] l.text.trim
  let t ← dropWord? "language".toList t
  let t ← dropWord? [':'] t
  if t.isEmpty || !t.all isLanguageChar then none else some t

/-- Reads the line that opens a doc string: a delimiter and the media type after it. -/
def openingFence? (l : Line) : Option (Text × Text) :=
  let withMark (mark : Text) : Option (Text × Text) :=
    if mark.isPrefixOf l.trimmed then some (mark, Text.trim (l.trimmed.drop mark.length)) else none
  withMark quoteFence <|> withMark backtickFence

/-- The text of a line inside a doc string: without the indentation of the delimiter, or without
any if it has less, and with escaped delimiters resolved. -/
def fencedText (l : Line) (fence : Fence) : Text :=
  let text := if fence.indent > l.indent then l.trimmed else l.text.drop fence.indent
  withoutEnd (Text.replaceAll (escapedFence fence.mark) fence.mark text)

end Line

namespace Reading

/-- Reads a line as a token of one kind, if it is one. A line is never the end of the file. -/
def token? (r : Reading) (l : Line) : TokenKind → Except TokenFault (Option Token)
  | .eof => .ok none
  | .empty => .ok (if l.trimmed.isEmpty then some .empty else none)
  | .comment =>
    .ok (if l.trimmed.head? = some '#' then some (.comment (Line.withoutEnd l.text)) else none)
  | .tagLine => l.tags?.map (·.map .tagLine)
  | .featureLine => .ok ((l.title? r.dialect.feature).map .featureLine)
  | .ruleLine => .ok ((l.title? r.dialect.rule).map .ruleLine)
  | .backgroundLine => .ok ((l.title? r.dialect.background).map .backgroundLine)
  | .scenarioLine =>
    .ok ((l.title? (r.dialect.scenario ++ r.dialect.outline)).map .scenarioLine)
  | .examplesLine => .ok ((l.title? r.dialect.examples).map .examplesLine)
  | .stepLine =>
    .ok ((r.dialect.stepKeywordOf? l.trimmed).map fun k =>
      .stepLine k (r.dialect.roleOf k) (Text.trim (l.trimmed.drop k.length)))
  | .docStringSeparator =>
    .ok (match r.fence with
      | none => l.openingFence?.map fun (mark, mediaType) => .docStringSeparator mark mediaType
      | some fence =>
        if fence.mark.isPrefixOf l.trimmed then some (.docStringSeparator fence.mark []) else none)
  | .tableRow =>
    .ok (if l.trimmed.head? = some '|' then
        some (.tableRow (Cell.ofRow l.column l.trimmed.trim))
      else none)
  | .language =>
    match l.language? with
    | none => .ok none
    | some name =>
      if (Dialect.ofName? name).isSome then .ok (some (.language name))
      else .error (.unknownLanguage name)
  | .other =>
    .ok (some (.other (match r.fence with
      | none => Line.withoutEnd l.text
      | some fence => l.fencedText fence)))

/-- The reading of the lines after a token: a language line changes the dialect, a separator opens
or closes a doc string. -/
def after (r : Reading) (l : Line) : Token → Reading
  | .language name => { r with dialect := (Dialect.ofName? name).getD r.dialect }
  | .docStringSeparator mark _ =>
    match r.fence with
    | none => { r with fence := some ⟨mark, l.indent⟩ }
    | some _ => { r with fence := none }
  | _ => r

/-- Every line can be read as some other text, so inside a description nothing is refused. -/
theorem token?_other_isSome (r : Reading) (l : Line) :
    ∃ t, r.token? l .other = .ok (some (.other t)) :=
  ⟨_, rfl⟩

end Reading

end FeatureTree
