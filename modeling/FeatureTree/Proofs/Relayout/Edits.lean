import FeatureTree.Proofs.Relayout.Padding
import FeatureTree.Proofs.Relayout.Drafts

/-!
# Edits of the layout

What can be changed in a text without changing what it says: the ends of lines, the blanks around
and between the parts of a line, blank lines outside of descriptions and doc strings, the lines that
tags are distributed over, and the indentation of a description or of a doc string as a whole. What
a line is, and so what can be done to it, is its role in the text as it is read.

## Contents

* `Respaced`: a line with other blanks
* `Edit`: one edit of lines with roles
* `Text.Relayout`: one edit of a text
-/

namespace FeatureTree

open Dialect (english)

/-- Whether a line of a role is written again with other blanks. -/
inductive Respaced : Role → Text → Text → Prop
  /-- The line ends otherwise. -/
  | ends {role : Role} {t t' : Text} (same : Line.withoutEnd t' = Line.withoutEnd t) :
    Respaced role t t'
  /-- Tags or a row between other blanks. -/
  | around {role : Role} {t t' : Text} (part : role = .tags ∨ role = .row)
      (same : t'.trim = t.trim) : Respaced role t t'
  /-- A title behind other indentation, with other blanks around what stands behind its colon. -/
  | title {kind : TokenKind} {k s s' t t' : Text} (isTitle : kind ∈ TokenKind.titles)
      (keyword : k ∈ english.titleWords kind) (before : t.trimStart = k ++ ':' :: s)
      (after : t'.trimStart = k ++ ':' :: s') (same : s'.trim = s.trim) :
    Respaced .title t t'
  /-- A step behind other indentation, with other blanks around what stands behind its keyword,
  which ends in a space. -/
  | step {w s s' t t' : Text} (keyword : w ∈ english.stepKeywords) (before : t.trimStart = w ++ s)
      (after : t'.trimStart = w ++ s') (same : s'.trim = s.trim) :
    Respaced .step t t'
  /-- A row between other blanks, of cells between other spaces. -/
  | cells {cells cells' : List Text} {last t t' : Text}
      (before : Cell.pieces t.trim = [] :: (cells ++ [last]))
      (after : t'.trim = '|' :: (cells'.flatMap (· ++ ['|']) ++ last))
      (same : List.Forall₂ Cell.Repadded cells cells') :
    Respaced .row t t'

/-- Whether a text is read as a line of certain tags. -/
def Text.HasTags (t : Text) (names : List Text) : Prop :=
  ∃ tags, Line.tags? ⟨0, t⟩ = .ok (some tags) ∧ tags.map (·.2) = names

/-- Whether lines have certain tags, one line after the other. -/
def HaveTags (ts : List Text) (names : List Text) : Prop :=
  ∃ parts, List.Forall₂ Text.HasTags ts parts ∧ parts.flatten = names

namespace Marked

/-- A line with a text in front of it, if it is one of a description and not blank. -/
def shifted (w : Text) (m : Marked) : Text :=
  if m.role = .description then Text.shifted w m.text else m.text

end Marked

/-- Whether a line between others is outside of descriptions and doc strings. Blank lines in front
of a description or behind it are no part of it. -/
structure Outside (before after : List Marked) : Prop where
  docString : ∀ m ∈ before.getLast?, m.role ≠ .opening ∧ m.role ≠ .content
  description : (∀ l ∈ descriptionBehind [] before, l.isAllBlank = true)
    ∨ ∀ l ∈ descriptionAhead after, l.isAllBlank = true

/-- One edit of lines with roles. -/
inductive Edit : List Marked → List Text → Prop
  /-- Any lines are written again with other blanks. -/
  | respaced {ms : List Marked} {ts : List Text}
      (lines : List.Forall₂ (fun m t => Respaced m.role m.text t) ms ts) : Edit ms ts
  | insertBlank {before after : List Marked} {b : Text} (blank : b.isAllBlank = true)
      (oneLine : (Line.withoutEnd b).NoBreak) (outside : Outside before after) :
    Edit (before ++ after) (before.map (·.text) ++ b :: after.map (·.text))
  | deleteBlank {before after : List Marked} {m : Marked} (blank : m.text.isAllBlank = true)
      (outside : Outside before after) :
    Edit (before ++ m :: after) (before.map (·.text) ++ after.map (·.text))
  /-- Tags that stand together are distributed over other lines, in the order that they had. -/
  | moveTags {before tags after : List Marked} {ts names : List Text}
      (roles : ∀ m ∈ tags, m.role = .tags) (nonempty : tags ≠ []) (nonempty' : ts ≠ [])
      (old : HaveTags (tags.map (·.text)) names) (new : HaveTags ts names) :
    Edit (before ++ tags ++ after) (before.map (·.text) ++ ts ++ after.map (·.text))
  /-- Spaces and tabs in front of all lines of the description under a title. -/
  | shiftDescription {before lines after : List Marked} {title : Marked} {w : Text}
      (isTitle : title.role = .title) (free : ∀ m ∈ lines, m.role.isFree = true)
      (whole : ∀ m ∈ after.head?, m.role.isFree = false) (blanks : ∀ c ∈ w, c = ' ' ∨ c = '\t') :
    Edit (before ++ (title :: (lines ++ after)))
      (before.map (·.text) ++ title.text :: (lines.map (Marked.shifted w) ++ after.map (·.text)))
  /-- Spaces in front of all lines of a doc string. -/
  | shiftDocString {before lines after : List Marked} {opening closing : Marked} {w : Text}
      (isOpening : opening.role = .opening) (contents : ∀ m ∈ lines, m.role = .content)
      (isClosing : closing.role = .closing) (spaces : ∀ c ∈ w, c = ' ') :
    Edit (before ++ (opening :: lines ++ [closing]) ++ after)
      (before.map (·.text) ++ (opening :: lines ++ [closing]).map (w ++ ·.text)
        ++ after.map (·.text))

/-- Whether a text is made of another by one edit of its layout. -/
def Text.Relayout (source edited : Text) : Prop := Edit source.marked edited.sourceLines

/-- Whether no line of a description holds a line break but for its end. -/
def DescribedPlainly (ms : List Marked) : Prop :=
  ∀ m ∈ ms, m.role = .description → (Line.withoutEnd m.text).NoBreak

end FeatureTree
