import FeatureTree.Proofs.Plain.Lawful
import FeatureTree.Proofs.Relayout.Gist
import FeatureTree.Proofs.Relayout.Roles
import FeatureTree.Proofs.Text.Indentation

/-!
# Descriptions that are being read

The normal form of a description does not tell what more lines will make of it. So two documents are
compared with the description that is being read left out, and its lines stand beside them
(`Ast.Document.Alike`). As long as lines are free, they go on these lists; any other line ends the
description, and from then on only its normal form counts.

## Main results

* `Text.normalLines_append`: blank lines at the ends of a description make no difference
* `Text.normalLines_shifted`: neither does what stands in front of all its lines
* `Ast.Document.Alike.take_free`, `Ast.Document.Alike.take`: what tokens do to documents that are
  alike
-/

namespace FeatureTree

namespace Text

/-! ### Lines in normal form -/

/-- The normal form of the lines of a description. -/
def normalLines (lines : List Text) : List Text :=
  (joinLines (dropEndWhile List.isEmpty lines)).descriptionLines

/-- Lines without line breaks need not be cut. -/
theorem normalLines_eq {lines : List Text} (h : ∀ l ∈ lines, l.NoBreak) :
    normalLines lines = dedent (dropBlankEdges lines) := by
  obtain ⟨blank, hlines, hblank⟩ := exists_dropEndWhile_append List.isEmpty lines
  have hkept : ∀ l ∈ dropEndWhile List.isEmpty lines, NoBreak l := fun l hl =>
    h l ((dropEndWhile_isPrefix _ _).subset hl)
  have hedges : dropBlankEdges lines = dropBlankEdges (dropEndWhile List.isEmpty lines) := by
    conv_lhs => rw [hlines]
    exact dropBlankEdges_append_blank _ fun l hl => by
      rw [List.isEmpty_iff.mp (hblank l hl)]
      rfl
  rw [normalLines, descriptionLines, hedges, breakLines_joinLines hkept fun l hl => ?_]
  simpa using getLast?_dropEndWhile l hl

/-- A blank line at an end of a description makes no difference. -/
theorem normalLines_append {xs ys : List Text} {b : Text} (hx : ∀ l ∈ xs, l.NoBreak)
    (hy : ∀ l ∈ ys, l.NoBreak) (hb : b.NoBreak) (hblank : b.isAllBlank = true)
    (h : (∀ l ∈ xs, l.isAllBlank = true) ∨ ∀ l ∈ ys, l.isAllBlank = true) :
    normalLines (xs ++ b :: ys) = normalLines (xs ++ ys) := by
  have hxy : ∀ l ∈ xs ++ ys, l.NoBreak := List.forall_mem_append.mpr ⟨hx, hy⟩
  have hxby : ∀ l ∈ xs ++ b :: ys, l.NoBreak :=
    List.forall_mem_append.mpr ⟨hx, List.forall_mem_cons.mpr ⟨hb, hy⟩⟩
  rw [normalLines_eq hxy, normalLines_eq hxby]
  rcases h with h | h
  · have hb : ∀ l ∈ [b], l.isAllBlank = true := by simpa using hblank
    rw [dropBlankEdges_blank_append h, dropBlankEdges_blank_append h]
    exact congrArg dedent (dropBlankEdges_blank_append hb ys)
  · have hby : ∀ l ∈ b :: ys, l.isAllBlank = true := List.forall_mem_cons.mpr ⟨hblank, h⟩
    rw [dropBlankEdges_append_blank xs h, dropBlankEdges_append_blank xs hby]

/-- What stands in front of all lines of a description that are not blank makes no difference. -/
theorem normalLines_shifted {w : Text} (hw : ∀ c ∈ w, isBlank c = true) (hbreak : w.NoBreak)
    {ls : List Text} (h : ∀ l ∈ ls, l.NoBreak) :
    normalLines (ls.map (shifted w)) = normalLines ls := by
  have hshifted : ∀ l ∈ ls.map (shifted w), l.NoBreak :=
    List.forall_mem_map.mpr fun l hl => hbreak.shifted (h l hl)
  rw [normalLines_eq h, normalLines_eq hshifted, dropBlankEdges_shifted hw, dedent_shifted hw]

end Text

/-- The free text of a token. -/
def Token.freeText : Token → List Text
  | .other text => [text]
  | _ => []

/-! ### Places under a title -/

namespace State

/-- Whether free text at a place goes on a description. -/
def describes (place : State) : Bool := place.titleKind?.isSome

/-- The place directly behind the title that a place in a description is under. -/
def under : State → State
  | headingText scope => heading scope
  | titleText scope owner => title scope owner
  | examplesText scope => examples scope
  | place => place

variable {place : State} {e : Entry}

/-- Free lines stay under a title, free text stands under one, and a description begins behind its
title. -/
theorem forall_entries_under : ∀ place ∈ all, ∀ e ∈ place.entries,
    ((place.role e.kind).isFree = true → e.next.under = place.under)
      ∧ (place.role e.kind = .description → place.describes = true)
      ∧ ((place.role e.kind).isFree = false → e.next.describes = true →
        e.next.titleKind? = some e.kind ∧ e.next.under = e.next) := by
  decide +kernel

/-- A free line stays under the title that it is under. -/
theorem under_next (he : e ∈ place.entries) (h : (place.role e.kind).isFree = true) :
    e.next.under = place.under :=
  (forall_entries_under place place.mem_all e he).1 h

/-- A line of a description goes on a description. -/
theorem describes_of_description (he : e ∈ place.entries) (h : place.role e.kind = .description) :
    place.describes = true :=
  (forall_entries_under place place.mem_all e he).2.1 h

/-- A description that is begun belongs to the title that is read. -/
theorem titleKind?_next (he : e ∈ place.entries) (h : (place.role e.kind).isFree = false)
    (hnext : e.next.describes = true) : e.next.titleKind? = some e.kind ∧ e.next.under = e.next :=
  (forall_entries_under place place.mem_all e he).2.2 h hnext

/-- Free text is content or description. -/
theorem role_other : place.role .other = .content ∨ place.role .other = .description := by
  rw [role]
  split
  · exact .inl rfl
  · exact .inr rfl

end State

namespace Ast.Document

variable {d d' : Document} {place : State}

/-- A document with given lines in the place of the description that is being read, if one is. -/
def describedAs (d : Document) (place : State) (lines : List Text) : Document :=
  if place.describes then d.onTitle place fun h => { h with description := lines } else d

/-- Where no description is being read nothing is put in its place. -/
theorem describedAs_of_not_describes (h : place.describes = false) (lines : List Text) :
    d.describedAs place lines = d := by
  rw [describedAs, h, if_neg (by simp)]

/-- Of two descriptions the last one counts. -/
theorem describedAs_describedAs (xs ys : List Text) :
    (d.describedAs place xs).describedAs place ys = d.describedAs place ys := by
  cases h : place.describes with
  | false => simp only [describedAs_of_not_describes h]
  | true =>
    simp only [describedAs, h, if_true]
    rw [onTitle_onTitle]

/-- A description belongs to the title that its place is under. -/
theorem describedAs_under (lines : List Text) :
    d.describedAs place.under lines = d.describedAs place lines := by
  cases place with
  | headingText scope => cases scope <;> rfl
  | _ => rfl

/-- Places under one title are in one description. -/
theorem describedAs_of_under_eq {place' : State} (h : place'.under = place.under)
    (lines : List Text) : d.describedAs place' lines = d.describedAs place lines := by
  rw [← describedAs_under, h, describedAs_under]

/-- Descriptions of one normal form make documents of one gist. -/
theorem gist_describedAs (h : d.gist = d'.gist) {xs ys : List Text}
    (hlines : Text.normalLines xs = Text.normalLines ys) :
    (d.describedAs place xs).gist = (d'.describedAs place ys).gist := by
  cases hplace : place.describes with
  | false => rwa [describedAs_of_not_describes hplace, describedAs_of_not_describes hplace]
  | true =>
    simp only [describedAs, hplace, if_true]
    refine gist_onTitle place h fun x y hxy => ?_
    obtain ⟨-, hkeyword, hname, -⟩ := Heading.mk.inj hxy
    simp only [Heading.gist, Heading.mk.injEq]
    exact ⟨trivial, hkeyword, hname, hlines⟩

/-- A line of free text goes on the description that is being read. -/
theorem takeText_of_describedAs (hplace : place.describes = true) {lines : List Text}
    (h : d.describedAs place lines = d) (text : Text) :
    d.takeText text place = d.describedAs place (lines ++ [text]) := by
  have hstep : ∀ scope owner given, place ≠ .step scope owner given := by
    rintro scope owner given rfl
    cases hplace
  rw [takeText_eq_onTitle d text hstep]
  conv_lhs => rw [← h]
  simp only [describedAs, hplace, if_true]
  rw [onTitle_onTitle]
  rfl

/-- Behind a title there is no description yet. -/
theorem describedAs_take_title (language : Text) (l : Line) (here : State) {next : State}
    {token : Token} (hkind : next.titleKind? = some token.kind) (hnext : next.under = next) :
    (d.take language l here next token).describedAs next []
      = d.take language l here next token := by
  cases next with
  | heading scope =>
    cases scope <;> cases token <;> cases hkind
    · rfl
    · simp only [describedAs, State.describes, State.titleKind?, Option.isSome_some, if_true, take,
        takePart, onTitle]
      exact d.withoutTags.onHeading_addRule _ _
  | title scope owner =>
    cases owner <;> cases token <;> cases hkind
    · exact d.onTitle_start scope .background _ [] [] _
    · exact d.withoutTags.onTitle_start scope .scenario _ _ [] _
  | examples scope =>
    cases token <;> cases hkind
    next title =>
      exact d.withoutTags.onTitle_addExamples scope ⟨.ofTitle l.location title, d.tags, []⟩
        fun h => { h with description := [] }
  | headingText | titleText | examplesText => cases hnext
  | _ => cases hkind

/-! ### Documents that are alike -/

/-- Whether two documents are of one gist but for the description that is being read at a place,
which has the lines `xs` in one document and `ys` in the other. -/
structure Alike (place : State) (d d' : Document) (xs ys : List Text) : Prop where
  left : d.describedAs place xs = d
  right : d'.describedAs place ys = d'
  gist : (d.describedAs place []).gist = (d'.describedAs place []).gist

namespace Alike

variable {xs ys : List Text} {e : Entry} {token token' : Token}

/-- Documents of one gist are alike where no description is being read. -/
theorem of_not_describes (hplace : place.describes = false) (h : d.gist = d'.gist)
    (xs ys : List Text) : Alike place d d' xs ys where
  left := describedAs_of_not_describes hplace xs
  right := describedAs_of_not_describes hplace ys
  gist := by rwa [describedAs_of_not_describes hplace, describedAs_of_not_describes hplace]

/-- That documents are alike holds in both directions. -/
theorem symm (h : Alike place d d' xs ys) : Alike place d' d ys xs := ⟨h.right, h.left, h.gist.symm⟩

/-- What counts of a description is its normal form. -/
theorem gist_eq (h : Alike place d d' xs ys) (hlines : Text.normalLines xs = Text.normalLines ys) :
    d.gist = d'.gist := by
  have hgist : ((d.describedAs place []).describedAs place xs).gist
      = ((d'.describedAs place []).describedAs place ys).gist := gist_describedAs h.gist hlines
  rwa [describedAs_describedAs, describedAs_describedAs, h.left, h.right] at hgist

/-- Documents that are alike at a place are alike at every place under the same title. -/
theorem of_under_eq {place' : State} (h : Alike place d d' xs ys)
    (hunder : place'.under = place.under) : Alike place' d d' xs ys where
  left := (describedAs_of_under_eq hunder xs).trans h.left
  right := (describedAs_of_under_eq hunder ys).trans h.right
  gist := by rw [describedAs_of_under_eq hunder, describedAs_of_under_eq hunder, h.gist]

/-- A comment is left out. -/
theorem withComments (h : Alike place d d' xs ys) (cs cs' : List Comment) :
    Alike place { d with comments := cs } { d' with comments := cs' } xs ys := by
  have hcomments : ∀ (d : Document) (cs : List Comment) (lines : List Text),
      describedAs { d with comments := cs } place lines
        = { d.describedAs place lines with comments := cs } := by
    intro d cs lines
    rw [describedAs, describedAs]
    split
    · cases place <;> rfl
    · rfl
  refine ⟨by rw [hcomments d, h.left], by rw [hcomments d', h.right], ?_⟩
  rw [hcomments d cs, hcomments d' cs']
  exact h.gist

/-- Free text goes on both descriptions. -/
theorem takeText (h : Alike place d d' xs ys) (hplace : place.describes = true) (x y : Text) :
    Alike place (d.takeText x place) (d'.takeText y place) (xs ++ [x]) (ys ++ [y]) := by
  rw [takeText_of_describedAs hplace h.left, takeText_of_describedAs hplace h.right]
  refine ⟨describedAs_describedAs _ _, describedAs_describedAs _ _, ?_⟩
  rw [describedAs_describedAs, describedAs_describedAs]
  exact h.gist

/-- A blank line that stays at its place goes on one description with what it has of free text. -/
theorem take_right (h : Alike place d d' xs ys) (hother : ∀ text, token = .other text →
      place.describes = true) (language : Text) (l : Line)
    (htoken : token = .empty ∨ ∃ text, token = .other text) :
    Alike place d (d'.take language l place place token) xs (ys ++ token.freeText) := by
  rcases htoken with rfl | ⟨text, rfl⟩
  · simpa [Document.take, takePart, Token.freeText] using h
  · have htake : d'.take language l place place (.other text) = d'.takeText text place := rfl
    rw [htake, takeText_of_describedAs (hother text rfl) h.right]
    refine ⟨h.left, describedAs_describedAs _ _, ?_⟩
    rw [describedAs_describedAs]
    exact h.gist

/-- Free lines go on both descriptions with what they have of free text. -/
theorem take_free (h : Alike place d d' xs ys) (he : e ∈ place.entries)
    (hkind : token.kind = e.kind) (hkind' : token'.kind = e.kind)
    (hfree : (place.role e.kind).isFree = true) (language : Text) (l l' : Line) :
    Alike e.next (d.take language l place e.next token) (d'.take language l' place e.next token')
      (xs ++ token.freeText) (ys ++ token'.freeText) := by
  refine of_under_eq ?_ (State.under_next he hfree)
  have hsame : token'.kind = token.kind := hkind'.trans hkind.symm
  rw [← hkind] at hfree
  cases token with
  | empty =>
    cases token' <;> cases hsame
    simpa [take, takePart, Token.freeText] using h
  | comment text =>
    cases token' <;> cases hsame
    simpa [take, Token.freeText] using h.withComments _ _
  | other text =>
    cases token' <;> cases hsame
    refine h.takeText (State.describes_of_description he ?_) _ _
    rw [← hkind]
    rcases place.role_other with hrole | hrole
    · rw [Token.kind, hrole] at hfree
      cases hfree
    · exact hrole
  | docStringSeparator =>
    rw [Token.kind, State.role] at hfree
    split at hfree <;> cases hfree
  | _ => cases hfree

/-- Any other line ends the descriptions, which have to be of one normal form. -/
theorem take (h : Alike place d d' xs ys) (he : e ∈ place.entries) (hkind : token.kind = e.kind)
    (htoken : token.gist = token'.gist) (hfree : (place.role e.kind).isFree = false)
    (hlines : Text.normalLines xs = Text.normalLines ys) (language : Text) (l l' : Line) :
    Alike e.next (d.take language l place e.next token) (d'.take language l' place e.next token')
      [] [] := by
  have hother : token.kind = .other → place.inText = true := by
    intro hk
    rw [← hkind, hk, State.role] at hfree
    by_contra htext
    rw [if_neg htext] at hfree
    cases hfree
  have hgist := gist_take (h.gist_eq hlines) htoken hother language l l' e.next
  cases hnext : e.next.describes with
  | false => exact .of_not_describes hnext hgist [] []
  | true =>
    obtain ⟨htitle, hunder⟩ := State.titleKind?_next he hfree hnext
    have hkind' : e.next.titleKind? = some token'.kind := by
      rw [htitle, ← hkind, Token.kind_eq_of_gist_eq htoken]
    rw [← hkind] at htitle
    have hleft := describedAs_take_title (d := d) language l place htitle hunder
    have hright := describedAs_take_title (d := d') language l' place hkind' hunder
    exact ⟨hleft, hright, by rw [hleft, hright, hgist]⟩

end Alike

end Ast.Document

end FeatureTree
