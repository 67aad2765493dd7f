import FeatureTree.Proofs.Gherkin.Places
import FeatureTree.Proofs.Layout.Alignment
import FeatureTree.Proofs.Plain.Basic
import FeatureTree.Proofs.Text.Description

/-!
# Documents that can be read back

What has to hold of a plain document for its lines to be read as itself, in a dialect. The keywords
have to be told apart; names, texts and tags have to survive trimming on a line of their own; a
description has to be in its normal form, and none of its lines may look like something that can
follow a description there; tables have to be rectangular with values that survive their padding; a
doc string may hold one of the two escaped delimiters, but not both. A scenario is an outline
exactly if it has examples or the keyword of one.

A document of which less is asked is still read as some document: where one keyword of steps starts
with another, where a row has no cells, or where a doc string holds both escaped delimiters, it
comes back with another step, an empty cell or other content. So what is asked of steps and rows is
a parameter (`Plain.Standard`).

## Main results

* `Plain.Free.of_trimStart_eq`: whether a line is free depends on what stands behind its indentation
* `Plain.exists_fence`: a doc string that is fit is written between delimiters that it does not hold
-/

namespace FeatureTree

namespace Plain

variable {d : Dialect} {kind : TokenKind}

/-- Whether a line can stand in the description under a title of a kind. -/
def Free (d : Dialect) (kind : TokenKind) (t : Text) : Prop :=
  ∀ k ∈ State.describedBy kind, ¬d.Opens k t.trimStart

/-- Whether a line is free depends on what stands behind its indentation. -/
theorem Free.of_trimStart_eq {s t : Text} (h : Free d kind s) (hst : t.trimStart = s.trimStart) :
    Free d kind t := fun k hk => by
  rw [hst]
  exact h k hk

/-- Nothing opens an empty line. -/
theorem not_opens_nil (hd : d.Distinct) (k : TokenKind) : ¬d.Opens k [] := by
  rintro ⟨w, hw, hp⟩
  obtain rfl := List.prefix_nil.mp hp
  exact absurd (hd.tag.eq_of_isPrefix (List.prefix_refl _) hw List.nil_prefix).2 (by simp)

/-- An empty line can stand in every description. -/
theorem free_nil (hd : d.Distinct) (kind : TokenKind) : Free d kind [] := fun k _ =>
  not_opens_nil hd k

structure Heading.Fit (d : Dialect) (kind : TokenKind) (h : Heading) : Prop where
  word : d.TitleWord kind h.keyword
  name_trimmed : h.name.Trimmed
  name_oneLine : h.name.OneLine
  normal : h.description.Normal
  free : ∀ l ∈ h.description.splitLines, Free d kind l

/-- Whether rows have as many values in each, which survive padding. -/
structure Even (rows : List (List Text)) : Prop where
  tidy : ∀ r ∈ rows, ∀ v ∈ r, Cell.Tidy v
  length_eq : ∀ r ∈ rows, ∀ r' ∈ rows, r.length = r'.length

/-- Whether rows form a grid of values that survive padding. -/
structure Grid (rows : List (List Text)) : Prop where
  ne_nil : ∀ r ∈ rows, r ≠ []
  tidy : ∀ r ∈ rows, ∀ v ∈ r, Cell.Tidy v
  length_eq : ∀ r ∈ rows, ∀ r' ∈ rows, r.length = r'.length

/-- A grid is even. -/
theorem Grid.even {rows : List (List Text)} (h : Grid rows) : Even rows := ⟨h.tidy, h.length_eq⟩

/-- Whether a doc string can be written between delimiters and be found there again. -/
structure Quotable (content contentType : Text) : Prop where
  lines : ∀ l ∈ content.splitLines, Reading.IsContentLine l
  type_trimmed : contentType.Trimmed
  type_oneLine : contentType.OneLine

/-- Whether a doc string can be written between one of the two delimiters without a change. -/
structure Fenceable (content contentType : Text) : Prop where
  lines : ∀ l ∈ content.splitLines, Reading.IsContentLine l
  not_both : Text.hasPart (escapedFence quoteFence) content = false
    ∨ Text.hasPart (escapedFence backtickFence) content = false
  type_trimmed : contentType.Trimmed
  type_oneLine : contentType.OneLine

/-- What can be fenced can be quoted. -/
theorem Fenceable.quotable {content contentType : Text} (h : Fenceable content contentType) :
    Quotable content contentType := ⟨h.lines, h.type_trimmed, h.type_oneLine⟩

inductive Block.Legible : Block → Prop
  | table {rows : List (List Text)} (ne_nil : rows ≠ []) (even : Even rows) : Legible (.table rows)
  | docString {content contentType : Text} (quotable : Quotable content contentType) :
    Legible (.docString content contentType)

inductive Block.Fit : Block → Prop
  | table {rows : List (List Text)} (ne_nil : rows ≠ []) (grid : Grid rows) : Fit (.table rows)
  | docString {content contentType : Text} (fenceable : Fenceable content contentType) :
    Fit (.docString content contentType)

/-- An argument that fits is legible. -/
theorem Block.Fit.legible {b : Block} (h : b.Fit) : b.Legible := by
  cases h with
  | table hne hgrid => exact .table hne hgrid.even
  | docString hfenceable => exact .docString hfenceable.quotable

/-- Whether a step is read as some step. -/
structure Step.Legible (d : Dialect) (s : Step) : Prop where
  word : d.StepStart s.keyword
  text_trimmed : s.text.Trimmed
  text_oneLine : s.text.OneLine
  block : ∀ b ∈ s.block, b.Legible

structure Step.Fit (d : Dialect) (s : Step) : Prop where
  word : d.StepWord s.keyword
  text_trimmed : s.text.Trimmed
  text_oneLine : s.text.OneLine
  block : ∀ b ∈ s.block, b.Fit

/-- A step that fits is legible. -/
theorem Step.Fit.legible {s : Step} (h : s.Fit d) : s.Legible d :=
  ⟨h.word.stepStart, h.text_trimmed, h.text_oneLine, fun b hb => (h.block b hb).legible⟩

/-- What is asked of the steps of a document and of the rows of its examples. -/
structure Standard where
  step : Step → Prop
  rows : List (List Text) → Prop

/-- What is asked of a document that is read as some document. -/
def Standard.legible (d : Dialect) : Standard := ⟨Step.Legible d, Even⟩

/-- What is asked of a document that is read as itself. -/
def Standard.fit (d : Dialect) : Standard := ⟨Step.Fit d, Grid⟩

/-- Whether what meets one standard meets another one. -/
structure Standard.Implies (σ τ : Standard) : Prop where
  step : ∀ s, σ.step s → τ.step s
  rows : ∀ rows, σ.rows rows → τ.rows rows

/-- What fits is legible. -/
theorem Standard.fit_legible (d : Dialect) : (Standard.fit d).Implies (.legible d) :=
  ⟨fun _ h => h.legible, fun _ h => h.even⟩

structure Background.Meets (σ : Standard) (d : Dialect) (b : Background) : Prop where
  heading : b.heading.Fit d .backgroundLine
  steps : ∀ s ∈ b.steps, σ.step s

structure Examples.Meets (σ : Standard) (d : Dialect) (e : Examples) : Prop where
  heading : e.heading.Fit d .examplesLine
  tags : ∀ t ∈ e.tags, IsTag t
  grid : σ.rows e.rows

/-- Whether what follows the steps of a scenario agrees with its keyword. -/
def Scenario.Agrees (words : List Text) (s : Scenario) : Prop :=
  s.examples.isSome = (!(s.examples.getD []).isEmpty || words.contains s.heading.keyword)

structure Scenario.Meets (σ : Standard) (d : Dialect) (s : Scenario) : Prop where
  heading : s.heading.Fit d .scenarioLine
  tags : ∀ t ∈ s.tags, IsTag t
  steps : ∀ t ∈ s.steps, σ.step t
  examples : ∀ e ∈ s.examples.getD [], e.Meets σ d
  agrees : s.Agrees d.outlineKeywords

structure Body.Meets (σ : Standard) (d : Dialect) (b : Body) : Prop where
  background : ∀ x ∈ b.background, x.Meets σ d
  scenarios : ∀ x ∈ b.scenarios, x.Meets σ d

structure Rule.Meets (σ : Standard) (d : Dialect) (r : Rule) : Prop where
  heading : r.heading.Fit d .ruleLine
  tags : ∀ t ∈ r.tags, IsTag t
  body : r.body.Meets σ d

structure Feature.Meets (σ : Standard) (d : Dialect) (f : Feature) : Prop where
  heading : f.heading.Fit d .featureLine
  tags : ∀ t ∈ f.tags, IsTag t
  language : f.language = d.name
  body : f.body.Meets σ d
  rules : ∀ r ∈ f.rules, r.Meets σ d

abbrev Background.Legible (d : Dialect) (b : Background) : Prop := b.Meets (.legible d) d

abbrev Examples.Legible (d : Dialect) (e : Examples) : Prop := e.Meets (.legible d) d

abbrev Scenario.Legible (d : Dialect) (s : Scenario) : Prop := s.Meets (.legible d) d

abbrev Body.Legible (d : Dialect) (b : Body) : Prop := b.Meets (.legible d) d

abbrev Rule.Legible (d : Dialect) (r : Rule) : Prop := r.Meets (.legible d) d

abbrev Feature.Legible (d : Dialect) (f : Feature) : Prop := f.Meets (.legible d) d

abbrev Background.Fit (d : Dialect) (b : Background) : Prop := b.Meets (.fit d) d

abbrev Examples.Fit (d : Dialect) (e : Examples) : Prop := e.Meets (.fit d) d

abbrev Scenario.Fit (d : Dialect) (s : Scenario) : Prop := s.Meets (.fit d) d

abbrev Body.Fit (d : Dialect) (b : Body) : Prop := b.Meets (.fit d) d

abbrev Rule.Fit (d : Dialect) (r : Rule) : Prop := r.Meets (.fit d) d

abbrev Feature.Fit (d : Dialect) (f : Feature) : Prop := f.Meets (.fit d) d

section

variable {σ τ : Standard}

/-- A background that meets a standard meets a weaker one. -/
theorem Background.Meets.mono (hστ : σ.Implies τ) {b : Background} (h : b.Meets σ d) :
    b.Meets τ d :=
  ⟨h.heading, fun s hs => hστ.step s (h.steps s hs)⟩

/-- Examples that meet a standard meet a weaker one. -/
theorem Examples.Meets.mono (hστ : σ.Implies τ) {e : Examples} (h : e.Meets σ d) : e.Meets τ d :=
  ⟨h.heading, h.tags, hστ.rows _ h.grid⟩

/-- A scenario that meets a standard meets a weaker one. -/
theorem Scenario.Meets.mono (hστ : σ.Implies τ) {s : Scenario} (h : s.Meets σ d) :
    s.Meets τ d :=
  ⟨h.heading, h.tags, fun t ht => hστ.step t (h.steps t ht),
    fun e he => (h.examples e he).mono hστ, h.agrees⟩

/-- A body that meets a standard meets a weaker one. -/
theorem Body.Meets.mono (hστ : σ.Implies τ) {b : Body} (h : b.Meets σ d) : b.Meets τ d :=
  ⟨fun x hx => (h.background x hx).mono hστ, fun x hx => (h.scenarios x hx).mono hστ⟩

/-- A rule that meets a standard meets a weaker one. -/
theorem Rule.Meets.mono (hστ : σ.Implies τ) {r : Rule} (h : r.Meets σ d) : r.Meets τ d :=
  ⟨h.heading, h.tags, h.body.mono hστ⟩

/-- A feature that meets a standard meets a weaker one. -/
theorem Feature.Meets.mono (hστ : σ.Implies τ) {f : Feature} (h : f.Meets σ d) : f.Meets τ d :=
  ⟨h.heading, h.tags, h.language, h.body.mono hστ, fun r hr => (h.rules r hr).mono hστ⟩

end

/-- A background that fits is legible. -/
theorem Background.Fit.legible {b : Background} (h : b.Fit d) : b.Legible d :=
  h.mono (Standard.fit_legible d)

/-- Examples that fit are legible. -/
theorem Examples.Fit.legible {e : Examples} (h : e.Fit d) : e.Legible d :=
  h.mono (Standard.fit_legible d)

/-- A scenario that fits is legible. -/
theorem Scenario.Fit.legible {s : Scenario} (h : s.Fit d) : s.Legible d :=
  h.mono (Standard.fit_legible d)

/-- A body that fits is legible. -/
theorem Body.Fit.legible {b : Body} (h : b.Fit d) : b.Legible d := h.mono (Standard.fit_legible d)

/-- A rule that fits is legible. -/
theorem Rule.Fit.legible {r : Rule} (h : r.Fit d) : r.Legible d := h.mono (Standard.fit_legible d)

/-- What is read as itself is read as some document. -/
theorem Feature.Fit.legible {f : Feature} (h : f.Fit d) : f.Legible d :=
  h.mono (Standard.fit_legible d)

/-! ### Doc strings between their delimiters -/

/-- The fence that is chosen for a content is a fence. -/
theorem isFence_fenceFor (content : Text) : Text.IsFence (Layout.fenceFor content) := by
  rw [Layout.fenceFor]
  split
  · exact .inr rfl
  · exact .inl rfl

/-- A doc string that is fit does not hold the written form of its delimiter. -/
theorem Fenceable.not_hasPart {content contentType : Text} (h : Fenceable content contentType) :
    Text.hasPart (escapedFence (Layout.fenceFor content)) content = false := by
  rw [Layout.fenceFor]
  split
  · next hq =>
    rcases h.not_both with hn | hn
    · rw [hq] at hn
      cases hn
    · exact hn
  · next hq => exact Bool.not_eq_true _ ▸ hq

end Plain

end FeatureTree
