import FeatureTree.Proofs.Plain.Sound

/-!
# The order of lines

A token is added to the part of a document that was begun last, and nothing of the document stands
behind that part. So the parts of a document that is read stand in the order of their lines. To say
this once for all of them, a document is written down as the list of the spots of its parts
(`Ast.Document.spots`), in the order in which its tree lists them: a line adds its spots at the end
of that list (`Ast.Document.spots_take`), because at every place all is empty that would come behind
what is added there (`Ast.Document.Stands`).

## Main results

* `Ast.Document.spots_take`: a token adds its spots at the end
* `Ast.Document.Stands.take`: what is empty behind the part begun last, after a token
* `ParseState.run_numbered`: what steps keep from one line number to the next, runs keep
* `Ast.Document.inOrder_of_parse`: a document that is read stands in the order of its lines
-/

namespace FeatureTree

open Ast (Document)

namespace Ast

/-! ### Spots -/

/-- Where a part begins. Tags and cells may share a line with what stands in front of them. -/
structure Spot where
  line : Nat
  shares : Bool := false

/-- Whether a part may stand behind another one. -/
def Spot.Before (a b : Spot) : Prop := a.line < b.line ∨ a.line = b.line ∧ b.shares = true

def Tag.spot (t : Tag) : Spot := ⟨t.loc.line, true⟩

def Cell.spot (c : Cell) : Spot := ⟨c.loc.line, true⟩

def Row.spot (r : Row) : Spot := { line := r.loc.line }

def DocString.spot (s : DocString) : Spot := { line := s.loc.line }

def Step.spot (s : Step) : Spot := { line := s.loc.line }

def Heading.spot (h : Heading) : Spot := { line := h.loc.line }

def Row.spots (r : Row) : List Spot := r.spot :: r.cells.map Cell.spot

/-- The spots of what is given to a step. Its doc string counts, and its table only without one. -/
def Step.givenSpots (s : Step) : List Spot :=
  match s.docString with
  | some t => [t.spot]
  | none => s.table.flatMap Row.spots

def Step.spots (s : Step) : List Spot := s.spot :: s.givenSpots

def Background.spots (b : Background) : List Spot := b.heading.spot :: b.steps.flatMap Step.spots

def Examples.spots (e : Examples) : List Spot :=
  e.tags.map Tag.spot ++ e.heading.spot :: e.rows.flatMap Row.spots

def Scenario.spots (s : Scenario) : List Spot :=
  s.tags.map Tag.spot
    ++ s.heading.spot :: (s.steps.flatMap Step.spots ++ s.examples.flatMap Examples.spots)

def Body.spots (b : Body) : List Spot :=
  b.background.toList.flatMap Background.spots ++ b.scenarios.flatMap Scenario.spots

def Rule.spots (r : Rule) : List Spot := r.tags.map Tag.spot ++ r.heading.spot :: r.body.spots

def Feature.spots (f : Feature) : List Spot :=
  f.tags.map Tag.spot ++ f.heading.spot :: (f.body.spots ++ f.rules.flatMap Rule.spots)

/-- The spots of a document, and of the tags that wait for their title. -/
def Document.spots (d : Document) : List Spot :=
  d.feature.toList.flatMap Feature.spots ++ d.tags.map Tag.spot

end Ast

/-- The spots of what a token begins. -/
def Token.spots (l : Line) : Token → List Ast.Spot
  | .tagLine tags => tags.map fun _ => ⟨l.number, true⟩
  | .tableRow cells => { line := l.number } :: cells.map fun _ => ⟨l.number, true⟩
  | .eof | .empty | .comment _ | .language _ | .other _ => []
  | _ => [{ line := l.number }]

/-- What a line is read as is at its line. -/
theorem Token.line_of_mem_spots {l : Line} {token : Token} {m : Ast.Spot} (h : m ∈ token.spots l) :
    m.line = l.number := by
  cases token <;> simp [spots] at h <;> grind

/-- What begins on one line stands in the order of that line. -/
theorem Token.pairwise_spots (l : Line) (token : Token) :
    (token.spots l).Pairwise Ast.Spot.Before := by
  cases token <;> simp [spots, Ast.Spot.Before]

/-! ### Extending the part begun last -/

section Extending

variable {α β : Type} {g : α → List β} {f : α → α} {new : List β}

/-- What extends the spots of the last member extends the spots of the list. -/
theorem sublist_flatMap_mapLast {xs : List α}
    (h : ∀ x, xs.getLast? = some x → (g (f x)).Sublist (g x ++ new)) :
    ((mapLast f xs).flatMap g).Sublist (xs.flatMap g ++ new) := by
  rcases List.eq_nil_or_concat' xs with rfl | ⟨ys, y, rfl⟩
  · exact List.nil_sublist _
  · rw [mapLast_concat, List.flatMap_append, List.flatMap_append, List.append_assoc]
    simpa using h y (by simp)

/-- Lists put together stay the same if that of the changed last member does. -/
theorem flatMap_mapLast (h : ∀ x, g (f x) = g x) (xs : List α) :
    (mapLast f xs).flatMap g = xs.flatMap g := by
  rcases List.eq_nil_or_concat' xs with rfl | ⟨ys, y, rfl⟩
  · rfl
  · simp [h]

end Extending

namespace Ast

namespace Body

variable {b : Body} {owner : Owner} {new : List Spot}

/-- Whether nothing stands behind the steps of the section begun last. -/
def IsOpen (b : Body) : Owner → Prop
  | .background => b.scenarios = []
  | .scenario => b.lastExamples = []

/-- Nothing stands behind the last steps of an empty body. -/
theorem isOpen_empty (owner : Owner) : Body.empty.IsOpen owner := by cases owner <;> rfl

/-- Changing the title of the last scenario leaves its examples alone. -/
theorem lastExamples_onTitle (b : Body) (f : Heading → Heading) :
    (b.onTitle .scenario f).lastExamples = b.lastExamples := by
  rw [onTitle, lastExamples, getLast?_mapLast, Option.map_map]
  rfl

/-- Changing the steps of the last scenario leaves its examples alone. -/
theorem lastExamples_onSteps (b : Body) (f : List Step → List Step) :
    (b.onSteps .scenario f).lastExamples = b.lastExamples := by
  rw [onSteps, lastExamples, getLast?_mapLast, Option.map_map]
  rfl

/-- Changing the title of the section begun last puts nothing behind its steps. -/
theorem IsOpen.onTitle (h : b.IsOpen owner) (f : Heading → Heading) :
    (b.onTitle owner f).IsOpen owner := by
  cases owner with
  | background => exact h
  | scenario => exact (b.lastExamples_onTitle f).trans h

/-- Changing the steps of the section begun last puts nothing behind them. -/
theorem IsOpen.onSteps (h : b.IsOpen owner) (f : List Step → List Step) :
    (b.onSteps owner f).IsOpen owner := by
  cases owner with
  | background => exact h
  | scenario => exact (b.lastExamples_onSteps f).trans h

/-- Steps are added behind all that there is of an open section. -/
theorem spots_onSteps (h : b.IsOpen owner) {f : List Step → List Step}
    (hf : ∀ xs, ((f xs).flatMap Step.spots).Sublist (xs.flatMap Step.spots ++ new)) :
    (b.onSteps owner f).spots.Sublist (b.spots ++ new) := by
  cases owner with
  | background =>
    have hscenarios : b.scenarios = [] := h
    cases hb : b.background with
    | none => simp [onSteps, spots, hscenarios, hb]
    | some x => simpa [onSteps, spots, hscenarios, hb, Background.spots] using hf x.steps
  | scenario =>
    rw [onSteps, spots, spots, List.append_assoc]
    refine (List.Sublist.refl _).append (sublist_flatMap_mapLast fun x hx => ?_)
    have hexamples : x.examples = [] := by
      simpa [IsOpen, lastExamples, hx] using h
    simpa [Scenario.spots, hexamples] using hf x.steps

/-- Examples are added at the end. -/
theorem spots_onExamples {f : List Examples → List Examples}
    (hf : ∀ xs, ((f xs).flatMap Examples.spots).Sublist (xs.flatMap Examples.spots ++ new)) :
    (b.onExamples f).spots.Sublist (b.spots ++ new) := by
  rw [onExamples, spots, spots, List.append_assoc]
  refine (List.Sublist.refl _).append (sublist_flatMap_mapLast fun x _ => ?_)
  simpa [Scenario.spots] using hf x.examples

/-- A background begins behind all that there is, if there is no scenario yet. -/
theorem spots_setBackground (h : b.IsOpen .background) (x : Heading) :
    (b.setBackground ⟨x, []⟩).spots.Sublist (b.spots ++ [x.spot]) := by
  have hscenarios : b.scenarios = [] := h
  simp [setBackground, spots, hscenarios, Background.spots]

/-- A scenario that is added adds the spots of its tags and of its title. -/
theorem spots_addScenario (b : Body) (x : Heading) (tags : List Tag) :
    (b.addScenario ⟨x, tags, [], []⟩).spots = b.spots ++ (tags.map Tag.spot ++ [x.spot]) := by
  simp [addScenario, spots, Scenario.spots]

/-- Spots do not depend on what a heading says. -/
theorem spots_onTitle (b : Body) (owner : Owner) {f : Heading → Heading}
    (hf : ∀ x, (f x).spot = x.spot) : (b.onTitle owner f).spots = b.spots := by
  cases owner with
  | background => cases hb : b.background <;> simp [onTitle, spots, hb, Background.spots, hf]
  | scenario =>
    rw [onTitle, spots, spots, flatMap_mapLast fun x => by simp [Scenario.spots, hf]]

/-- The spots of a body stay the same if those of its last steps do. -/
theorem spots_onSteps_eq (b : Body) (owner : Owner) {f : List Step → List Step}
    (hf : ∀ xs, (f xs).flatMap Step.spots = xs.flatMap Step.spots) :
    (b.onSteps owner f).spots = b.spots := by
  cases owner with
  | background => cases hb : b.background <;> simp [onSteps, spots, hb, Background.spots, hf]
  | scenario =>
    rw [onSteps, spots, spots, flatMap_mapLast fun x => by simp [Scenario.spots, hf]]

/-- The spots of a body stay the same if those of its last examples do. -/
theorem spots_onExamples_eq (b : Body) {f : List Examples → List Examples}
    (hf : ∀ xs, (f xs).flatMap Examples.spots = xs.flatMap Examples.spots) :
    (b.onExamples f).spots = b.spots := by
  rw [onExamples, spots, spots, flatMap_mapLast fun x => by simp [Scenario.spots, hf]]

end Body

namespace Document

variable {d : Document}

/-- The spots of a document stay the same if those of its feature do. -/
theorem spots_onFeature {f : Feature → Feature} (hf : ∀ t, (f t).spots = t.spots) :
    (d.onFeature f).spots = d.spots := by
  cases hd : d.feature <;> simp [onFeature, spots, hd, hf]

/-- What changes no spots of sections changes no spots. -/
theorem spots_onBody_eq (scope : Scope) {f : Body → Body} (hf : ∀ b, (f b).spots = b.spots) :
    (d.onBody scope f).spots = d.spots := by
  refine spots_onFeature fun t => ?_
  cases scope with
  | feature => simp [Feature.spots, hf]
  | rule =>
    rw [Feature.spots, Feature.spots, flatMap_mapLast fun r => by simp [Rule.spots, hf]]

/-- The spots of a document stay the same if that of a heading does. -/
theorem spots_onHeading (scope : Scope) {f : Heading → Heading} (hf : ∀ x, (f x).spot = x.spot) :
    (d.onHeading scope f).spots = d.spots := by
  refine spots_onFeature fun t => ?_
  cases scope with
  | feature => simp [Feature.spots, hf]
  | rule =>
    rw [Feature.spots, Feature.spots, flatMap_mapLast fun r => by simp [Rule.spots, hf]]

end Document

end Ast

/-! ### Places -/

namespace State

/-- Whether tags that were read at a place wait for their title. -/
def holdsTags : State → Bool
  | featureTags | ruleTags | scenarioTags _ | examplesTags _ => true
  | _ => false

/-- What encloses the sections that a place is in. -/
def scope? : State → Option Scope
  | heading c | headingText c | title c _ | titleText c _ | step c _ _ | scenarioTags c
  | examplesTags c | examples c | examplesText c | examplesTable c => some c
  | _ => none

/-- The section whose steps can go on at a place; the background can also begin there, if it has not
begun. -/
def owner? : State → Option Owner
  | heading _ | headingText _ => some .background
  | title _ owner | titleText _ owner | step _ owner _ => some owner
  | _ => none

variable {place : State} {e : Entry}

/-- No tags wait at a place that has an owner of steps. -/
theorem holdsTags_of_owner? {owner : Owner} (h : place.owner? = some owner) :
    place.holdsTags = false := by
  cases place <;> first | rfl | cases h

/-- Titles, steps and tags lead to places of their own. -/
theorem forall_entries_begin : ∀ place ∈ all, ∀ e ∈ place.entries,
    (e.kind = .featureLine → e.next = heading .feature)
      ∧ (e.kind = .ruleLine → e.next = heading .rule)
      ∧ (e.kind = .backgroundLine → place.owner? = some .background
        ∧ place.scope?.map (title · .background) = some e.next)
      ∧ (e.kind = .scenarioLine → place.scope?.map (title · .scenario) = some e.next)
      ∧ (e.kind = .examplesLine → place.scope?.map examples = some e.next)
      ∧ (e.kind = .stepLine →
        (place.scope?.bind fun c => place.owner?.map (step c · .bare)) = some e.next)
      ∧ (e.kind = .tagLine → e.next.holdsTags = true) := by
  decide +kernel

/-- Whatever begins no feature, rule or scenario stays in its section or leaves it. -/
theorem forall_entries_stay : ∀ place ∈ all, ∀ e ∈ place.entries,
    e.kind ∉ [TokenKind.featureLine, .ruleLine, .scenarioLine] →
      (e.next.scope? = none ∨ e.next.scope? = place.scope?)
        ∧ (e.next.owner? = none ∨ e.next.owner? = place.owner?)
        ∧ (e.kind ≠ .examplesLine → e.next.holdsTags = false → place.holdsTags = false) := by
  decide +kernel

end State

namespace Ast.Document

variable {d : Document} {place place' : State} {scope : Scope}

/-- Whether nothing stands behind the part that is being read at a place. -/
structure Stands (d : Document) (place : State) : Prop where
  tags : place.holdsTags = false → d.tags = []
  rules : place.scope? = some .feature → ∀ t ∈ d.feature, t.rules = []
  sections : ∀ scope owner, place.scope? = some scope → place.owner? = some owner →
    (d.bodyAt scope).IsOpen owner

namespace Stands

/-- An empty document stands at the start. -/
theorem empty : Document.empty.Stands .start := ⟨fun _ => rfl, nofun, nofun⟩

/-- A place that asks for less. -/
theorem mono (h : d.Stands place) (htags : place'.holdsTags = false → d.tags = [])
    (hscope : place'.scope? = none ∨ place'.scope? = place.scope?)
    (howner : place'.owner? = none ∨ place'.owner? = place.owner?) : d.Stands place' := by
  refine ⟨htags, fun hc => ?_, fun scope owner hc ho => ?_⟩
  · rcases hscope with hn | hs
    · rw [hn] at hc
      cases hc
    · exact h.rules (hs ▸ hc)
  · rcases hscope with hn | hs
    · rw [hn] at hc
      cases hc
    · rcases howner with hn | ho'
      · rw [hn] at ho
        cases ho
      · exact h.sections scope owner (hs ▸ hc) (ho' ▸ ho)

/-- A document with the same feature, where no tags wait that should not, stands where the other
does. -/
theorem of_eq {d' : Document} (h : d.Stands place) (hfeature : d'.feature = d.feature)
    (htags : place.holdsTags = false → d'.tags = []) : d'.Stands place := by
  refine ⟨htags, fun hc => hfeature ▸ h.rules hc, fun scope owner hc ho => ?_⟩
  have hbody : d'.bodyAt scope = d.bodyAt scope := by simp only [bodyAt, hfeature]
  exact hbody ▸ h.sections scope owner hc ho

/-- Changing a body adds no rules. -/
theorem rules_onBody (h : ∀ t ∈ d.feature, t.rules = []) (scope : Scope) (f : Body → Body) :
    ∀ t ∈ (d.onBody scope f).feature, t.rules = [] := by
  intro t ht
  obtain ⟨t', ht', rfl⟩ := Option.map_eq_some_iff.mp ht
  cases scope <;> simp [h t' ht']

/-- Sections that are extended stay open if the extension leaves them open. -/
theorem onBody (h : d.Stands place) (hscope : place.scope? = some scope) {f : Body → Body}
    (hf : ∀ owner, place.owner? = some owner → ∀ b, b.IsOpen owner → (f b).IsOpen owner) :
    (d.onBody scope f).Stands place := by
  refine ⟨h.tags, fun hc => rules_onBody (h.rules hc) scope f, fun c owner hc ho => ?_⟩
  obtain rfl : scope = c := Option.some.inj (hscope.symm.trans hc)
  rcases d.bodyAt_onBody scope f with hb | hb <;> rw [hb]
  · exact hf owner ho _ (h.sections scope owner hc ho)
  · exact Body.isOpen_empty owner

/-- A document still stands at its place when a heading is changed. -/
theorem onHeading (h : d.Stands place) (scope : Scope) (f : Heading → Heading) :
    (d.onHeading scope f).Stands place := by
  have hbody : ∀ c, (d.onHeading scope f).bodyAt c = d.bodyAt c := by
    intro c
    cases hd : d.feature with
    | none => simp [Document.onHeading, onFeature, bodyAt, hd]
    | some t =>
      cases scope <;> cases c <;>
        simp [Document.onHeading, onFeature, bodyAt, hd, getLast?_mapLast, Option.map_map,
          Function.comp_def]
  refine ⟨h.tags, fun hc t ht => ?_, fun c owner hc ho => hbody c ▸ h.sections c owner hc ho⟩
  obtain ⟨t', ht', rfl⟩ := Option.map_eq_some_iff.mp ht
  cases scope <;> simp [h.rules hc t' ht']

end Stands

/-! ### Tokens -/

/-- What extends the spots of the sections that are being read extends the spots of the document, if
no tags wait. -/
theorem spots_onBody (h : d.Stands place) (hscope : place.scope? = some scope) (htags : d.tags = [])
    {f : Body → Body} {new : List Spot}
    (hf : (f (d.bodyAt scope)).spots.Sublist ((d.bodyAt scope).spots ++ new)) :
    (d.onBody scope f).spots.Sublist (d.spots ++ new) := by
  cases hd : d.feature with
  | none => simp [onBody, onFeature, spots, hd, htags]
  | some t =>
    cases scope with
    | feature =>
      have hnone : t.rules = [] := h.rules hscope t hd
      simpa [onBody, onFeature, spots, hd, htags, Feature.spots, hnone, bodyAt] using hf
    | rule =>
      have hsub : ((mapLast (fun r => { r with body := f r.body }) t.rules).flatMap
          Rule.spots).Sublist (t.rules.flatMap Rule.spots ++ new) := by
        refine sublist_flatMap_mapLast fun r hr => ?_
        simpa [Rule.spots, bodyAt, hd, hr] using hf
      simpa [onBody, onFeature, spots, hd, htags, Feature.spots] using hsub

/-- Free text begins nothing. -/
theorem spots_takeText (d : Document) (line : Text) (place : State) :
    (d.takeText line place).spots = d.spots := by
  cases place with
  | heading scope | headingText scope => exact spots_onHeading scope fun _ => rfl
  | title scope owner | titleText scope owner =>
    exact spots_onBody_eq scope fun b => b.spots_onTitle owner fun _ => rfl
  | step scope owner given =>
    refine spots_onBody_eq scope fun b => b.spots_onSteps_eq owner (flatMap_mapLast fun s => ?_)
    cases hs : s.docString <;> simp [Step.spots, Step.givenSpots, Step.spot, hs, DocString.spot]
  | examples scope | examplesText scope | examplesTable scope =>
    exact spots_onBody_eq scope fun b => b.spots_onExamples_eq (flatMap_mapLast fun _ => rfl)
  | _ => rfl

/-- A row is added behind all that there is of its table. -/
theorem spots_takeRow (h : d.Stands place) (row : Row) :
    (d.takeRow row place).spots.Sublist (d.spots ++ row.spots) := by
  cases place with
  | step scope owner given =>
    have hopen := h.sections scope owner rfl rfl
    refine spots_onBody h rfl (h.tags rfl) (Body.spots_onSteps hopen fun xs => ?_)
    refine sublist_flatMap_mapLast fun s _ => ?_
    cases hs : s.docString <;> simp [Step.spots, Step.givenSpots, Step.spot, hs]
  | examples scope | examplesText scope | examplesTable scope =>
    refine spots_onBody h rfl (h.tags rfl) (Body.spots_onExamples fun xs => ?_)
    refine sublist_flatMap_mapLast fun e _ => ?_
    simp [Examples.spots]
  | _ => exact List.sublist_append_left _ _

/-- A doc string is added behind its step, and in the place of its table. -/
theorem spots_takeFence (h : d.Stands place) (t : DocString) :
    (d.takeFence t place).spots.Sublist (d.spots ++ [t.spot]) := by
  have hstep : ∀ s : Step, ({ s with docString := some t } : Step).spots.Sublist
      (s.spots ++ [t.spot]) := by
    intro s
    simp [Step.spots, Step.givenSpots, Step.spot]
  cases place with
  | step scope owner given =>
    cases given with
    | bare | table =>
      exact spots_onBody h rfl (h.tags rfl) (Body.spots_onSteps (h.sections _ _ rfl rfl) fun xs =>
        sublist_flatMap_mapLast fun s _ => hstep s)
    | _ => exact List.sublist_append_left _ _
  | _ => exact List.sublist_append_left _ _

variable {here : State} {e : Entry} {token : Token} {l : Line}

/-- The spots of a document are those without the tags that wait, and those of these tags. -/
theorem spots_withoutTags (d : Document) :
    d.withoutTags.spots ++ d.tags.map Tag.spot = d.spots := by
  simp [withoutTags, spots]

/-- A document still stands at its place when the tags that wait are taken away. -/
theorem Stands.withoutTags (h : d.Stands place) : d.withoutTags.Stands place :=
  h.of_eq rfl fun _ => rfl

/-- A title or step begins behind all that there is, with the tags that waited for it. -/
theorem spots_takePart (h : d.Stands here) (he : e ∈ here.entries) (hkind : token.kind = e.kind)
    (hnew : token.spots l = [⟨l.number, false⟩]) (language : Text) :
    (d.takePart language l.location e.next token).spots.Sublist (d.spots ++ token.spots l) := by
  obtain ⟨-, -, hbackground, hscenario, hexamples, hstep, -⟩ :=
    State.forall_entries_begin here here.mem_all e he
  rw [hnew]
  cases token with
  | featureLine title =>
    simp [takePart, Document.withoutTags, spots, Feature.spots, Heading.spot, Heading.ofTitle,
      Body.spots, Body.empty, Line.location]
  | ruleLine title =>
    cases hd : d.feature with
    | none => simp [takePart, Document.withoutTags, onFeature, spots, hd]
    | some t =>
      simp [takePart, Document.withoutTags, onFeature, spots, hd, Feature.spots, Rule.spots,
        Heading.spot, Heading.ofTitle, Body.spots, Body.empty, Line.location]
  | backgroundLine title =>
    obtain ⟨howner, hnext⟩ := hbackground hkind.symm
    obtain ⟨scope, hs, hnext⟩ := Option.map_eq_some_iff.mp hnext
    rw [← hnext]
    exact spots_onBody h hs (h.tags (State.holdsTags_of_owner? howner))
      (Body.spots_setBackground (h.sections _ _ hs howner) _)
  | scenarioLine title =>
    obtain ⟨scope, hs, hnext⟩ := Option.map_eq_some_iff.mp (hscenario hkind.symm)
    rw [← hnext, ← d.spots_withoutTags, List.append_assoc]
    refine spots_onBody h.withoutTags hs rfl ?_
    exact (Body.spots_addScenario _ (.ofTitle l.location title) d.tags) ▸ List.Sublist.refl _
  | examplesLine title =>
    obtain ⟨scope, hs, hnext⟩ := Option.map_eq_some_iff.mp (hexamples hkind.symm)
    rw [← hnext, ← d.spots_withoutTags, List.append_assoc]
    refine spots_onBody h.withoutTags hs rfl (Body.spots_onExamples fun xs => ?_)
    simp [Examples.spots, Heading.spot, Heading.ofTitle, Line.location]
  | stepLine keyword role text =>
    obtain ⟨scope, hs, hnext⟩ := Option.bind_eq_some_iff.mp (hstep hkind.symm)
    obtain ⟨owner, howner, hnext⟩ := Option.map_eq_some_iff.mp hnext
    rw [← hnext]
    refine spots_onBody h hs (h.tags (State.holdsTags_of_owner? howner))
      (Body.spots_onSteps (h.sections _ _ hs howner) fun xs => ?_)
    simp [Step.spots, Step.givenSpots, Step.spot, Line.location]
  | _ => exact List.sublist_append_left _ _

/-- A token adds what it begins at the end. -/
theorem spots_take (h : d.Stands here) (he : e ∈ here.entries) (hkind : token.kind = e.kind)
    (language : Text) (l : Line) :
    (d.take language l here e.next token).spots.Sublist (d.spots ++ token.spots l) := by
  cases token with
  | eof | empty | comment text | language name => exact List.sublist_append_left _ _
  | tagLine tags => simp [take, spots, Token.spots, Tag.spot, Function.comp_def]
  | other text => exact (d.spots_takeText text here).symm ▸ List.sublist_append_left _ _
  | tableRow cells =>
    have hrow : (Row.ofCells l.location cells).spots = (Token.tableRow cells).spots l := by
      simp [Row.ofCells, Row.spots, Row.spot, Cell.spot, Token.spots, Line.location,
        Function.comp_def]
    exact hrow ▸ spots_takeRow h (.ofCells l.location cells)
  | docStringSeparator mark mediaType =>
    exact spots_takeFence h ⟨l.location, mark, mediaType, []⟩
  | _ => exact spots_takePart h he hkind rfl language

/-! ### What a token leaves empty -/

namespace Stands

/-- A document still stands at its place when it takes a line of a description. -/
theorem takeText (h : d.Stands here) (line : Text) : (d.takeText line here).Stands here := by
  cases here with
  | heading scope | headingText scope => exact h.onHeading scope _
  | title scope owner | titleText scope owner =>
    refine h.onBody rfl fun o ho b hb => ?_
    obtain rfl := Option.some.inj ho
    exact hb.onTitle _
  | step scope owner given =>
    refine h.onBody rfl fun o ho b hb => ?_
    obtain rfl := Option.some.inj ho
    exact hb.onSteps _
  | examples scope | examplesText scope | examplesTable scope => exact h.onBody rfl nofun
  | _ => exact h

/-- A document still stands at its place when it takes a row. -/
theorem takeRow (h : d.Stands here) (row : Row) : (d.takeRow row here).Stands here := by
  cases here with
  | step scope owner given =>
    refine h.onBody rfl fun o ho b hb => ?_
    obtain rfl := Option.some.inj ho
    exact hb.onSteps _
  | examples scope | examplesText scope | examplesTable scope => exact h.onBody rfl nofun
  | _ => exact h

/-- A document still stands at its place when it takes a doc string. -/
theorem takeFence (h : d.Stands here) (t : DocString) : (d.takeFence t here).Stands here := by
  cases here with
  | step scope owner given =>
    cases given with
    | bare | table =>
      refine h.onBody rfl fun o ho b hb => ?_
      obtain rfl := Option.some.inj ho
      exact hb.onSteps _
    | _ => exact h
  | _ => exact h

/-- What is empty at a place is empty at the next one, if no feature, rule or scenario begins. -/
theorem stay (h : d.Stands here) (he : e ∈ here.entries)
    (hkind : e.kind ∉ [TokenKind.featureLine, .ruleLine, .scenarioLine])
    (htags : e.next.holdsTags = false → d.tags = []) : d.Stands e.next := by
  obtain ⟨hscope, howner, -⟩ := State.forall_entries_stay here here.mem_all e he hkind
  exact h.mono htags hscope howner

/-- The same for tokens that leave the tags that wait alone. -/
theorem stay_of_tags (h : d.Stands here) (he : e ∈ here.entries)
    (hkind : e.kind ∉ [TokenKind.featureLine, .ruleLine, .scenarioLine])
    (hexamples : e.kind ≠ .examplesLine) : d.Stands e.next :=
  h.stay he hkind fun hnext => h.tags <|
    (State.forall_entries_stay here here.mem_all e he hkind).2.2 hexamples hnext

/-- Nothing stands behind a title or step that has just begun. -/
theorem takePart (h : d.Stands here) (he : e ∈ here.entries) (hkind : token.kind = e.kind)
    (language : Text) (loc : Location) :
    (d.takePart language loc e.next token).Stands e.next := by
  obtain ⟨hfeature, hrule, hbackground, hscenario, hexamples, hstep, -⟩ :=
    State.forall_entries_begin here here.mem_all e he
  cases token with
  | featureLine title =>
    rw [hfeature hkind.symm]
    refine ⟨fun _ => rfl, fun _ t ht => ?_, ?_⟩
    · obtain rfl := Option.some.inj ht
      rfl
    · rintro _ _ ⟨⟩ ⟨⟩
      rfl
  | ruleLine title =>
    rw [hrule hkind.symm]
    refine ⟨fun _ => rfl, ?_, ?_⟩
    · rintro ⟨⟩
    · rintro _ _ ⟨⟩ ⟨⟩
      cases hd : d.feature <;>
        simp [Document.takePart, Document.withoutTags, onFeature, bodyAt, hd, Body.IsOpen,
          Body.empty]
  | backgroundLine title =>
    obtain ⟨howner, hnext⟩ := hbackground hkind.symm
    obtain ⟨scope, hs, hnext⟩ := Option.map_eq_some_iff.mp hnext
    rw [← hnext]
    have hbody : (d.onBody scope (·.setBackground ⟨.ofTitle loc title, []⟩)).Stands here := by
      refine h.onBody hs fun o ho b hb => ?_
      obtain rfl := Option.some.inj (howner.symm.trans ho)
      exact hb
    exact hbody.mono (fun _ => h.tags (State.holdsTags_of_owner? howner)) (.inr hs.symm)
      (.inr howner.symm)
  | scenarioLine title =>
    obtain ⟨scope, hs, hnext⟩ := Option.map_eq_some_iff.mp (hscenario hkind.symm)
    rw [← hnext]
    refine ⟨fun _ => rfl, ?_, ?_⟩
    · rintro ⟨⟩
      exact rules_onBody (h.withoutTags.rules hs) _ _
    · rintro _ _ ⟨⟩ ⟨⟩
      rcases d.withoutTags.bodyAt_onBody scope
          (·.addScenario ⟨.ofTitle loc title, d.tags, [], []⟩) with hb | hb
      · exact (congrArg Body.lastExamples hb).trans (by simp [Body.lastExamples, Body.addScenario])
      · exact (congrArg Body.lastExamples hb).trans rfl
  | examplesLine title =>
    obtain ⟨scope, hs, hnext⟩ := Option.map_eq_some_iff.mp (hexamples hkind.symm)
    rw [← hnext]
    refine ⟨fun _ => rfl, ?_, ?_⟩
    · rintro ⟨⟩
      exact rules_onBody (h.withoutTags.rules hs) _ _
    · rintro _ _ ⟨⟩ ⟨⟩
  | stepLine keyword role text =>
    obtain ⟨scope, hs, hnext⟩ := Option.bind_eq_some_iff.mp (hstep hkind.symm)
    obtain ⟨owner, howner, hnext⟩ := Option.map_eq_some_iff.mp hnext
    rw [← hnext]
    have hbody : (d.onBody scope
        (·.onSteps owner (· ++ [⟨loc, keyword, role, text, [], none⟩]))).Stands here := by
      refine h.onBody hs fun o ho b hb => ?_
      obtain rfl := Option.some.inj (howner.symm.trans ho)
      exact hb.onSteps _
    exact hbody.mono (fun _ => h.tags (State.holdsTags_of_owner? howner)) (.inr hs.symm)
      (.inr howner.symm)
  | _ => refine h.stay_of_tags he ?_ ?_ <;> simp [← hkind, Token.kind]

/-- What is empty behind the part begun last, after a token. -/
theorem take (h : d.Stands here) (he : e ∈ here.entries) (hkind : token.kind = e.kind)
    (language : Text) (l : Line) : (d.take language l here e.next token).Stands e.next := by
  have hstay : ∀ {d' : Document}, d'.Stands here →
      e.kind ∉ [TokenKind.featureLine, .ruleLine, .scenarioLine, .examplesLine] →
      d'.Stands e.next := by
    intro d' h' hk
    exact h'.stay_of_tags he (by grind) (by grind)
  cases token with
  | comment text =>
    exact hstay (h.of_eq rfl h.tags) (by rw [← hkind]; simp [Token.kind])
  | other text => exact hstay (h.takeText text) (by rw [← hkind]; simp [Token.kind])
  | tableRow cells =>
    exact hstay (h.takeRow (.ofCells l.location cells)) (by rw [← hkind]; simp [Token.kind])
  | docStringSeparator mark mediaType =>
    exact hstay (h.takeFence ⟨l.location, mark, mediaType, []⟩)
      (by rw [← hkind]; simp [Token.kind])
  | tagLine tags =>
    have hholds : e.next.holdsTags = true :=
      (State.forall_entries_begin here here.mem_all e he).2.2.2.2.2.2 hkind.symm
    refine (hstay h (by rw [← hkind]; simp [Token.kind])).of_eq rfl fun hnext => ?_
    rw [hholds] at hnext
    cases hnext
  | _ => exact h.takePart he hkind language l.location

end Stands

/-! ### Order -/

/-- Whether a document stands in the order of its lines, all of them above a line. -/
structure InOrder (d : Document) (line : Nat) : Prop where
  spots : d.spots.Pairwise Spot.Before
  above : ∀ m ∈ d.spots, m.line < line
  comments : d.comments.Pairwise fun a b => a.loc.line < b.loc.line
  commentsAbove : ∀ c ∈ d.comments, c.loc.line < line

/-- An empty document is in order. -/
theorem InOrder.empty (line : Nat) : Document.empty.InOrder line := ⟨.nil, nofun, .nil, nofun⟩

/-- A line that is taken keeps the order of lines. -/
theorem InOrder.take (ho : d.InOrder l.number) (h : d.Stands here) (he : e ∈ here.entries)
    (hkind : token.kind = e.kind) (language : Text) :
    (d.take language l here e.next token).InOrder (l.number + 1) := by
  have hsub := spots_take h he hkind language l
  constructor
  case spots =>
    refine List.Pairwise.sublist hsub (List.pairwise_append.mpr
      ⟨ho.spots, token.pairwise_spots l, fun a ha b hb => .inl ?_⟩)
    rw [Token.line_of_mem_spots hb]
    exact ho.above a ha
  case above =>
    intro m hm
    rcases List.mem_append.mp (hsub.subset hm) with hm | hm
    · exact Nat.lt_succ_of_lt (ho.above m hm)
    · exact Nat.lt_succ_of_le (Nat.le_of_eq (Token.line_of_mem_spots hm))
  case comments =>
    rw [comments_take]
    refine List.pairwise_append.mpr ⟨ho.comments, ?_, fun a ha b hb => ?_⟩
    · cases token <;> simp [Token.comments]
    · rw [(Token.mem_comments_iff.mp hb).2]
      exact ho.commentsAbove a ha
  case commentsAbove =>
    intro c hc
    rw [comments_take] at hc
    rcases List.mem_append.mp hc with hc | hc
    · exact Nat.lt_succ_of_lt (ho.commentsAbove c hc)
    · rw [(Token.mem_comments_iff.mp hc).2]
      exact Nat.lt_succ_self _

end Ast.Document

/-! ### Runs -/

namespace ParseState

variable {s : ParseState}

/-- What steps without a fault keep from the number of a line to the next number, runs without a
fault keep. -/
theorem run_numbered {P : Nat → ParseState → Prop}
    (hstep : ∀ s l e token, P l.number s → s.Takes l s.place.entries e token →
      P (l.number + 1) (s.goes l e.next token)) {n : Nat} (hs : P n s) (texts : List Text)
    (h : (s.run (Line.numberFrom n texts)).faults = []) :
    P (n + texts.length) (s.run (Line.numberFrom n texts)) := by
  induction texts generalizing s n with
  | nil => exact hs
  | cons t texts ih =>
    rw [Line.numberFrom, run_cons] at h ⊢
    obtain ⟨e, token, htakes, -, heq⟩ := advance_of_faultless (faults_of_run h)
    rw [heq] at h ⊢
    have hnext := ih (hstep s ⟨n, t⟩ e token hs htakes) h
    rwa [List.length_cons, Nat.add_comm texts.length, ← Nat.add_assoc]

end ParseState

/-- A document that is read stands in the order of its lines, which are the lines of its text. -/
theorem Ast.Document.inOrder_of_parse {dialect : Dialect} {source : Text} {d : Document}
    (h : parse dialect source = .ok d) : d.InOrder (source.sourceLines.length + 1) := by
  obtain ⟨hfaults, rfl, -⟩ := run_of_parse h
  have hrun := ParseState.run_numbered
    (P := fun n s => s.document.Stands s.place ∧ s.document.InOrder n)
    (fun s l e token hs ht => ?_) ⟨.empty, .empty 1⟩ source.sourceLines hfaults
  · rw [Nat.add_comm]
    exact hrun.2
  · have hkind : token.kind = e.kind := Reading.kind_of_token? ht.reads
    exact ⟨hs.1.take ht.mem hkind _ l, hs.2.take hs.1 ht.mem hkind _⟩

end FeatureTree
