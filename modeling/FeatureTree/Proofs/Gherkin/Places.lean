import FeatureTree.Proofs.Gherkin.Run

/-!
# Places between parts

Where the parts of a document can begin: scenarios, rules and their tags wherever a section of a
feature or rule has begun or can begin, examples behind a scenario, steps in any section. Under a
title of each kind stands its description, which ends with what the grammar lets follow it.

## Main results

* `State.next?_scenarioLine`, `State.next?_examplesLine`, `State.next?_stepLine`: where parts begin
* `State.describes_feature`, `State.describes_rule`, `State.describes_section`,
  `State.describes_examples`: what can end each description
-/

namespace FeatureTree

/-- Whether the arguments of a step are complete, so that a line is no part of a doc string. -/
def Argument.isClosed : Argument → Bool
  | .openText | .openTextAfterTable => false
  | _ => true

/-- The kind of the title of a section. -/
def Owner.titleKind : Owner → TokenKind
  | .background => .backgroundLine
  | .scenario => .scenarioLine

namespace State

/-- Whether a place is one of a feature or of its rules, behind which a section can begin. -/
def IsWithin (scope : Scope) : State → Prop
  | heading c | headingText c | title c _ | titleText c _ => c = scope
  | examples c | examplesText c | examplesTable c => c = scope
  | step c _ given => c = scope ∧ given.isClosed = true
  | _ => False

/-- Whether a place is one of a scenario, behind which examples can begin. -/
def IsInScenario (scope : Scope) : State → Prop
  | title c owner | titleText c owner => c = scope ∧ owner = .scenario
  | examples c | examplesText c | examplesTable c => c = scope
  | step c owner given => c = scope ∧ owner = .scenario ∧ given.isClosed = true
  | _ => False

/-- Whether a place is one of a section, behind which steps can stand. -/
def TakesSteps (scope : Scope) (owner : Owner) : State → Prop
  | title c o | titleText c o => c = scope ∧ o = owner
  | step c o given => c = scope ∧ o = owner ∧ given.isClosed = true
  | _ => False

variable {place : State} {scope : Scope} {owner : Owner}

/-- A place in a scenario is within the scope of the scenario. -/
theorem IsInScenario.isWithin (h : place.IsInScenario scope) : place.IsWithin scope := by
  cases place <;> simp_all [IsInScenario, IsWithin]

/-- A place that takes steps is within the scope of their owner. -/
theorem TakesSteps.isWithin (h : place.TakesSteps scope owner) : place.IsWithin scope := by
  cases place <;> simp_all [TakesSteps, IsWithin]

/-- A place that takes the steps of a scenario is in the scenario. -/
theorem TakesSteps.isInScenario (h : place.TakesSteps scope .scenario) :
    place.IsInScenario scope := by
  cases place <;> simp_all [TakesSteps, IsInScenario]

/-- Within a scope a scenario can start, and so can its tags. -/
theorem next?_scenarioLine (h : place.IsWithin scope) :
    place.next? .scenarioLine = some (.title scope .scenario)
      ∧ place.next? .tagLine (some .scenarioLine) = some (.scenarioTags scope) := by
  cases place with
  | step c o given =>
    obtain ⟨rfl, hg⟩ := h
    cases o <;> cases given <;> first | exact absurd hg Bool.false_ne_true | exact ⟨rfl, rfl⟩
  | title c o | titleText c o =>
    obtain rfl : c = scope := h
    cases o <;> exact ⟨rfl, rfl⟩
  | heading c | headingText c | examples c | examplesText c | examplesTable c =>
    obtain rfl : c = scope := h
    exact ⟨rfl, rfl⟩
  | _ => cases h

/-- Within a scope a rule can start, and so can its tags. -/
theorem next?_ruleLine (h : place.IsWithin scope) :
    place.next? .ruleLine = some (.heading .rule)
      ∧ place.next? .tagLine (some .ruleLine) = some .ruleTags := by
  cases place with
  | step c o given =>
    obtain ⟨rfl, hg⟩ := h
    cases o <;> cases given <;> first | exact absurd hg Bool.false_ne_true | exact ⟨rfl, rfl⟩
  | title c o | titleText c o => cases o <;> exact ⟨rfl, rfl⟩
  | heading c | headingText c | examples c | examplesText c | examplesTable c => exact ⟨rfl, rfl⟩
  | _ => cases h

/-- In a scenario examples can start, and so can their tags. -/
theorem next?_examplesLine (h : place.IsInScenario scope) :
    place.next? .examplesLine = some (.examples scope)
      ∧ place.next? .tagLine (some .examplesLine) = some (.examplesTags scope) := by
  cases place with
  | step c o given =>
    obtain ⟨rfl, rfl, hg⟩ := h
    cases given <;> first | exact absurd hg Bool.false_ne_true | exact ⟨rfl, rfl⟩
  | title c o | titleText c o =>
    obtain ⟨rfl, rfl⟩ := h
    exact ⟨rfl, rfl⟩
  | examples c | examplesText c | examplesTable c =>
    obtain rfl : c = scope := h
    exact ⟨rfl, rfl⟩
  | _ => cases h

/-- Where steps are taken a step can follow. -/
theorem next?_stepLine (h : place.TakesSteps scope owner) :
    place.next? .stepLine = some (.step scope owner .bare) := by
  cases place with
  | step c o given =>
    obtain ⟨rfl, rfl, hg⟩ := h
    cases given <;> first | exact absurd hg Bool.false_ne_true | rfl
  | title c o | titleText c o =>
    obtain ⟨rfl, rfl⟩ := h
    rfl
  | _ => cases h

/-! ### Descriptions -/

/-- The kinds of token that end the description under a title of a kind, or are left out of it. -/
def describedBy : TokenKind → List TokenKind
  | .featureLine | .ruleLine => (headingText .feature).entries.map (·.kind)
  | .backgroundLine => (titleText .feature .background).entries.map (·.kind)
  | .scenarioLine => (titleText .feature .scenario).entries.map (·.kind)
  | .examplesLine => (examplesText .feature).entries.map (·.kind)
  | _ => []

/-- Two places, the one behind a title of a kind and the one in the description under it. -/
structure Describes (kind : TokenKind) (place text : State) : Prop where
  begins : place.text? = some text
  goes_on : text.text? = some text
  blank : place.next? .empty = some place
  kinds_place : ∀ e ∈ place.entries, e.kind = .empty ∨ e.kind ∈ describedBy kind
  kinds_text : ∀ e ∈ text.entries, e.kind ∈ describedBy kind
  onTitle : ∀ (d : Ast.Document) f, d.onTitle text f = d.onTitle place f
  not_inTable : place.inTable = false ∧ text.inTable = false
  not_step : ∀ scope owner given, place ≠ .step scope owner given ∧ text ≠ .step scope owner given

/-- A description goes on at two places where nothing but what can end it is read otherwise. -/
theorem describes_of_kinds {kind : TokenKind} {place text : State}
    (begins : place.text? = some text) (goes_on : text.text? = some text)
    (blank : place.next? .empty = some place)
    (kinds_place : place.entries.all
      (fun e => e.kind = .empty || (describedBy kind).contains e.kind) = true)
    (kinds_text : text.entries.all (fun e => (describedBy kind).contains e.kind) = true)
    (onTitle : ∀ (d : Ast.Document) f, d.onTitle text f = d.onTitle place f)
    (not_inTable : place.inTable = false ∧ text.inTable = false)
    (not_step : ∀ scope owner given,
      place ≠ .step scope owner given ∧ text ≠ .step scope owner given) :
    Describes kind place text :=
  ⟨begins, goes_on, blank,
    fun e he => by simpa using List.all_eq_true.mp kinds_place e he,
    fun e he => by simpa using List.all_eq_true.mp kinds_text e he, onTitle, not_inTable, not_step⟩

/-- The description of a feature is read behind its title. -/
theorem describes_feature : Describes .featureLine (.heading .feature) (.headingText .feature) :=
  describes_of_kinds rfl rfl rfl rfl rfl (fun _ _ => rfl) ⟨rfl, rfl⟩ (by simp)

/-- The description of a rule is read behind its title. -/
theorem describes_rule : Describes .ruleLine (.heading .rule) (.headingText .rule) :=
  describes_of_kinds rfl rfl rfl rfl rfl (fun _ _ => rfl) ⟨rfl, rfl⟩ (by simp)

/-- The description of a section is read behind its title. -/
theorem describes_section (scope : Scope) (owner : Owner) :
    Describes owner.titleKind (.title scope owner) (.titleText scope owner) := by
  cases owner <;>
    exact describes_of_kinds rfl rfl rfl rfl rfl (fun _ _ => rfl) ⟨rfl, rfl⟩ (by simp)

/-- The description of examples is read behind their title. -/
theorem describes_examples (scope : Scope) :
    Describes .examplesLine (.examples scope) (.examplesText scope) :=
  describes_of_kinds rfl rfl rfl rfl rfl (fun _ _ => rfl) ⟨rfl, rfl⟩ (by simp)

end State

end FeatureTree
