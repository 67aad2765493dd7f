import FeatureTree.Gherkin.Parse
import FeatureTree.Proofs.Text.Trimming

/-!
# How documents grow

Every token extends the part of a document that was begun last, and the place in the grammar tells
which part that is. Here each kind of extension is one function of the place (`Document.onTitle`,
`Document.onRows`, `Document.onDocString`), extensions at one place compose, and an extension of a
part that was just added changes that part alone. The table that is being read at a place is the one
that `Document.onRows` extends.

## Main results

* `Ast.Document.onBody_onBody`: extensions of the sections compose
* `Ast.Document.takeText_eq_onTitle`, `Ast.Document.takeRow_eq_onRows`: tokens extend by place
* `Ast.Document.openRows_onBody`: the table that is being read after an extension
-/

namespace FeatureTree

/-- The last member can be changed in two steps. -/
theorem mapLast_mapLast {α : Type} (g f : α → α) (xs : List α) :
    mapLast g (mapLast f xs) = mapLast (fun x => g (f x)) xs := by
  rcases List.eq_nil_or_concat' xs with rfl | ⟨ys, y, rfl⟩
  · rfl
  · rw [mapLast_concat, mapLast_concat, mapLast_concat]

/-- Nothing changes if the last member stays the same. -/
theorem mapLast_eq_self {α : Type} {f : α → α} (h : ∀ x, f x = x) (xs : List α) :
    mapLast f xs = xs := by
  rcases List.eq_nil_or_concat' xs with rfl | ⟨ys, y, rfl⟩
  · rfl
  · rw [mapLast_concat, h]

/-- A member of a list with an extended last member is an old one or the extension of one. -/
theorem mem_mapLast {α : Type} {f : α → α} {xs : List α} {y : α} (h : y ∈ mapLast f xs) :
    y ∈ xs ∨ ∃ x, xs.getLast? = some x ∧ y = f x := by
  rcases List.eq_nil_or_concat' xs with rfl | ⟨ys, z, rfl⟩
  · cases h
  · rw [mapLast_concat, List.mem_append, List.mem_singleton] at h
    rcases h with h | rfl
    · exact .inl (List.mem_append_left _ h)
    · exact .inr ⟨z, by simp, rfl⟩

/-- What holds of all members still holds if the extension keeps it. -/
theorem forall_mem_mapLast {α : Type} {P : α → Prop} {f : α → α} {xs : List α}
    (h : ∀ x ∈ xs, P x) (hf : ∀ x, P x → P (f x)) : ∀ x ∈ mapLast f xs, P x := by
  intro y hy
  rcases mem_mapLast hy with hy | ⟨x, hx, rfl⟩
  · exact h y hy
  · exact hf x (h x (List.mem_of_getLast? hx))

/-- The last member is the changed one. -/
theorem getLast?_mapLast {α : Type} (f : α → α) (xs : List α) :
    (mapLast f xs).getLast? = xs.getLast?.map f := by
  rcases List.eq_nil_or_concat' xs with rfl | ⟨ys, y, rfl⟩
  · rfl
  · rw [mapLast_concat, List.getLast?_concat, List.getLast?_concat, Option.map_some]

namespace Ast

/-! ### Sections -/

namespace Body

/-- Begins a background, or replaces the one that there is. -/
def setBackground (x : Background) (b : Body) : Body := { b with background := some x }

/-- Begins a scenario. -/
def addScenario (x : Scenario) (b : Body) : Body := { b with scenarios := b.scenarios ++ [x] }

/-- Begins a section. A background has no tags. -/
def start (owner : Owner) (h : Heading) (tags : List Tag) (steps : List Step) (b : Body) : Body :=
  match owner with
  | .background => b.setBackground ⟨h, steps⟩
  | .scenario => b.addScenario ⟨h, tags, steps, []⟩

/-- Adds sections behind those that there are. -/
def add (b x : Body) : Body := ⟨x.background <|> b.background, b.scenarios ++ x.scenarios⟩

/-- The first part of a body makes up the body. -/
theorem empty_add (x : Body) : Body.empty.add x = x := by
  cases x with
  | mk background scenarios => cases background <;> rfl

variable (b : Body)

/-- The last steps can be changed in two steps. -/
theorem onSteps_onSteps (owner : Owner) (g f : List Step → List Step) :
    (b.onSteps owner f).onSteps owner g = b.onSteps owner fun xs => g (f xs) := by
  cases owner with
  | background => simp [onSteps, Function.comp_def]
  | scenario => simp [onSteps, mapLast_mapLast]

/-- The last title can be changed in two steps. -/
theorem onTitle_onTitle (owner : Owner) (g f : Heading → Heading) :
    (b.onTitle owner f).onTitle owner g = b.onTitle owner fun h => g (f h) := by
  cases owner with
  | background => simp [onTitle, Function.comp_def]
  | scenario => simp [onTitle, mapLast_mapLast]

/-- The last examples can be changed in two steps. -/
theorem onExamples_onExamples (g f : List Examples → List Examples) :
    (b.onExamples f).onExamples g = b.onExamples fun xs => g (f xs) := by
  simp [onExamples, mapLast_mapLast]

/-- A body stays the same if its last steps do. -/
theorem onSteps_eq_self (owner : Owner) {f : List Step → List Step} (h : ∀ xs, f xs = xs) :
    b.onSteps owner f = b := by
  cases owner with
  | background =>
    obtain ⟨background, scenarios⟩ := b
    cases background <;> simp [onSteps, h]
  | scenario => simp only [onSteps, h, mapLast_eq_self fun s : Scenario => rfl]

/-- A body stays the same if its last title does. -/
theorem onTitle_eq_self (owner : Owner) {f : Heading → Heading} (h : ∀ x, f x = x) :
    b.onTitle owner f = b := by
  cases owner with
  | background =>
    obtain ⟨background, scenarios⟩ := b
    cases background <;> simp [onTitle, h]
  | scenario => simp only [onTitle, h, mapLast_eq_self fun s : Scenario => rfl]

/-- A body stays the same if its last examples do. -/
theorem onExamples_eq_self {f : List Examples → List Examples} (h : ∀ xs, f xs = xs) :
    b.onExamples f = b := by
  simp only [onExamples, h, mapLast_eq_self fun s : Scenario => rfl]

/-- Changing the title of what was started starts it with the changed title. -/
theorem onTitle_start (owner : Owner) (h : Heading) (tags : List Tag) (steps : List Step)
    (f : Heading → Heading) :
    (b.start owner h tags steps).onTitle owner f = b.start owner (f h) tags steps := by
  cases owner <;> simp [start, onTitle, setBackground, addScenario]

/-- Changing the steps of what was started starts it with the changed steps. -/
theorem onSteps_start (owner : Owner) (h : Heading) (tags : List Tag) (steps : List Step)
    (f : List Step → List Step) :
    (b.start owner h tags steps).onSteps owner f = b.start owner h tags (f steps) := by
  cases owner <;> simp [start, onSteps, setBackground, addScenario]

/-- Changing the examples of what was added adds it with the changed examples. -/
theorem onExamples_addScenario (x : Scenario) (f : List Examples → List Examples) :
    (b.addScenario x).onExamples f = b.addScenario { x with examples := f x.examples } := by
  simp [onExamples, addScenario]

/-- The steps of the section begun last. -/
def lastSteps (owner : Owner) : List Step :=
  match owner with
  | .background => (b.background.map (·.steps)).getD []
  | .scenario => (b.scenarios.getLast?.map (·.steps)).getD []

/-- The examples of the scenario begun last. -/
def lastExamples : List Examples := (b.scenarios.getLast?.map (·.examples)).getD []

/-- The last steps are the changed ones, or there are none. -/
theorem lastSteps_onSteps (owner : Owner) (f : List Step → List Step) :
    (b.onSteps owner f).lastSteps owner = f (b.lastSteps owner)
      ∨ (b.onSteps owner f).lastSteps owner = [] := by
  cases owner with
  | background => cases hb : b.background <;> simp [onSteps, lastSteps, hb]
  | scenario =>
    rw [onSteps, lastSteps, getLast?_mapLast]
    cases hs : b.scenarios.getLast? <;> simp [lastSteps, hs]

/-- The last examples are the changed ones, or there are none. -/
theorem lastExamples_onExamples (f : List Examples → List Examples) :
    (b.onExamples f).lastExamples = f b.lastExamples
      ∨ (b.onExamples f).lastExamples = [] := by
  rw [onExamples, lastExamples, getLast?_mapLast]
  cases hs : b.scenarios.getLast? <;> simp [lastExamples, hs]

end Body

namespace Document

variable (d : Document)

/-! ### Parts of the feature -/

/-- The feature can be changed in two steps. -/
theorem onFeature_onFeature (g f : Feature → Feature) :
    (d.onFeature f).onFeature g = d.onFeature fun t => g (f t) := by
  simp [onFeature, Function.comp_def]

/-- Extensions of the sections compose. -/
theorem onBody_onBody (scope : Scope) (g f : Body → Body) :
    (d.onBody scope f).onBody scope g = d.onBody scope fun b => g (f b) := by
  cases scope <;> simp [onBody, onFeature_onFeature, mapLast_mapLast]

/-- A heading can be changed in two steps. -/
theorem onHeading_onHeading (scope : Scope) (g f : Heading → Heading) :
    (d.onHeading scope f).onHeading scope g = d.onHeading scope fun h => g (f h) := by
  cases scope <;> simp [onHeading, onFeature_onFeature, mapLast_mapLast]

/-- Adds rules. -/
def addRules (xs : List Rule) : Document := d.onFeature fun t => { t with rules := t.rules ++ xs }

/-- Changing the heading of a rule that was added adds it with the changed heading. -/
theorem onHeading_addRule (x : Rule) (f : Heading → Heading) :
    (d.addRules [x]).onHeading .rule f = d.addRules [{ x with heading := f x.heading }] := by
  simp [addRules, onHeading, onFeature_onFeature]

/-- Changing the body of a rule that was added adds it with the changed body. -/
theorem onBody_addRule (x : Rule) (f : Body → Body) :
    (d.addRules [x]).onBody .rule f = d.addRules [{ x with body := f x.body }] := by
  simp [addRules, onBody, onFeature_onFeature]

/-- Rules can be added in two steps. -/
theorem addRules_addRules (xs ys : List Rule) :
    (d.addRules xs).addRules ys = d.addRules (xs ++ ys) := by
  simp [addRules, onFeature_onFeature]

/-- Begins the feature. -/
def withFeature (x : Feature) : Document := { d with feature := some x }

/-- Tags that wait for their title. -/
def withTags (ts : List Tag) : Document := { d with tags := ts }

/-- Tags that are put aside and taken away leave no trace. -/
theorem withTags_withoutTags (ts : List Tag) (h : d.tags = []) :
    (d.withTags ts).withoutTags = d := by
  rw [withTags, withoutTags, ← h]

/-! ### Extending by place -/

/-- Changes the heading of the part that a place is in. -/
def onTitle (place : State) (f : Heading → Heading) : Document :=
  match place with
  | .heading scope | .headingText scope => d.onHeading scope f
  | .title scope owner | .titleText scope owner => d.onBody scope (·.onTitle owner f)
  | .examples scope | .examplesText scope | .examplesTable scope =>
    d.onBody scope (·.onExamples (mapLast fun e => { e with heading := f e.heading }))
  | _ => d

/-- Changes the table that is being read at a place. -/
def onRows (place : State) (f : List Row → List Row) : Document :=
  match place with
  | .step scope owner _ =>
    d.onBody scope (·.onSteps owner (mapLast fun s => { s with table := f s.table }))
  | .examples scope | .examplesText scope | .examplesTable scope =>
    d.onBody scope (·.onExamples (mapLast fun e => { e with rows := f e.rows }))
  | _ => d

/-- Changes the doc string of the step that a place is in. -/
def onDocString (place : State) (f : Option DocString → Option DocString) : Document :=
  match place with
  | .step scope owner _ =>
    d.onBody scope (·.onSteps owner (mapLast fun s => { s with docString := f s.docString }))
  | _ => d

/-- The title at a place can be changed in two steps. -/
theorem onTitle_onTitle (place : State) (g f : Heading → Heading) :
    (d.onTitle place f).onTitle place g = d.onTitle place fun h => g (f h) := by
  cases place <;> simp [onTitle, onHeading_onHeading, onBody_onBody, Body.onTitle_onTitle,
    Body.onExamples_onExamples, mapLast_mapLast]

/-- The rows at a place can be changed in two steps. -/
theorem onRows_onRows (place : State) (g f : List Row → List Row) :
    (d.onRows place f).onRows place g = d.onRows place fun xs => g (f xs) := by
  cases place <;> simp [onRows, onBody_onBody, Body.onSteps_onSteps, Body.onExamples_onExamples,
    mapLast_mapLast]

/-- The doc string at a place can be changed in two steps. -/
theorem onDocString_onDocString (place : State) (g f : Option DocString → Option DocString) :
    (d.onDocString place f).onDocString place g = d.onDocString place fun x => g (f x) := by
  cases place <;> simp [onDocString, onBody_onBody, Body.onSteps_onSteps, mapLast_mapLast]

/-- Changing a title leaves the tags that wait alone. -/
@[simp] theorem tags_onTitle (place : State) (f : Heading → Heading) :
    (d.onTitle place f).tags = d.tags := by
  cases place <;> rfl

/-- Changing rows leaves the tags that wait alone. -/
@[simp] theorem tags_onRows (place : State) (f : List Row → List Row) :
    (d.onRows place f).tags = d.tags := by
  cases place <;> rfl

/-- A table that is extended behind a step that was just added is the table of that step. -/
theorem onRows_addStep (scope : Scope) (owner : Owner) (given : Argument) (x : Step)
    (f : List Row → List Row) :
    (d.onBody scope (·.onSteps owner (· ++ [x]))).onRows (.step scope owner given) f
      = d.onBody scope (·.onSteps owner (· ++ [{ x with table := f x.table }])) := by
  simp only [onRows, onBody_onBody, Body.onSteps_onSteps, mapLast_concat]

/-- Changing the doc string of a step that was added adds it with the changed doc string. -/
theorem onDocString_addStep (scope : Scope) (owner : Owner) (given : Argument) (x : Step)
    (f : Option DocString → Option DocString) :
    (d.onBody scope (·.onSteps owner (· ++ [x]))).onDocString (.step scope owner given) f
      = d.onBody scope (·.onSteps owner (· ++ [{ x with docString := f x.docString }])) := by
  simp only [onDocString, onBody_onBody, Body.onSteps_onSteps, mapLast_concat]

/-- Changing the rows of examples that were added adds them with the changed rows. -/
theorem onRows_addExamples (scope : Scope) (x : Examples) (f : List Row → List Row) :
    (d.onBody scope (·.onExamples (· ++ [x]))).onRows (.examples scope) f
      = d.onBody scope (·.onExamples (· ++ [{ x with rows := f x.rows }])) := by
  simp only [onRows, onBody_onBody, Body.onExamples_onExamples, mapLast_concat]

/-- Changing the title at the place of what was started starts it with the changed title. -/
theorem onTitle_start (scope : Scope) (owner : Owner) (h : Heading) (tags : List Tag)
    (steps : List Step) (f : Heading → Heading) :
    (d.onBody scope (·.start owner h tags steps)).onTitle (.title scope owner) f
      = d.onBody scope (·.start owner (f h) tags steps) := by
  simp only [onTitle, onBody_onBody, Body.onTitle_start]

/-- Changing the title of examples that were added adds them with the changed title. -/
theorem onTitle_addExamples (scope : Scope) (x : Examples) (f : Heading → Heading) :
    (d.onBody scope (·.onExamples (· ++ [x]))).onTitle (.examples scope) f
      = d.onBody scope (·.onExamples (· ++ [{ x with heading := f x.heading }])) := by
  simp only [onTitle, onBody_onBody, Body.onExamples_onExamples, mapLast_concat]

/-! ### Extending by nothing -/

/-- A document stays the same if its feature does. -/
theorem onFeature_eq_self {f : Feature → Feature} (h : ∀ t, f t = t) : d.onFeature f = d := by
  have hmap : d.feature.map f = d.feature := by
    cases d.feature with
    | none => rfl
    | some t => rw [Option.map_some, h]
  rw [onFeature, hmap]

/-- A document stays the same if a body in it does. -/
theorem onBody_eq_self (scope : Scope) {f : Body → Body} (h : ∀ b, f b = b) :
    d.onBody scope f = d := by
  refine onFeature_eq_self d fun t => ?_
  cases scope with
  | feature => simp only [h]
  | rule => simp only [h, mapLast_eq_self fun r : Rule => rfl]

/-- A document stays the same if a heading in it does. -/
theorem onHeading_eq_self (scope : Scope) {f : Heading → Heading} (h : ∀ x, f x = x) :
    d.onHeading scope f = d := by
  refine onFeature_eq_self d fun t => ?_
  cases scope with
  | feature => simp only [h]
  | rule => simp only [h, mapLast_eq_self fun r : Rule => rfl]

/-- A document stays the same if the title at a place does. -/
theorem onTitle_eq_self (place : State) {f : Heading → Heading} (h : ∀ x, f x = x) :
    d.onTitle place f = d := by
  cases place <;> first
    | rfl
    | exact onHeading_eq_self d _ h
    | exact onBody_eq_self d _ fun b => b.onTitle_eq_self _ h
    | exact onBody_eq_self d _ fun b =>
        b.onExamples_eq_self fun xs => mapLast_eq_self (fun e => by rw [h]) xs

/-- A document stays the same if the rows at a place do. -/
theorem onRows_eq_self (place : State) {f : List Row → List Row} (h : ∀ xs, f xs = xs) :
    d.onRows place f = d := by
  cases place <;> first
    | rfl
    | exact onBody_eq_self d _ fun b =>
        b.onSteps_eq_self _ fun xs => mapLast_eq_self (fun s => by rw [h]) xs
    | exact onBody_eq_self d _ fun b =>
        b.onExamples_eq_self fun xs => mapLast_eq_self (fun e => by rw [h]) xs

/-- A document stays the same if the doc string at a place does. -/
theorem onDocString_eq_self (place : State) {f : Option DocString → Option DocString}
    (h : ∀ x, f x = x) : d.onDocString place f = d := by
  cases place <;> first
    | rfl
    | exact onBody_eq_self d _ fun b =>
        b.onSteps_eq_self _ fun xs => mapLast_eq_self (fun s => by rw [h]) xs

/-! ### Tokens -/

/-- Free text outside of doc strings is a line of a description. -/
theorem takeText_eq_onTitle (line : Text) {place : State}
    (h : ∀ scope owner given, place ≠ .step scope owner given) :
    d.takeText line place = d.onTitle place (·.describe line) := by
  cases place <;> first | rfl | exact absurd rfl (h _ _ _)

/-- Free text in a doc string is a line of its content. -/
theorem takeText_step (line : Text) (scope : Scope) (owner : Owner) (given : Argument) :
    d.takeText line (.step scope owner given) = d.onDocString (.step scope owner given)
      (Option.map fun t => { t with lines := t.lines ++ [line] }) := rfl

/-- A row goes behind the rows at its place. -/
theorem takeRow_eq_onRows (row : Row) (place : State) :
    d.takeRow row place = d.onRows place (· ++ [row]) := by
  cases place <;> rfl

/-! ### The table that is being read -/

/-- The sections of the feature or of its last rule. -/
def bodyAt (scope : Scope) : Body :=
  match d.feature, scope with
  | some t, .feature => t.body
  | some t, .rule => (t.rules.getLast?.map (·.body)).getD .empty
  | none, _ => .empty

/-- The body of a scope is the changed one, or an empty one. -/
theorem bodyAt_onBody (scope : Scope) (f : Body → Body) :
    (d.onBody scope f).bodyAt scope = f (d.bodyAt scope)
      ∨ (d.onBody scope f).bodyAt scope = .empty := by
  rcases hd : d.feature with _ | t
  · exact .inr (by simp [onBody, onFeature, bodyAt, hd])
  · cases scope with
    | feature => exact .inl (by simp [onBody, onFeature, bodyAt, hd])
    | rule =>
      rcases List.eq_nil_or_concat' t.rules with hr | ⟨rs, r, hr⟩
      · exact .inr (by simp [onBody, onFeature, bodyAt, hd, hr])
      · exact .inl (by simp [onBody, onFeature, bodyAt, hd, hr])

/-- The rows that are being read below a step are those of the last step. -/
theorem openRows_step (scope : Scope) (owner : Owner) (given : Argument) :
    d.openRows (.step scope owner given)
      = (((d.bodyAt scope).lastSteps owner).getLast?.map (·.table)).getD [] := by
  cases owner <;> rfl

/-- The rows that are being read below examples are those of the last examples. -/
theorem openRows_examplesTable (scope : Scope) :
    d.openRows (.examplesTable scope)
      = ((d.bodyAt scope).lastExamples.getLast?.map (·.rows)).getD [] := rfl

/-- Behind a step that was just added, its table is being read. -/
theorem openRows_addStep (scope : Scope) (owner : Owner) (given : Argument) (x : Step) :
    (d.onBody scope (·.onSteps owner (· ++ [x]))).openRows (.step scope owner given) = x.table
      ∨ (d.onBody scope (·.onSteps owner (· ++ [x]))).openRows (.step scope owner given) = [] := by
  rw [openRows_step]
  rcases d.bodyAt_onBody scope (·.onSteps owner (· ++ [x])) with h | h <;> rw [h]
  · rcases (d.bodyAt scope).lastSteps_onSteps owner (· ++ [x]) with hs | hs <;> rw [hs]
    · exact .inl (by simp)
    · exact .inr rfl
  · cases owner <;> exact .inr rfl

/-- Behind examples that were just added, their table is being read. -/
theorem openRows_addExamples (scope : Scope) (x : Examples) :
    (d.onBody scope (·.onExamples (· ++ [x]))).openRows (.examplesTable scope) = x.rows
      ∨ (d.onBody scope (·.onExamples (· ++ [x]))).openRows (.examplesTable scope) = [] := by
  rw [openRows_examplesTable]
  rcases d.bodyAt_onBody scope (·.onExamples (· ++ [x])) with h | h <;> rw [h]
  · rcases (d.bodyAt scope).lastExamples_onExamples (· ++ [x]) with hs | hs <;> rw [hs]
    · exact .inl (by simp)
    · exact .inr rfl
  · exact .inr rfl

end Document

end Ast

end FeatureTree
