import Mathlib.Data.List.Basic
import FeatureTree.Proofs.Plain.Keywords
import FeatureTree.Proofs.Plain.Reread

/-!
# Arguments of steps

Any step of a feature can be given another argument, and the rest of the feature stays as it is. The
step is named by its place: by its number in the background or in a scenario, outside of the rules
or in one of them. What a feature meets it meets with the argument if the steps do, and it makes no
difference whether missing keywords are filled in before or after the argument is given.

## Main results

* `Plain.Feature.stepAt?_argue`: the step at the place has the argument
* `Plain.Feature.Meets.argue`: what a feature meets it meets with the argument
* `Plain.Feature.withKeywords_argue`: keywords and arguments do not get into each other's way
-/

namespace FeatureTree

namespace Plain

/-- Where a step stands in a feature: in which rule, if it is in one, in which scenario, if it is
not in the background, and at which place there. -/
structure StepPlace where
  rule : Option Nat
  scenario : Option Nat
  step : Nat

/-- A step with another argument. -/
def Step.argue (b : Block) (s : Step) : Step := { s with block := some b }

/-- The steps of the background or of a scenario. -/
def Body.stepsAt (b : Body) : Option Nat → List Step
  | none => (b.background.map (·.steps)).getD []
  | some i => (b.scenarios[i]?.map (·.steps)).getD []

/-- Changes the steps of the background or of a scenario. -/
def Body.onSteps (f : List Step → List Step) (b : Body) : Option Nat → Body
  | none => { b with background := b.background.map fun x => { x with steps := f x.steps } }
  | some i => { b with scenarios := b.scenarios.modify i fun x => { x with steps := f x.steps } }

/-- The sections of the feature itself or of one of its rules. -/
def Feature.bodyAt? (f : Feature) : Option Nat → Option Body
  | none => some f.body
  | some i => f.rules[i]?.map (·.body)

/-- Changes the sections of the feature itself or of one of its rules. -/
def Feature.onBody (g : Body → Body) (f : Feature) : Option Nat → Feature
  | none => { f with body := g f.body }
  | some i => { f with rules := f.rules.modify i fun r => { r with body := g r.body } }

/-- The step at a place. -/
def Feature.stepAt? (f : Feature) (p : StepPlace) : Option Step :=
  (f.bodyAt? p.rule).bind fun b => (b.stepsAt p.scenario)[p.step]?

/-- A feature with another argument for the step at a place. -/
def Feature.argue (p : StepPlace) (b : Block) (f : Feature) : Feature :=
  f.onBody (fun x => x.onSteps (·.modify p.step (Step.argue b)) p.scenario) p.rule

/-! ### The step at the place -/

/-- The steps at a place of a body are the changed ones. -/
theorem Body.stepsAt_onSteps {f : List Step → List Step} (hf : f [] = []) (b : Body)
    (i : Option Nat) : (b.onSteps f i).stepsAt i = f (b.stepsAt i) := by
  cases i with
  | none => cases h : b.background <;> simp [onSteps, stepsAt, h, hf]
  | some i => cases h : b.scenarios[i]? <;> simp [onSteps, stepsAt, h, hf]

/-- The body at a place of a feature is the changed one. -/
theorem Feature.bodyAt?_onBody (g : Body → Body) (f : Feature) (i : Option Nat) :
    (f.onBody g i).bodyAt? i = (f.bodyAt? i).map g := by
  cases i with
  | none => rfl
  | some i => cases h : f.rules[i]? <;> simp [onBody, bodyAt?, h]

/-- The step at the place has the argument that it was given. -/
theorem Feature.stepAt?_argue (p : StepPlace) (b : Block) (f : Feature) :
    (f.argue p b).stepAt? p = (f.stepAt? p).map (Step.argue b) := by
  rw [stepAt?, argue, bodyAt?_onBody, stepAt?, Option.bind_map, Option.map_bind]
  refine Option.bind_congr fun x _ => ?_
  rw [Function.comp_apply, Function.comp_apply, Body.stepsAt_onSteps (by simp),
    List.getElem?_modify_eq, Option.map_eq_map]

/-- Where the steps of all sections are changed alike, so is the step at a place. -/
theorem Feature.stepAt?_map {f f' : Feature} {gb : Body → Body} {gs : Step → Step} {p : StepPlace}
    (hbody : f'.bodyAt? p.rule = (f.bodyAt? p.rule).map gb)
    (hsteps : ∀ x i, (gb x).stepsAt i = (x.stepsAt i).map gs) :
    f'.stepAt? p = (f.stepAt? p).map gs := by
  rw [stepAt?, hbody, Option.bind_map, stepAt?, Option.map_bind]
  refine Option.bind_congr fun x _ => ?_
  rw [Function.comp_apply, Function.comp_apply, hsteps, List.getElem?_map]

/-! ### What stays with another argument -/

/-- A member of a list with one member changed is an old one or the changed one. -/
theorem mem_modify {α : Type} {f : α → α} {i : Nat} {xs : List α} {x : α}
    (h : x ∈ xs.modify i f) : x ∈ xs ∨ ∃ y ∈ xs, f y = x := by
  obtain ⟨j, hj⟩ := List.mem_iff_getElem?.mp h
  rw [List.getElem?_modify] at hj
  split at hj
  · obtain ⟨y, hy, hx⟩ := Option.map_eq_some_iff.mp hj
    exact .inr ⟨y, List.mem_of_getElem? hy, hx⟩
  · exact .inl (List.mem_of_getElem? (by simpa using hj))

/-- What holds of all members still does if one is changed into a member of which it holds. -/
theorem forall_mem_modify {α : Type} {P : α → Prop} {f : α → α} (hf : ∀ x, P x → P (f x))
    {xs : List α} (h : ∀ x ∈ xs, P x) (i : Nat) : ∀ x ∈ xs.modify i f, P x := by
  intro x hx
  rcases mem_modify hx with hx | ⟨y, hy, rfl⟩
  · exact h x hx
  · exact hf y (h y hy)

section

variable {d : Dialect} {σ : Standard} {b : Block}

/-- A legible step stays legible with another legible argument. -/
theorem Step.Legible.argue (hb : b.Legible) {s : Step} (h : s.Legible d) : (s.argue b).Legible d :=
  ⟨h.word, h.text_trimmed, h.text_oneLine, by rintro x ⟨⟩; exact hb⟩

/-- A body still meets a standard if its steps are changed into steps that do. -/
theorem Body.Meets.onSteps {f : List Step → List Step}
    (hf : ∀ steps : List Step, (∀ s ∈ steps, σ.step s) → ∀ s ∈ f steps, σ.step s) {x : Body}
    (h : x.Meets σ d) (i : Option Nat) : (x.onSteps f i).Meets σ d := by
  cases i with
  | none =>
    refine ⟨fun y hy => ?_, h.scenarios⟩
    obtain ⟨z, hz, rfl⟩ := Option.map_eq_some_iff.mp hy
    exact ⟨(h.background z hz).heading, hf _ (h.background z hz).steps⟩
  | some i =>
    refine ⟨h.background, forall_mem_modify (fun y hy => ?_) h.scenarios i⟩
    exact ⟨hy.heading, hy.tags, hf _ hy.steps, hy.examples, hy.agrees⟩

/-- What a feature meets it meets with the argument, if the steps do. -/
theorem Feature.Meets.argue (hσ : ∀ s, σ.step s → σ.step (s.argue b)) {f : Feature}
    (h : f.Meets σ d) (p : StepPlace) : (f.argue p b).Meets σ d := by
  have hbody : ∀ x : Body, x.Meets σ d →
      (x.onSteps (·.modify p.step (Step.argue b)) p.scenario).Meets σ d := fun x hx =>
    Body.Meets.onSteps (fun _ hs => forall_mem_modify (fun t ht => hσ t ht) hs p.step) hx _
  rw [Feature.argue]
  cases p.rule with
  | none => exact ⟨h.heading, h.tags, h.language, hbody _ h.body, h.rules⟩
  | some i =>
    refine ⟨h.heading, h.tags, h.language, h.body, forall_mem_modify (fun r hr => ?_) h.rules i⟩
    exact ⟨hr.heading, hr.tags, hbody _ hr.body⟩

/-- A feature that is legible stays legible with an argument that is. -/
theorem Feature.Legible.argue (hb : b.Legible) {f : Feature} (h : f.Legible d) (p : StepPlace) :
    (f.argue p b).Legible d :=
  Feature.Meets.argue (fun _ hs => Step.Legible.argue hb hs) h p

end

/-! ### Missing keywords -/

/-- Members are changed before or after they are mapped, if it is the same for each of them. -/
theorem map_modify {α β : Type} {g : α → β} {f : α → α} {f' : β → β}
    (h : ∀ x, g (f x) = f' (g x)) (i : Nat) (xs : List α) :
    (xs.modify i f).map g = (xs.map g).modify i f' := by
  refine List.ext_getElem? fun j => ?_
  rw [List.getElem?_map, List.getElem?_modify, List.getElem?_modify, List.getElem?_map]
  by_cases hij : i = j
  · cases hx : xs[j]? <;> simp [hij, h]
  · simp only [hij, if_false, id_map']

section

variable (k : PrimaryKeywords)

/-- A step gets its keyword whatever its argument is. -/
theorem Step.withKeyword_argue (b : Block) (s : Step) :
    (s.argue b).withKeyword = s.withKeyword.argue b := by
  rw [withKeyword, withKeyword, argue]
  split <;> rfl

/-- Steps get their keywords whatever the argument of one of them is. -/
theorem map_withKeyword_modify (b : Block) (i : Nat) (steps : List Step) :
    (steps.modify i (Step.argue b)).map Step.withKeyword
      = (steps.map Step.withKeyword).modify i (Step.argue b) :=
  map_modify (Step.withKeyword_argue b) i steps

/-- Steps get their keywords before or after they are changed. -/
theorem Body.withKeywords_onSteps {f : List Step → List Step}
    (hf : ∀ steps, (f steps).map Step.withKeyword = f (steps.map Step.withKeyword)) (b : Body)
    (i : Option Nat) : (b.onSteps f i).withKeywords k = (b.withKeywords k).onSteps f i := by
  cases i with
  | none =>
    simp only [onSteps, withKeywords, Option.map_map, Body.mk.injEq, and_true]
    exact Option.map_congr fun x _ => congrArg (Background.mk _) (hf x.steps)
  | some i =>
    simp only [onSteps, withKeywords, Body.mk.injEq, true_and]
    exact map_modify (fun x => by simp only [Scenario.withKeywords, hf]) i b.scenarios

/-- Missing keywords can be filled in before or after an argument is given. -/
theorem Feature.withKeywords_argue (p : StepPlace) (b : Block) (f : Feature) :
    (f.argue p b).withKeywords k = (f.withKeywords k).argue p b := by
  have hbody := Body.withKeywords_onSteps k (map_withKeyword_modify b p.step)
  rw [argue, argue]
  cases p.rule with
  | none => simp only [onBody, withKeywords, hbody]
  | some i =>
    simp only [onBody, withKeywords, Feature.mk.injEq, true_and]
    exact map_modify (fun r => by simp only [Rule.withKeywords, hbody]) i f.rules

/-- The steps at a place of a body with keywords are the steps there with keywords. -/
theorem Body.stepsAt_withKeywords (b : Body) (i : Option Nat) :
    (b.withKeywords k).stepsAt i = (b.stepsAt i).map Step.withKeyword := by
  cases i with
  | none => cases h : b.background <;> simp [stepsAt, withKeywords, Background.withKeywords, h]
  | some i => cases h : b.scenarios[i]? <;> simp [stepsAt, withKeywords, Scenario.withKeywords, h]

/-- With its keywords, a feature has the same steps at the same places. -/
theorem Feature.stepAt?_withKeywords (f : Feature) (p : StepPlace) :
    (f.withKeywords k).stepAt? p = (f.stepAt? p).map Step.withKeyword := by
  have hbody : (f.withKeywords k).bodyAt? p.rule
      = (f.bodyAt? p.rule).map (Body.withKeywords k) := by
    cases p.rule with
    | none => rfl
    | some i => cases h : f.rules[i]? <;> simp [bodyAt?, withKeywords, Rule.withKeywords, h]
  exact stepAt?_map hbody (Body.stepsAt_withKeywords k)

end

/-! ### What comes back -/

/-- The steps at a place of a body that is read again are the steps there, read again. -/
theorem Body.stepsAt_reread (d : Dialect) (b : Body) (i : Option Nat) :
    (b.reread d).stepsAt i = (b.stepsAt i).map (Step.reread d) := by
  cases i with
  | none => cases h : b.background <;> simp [stepsAt, reread, Background.reread, h]
  | some i => cases h : b.scenarios[i]? <;> simp [stepsAt, reread, Scenario.reread, h]

/-- What comes back of a feature has what comes back of its steps, at the same places. -/
theorem Feature.stepAt?_reread (d : Dialect) (f : Feature) (p : StepPlace) :
    (f.reread d).stepAt? p = (f.stepAt? p).map (Step.reread d) := by
  have hbody : (f.reread d).bodyAt? p.rule = (f.bodyAt? p.rule).map (Body.reread d) := by
    cases p.rule with
    | none => rfl
    | some i => cases h : f.rules[i]? <;> simp [bodyAt?, reread, Rule.reread, h]
  exact stepAt?_map hbody (Body.stepsAt_reread d)

end Plain

end FeatureTree
