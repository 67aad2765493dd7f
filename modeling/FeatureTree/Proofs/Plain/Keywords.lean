import FeatureTree.Gherkin.Dialect.Basic
import FeatureTree.Proofs.Plain.Basic

/-!
# Plain documents that leave out keywords

A document that was built rather than read can leave out its keywords. Then each part goes by the
primary keyword of its kind, and a step by the bullet.
-/

namespace FeatureTree

namespace Plain

/-- A heading under a keyword, unless it has one of its own. -/
def Heading.withKeyword (keyword : Text) (h : Heading) : Heading :=
  if h.keyword.isEmpty then { h with keyword } else h

/-- Only the keyword of a heading changes. -/
theorem Heading.withKeyword_eq (keyword : Text) (h : Heading) :
    h.withKeyword keyword = ⟨(h.withKeyword keyword).keyword, h.name, h.description⟩ := by
  rw [withKeyword]
  split <;> rfl

/-- A step behind the bullet, unless it has a keyword of its own. -/
def Step.withKeyword (s : Step) : Step :=
  if s.keyword.isEmpty then { s with keyword := ['*'] } else s

variable (k : PrimaryKeywords)

def Background.withKeywords (b : Background) : Background :=
  ⟨b.heading.withKeyword k.background, b.steps.map Step.withKeyword⟩

def Examples.withKeywords (e : Examples) : Examples :=
  { e with heading := e.heading.withKeyword k.examples }

def Scenario.withKeywords (s : Scenario) : Scenario where
  heading := s.heading.withKeyword (if s.examples.isSome then k.outline else k.scenario)
  tags := s.tags
  steps := s.steps.map Step.withKeyword
  examples := s.examples.map (·.map (Examples.withKeywords k))

def Body.withKeywords (b : Body) : Body :=
  ⟨b.background.map (Background.withKeywords k), b.scenarios.map (Scenario.withKeywords k)⟩

def Rule.withKeywords (r : Rule) : Rule :=
  { r with heading := r.heading.withKeyword k.rule, body := r.body.withKeywords k }

/-- A feature all of whose parts have keywords. -/
def Feature.withKeywords (f : Feature) : Feature :=
  { f with
    heading := f.heading.withKeyword k.feature
    body := f.body.withKeywords k
    rules := f.rules.map (Rule.withKeywords k) }

end Plain

end FeatureTree
