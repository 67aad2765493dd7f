import FeatureTree.Text.Blank

/-!
# Dialects

A dialect is the spoken language that the keywords of a document are taken from. Keywords of steps
keep the blank that separates them from the text of the step; the bullet `* ` is a step keyword of
nearly every dialect and can stand for any of the others.

## Main results

* `Dialect.mem_of_stepKeywordOf?`: the keyword found for a step is one of the dialect and starts
  the step's line
-/

namespace FeatureTree

/-- The keywords of a dialect, each list in the order in which its keywords are tried. -/
structure Dialect where
  name : Text
  feature : List Text
  background : List Text
  rule : List Text
  scenario : List Text
  outline : List Text
  examples : List Text
  given : List Text
  action : List Text
  outcome : List Text
  conjunction : List Text
  contrast : List Text
deriving DecidableEq, Repr, Inhabited

/-- The role of a step in its scenario, as far as its keyword tells. -/
inductive StepRole where
  | context
  | action
  | outcome
  | conjunction
  /-- The keyword belongs to several roles. -/
  | unknown
deriving DecidableEq, Repr

/-- The keyword that introduces each kind of titled part in text that names none itself. -/
structure PrimaryKeywords where
  feature : Text
  background : Text
  scenario : Text
  outline : Text
  examples : Text
  rule : Text
deriving DecidableEq, Repr

namespace Dialect

/-- The step keywords with the role that each occurrence stands for. -/
def roles (d : Dialect) : List (Text × StepRole) :=
  d.given.map (·, .context) ++ d.action.map (·, .action) ++ d.outcome.map (·, .outcome)
    ++ d.conjunction.map (·, .conjunction) ++ d.contrast.map (·, .conjunction)

/-- The step keywords, in the order of their lists. -/
def stepKeywords (d : Dialect) : List Text := d.roles.map (·.1)

/-- The longer of two keywords; of two of one length the first. -/
def longer (a b : Text) : Text := if a.length < b.length then b else a

/-- The longest of the step keywords that a text starts with. -/
def stepKeywordOf? (d : Dialect) (t : Text) : Option Text :=
  match d.stepKeywords.filter (·.isPrefixOf t) with
  | [] => none
  | k :: ks => some (ks.foldl longer k)

/-- The role of a step keyword: that of its only occurrence among the lists, else unknown. -/
def roleOf (d : Dialect) (keyword : Text) : StepRole :=
  match d.roles.filter (·.1 = keyword) with
  | [(_, role)] => role
  | _ => .unknown

/-- The first keyword of a list that is not the bullet, trimmed; the bullet if there is no other. -/
def primary (keywords : List Text) : Text :=
  let trimmed := keywords.map Text.trim
  (trimmed.find? (· ≠ ['*'])).getD (trimmed.headD [])

/-- The primary keyword of each kind of titled part. -/
def primaryKeywords (d : Dialect) : PrimaryKeywords where
  feature := primary d.feature
  background := primary d.background
  scenario := primary d.scenario
  outline := primary d.outline
  examples := primary d.examples
  rule := primary d.rule

/-- The keywords that mark a scenario as an outline, trimmed. -/
def outlineKeywords (d : Dialect) : List Text := d.outline.map Text.trim

/-- The longest of some keywords is one of them. -/
theorem foldl_longer_mem (k : Text) (ks : List Text) :
    ks.foldl longer k = k ∨ ks.foldl longer k ∈ ks := by
  induction ks generalizing k with
  | nil => exact .inl rfl
  | cons a ks ih =>
    rw [List.foldl_cons]
    rcases ih (longer k a) with h | h
    · rw [h]
      by_cases hl : k.length < a.length <;> simp [longer, hl]
    · exact .inr (List.mem_cons_of_mem _ h)

/-- A step keyword that is found is one of the dialect, and the text starts with it. -/
theorem mem_of_stepKeywordOf? {d : Dialect} {t k : Text} (h : d.stepKeywordOf? t = some k) :
    k ∈ d.stepKeywords ∧ k.isPrefixOf t = true := by
  suffices k ∈ d.stepKeywords.filter (·.isPrefixOf t) by simpa using this
  unfold stepKeywordOf? at h
  split at h
  · cases h
  · next k₀ ks heq =>
    rw [heq]
    cases h
    rcases foldl_longer_mem k₀ ks with he | he
    · simp [he]
    · exact List.mem_cons_of_mem _ he

end Dialect

end FeatureTree
