import FeatureTree.Gherkin.Token
import FeatureTree.Proofs.Gherkin.Cells

/-!
# How lines are told apart

Apart from blank lines and free text, a line is read as what it is by how it starts. Each kind of
token has its openers, and a line is refused as a token of a kind exactly when none of them starts
it. An opener is a *mark* of its kind when it can be mistaken for no other: no opener is a part of
its start or starts with it. A line that starts with a mark is read as that kind and as no other.

## Main results

* `Reading.token?_eq_none_iff`: when a line is refused as a token of a kind
* `Dialect.Marks.only`: a line that starts with a mark can be read in one way
-/

namespace FeatureTree

namespace TokenKind

/-- The kinds of token that begin a titled part. -/
def titles : List TokenKind :=
  [.featureLine, .ruleLine, .backgroundLine, .scenarioLine, .examplesLine]

/-- The kinds of token that show in how a line starts. -/
def openable : List TokenKind :=
  titles ++ [.comment, .tagLine, .stepLine, .docStringSeparator, .tableRow]

end TokenKind

namespace Dialect

/-- The keywords of the titles of a kind. -/
def titleWords (d : Dialect) : TokenKind → List Text
  | .featureLine => d.feature
  | .ruleLine => d.rule
  | .backgroundLine => d.background
  | .scenarioLine => d.scenario ++ d.outline
  | .examplesLine => d.examples
  | _ => []

/-- What a line of a kind starts with, behind its indentation. -/
def openers (d : Dialect) : TokenKind → List Text
  | .comment => [['#']]
  | .tagLine => [['@']]
  | .stepLine => d.stepKeywords
  | .docStringSeparator => [quoteFence, backtickFence]
  | .tableRow => [['|']]
  | kind => (d.titleWords kind).map (· ++ [':'])

/-- The titles of a kind open with one of its keywords and a colon. -/
theorem openers_of_mem_titles {d : Dialect} {kind : TokenKind} (h : kind ∈ TokenKind.titles) :
    d.openers kind = (d.titleWords kind).map (· ++ [':']) := by
  cases kind <;> first | rfl | exact absurd h (by decide)

/-- A hash opens comments in every dialect. -/
theorem mem_openers_comment (d : Dialect) : ['#'] ∈ d.openers .comment := List.mem_singleton_self _

/-- An at sign opens lines of tags in every dialect. -/
theorem mem_openers_tagLine (d : Dialect) : ['@'] ∈ d.openers .tagLine := List.mem_singleton_self _

/-- Whether an opener of a kind starts a text. -/
def Opens (d : Dialect) (kind : TokenKind) (t : Text) : Prop := ∃ w ∈ d.openers kind, w <+: t

/-- Whether an opener of a kind is a mark of it: no other opener starts it or starts with it. -/
def Marks (d : Dialect) (kind : TokenKind) (w : Text) : Prop :=
  w ∈ d.openers kind ∧ ∀ kind' ∈ TokenKind.openable, ∀ v ∈ d.openers kind',
    v.isPrefixOf w || w.isPrefixOf v → kind' = kind ∧ v = w

/-- Kinds with openers are openable. -/
theorem mem_openable_of_mem_openers {d : Dialect} {kind : TokenKind} {w : Text}
    (h : w ∈ d.openers kind) : kind ∈ TokenKind.openable := by
  cases kind <;> first | decide | exact absurd h (by simp [openers, titleWords])

namespace Marks

variable {d : Dialect} {kind : TokenKind} {w : Text}

/-- What marks a kind opens it. -/
theorem mem (h : d.Marks kind w) : w ∈ d.openers kind := h.1

/-- What marks a kind is not empty. -/
theorem ne_nil (h : d.Marks kind w) : w ≠ [] := by
  rintro rfl
  obtain ⟨rfl, -⟩ := h.2 .comment (by decide) ['#'] d.mem_openers_comment (by simp)
  obtain ⟨he, -⟩ := h.2 .tagLine (by decide) ['@'] d.mem_openers_tagLine (by simp)
  cases he

/-- A text that starts with a mark starts with no other opener. -/
theorem eq_of_isPrefix (h : d.Marks kind w) {t : Text} (ht : w <+: t) {kind' : TokenKind} {v : Text}
    (hv : v ∈ d.openers kind') (hp : v <+: t) : kind' = kind ∧ v = w := by
  refine h.2 kind' (mem_openable_of_mem_openers hv) v hv ?_
  rw [Bool.or_eq_true, List.isPrefixOf_iff_prefix, List.isPrefixOf_iff_prefix]
  exact List.prefix_or_prefix_of_prefix hp ht

/-- What is marked as one kind opens no other. -/
theorem not_opens (h : d.Marks kind w) {t : Text} (ht : w <+: t) {kind' : TokenKind}
    (hk : kind' ≠ kind) : ¬d.Opens kind' t := by
  rintro ⟨v, hv, hp⟩
  exact hk (h.eq_of_isPrefix ht hv hp).1

end Marks

end Dialect

namespace Reading

variable {r : Reading} {l : Line}

/-- A text has a first character if it starts with it. -/
theorem head?_eq_some_iff {c : Char} {t : Text} : t.head? = some c ↔ [c] <+: t := by
  cases t with
  | nil => simp
  | cons d t => simp [eq_comm]

/-- A line is no title if it starts with none of the keywords and a colon. -/
theorem title?_eq_none_iff {ks : List Text} :
    l.title? ks = none ↔ ∀ w ∈ ks.map (· ++ [':']), ¬w <+: l.trimmed := by
  rw [Line.title?, Option.map_eq_none_iff, List.find?_eq_none]
  simp [List.isPrefixOf_iff_prefix]

/-- A text has no step keyword if it starts with none. -/
theorem stepKeywordOf?_eq_none_iff {d : Dialect} {t : Text} :
    d.stepKeywordOf? t = none ↔ ∀ w ∈ d.stepKeywords, ¬w <+: t := by
  have hfilter : d.stepKeywords.filter (·.isPrefixOf t) = [] ↔ ∀ w ∈ d.stepKeywords, ¬w <+: t := by
    rw [List.filter_eq_nil_iff]
    simp [List.isPrefixOf_iff_prefix]
  rw [← hfilter, Dialect.stepKeywordOf?]
  split
  · next h => simp [h]
  · next h => simp [h]

/-- A line opens no doc string if it starts with neither fence. -/
theorem openingFence?_eq_none_iff :
    l.openingFence? = none ↔ ¬quoteFence <+: l.trimmed ∧ ¬backtickFence <+: l.trimmed := by
  simp only [Line.openingFence?, ← List.isPrefixOf_iff_prefix]
  cases quoteFence.isPrefixOf l.trimmed <;> cases backtickFence.isPrefixOf l.trimmed <;> simp

/-- A line has no tags if it does not start with an at sign. -/
theorem tags?_eq_none_iff : l.tags? = .ok none ↔ l.trimmed.head? ≠ some '@' := by
  rw [Line.tags?]
  split
  · next h =>
    refine ⟨fun he => ?_, fun hn => absurd h hn⟩
    cases ht : Line.tagsFrom l.column (Text.splitAtChar '@'
      (Text.trim (Line.beforeComment l.trimmed.trim))).tail with
    | error f => simp only [ht, Except.map] at he; cases he
    | ok ts => simp only [ht, Except.map] at he; cases he
  · next h => simp [h]

/-- Outside of doc strings a line is refused as a token of a kind exactly when no opener of the kind
starts it. Blank lines, language lines and free text are another matter. -/
theorem token?_eq_none_iff (hf : r.fence = none) {kind : TokenKind}
    (hk : kind ∈ TokenKind.openable) :
    r.token? l kind = .ok none ↔ ¬r.dialect.Opens kind l.trimmed := by
  have key : ∀ {α : Type} (f : α → Token) {x : Option α} {ws : List Text},
      (x = none ↔ ∀ w ∈ ws, ¬w <+: l.trimmed) →
      ((.ok (x.map f) : Except TokenFault (Option Token)) = .ok none
        ↔ ¬∃ w ∈ ws, w <+: l.trimmed) := by
    intro α f x ws h
    rw [Except.ok.injEq, Option.map_eq_none_iff, h]
    simp
  cases kind <;> simp only [Dialect.Opens]
  case comment =>
    simp only [token?, Dialect.openers, head?_eq_some_iff, List.mem_singleton, exists_eq_left]
    split <;> simp_all
  case tagLine =>
    have hmap : r.token? l .tagLine = .ok none ↔ l.tags? = .ok none := by
      simp only [token?]
      cases l.tags? with
      | error f => simp [Except.map]
      | ok ts => simp [Except.map]
    rw [hmap, tags?_eq_none_iff, Ne, head?_eq_some_iff]
    simp [Dialect.openers]
  case featureLine | ruleLine | backgroundLine | scenarioLine | examplesLine =>
    exact key _ title?_eq_none_iff
  case stepLine => exact key _ stepKeywordOf?_eq_none_iff
  case docStringSeparator =>
    simp only [token?, hf]
    exact key _ (by simp [openingFence?_eq_none_iff, Dialect.openers])
  case tableRow =>
    simp only [token?, Dialect.openers, head?_eq_some_iff, List.mem_singleton, exists_eq_left]
    split <;> simp_all
  all_goals exact absurd hk (by decide)

/-- A line that does not start with a hash says no language. -/
theorem language?_eq_none (h : ¬['#'] <+: l.trimmed) : l.language? = none := by
  have hdrop : Line.dropWord? ['#'] l.text.trim = none := by
    rw [Line.dropWord?, if_neg]
    rw [List.isPrefixOf_iff_prefix]
    intro hp
    exact h (hp.trans (Text.dropEndWhile_isPrefix isBlank l.trimmed))
  rw [Line.language?, hdrop]
  rfl

/-- Whether a line can be read in one way only, free text apart. -/
structure Only (r : Reading) (l : Line) (kind : TokenKind) (token : Token) : Prop where
  reads : r.token? l kind = .ok (some token)
  refuses : ∀ kind', kind' ≠ kind → kind' ≠ .other → r.token? l kind' = .ok none

/-- A line is refused as all kinds but one if only openers of that kind start it. -/
theorem Only.of_openers {kind : TokenKind} {token : Token} (hf : r.fence = none)
    (hreads : r.token? l kind = .ok (some token)) (hblank : kind ≠ .empty → l.trimmed ≠ [])
    (hcomment : ¬['#'] <+: l.trimmed)
    (h : ∀ kind' ∈ TokenKind.openable, kind' ≠ kind → ¬r.dialect.Opens kind' l.trimmed) :
    r.Only l kind token := by
  refine ⟨hreads, fun kind' hk hother => ?_⟩
  by_cases ho : kind' ∈ TokenKind.openable
  · exact (token?_eq_none_iff hf ho).mpr (h kind' ho hk)
  · cases kind' <;> first | exact absurd (by decide) ho | skip
    case eof => rfl
    case empty => simp [token?, hblank (Ne.symm hk)]
    case language => simp [token?, language?_eq_none hcomment]
    case other => exact absurd rfl hother

end Reading

/-- A line that starts with a mark can be read in one way. -/
theorem Dialect.Marks.only {r : Reading} {l : Line} {kind : TokenKind} {token : Token} {w : Text}
    (h : r.dialect.Marks kind w) (hw : w <+: l.trimmed) (hf : r.fence = none)
    (hk : kind ≠ .comment) (hreads : r.token? l kind = .ok (some token)) :
    r.Only l kind token := by
  refine .of_openers hf hreads (fun _ he => ?_) (fun hp => ?_) fun kind' _ hne => h.not_opens hw hne
  · rw [he, List.prefix_nil] at hw
    exact h.ne_nil hw
  · exact hk (h.eq_of_isPrefix hw r.dialect.mem_openers_comment hp).1.symm

end FeatureTree
