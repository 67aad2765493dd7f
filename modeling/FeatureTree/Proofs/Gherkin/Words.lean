import FeatureTree.Gherkin.Dialect.Choice
import FeatureTree.Proofs.Gherkin.Openers
import Mathlib.Data.List.Pairwise

/-!
# Words of dialects

A document can only be read back if its keywords can be told apart. `Dialect.Distinct` asks that of
what is not a word: tags, rows and the delimiters of doc strings. A word of a title or step is told
apart in its dialect if it is a mark together with the colon or blank behind it
(`Dialect.TitleWord`, `Dialect.StepWord`). All of that is checked by going through the table of
dialects; English has no word that could be taken for another.

## Main results

* `Dialect.fits_of_mem`: what is asked of the words of a dialect holds of all in the table
* `Dialect.distinct_of_mem`: no dialect has a word that looks like a tag, row or delimiter
* `Dialect.titleWord_of_mem`, `Dialect.stepStart_of_mem`: what the words of every dialect start
* `Dialect.titleWord_english`, `Dialect.stepWord_english`: every word of English is told apart
-/

namespace FeatureTree

namespace Text

/-- Whether two texts agree as far as both go. -/
def agrees : Text → Text → Bool
  | c :: t, c' :: t' => c = c' && agrees t t'
  | _, _ => true

variable {t t' : Text}

/-- Two texts agree just if one of them starts with the other. -/
theorem agrees_iff : agrees t t' = true ↔ t <+: t' ∨ t' <+: t := by
  induction t generalizing t' with
  | nil => simp [agrees]
  | cons c t ih =>
    cases t' with
    | nil => simp [agrees]
    | cons c' t' =>
      simp only [agrees, Bool.and_eq_true, decide_eq_true_eq, ih, List.cons_prefix_cons]
      constructor
      · rintro ⟨rfl, h⟩
        exact h.imp (⟨rfl, ·⟩) (⟨rfl, ·⟩)
      · rintro (⟨rfl, h⟩ | ⟨rfl, h⟩)
        · exact ⟨rfl, .inl h⟩
        · exact ⟨rfl, .inr h⟩

/-- Two texts do not agree just if neither starts with the other. -/
theorem agrees_eq_false_iff : agrees t t' = false ↔ ¬t <+: t' ∧ ¬t' <+: t := by
  rw [← not_or, ← agrees_iff, Bool.not_eq_true]

/-- Whether texts agree does not depend on their order. -/
theorem agrees_comm (t t' : Text) : agrees t t' = agrees t' t := by
  rw [Bool.eq_iff_iff, agrees_iff, agrees_iff, or_comm]

end Text

/-- The primary keywords with the titles that they start, those of rules apart. -/
def PrimaryKeywords.titled (k : PrimaryKeywords) : List (TokenKind × Text) :=
  [(.featureLine, k.feature), (.backgroundLine, k.background), (.scenarioLine, k.scenario),
    (.scenarioLine, k.outline), (.examplesLine, k.examples)]

namespace Dialect

variable {d : Dialect} {kind kind' : TokenKind} {w v : Text}

/-- Whether a word can stand before its colon or blank in a line and be found there again. -/
structure Fit (k : Text) : Prop where
  trimmed : k.Trimmed
  oneLine : k.OneLine
  ne_nil : k ≠ []

instance (k : Text) : Decidable (Fit k) :=
  decidable_of_iff (k.trim = k ∧ '\n' ∉ k ∧ k ≠ [])
    ⟨fun ⟨ht, ho, hn⟩ => ⟨ht, ho, hn⟩, fun ⟨ht, ho, hn⟩ => ⟨ht, ho, hn⟩⟩

/-- Whether tags, rows and delimiters are told apart from the words of a dialect, of which none goes
over the end of a line. -/
structure Distinct (d : Dialect) : Prop where
  tag : d.Marks .tagLine ['@']
  row : d.Marks .tableRow ['|']
  quotes : d.Marks .docStringSeparator quoteFence
  backticks : d.Marks .docStringSeparator backtickFence
  oneLine : ∀ kind, ∀ w ∈ d.openers kind, w.OneLine

/-- Whether a keyword of titles of a kind is told apart by its title line. -/
structure TitleWord (d : Dialect) (kind : TokenKind) (k : Text) : Prop extends Fit k where
  mark : d.Marks kind (k ++ [':'])

/-- Whether a keyword of steps, without the blank behind it, is told apart. -/
structure StepWord (d : Dialect) (k : Text) : Prop extends Fit k where
  mark : d.Marks .stepLine (k ++ [' '])

/-- Whether a line that starts with a keyword of steps, without the blank behind it, and a blank can
be nothing but a step. It may be the step of another keyword. -/
structure StepStart (d : Dialect) (k : Text) : Prop extends Fit k where
  starts : ∃ w ∈ d.stepKeywords, w <+: k ++ [' ']
  apart : ∀ kind ∈ TokenKind.openable, kind ≠ .stepLine → ∀ v ∈ d.openers kind,
    ¬v <+: k ++ [' '] ∧ ¬k ++ [' '] <+: v

/-- A keyword that is told apart starts steps. -/
theorem StepWord.stepStart {k : Text} (h : d.StepWord k) : d.StepStart k where
  toFit := h.toFit
  starts := ⟨k ++ [' '], h.mark.mem, List.prefix_refl _⟩
  apart kind _ hne v hv := by
    constructor
    · exact fun hp => hne (h.mark.eq_of_isPrefix (List.prefix_refl _) hv hp).1
    · intro hp
      refine hne (h.mark.2 kind (mem_openable_of_mem_openers hv) v hv ?_).1
      rw [Bool.or_eq_true, List.isPrefixOf_iff_prefix, List.isPrefixOf_iff_prefix]
      exact .inr hp

/-! ### The table of dialects -/

/-- Whether no opener of one kind agrees with one of another. -/
def Differ (d : Dialect) (kind kind' : TokenKind) : Prop :=
  ∀ w ∈ d.openers kind, ∀ v ∈ d.openers kind', Text.agrees w v = false

instance (d : Dialect) (kind kind' : TokenKind) : Decidable (d.Differ kind kind') := by
  unfold Differ
  exact inferInstance

instance (d : Dialect) : Std.Symm d.Differ :=
  ⟨fun _ _ h w hw v hv => (Text.agrees_comm w v).trans (h v hv w hw)⟩

/-- Whether no opener agrees with one of another kind, none but those of steps with another one of
its own kind, and the bullet with no other keyword; and no opener goes over the end of a line. -/
def Apart (d : Dialect) : Prop :=
  TokenKind.openable.Pairwise d.Differ
    ∧ (∀ kind ∈ TokenKind.openable, kind ≠ .stepLine →
      ∀ w ∈ d.openers kind, ∀ v ∈ d.openers kind, Text.agrees w v → v = w)
    ∧ (∀ v ∈ d.stepKeywords, Text.agrees ['*', ' '] v → v = ['*', ' '])
    ∧ ∀ kind ∈ TokenKind.openable, ∀ w ∈ d.openers kind, '\n' ∉ w

instance (d : Dialect) : Decidable d.Apart := by
  unfold Apart
  exact inferInstance

/-- Whether every keyword of steps is a word with one blank at its end or none, and, but for two
dialects, none goes on behind another one and a blank. -/
def StepsFit (d : Dialect) : Prop :=
  (∀ w ∈ d.stepKeywords, w.trim ≠ [] ∧ (w = w.trim ∨ w = w.trim ++ [' ']))
    ∧ (d.name = "fr".toList ∨ d.name = "en-old".toList
      ∨ ∀ w ∈ d.stepKeywords, ∀ k ∈ d.stepKeywords,
        (w.trim ++ [' ']).isPrefixOf k → k.length ≤ w.trim.length + 1)

instance (d : Dialect) : Decidable d.StepsFit := by
  unfold StepsFit
  exact inferInstance

/-- Whether every keyword of titles is a word without blanks at its ends, but for the rules of one
dialect. -/
def TitlesFit (d : Dialect) : Prop :=
  ∀ kind ∈ TokenKind.titles, ∀ k ∈ d.titleWords kind,
    k.trim ≠ [] ∧ (k.trim = k ∨ kind = .ruleLine ∧ d.name = "en-tx".toList)

instance (d : Dialect) : Decidable d.TitlesFit := by
  unfold TitlesFit
  exact inferInstance

/-- Whether the primary keywords are among the words of a dialect, those of scenarios and outlines
told apart. The bullet and the keyword of rules are missing in one dialect. -/
def PrimariesFit (d : Dialect) : Prop :=
  (∀ x ∈ d.primaryKeywords.titled,
      x.1 ∈ TokenKind.titles ∧ x.1 ≠ .ruleLine ∧ x.2 ∈ d.titleWords x.1)
    ∧ d.primaryKeywords.rule ≠ []
    ∧ (d.primaryKeywords.rule ∈ d.rule ↔ d.name ≠ "en-tx".toList)
    ∧ (d.name ≠ "en-tx".toList → ['*', ' '] ∈ d.stepKeywords)
    ∧ d.primaryKeywords.outline ∈ d.outlineKeywords
    ∧ d.primaryKeywords.scenario ∉ d.outlineKeywords

/-- The table of dialects, gone through once: what is asked of a dialect holds of all of them. -/
theorem fits_of_mem (hd : d ∈ all) : d.Apart ∧ d.StepsFit ∧ d.TitlesFit ∧ d.PrimariesFit := by
  revert d
  unfold PrimariesFit
  decide +kernel

namespace Apart

/-- Openers that agree are of one kind. -/
theorem kind_eq (h : d.Apart) (hw : w ∈ d.openers kind) (hv : v ∈ d.openers kind')
    (hagrees : Text.agrees w v = true) : kind' = kind := by
  by_contra hne
  have hdiffer : d.Differ kind kind' := h.1.forall (mem_openable_of_mem_openers hw)
    (mem_openable_of_mem_openers hv) (Ne.symm hne)
  rw [hdiffer w hw v hv] at hagrees
  cases hagrees

/-- An opener that agrees with no other one of its kind is a mark. -/
theorem marks_of_alone (h : d.Apart) (hw : w ∈ d.openers kind)
    (halone : ∀ v ∈ d.openers kind, Text.agrees w v → v = w) : d.Marks kind w := by
  refine ⟨hw, fun kind' _ v hv hp => ?_⟩
  have hagrees : Text.agrees w v = true := by
    rw [Text.agrees_iff, ← List.isPrefixOf_iff_prefix, ← List.isPrefixOf_iff_prefix, or_comm]
    exact Bool.or_eq_true_iff.mp hp
  obtain rfl := h.kind_eq hw hv hagrees
  exact ⟨rfl, halone v hv hagrees⟩

/-- Every opener of another kind than that of steps is a mark. -/
theorem marks (h : d.Apart) (hw : w ∈ d.openers kind) (hkind : kind ≠ .stepLine) :
    d.Marks kind w :=
  h.marks_of_alone hw (h.2.1 kind (mem_openable_of_mem_openers hw) hkind w hw)

/-- The bullet is a mark of steps where it is a keyword. -/
theorem marks_bullet (h : d.Apart) (hw : ['*', ' '] ∈ d.stepKeywords) :
    d.Marks .stepLine ['*', ' '] :=
  h.marks_of_alone hw h.2.2.1

/-- No opener goes over the end of a line. -/
theorem oneLine (h : d.Apart) (hw : w ∈ d.openers kind) : w.OneLine :=
  h.2.2.2 kind (mem_openable_of_mem_openers hw) w hw

end Apart

/-- No dialect has a word that looks like a tag, a row or a delimiter. -/
theorem distinct_of_mem (hd : d ∈ all) : d.Distinct := by
  obtain ⟨hapart, -⟩ := fits_of_mem hd
  exact {
    tag := hapart.marks (List.mem_singleton_self _) (by decide)
    row := hapart.marks (List.mem_singleton_self _) (by decide)
    quotes := hapart.marks (List.mem_cons_self ..) (by decide)
    backticks := hapart.marks (List.mem_cons_of_mem _ (List.mem_singleton_self _)) (by decide)
    oneLine := fun _ _ hw => hapart.oneLine hw }

/-- A keyword of steps is a word with one blank at its end or none. -/
theorem eq_trim_or_of_mem (hd : d ∈ all) (hw : w ∈ d.stepKeywords) :
    w = w.trim ∨ w = w.trim ++ [' '] := ((fits_of_mem hd).2.1.1 w hw).2

/-- In every dialect, a line that starts like the line of a step is one. -/
theorem stepStart_of_mem (hd : d ∈ all) (hw : w ∈ d.stepKeywords) : d.StepStart w.trim := by
  obtain ⟨hapart, hsteps, -⟩ := fits_of_mem hd
  have hbegins : w <+: w.trim ++ [' '] := by
    rcases eq_trim_or_of_mem hd hw with he | he
    · rw [← he]
      exact List.prefix_append w _
    · exact he ▸ List.prefix_refl _
  have hone : w.trim.OneLine := by
    have hone : w.OneLine := hapart.oneLine (show w ∈ d.openers .stepLine from hw)
    rcases eq_trim_or_of_mem hd hw with he | he
    · rwa [← he]
    · rw [he] at hone
      exact fun hmem => hone (List.mem_append_left _ hmem)
  refine ⟨⟨Text.trimmed_trim w, hone, (hsteps.1 w hw).1⟩, ⟨w, hw, hbegins⟩,
    fun kind _ hne v hv => ?_⟩
  -- the keyword itself would agree with whatever the keyword and a blank agree with
  have hnot : Text.agrees w v = false := by
    by_contra hagrees
    exact hne (hapart.kind_eq hw hv (by simpa using hagrees))
  rw [Text.agrees_eq_false_iff] at hnot
  refine ⟨fun hp => ?_, fun hp => hnot.1 (hbegins.trans hp)⟩
  exact (List.prefix_or_prefix_of_prefix hbegins hp).elim hnot.1 hnot.2

/-- In every dialect, the keywords of titles are told apart, but for the rules of one dialect, whose
keyword ends in a blank. -/
theorem titleWord_of_mem (hd : d ∈ all) (hkind : kind ∈ TokenKind.titles) {k : Text}
    (h : k ∈ d.titleWords kind) (hrule : kind ≠ .ruleLine ∨ d.name ≠ "en-tx".toList) :
    d.TitleWord kind k := by
  obtain ⟨hapart, -, htitles, -⟩ := fits_of_mem hd
  obtain ⟨hne, htrim⟩ := htitles kind hkind k h
  have htrim : k.trim = k := htrim.resolve_right fun ⟨hk, hname⟩ =>
    hrule.elim (absurd hk) (absurd hname)
  have hmem : k ++ [':'] ∈ d.openers kind := by
    rw [openers_of_mem_titles hkind]
    exact List.mem_map_of_mem h
  have hmark : d.Marks kind (k ++ [':']) := hapart.marks hmem (by rintro rfl; revert hkind; decide)
  exact ⟨⟨htrim, fun hm => hapart.oneLine hmem (List.mem_append_left _ hm), htrim ▸ hne⟩, hmark⟩

/-- In every dialect, the primary keywords of titles are told apart, those of rules apart. -/
theorem titleWord_of_mem_titled (hd : d ∈ all) (h : (kind, w) ∈ d.primaryKeywords.titled) :
    d.TitleWord kind w := by
  obtain ⟨-, -, -, htitled, -⟩ := fits_of_mem hd
  obtain ⟨hkind, hne, hmem⟩ := htitled _ h
  exact titleWord_of_mem hd hkind hmem (.inl hne)

/-! ### English -/

/-- English is in the table of dialects. -/
theorem english_mem : english ∈ all := by
  rw [english, all, List.headD_cons]
  exact List.mem_cons_self

/-- Every opener of English is a mark. -/
theorem marks_english (hw : w ∈ english.openers kind) : english.Marks kind w := by
  obtain ⟨hapart, -⟩ := fits_of_mem english_mem
  by_cases hstep : kind = .stepLine
  · subst hstep
    have halone : ∀ w ∈ english.stepKeywords, ∀ v ∈ english.stepKeywords,
        Text.agrees w v → v = w := by decide
    exact hapart.marks_of_alone hw (halone w hw)
  · exact hapart.marks hw hstep

/-- Every title keyword of English is told apart. -/
theorem titleWord_english (hkind : kind ∈ TokenKind.titles) {k : Text}
    (h : k ∈ english.titleWords kind) : english.TitleWord kind k :=
  titleWord_of_mem english_mem hkind h (.inr (by decide))

/-- Every step keyword of English is a word and a blank, and is told apart. -/
theorem stepWord_english (h : w ∈ english.stepKeywords) :
    w = w.trim ++ [' '] ∧ english.StepWord w.trim := by
  have key : ∀ w ∈ english.stepKeywords, w = w.trim ++ [' '] := by
    decide
  refine ⟨key w h, (stepStart_of_mem english_mem h).toFit, marks_english ?_⟩
  rw [← key w h]
  exact h

end Dialect

end FeatureTree
