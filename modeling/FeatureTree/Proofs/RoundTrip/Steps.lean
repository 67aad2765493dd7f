import FeatureTree.Proofs.RoundTrip.Sources
import FeatureTree.Proofs.RoundTrip.Tables

/-!
# Steps that are read, written and read again

A step loses the blank behind its keyword when it is read, and is written with one blank there. So
the keyword is found again unless another one goes on behind that blank and with the text of the
step; then the longer one takes over, and a part of the text with it. Only two dialects have such a
keyword.

## Main results

* `Plain.Step.keeps_iff`: when a step comes back with its keyword and text
* `Node.step_reread`: what comes back of a step that was read, in every dialect
-/

namespace FeatureTree

open Ast (Document)

/-! ### Keywords that go on behind another one -/

namespace Dialect

variable {d : Dialect} {t k w : Text}

/-- The longest of some keywords is as long as each of them. -/
theorem length_le_foldl_longer (ks : List Text) (k : Text) :
    ∀ w ∈ k :: ks, w.length ≤ (ks.foldl longer k).length := by
  induction ks generalizing k with
  | nil =>
    intro w hw
    rw [List.mem_singleton.mp hw]
    exact Nat.le_refl _
  | cons a ks ih =>
    intro w hw
    have hk : k.length ≤ (longer k a).length := by rw [longer]; split <;> omega
    have ha : a.length ≤ (longer k a).length := by rw [longer]; split <;> omega
    have hfirst := ih (longer k a) _ List.mem_cons_self
    rw [List.foldl_cons]
    rcases List.mem_cons.mp hw with rfl | hw
    · exact Nat.le_trans hk hfirst
    · rcases List.mem_cons.mp hw with rfl | hw
      · exact Nat.le_trans ha hfirst
      · exact ih _ w (List.mem_cons_of_mem _ hw)

/-- The keyword that is found for a step is the longest one that starts its line. -/
theorem length_le_of_stepKeywordOf? (h : d.stepKeywordOf? t = some k) (hw : w ∈ d.stepKeywords)
    (hp : w <+: t) : w.length ≤ k.length := by
  have hmem : w ∈ d.stepKeywords.filter (·.isPrefixOf t) := by
    simpa [List.isPrefixOf_iff_prefix] using And.intro hw hp
  rw [stepKeywordOf?] at h
  split at h
  · next hnil =>
    rw [hnil] at hmem
    cases hmem
  · next k₀ ks heq =>
    obtain rfl := Option.some.inj h
    exact length_le_foldl_longer ks k₀ w (heq ▸ hmem)

end Dialect

namespace Plain

variable {d : Dialect}

/-- Whether no keyword of steps goes on behind the keyword of a step and a blank with the text of
the step. -/
def Step.Keeps (d : Dialect) (s : Step) : Prop :=
  ∀ k ∈ d.stepKeywords, k <+: s.keyword ++ ' ' :: s.text → k.length ≤ s.keyword.length + 1

/-- The line of a step starts with a keyword, and the one that is found there is the keyword of the
step or goes on behind it. -/
theorem Step.exists_stepKeywordOf? (hd : d ∈ Dialect.all) {s : Step}
    (hkeyword : ∃ w ∈ d.stepKeywords, w.trim = s.keyword) :
    ∃ v ∈ d.stepKeywords, d.stepKeywordOf? (s.keyword ++ ' ' :: s.text) = some v
      ∧ s.keyword <+: v ∧ v <+: s.keyword ++ ' ' :: s.text := by
  obtain ⟨w, hw, hwtrim⟩ := hkeyword
  have hbegins : s.keyword <+: w ∧ w <+: s.keyword ++ ' ' :: s.text := by
    rcases Dialect.eq_trim_or_of_mem hd hw with he | he <;> rw [hwtrim] at he <;> rw [he]
    · exact ⟨List.prefix_refl _, List.prefix_append _ _⟩
    · exact ⟨List.prefix_append _ _, ⟨s.text, by simp⟩⟩
  obtain ⟨v, hv⟩ : ∃ v, d.stepKeywordOf? (s.keyword ++ ' ' :: s.text) = some v := by
    refine Option.ne_none_iff_exists'.mp fun hnone => ?_
    exact Reading.stepKeywordOf?_eq_none_iff.mp hnone w hw hbegins.2
  obtain ⟨hmem, hprefix⟩ := Dialect.mem_of_stepKeywordOf? hv
  have hprefix : v <+: s.keyword ++ ' ' :: s.text := List.isPrefixOf_iff_prefix.mp hprefix
  have hlength := Dialect.length_le_of_stepKeywordOf? hv hw hbegins.2
  exact ⟨v, hmem, hv,
    hbegins.1.trans (List.prefix_of_prefix_length_le hbegins.2 hprefix hlength), hprefix⟩

/-- A step with a keyword of the dialect comes back with its keyword and text exactly if no longer
keyword goes on behind that. -/
theorem Step.keeps_iff (hd : d ∈ Dialect.all) {s : Step}
    (hkeyword : ∃ w ∈ d.stepKeywords, w.trim = s.keyword) (htext : s.text.Trimmed) :
    ((s.reread d).keyword = s.keyword ∧ (s.reread d).text = s.text) ↔ s.Keeps d := by
  obtain ⟨v, hmem, hv, houtside, hprefix⟩ := Step.exists_stepKeywordOf? hd hkeyword
  have hreread : (s.reread d).keyword = v.trim
      ∧ (s.reread d).text = Text.trim ((s.keyword ++ ' ' :: s.text).drop v.length) := by
    simp [reread, hv]
  rw [hreread.1, hreread.2]
  constructor
  · rintro ⟨hsame, -⟩ k hk hp
    have hlongest := Dialect.length_le_of_stepKeywordOf? hv hk hp
    have hlength : v.length ≤ s.keyword.length + 1 := by
      rcases Dialect.eq_trim_or_of_mem hd hmem with he | he <;>
        rw [hsame] at he <;> rw [he]
      · omega
      · simp
    omega
  · intro hkeeps
    have hline : s.keyword ++ ' ' :: s.text = (s.keyword ++ [' ']) ++ s.text := by simp
    have hlength : v.length ≤ (s.keyword ++ [' ']).length := by
      simpa using hkeeps v hmem hprefix
    have hinside : v <+: s.keyword ++ [' '] :=
      List.prefix_of_prefix_length_le hprefix (hline ▸ List.prefix_append _ _) hlength
    have htrimmed : s.keyword.Trimmed := by
      obtain ⟨w, -, hw⟩ := hkeyword
      exact hw ▸ Text.trimmed_trim w
    -- the keyword that is found is the one of the step, with the blank behind it or without
    rcases List.prefix_concat_iff.mp hinside with rfl | hinside
    · refine ⟨Text.trim_append_of_blank htrimmed (by simp), ?_⟩
      rw [hline, List.drop_left]
      exact htext
    · obtain rfl : v = s.keyword := hinside.eq_of_length_le houtside.length_le
      refine ⟨htrimmed, ?_⟩
      rw [List.drop_left]
      have hpad : Text.trim ([' '] ++ s.text ++ []) = s.text :=
        Text.trim_pad (by simp) htext (by simp)
      simpa using hpad

/-- Steps with the same node have the same keyword and the same text. -/
theorem Step.eq_of_node_eq {s s' : Step} (h : s.node = s'.node) :
    s.keyword = s'.keyword ∧ s.text = s'.text := by
  simp only [node, Node.mk.injEq, Shape.step.injEq, Value.text.injEq] at h
  exact ⟨h.2.1, h.2.2.1⟩

/-- In all dialects but two, every step comes back with its keyword and text. -/
theorem Step.keeps_of_name_ne (hd : d ∈ Dialect.all) (hfrench : d.name ≠ "fr".toList)
    (hold : d.name ≠ "en-old".toList) {s : Step}
    (hkeyword : ∃ w ∈ d.stepKeywords, w.trim = s.keyword) : s.Keeps d := by
  obtain ⟨w, hw, hwtrim⟩ := hkeyword
  obtain ⟨-, ⟨-, hfits⟩, -⟩ := Dialect.fits_of_mem hd
  have hshort := (hfits.resolve_left hfrench).resolve_left hold w hw
  rw [hwtrim] at hshort
  intro k hk hp
  by_contra hlonger
  refine hlonger (hshort k hk (List.isPrefixOf_iff_prefix.mpr ?_))
  refine List.prefix_of_prefix_length_le ⟨s.text, by simp⟩ hp ?_
  simpa using Nat.le_of_lt (Nat.not_le.mp hlonger)

end Plain

/-! ### The first step of a document -/

namespace Node

variable {d : Dialect} {document : Document} {source : Text} {r : Record} {n : Node}

/-- The first step of a document is one of a background or scenario, so it obeys what the document
obeys. -/
theorem exists_step_of_firstSection?
    (h : (Fragment.firstSection? document.record).bind (·.steps.head?) = some r) :
    document.feature.isSome = true
      ∧ ∃ x : Ast.Step, r = x.record ∧ ∀ law : Ast.Law, document.Obeys law → law.step x := by
  obtain ⟨y, hy, hr⟩ := Option.bind_eq_some_iff.mp h
  obtain ⟨q, hq, hy⟩ := Option.bind_eq_some_iff.mp hy
  obtain ⟨f, hf, rfl⟩ := Option.map_eq_some_iff.mp hq
  have hr := List.mem_of_mem_head? (Option.mem_def.mpr hr)
  have hy := List.mem_of_mem_head? (Option.mem_def.mpr hy)
  refine ⟨by rw [hf]; rfl, ?_⟩
  -- rules have no steps of their own
  rcases List.mem_append.mp hy with hy | hy
  · rcases List.mem_append.mp hy with hy | hy
    · obtain ⟨b, hb, rfl⟩ : ∃ b ∈ f.body.background, b.record = y := by simpa using hy
      obtain ⟨x, hx, rfl⟩ := List.mem_map.mp hr
      exact ⟨x, rfl, fun law hlaw => ((hlaw f hf).body.background b hb).steps x hx⟩
    · obtain ⟨s, hs, rfl⟩ := List.mem_map.mp hy
      obtain ⟨x, hx, rfl⟩ := List.mem_map.mp hr
      exact ⟨x, rfl, fun law hlaw => ((hlaw f hf).body.scenarios s hs).steps x hx⟩
  · obtain ⟨b, -, rfl⟩ := List.mem_map.mp hy
    simp [Ast.Rule.record, Ast.Heading.record] at hr

/-- The first step of what is read inside a feature in a dialect is legible in that dialect. -/
theorem exists_legible_step (hd : d ∈ Dialect.all)
    (hparse : Document.parse d (Fragment.inFeature d.primaryKeywords source) = .ok document)
    (h : (Fragment.firstSection? document.record).bind (·.steps.head?) = some r) :
    ∃ x : Ast.Step, r = x.record ∧ x.keyword ∈ d.stepKeywords ∧ x.plain.Legible d := by
  obtain ⟨hfeature, x, hx, hobeys⟩ := exists_step_of_firstSection? h
  obtain ⟨hlaw, htables⟩ := Document.sound_of_parse_inFeature hd hparse hfeature
  exact ⟨x, hx, (hobeys _ hlaw).1, Ast.Step.legible_plain hd (hobeys _ hlaw) (hobeys _ htables)⟩

section

variable (hd : d ∈ Dialect.all) {default dialect : Value}
  (hdialect : Dialect.nameOr default dialect = .text d.name)

include hd hdialect

/-- A step that is read says what a legible step says. -/
theorem exists_legible_step_of_read {path : Text}
    (h : read default dialect path source .step = .ok n) :
    ∃ p : Plain.Step, n.bare = p.node ∧ (∃ w ∈ d.stepKeywords, w.trim = p.keyword)
      ∧ p.Legible d := by
  rw [← read_nameOr, hdialect] at h
  obtain ⟨document, r, hparse, hselect, hn⟩ := exists_parse_of_readPart_in hd h
  obtain ⟨x, hr, hkeyword, hlegible⟩ := exists_legible_step hd hparse hselect
  exact ⟨x.plain, by rw [bare_of_build hn, hr, Ast.Step.bare_ofRecord], ⟨x.keyword, hkeyword, rfl⟩,
    hlegible⟩

/-- A step that was read is written and read again, in every dialect. It comes back with its keyword
and text exactly if no longer keyword goes on behind that, as it is in all dialects but two. -/
theorem step_reread {path : Text} (hread : read default dialect path source .step = .ok n)
    (fallback : Value) :
    ∃ (p : Plain.Step) (t : Text) (m : Node), n.bare = p.node ∧ n.text fallback = .ok t
      ∧ read default dialect path t .step = .ok m ∧ m.bare = (p.reread d).node
      ∧ (((p.reread d).keyword = p.keyword ∧ (p.reread d).text = p.text) ↔ p.Keeps d)
      ∧ (d.name ≠ "fr".toList → d.name ≠ "en-old".toList → p.Keeps d) := by
  obtain ⟨p, hbare, hkeyword, hlegible⟩ := exists_legible_step_of_read hd hdialect hread
  obtain ⟨m, hm, hmbare⟩ := Plain.Step.isReadBack_reread hd default hlegible
  have hlines : n.lines fallback = .ok (p.lines.map .text) :=
    hlegible.withKeyword_eq ▸ p.shows_of_bare fallback hbare
  refine ⟨p, _, m, hbare, text_of_lines hlines, ?_, hmbare,
    Plain.Step.keeps_iff hd hkeyword hlegible.text_trimmed,
    fun hfrench hold => Plain.Step.keeps_of_name_ne hd hfrench hold hkeyword⟩
  rw [← read_nameOr, hdialect]
  exact hm

end

/-- A step in French whose text begins with the rest of another keyword. -/
def frenchAnd : Ast.Step where
  loc := ⟨3, 1⟩
  keyword := "Et ".toList
  role := .conjunction
  text := "que a".toList
  table := []
  docString := none

/-- A French step with two spaces behind a keyword that is the start of another one. -/
theorem parse_frenchAnd : ∀ d ∈ Dialect.ofName? "fr".toList, "Et que ".toList ∈ d.stepKeywords
    ∧ Document.parse d (Fragment.wrap d.primaryKeywords "Et  que a".toList .step)
      = .ok (Plain.framed d ⟨1, 1⟩ []
        ⟨none, [⟨.ofTitle ⟨2, 1⟩ ⟨d.primaryKeywords.scenario, []⟩, [], [frenchAnd], []⟩]⟩) := by
  decide +kernel

/-- Read in French, the step is written with the longer keyword, and comes back as another one. -/
theorem step_reread_french :
    ∃ (n : Node) (t : Text) (m : Node),
      read .null (.text "fr".toList) [] "Et  que a".toList .step = .ok n
      ∧ n.bare = (Plain.Step.mk "Et".toList "que a".toList none).node ∧ n.text .null = .ok t
      ∧ read .null (.text "fr".toList) [] t .step = .ok m ∧ m.bare ≠ n.bare := by
  obtain ⟨d, hd⟩ : ∃ d, Dialect.ofName? "fr".toList = some d := by
    rw [← Option.isSome_iff_exists]
    decide
  have hmem : d ∈ Dialect.all := List.mem_of_find?_eq_some hd
  have hname : d.name = "fr".toList := by simpa using List.find?_some hd
  obtain ⟨hkeyword, hparse⟩ := parse_frenchAnd d hd
  have hselect : (Fragment.firstSection? (Plain.framed d ⟨1, 1⟩ [] ⟨none,
      [⟨.ofTitle ⟨2, 1⟩ ⟨d.primaryKeywords.scenario, []⟩, [], [frenchAnd], []⟩]⟩).record).bind
      (·.steps.head?) = some frenchAnd.record := Plain.firstSection?_step hmem _ _ _
  obtain ⟨n, hn, hbare⟩ := readPart_of_parse_in hmem .null hparse hselect frenchAnd.isSound_record
    (frenchAnd.bare_ofRecord none) rfl
  have hdialect : Dialect.nameOr .null (.text d.name) = .text d.name := by rw [hname]; rfl
  have hread : read .null (.text d.name) [] "Et  que a".toList .step = .ok n := hn
  obtain ⟨p, t, m, hpbare, ht, hm, hmbare, hiff, -⟩ := step_reread hmem hdialect hread .null
  obtain ⟨hkeyword', htext'⟩ := Plain.Step.eq_of_node_eq (hpbare.symm.trans hbare)
  rw [← hname]
  refine ⟨n, t, m, hread, hbare, ht, hm, fun hback => ?_⟩
  have hkeeps := hiff.mp (Plain.Step.eq_of_node_eq (hmbare.symm.trans (hback.trans hpbare)))
  have hlength := hkeeps _ hkeyword (by rw [hkeyword', htext']; decide)
  rw [hkeyword'] at hlength
  revert hlength
  decide

end Node

end FeatureTree
