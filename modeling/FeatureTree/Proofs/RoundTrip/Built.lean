import FeatureTree.Proofs.RoundTrip.File
import FeatureTree.Proofs.Store.Keywords

/-!
# Files that are built and read back

A file that is built leaves out keywords. It is written with the bullet before its steps and with
the primary keywords of its language, behind a line that names the language, and is read back from
that as the same file with these keywords. Both have to be words of the language: a language without
the bullet cannot take steps that have no keyword, and one whose word for a rule ends in a blank,
which the primary keyword has lost, cannot take rules.

## Main results

* `Dialect.speaks_of_mem`: primary keywords are told apart in every dialect
* `Dialect.bullet_mem_stepKeywords`: all dialects but one have the words that are needed
* `Plain.Feature.Built.fit`: a feature that was built is fit once it has its keywords
* `Store.text_of_file`: the text of a file in a store
* `Store.exists_readFile_text`: a file that was built is read back from its text
-/

namespace FeatureTree

/-! ### Primary keywords -/

namespace Dialect

variable {d : Dialect}

/-- Whether what stands for missing keywords is told apart, as far as it is taken from the words of
a dialect. -/
structure Speaks (d : Dialect) : Prop where
  titled : ∀ {kind w}, (kind, w) ∈ d.primaryKeywords.titled → d.TitleWord kind w
  rule_ne_nil : d.primaryKeywords.rule ≠ []
  rule : d.primaryKeywords.rule ∈ d.rule → d.TitleWord .ruleLine d.primaryKeywords.rule
  bullet : ['*', ' '] ∈ d.stepKeywords → d.StepWord ['*']
  outline : d.primaryKeywords.outline ∈ d.outlineKeywords
  scenario : d.primaryKeywords.scenario ∉ d.outlineKeywords

/-- In every dialect, what stands for missing keywords is told apart where it is a word. -/
theorem speaks_of_mem (hd : d ∈ all) : d.Speaks := by
  obtain ⟨hapart, -, -, -, hne, hrule, -, houtline, hscenario⟩ := fits_of_mem hd
  exact {
    titled := titleWord_of_mem_titled hd
    rule_ne_nil := hne
    rule := fun h => titleWord_of_mem hd (by decide) h (.inr (hrule.mp h))
    bullet := fun h => ⟨by decide, hapart.marks_bullet h⟩
    outline := houtline
    scenario := hscenario }

/-- All dialects but one have the bullet, and the primary keyword of rules among their words. -/
theorem bullet_mem_stepKeywords (hd : d ∈ all) (h : d.name ≠ "en-tx".toList) :
    ['*', ' '] ∈ d.stepKeywords ∧ d.primaryKeywords.rule ∈ d.rule := by
  obtain ⟨-, -, -, -, -, hrule, hbullet, -⟩ := fits_of_mem hd
  exact ⟨hbullet h, hrule.mpr h⟩

/-- No primary keyword is empty. -/
theorem Speaks.primary_ne_nil (h : d.Speaks) (kind : Kind) {w : Text}
    (hw : d.primaryKeywords.ofKind? kind = some w) : w ≠ [] := by
  have htitled : ∀ x ∈ d.primaryKeywords.titled, x.2 ≠ [] := fun _ hx => (h.titled hx).ne_nil
  simp only [PrimaryKeywords.titled, List.forall_mem_cons] at htitled
  obtain ⟨hfeature, hbackground, hscenario, houtline, hexamples, -⟩ := htitled
  cases kind <;> cases hw
  case feature => exact hfeature
  case background => exact hbackground
  case scenario => exact hscenario
  case outline => exact houtline
  case «example» => exact hexamples
  case rule => exact h.rule_ne_nil

end Dialect

/-! ### Documents without keywords -/

namespace Plain

variable {d : Dialect} {kind : TokenKind}

/-- A title that was built: it has no keyword and no description, and its name is a trimmed line. -/
structure Heading.Built (h : Heading) : Prop where
  keyword : h.keyword = []
  description : h.description = []
  name_trimmed : h.name.Trimmed
  name_oneLine : h.name.OneLine

structure Step.Built (s : Step) : Prop where
  keyword : s.keyword = []
  text_trimmed : s.text.Trimmed
  text_oneLine : s.text.OneLine
  block : ∀ b ∈ s.block, b.Fit

structure Background.Built (b : Background) : Prop where
  heading : b.heading.Built
  steps : ∀ s ∈ b.steps, s.Built

structure Examples.Built (e : Examples) : Prop where
  heading : e.heading.Built
  tags : ∀ t ∈ e.tags, IsTag t
  grid : Grid e.rows

structure Scenario.Built (s : Scenario) : Prop where
  heading : s.heading.Built
  tags : ∀ t ∈ s.tags, IsTag t
  steps : ∀ t ∈ s.steps, t.Built
  examples : ∀ e ∈ s.examples.getD [], e.Built

structure Body.Built (b : Body) : Prop where
  background : ∀ x ∈ b.background, x.Built
  scenarios : ∀ x ∈ b.scenarios, x.Built

structure Rule.Built (r : Rule) : Prop where
  heading : r.heading.Built
  tags : ∀ t ∈ r.tags, IsTag t
  body : r.body.Built

structure Feature.Built (f : Feature) : Prop where
  heading : f.heading.Built
  tags : ∀ t ∈ f.tags, IsTag t
  body : f.body.Built
  rules : ∀ r ∈ f.rules, r.Built

/-- The steps of all sections. -/
def Body.steps (b : Body) : List Step :=
  (b.background.toList.flatMap Background.steps) ++ b.scenarios.flatMap Scenario.steps

/-- The steps of all sections of a feature and of its rules. -/
def Feature.steps (f : Feature) : List Step :=
  f.body.steps ++ f.rules.flatMap fun r => r.body.steps

/-- A heading that was built fits once it has a keyword. -/
theorem Heading.Built.fit {h : Heading} (hd : d.Distinct) {w : Text} (hw : d.TitleWord kind w)
    (hb : h.Built) : (h.withKeyword w).Fit d kind := by
  obtain ⟨keyword, name, description⟩ := h
  obtain ⟨rfl, rfl, htrimmed, honeLine⟩ := hb
  refine ⟨hw, htrimmed, honeLine, rfl, fun l hl => ?_⟩
  obtain rfl := List.mem_singleton.mp hl
  exact free_nil hd kind

/-- A step that was built fits once it has a keyword, where stars are step keywords. -/
theorem Step.Built.fit {s : Step} (hw : d.StepWord ['*']) (hb : s.Built) : s.withKeyword.Fit d := by
  obtain ⟨keyword, text, block⟩ := s
  obtain ⟨rfl, htrimmed, honeLine, hblock⟩ := hb
  exact ⟨hw, htrimmed, honeLine, hblock⟩

/-- Steps that were built fit once they have keywords. -/
theorem Step.Built.fit_all {steps : List Step} (hw : ∀ s ∈ steps, d.StepWord ['*'])
    (hb : ∀ s ∈ steps, s.Built) : ∀ s ∈ steps.map Step.withKeyword, s.Fit d :=
  List.forall_mem_map.mpr fun s hs => (hb s hs).fit (hw s hs)

/-- A background that was built fits once it has keywords. -/
theorem Background.Built.fit {b : Background} (hd : d ∈ Dialect.all)
    (hw : ∀ s ∈ b.steps, d.StepWord ['*']) (hb : b.Built) :
    (b.withKeywords d.primaryKeywords).Fit d where
  heading := hb.heading.fit (Dialect.distinct_of_mem hd)
    ((Dialect.speaks_of_mem hd).titled (by simp [PrimaryKeywords.titled]))
  steps := Step.Built.fit_all hw hb.steps

/-- Examples that were built fit once they have a keyword. -/
theorem Examples.Built.fit {e : Examples} (hd : d ∈ Dialect.all) (hb : e.Built) :
    (e.withKeywords d.primaryKeywords).Fit d where
  heading := hb.heading.fit (Dialect.distinct_of_mem hd)
    ((Dialect.speaks_of_mem hd).titled (by simp [PrimaryKeywords.titled]))
  tags := hb.tags
  grid := hb.grid

/-- An outline gets a keyword of outlines, whether it has examples or not, and a scenario does
not. -/
theorem Scenario.Built.fit {s : Scenario} (hd : d ∈ Dialect.all)
    (hw : ∀ t ∈ s.steps, d.StepWord ['*']) (hb : s.Built) :
    (s.withKeywords d.primaryKeywords).Fit d where
  heading := by
    refine hb.heading.fit (Dialect.distinct_of_mem hd) ((Dialect.speaks_of_mem hd).titled ?_)
    split <;> simp [PrimaryKeywords.titled]
  tags := hb.tags
  steps := Step.Built.fit_all hw hb.steps
  examples := by
    intro e he
    obtain ⟨heading, tags, steps, examples⟩ := s
    cases examples with
    | none => cases he
    | some es =>
      obtain ⟨e, hmem, rfl⟩ := List.mem_map.mp he
      exact (hb.examples e hmem).fit hd
  agrees := by
    have houtline := (Dialect.speaks_of_mem hd).outline
    have hscenario := (Dialect.speaks_of_mem hd).scenario
    obtain ⟨⟨keyword, name, description⟩, tags, steps, examples⟩ := s
    obtain rfl := hb.heading.keyword
    cases examples <;> simp [Scenario.Agrees, Scenario.withKeywords, Heading.withKeyword, houtline,
      hscenario]

/-- A body that was built fits once it has keywords. -/
theorem Body.Built.fit {b : Body} (hd : d ∈ Dialect.all) (hw : ∀ s ∈ b.steps, d.StepWord ['*'])
    (hb : b.Built) : (b.withKeywords d.primaryKeywords).Fit d where
  background := by
    intro x hx
    obtain ⟨y, hy, rfl⟩ := Option.map_eq_some_iff.mp hx
    refine (hb.background y hy).fit hd fun s hs => hw s (List.mem_append_left _ ?_)
    exact List.mem_flatMap.mpr ⟨y, by simp [hy], hs⟩
  scenarios := by
    refine List.forall_mem_map.mpr fun x hx => (hb.scenarios x hx).fit hd fun s hs => hw s ?_
    exact List.mem_append_right _ (List.mem_flatMap.mpr ⟨x, hx, hs⟩)

/-- A rule that was built fits once it has keywords, where they are told apart. -/
theorem Rule.Built.fit {r : Rule} (hd : d ∈ Dialect.all)
    (hrule : d.TitleWord .ruleLine d.primaryKeywords.rule)
    (hw : ∀ s ∈ r.body.steps, d.StepWord ['*']) (hb : r.Built) :
    (r.withKeywords d.primaryKeywords).Fit d where
  heading := hb.heading.fit (Dialect.distinct_of_mem hd) hrule
  tags := hb.tags
  body := hb.body.fit hd hw

/-- A feature that was built is fit once it has the keywords of its language, if these are words of
the language. -/
theorem Feature.Built.fit {f : Feature} (hd : d ∈ Dialect.all) (hlanguage : f.language = d.name)
    (hbullet : f.steps = [] ∨ ['*', ' '] ∈ d.stepKeywords)
    (hrule : f.rules = [] ∨ d.primaryKeywords.rule ∈ d.rule) (hb : f.Built) :
    (f.withKeywords d.primaryKeywords).Fit d := by
  have hw : ∀ s ∈ f.steps, d.StepWord ['*'] := by
    rcases hbullet with h | h
    · simp [h]
    · exact fun _ _ => (Dialect.speaks_of_mem hd).bullet h
  refine ⟨?_, hb.tags, hlanguage, ?_, List.forall_mem_map.mpr fun r hr => ?_⟩
  · exact hb.heading.fit (Dialect.distinct_of_mem hd)
      ((Dialect.speaks_of_mem hd).titled (by simp [PrimaryKeywords.titled]))
  · exact hb.body.fit hd fun s hs => hw s (List.mem_append_left _ hs)
  · refine (hb.rules r hr).fit hd ?_ fun s hs => hw s ?_
    · rcases hrule with h | h
      · rw [h] at hr
        cases hr
      · exact (Dialect.speaks_of_mem hd).rule h
    · exact List.mem_append_right _ (List.mem_flatMap.mpr ⟨r, hr, hs⟩)

end Plain

/-! ### Files in a store -/

namespace Store

variable {s : Store} {i : NodeId} {n : Node} {d : Dialect} {path : Value} {f : Plain.Feature}

/-- The text of a file whose feature is legible with the keywords of its language. -/
theorem text_of_legible_file {k : PrimaryKeywords}
    (hk : Dialect.keywordsFor s.dialect (.text f.language) = .ok k)
    (hwords : ∀ kind w, k.ofKind? kind = some w → w ≠ []) (hi : s.Reaches i)
    (h : s.Represents i n) (hbare : n.bare = .mk {} (.featureFile path (some f.node) []))
    (hlegible : (f.withKeywords k).Legible d) :
    s.text i = .ok (Text.joinLines (Plain.fileLines (some (f.withKeywords k)))) := by
  obtain ⟨e, pairs, he, hg, hshape, hn, hattached, hparts⟩ := h.inv
  obtain ⟨⟨q, m⟩, comments, rfl, hm⟩ : ∃ x comments,
      pairs = .featureFile path (some x) comments ∧ x.2.bare = f.node := by
    have hs := Node.shape_of_bare hbare
    rw [hn] at hs
    cases pairs <;> simp only [Shape.map, Shape.withoutComments, reduceCtorEq,
      Shape.featureFile.injEq] at hs
    obtain ⟨rfl, hheld, -⟩ := hs
    obtain ⟨m, hm, hmbare⟩ := Option.map_eq_some_iff.mp hheld
    obtain ⟨x, rfl, rfl⟩ := Option.map_eq_some_iff.mp hm
    exact ⟨x, _, rfl, hmbare⟩
  have hq : (q, m) ∈ (Shape.featureFile path (some (q, m)) comments).parts := by
    simp [Shape.parts]
  obtain ⟨hreaches, -⟩ := reaches_part hi he (by simp [hshape, Shape.map, Shape.parts])
    (hattached _ hq)
  have hprints : s.Prints q (m.withKeywords k) :=
    (hparts _ hq).prints_feature hk hwords hm hreaches
  obtain ⟨budget, hbudget⟩ : ∃ b, s.levels = b + 1 := ⟨s.levels - 1, by have := s.lt_levels; omega⟩
  have hheight : (m.withKeywords k).height ≤ budget := by
    have := hprints.spans.height_le
    have := s.lt_levels
    omega
  have hknown := known_facet_of_prints hprints .null budget hheight []
  have hkeywords : (m.withKeywords k).bare = (f.withKeywords k).node := by
    rw [Node.bare_withKeywords, hm, Plain.Feature.withKeywords_node]
  obtain ⟨tags, setup, tests, rules, hfeature, -⟩ := Plain.Feature.shape_of_bare hkeywords
  have hlines : s.linesWithin s.levels [] i
      = .ok ((Plain.fileLines (some (f.withKeywords k))).map .text) := by
    rw [hbudget, linesWithin, linesBy_of_plain he hg, hshape]
    have hlanguage := congrArg (fun part => part.field .language) hknown
    have hshows := congrArg (fun part => part.lines ()) hknown
    refine Facet.fileLines_of_shows (fun _ => rfl) (hlanguage.trans ?_) (hshows.trans ?_)
    · change (m.withKeywords k).shape.ask .language = _
      rw [hfeature]
      rfl
    · exact (f.withKeywords k).shows_of_bare .null hlegible hkeywords
  rw [text_of_plain he hg, hlines]
  exact Layout.joinValues_text _

/-- The text of a file whose feature has the keywords of its language. -/
theorem text_of_file {k : PrimaryKeywords}
    (hk : Dialect.keywordsFor s.dialect (.text f.language) = .ok k)
    (hwords : ∀ kind w, k.ofKind? kind = some w → w ≠ []) (hi : s.Reaches i)
    (h : s.Represents i n) (hbare : n.bare = .mk {} (.featureFile path (some f.node) []))
    (hfit : (f.withKeywords k).Fit d) :
    s.text i = .ok (Text.joinLines (Plain.fileLines (some (f.withKeywords k)))) :=
  text_of_legible_file hk hwords hi h hbare (Plain.Feature.Fit.legible hfit)

/-- A file that was built, in whatever language, is read back from its text, read as an English one,
as the same file with the keywords of its language. -/
theorem exists_readFile_text (hd : d ∈ Dialect.all) (hi : s.Reaches i) (h : s.Represents i n)
    (hbare : n.bare = .mk {} (.featureFile path (some f.node) [])) (hbuilt : f.Built)
    (hlanguage : f.language = d.name) (hbullet : f.steps = [] ∨ ['*', ' '] ∈ d.stepKeywords)
    (hrule : f.rules = [] ∨ d.primaryKeywords.rule ∈ d.rule) (default : Value) (path' : Text) :
    ∃ t m, s.text i = .ok t
      ∧ Node.readFile default (.text Dialect.english.name) path' t = .ok m
      ∧ m.bare = Plain.fileNode path' (some (f.withKeywords d.primaryKeywords)) := by
  have hfit := hbuilt.fit hd hlanguage hbullet hrule
  obtain ⟨m, hm, hmbare⟩ := Node.readFile_fileLines default path' hd
    (f := some (f.withKeywords d.primaryKeywords)) (by simpa using hfit)
  have hkeywords : Dialect.keywordsFor s.dialect (.text f.language) = .ok d.primaryKeywords := by
    rw [hlanguage]
    exact Dialect.keywordsFor_name hd _
  have hwords := (Dialect.speaks_of_mem hd).primary_ne_nil
  exact ⟨_, m, text_of_file hkeywords (fun kind _ => hwords kind) hi h hbare hfit, hm, hmbare⟩

/-- A feature in French with a scenario, a step and a rule. -/
def frenchFeature : Plain.Feature :=
  ⟨⟨[], ['a'], []⟩, [['@', 't']], ['f', 'r'],
    ⟨none, [⟨⟨[], ['b'], []⟩, [], [⟨[], ['c'], none⟩], none⟩]⟩, [⟨⟨[], ['d'], []⟩, [], ⟨none, []⟩⟩]⟩

/-- A store in which a name holds a file with the feature. -/
def frenchFile : NodeId × Store :=
  let (i, s) := ({} : Store).plant (Plain.fileNode [] (some frenchFeature))
  (i, s.hold "file" (some i))

/-- The French feature is one that can be built. -/
theorem built_frenchFeature : frenchFeature.Built := by
  have hheading : ∀ c ∈ ['a', 'b', 'c', 'd'], (⟨[], [c], []⟩ : Plain.Heading).Built := by
    have hline : (['a', 'b', 'c', 'd'].all fun c =>
        Text.trim [c] = [c] ∧ '\n' ∉ [c]) = true := by decide
    intro c hc
    obtain ⟨htrim, hone⟩ := of_decide_eq_true (List.all_eq_true.mp hline c hc)
    exact ⟨rfl, rfl, htrim, hone⟩
  have hstep : (⟨[], ['c'], none⟩ : Plain.Step).Built :=
    ⟨rfl, (hheading 'c' (by simp)).name_trimmed, (hheading 'c' (by simp)).name_oneLine, by simp⟩
  have hscenario : (⟨⟨[], ['b'], []⟩, [], [⟨[], ['c'], none⟩], none⟩ : Plain.Scenario).Built :=
    ⟨hheading 'b' (by simp), by simp, by simpa using hstep, by simp⟩
  have hrule : (⟨⟨[], ['d'], []⟩, [], ⟨none, []⟩⟩ : Plain.Rule).Built :=
    ⟨hheading 'd' (by simp), by simp, by simp, by simp⟩
  refine ⟨hheading 'a' (by simp), ?_, ⟨by simp [frenchFeature], ?_⟩, ?_⟩
  · simp [frenchFeature, IsTag, isBlank]
  · simpa [frenchFeature] using hscenario
  · simpa [frenchFeature] using hrule

/-- A French feature that was built, written, and read as English by default. -/
theorem exists_readFile_text_french : ∃ d ∈ Dialect.all, d.name = ['f', 'r'] ∧ ∃ t m,
    frenchFile.2.text frenchFile.1 = .ok t
      ∧ Node.readFile .null (.text Dialect.english.name) [] t = .ok m
      ∧ m.bare = Plain.fileNode [] (some (frenchFeature.withKeywords d.primaryKeywords)) := by
  obtain ⟨d, hd, hname⟩ : ∃ d ∈ Dialect.all, d.name = ['f', 'r'] := by decide
  obtain ⟨hbullet, hrule⟩ := Dialect.bullet_mem_stepKeywords hd (by rw [hname]; decide)
  have hreaches : frenchFile.2.Reaches frenchFile.1 :=
    .held (by decide) (by simp [frenchFile, hold, roots])
  have hplant := represents_plant (Plain.fileNode [] (some frenchFeature)) {}
  have hrepresents : frenchFile.2.Represents frenchFile.1
      (Plain.fileNode [] (some frenchFeature)) :=
    hplant.mono (fun j e he => ⟨e, he, rfl, rfl⟩) fun c q hq => hq
  exact ⟨d, hd, hname, exists_readFile_text hd hreaches hrepresents rfl built_frenchFeature
    hname.symm (.inr hbullet) (.inr hrule) .null []⟩

/-- A feature with a step, in the language that has no bullet. -/
def texanFeature : Plain.Feature :=
  ⟨⟨[], ['a'], []⟩, [], "en-tx".toList,
    ⟨none, [⟨⟨[], ['b'], []⟩, [], [⟨[], ['c'], none⟩], none⟩]⟩, []⟩

/-- Without the bullet among the words of the language, a step is read as a description. -/
theorem readFile_texanFeature : ∃ d ∈ Dialect.all, d.name = texanFeature.language ∧ ∃ m,
    Node.readFile .null (.text Dialect.english.name) [] (Text.joinLines (Plain.fileLines
        (some (texanFeature.withKeywords d.primaryKeywords)))) = .ok m
      ∧ m.bare ≠ Plain.fileNode [] (some (texanFeature.withKeywords d.primaryKeywords)) := by
  obtain ⟨d, hd, hname, hlines⟩ : ∃ d ∈ Dialect.all, d.name = texanFeature.language
      ∧ Plain.fileLines (some (texanFeature.withKeywords d.primaryKeywords))
        = ["# language: en-tx".toList, "This ain’t my first rodeo: a".toList, [],
          "All hat and no cattle: b".toList, "  * c".toList] := by
    decide +kernel
  have hparse : Ast.Document.parse Dialect.english (Text.joinLines
      ["# language: en-tx".toList, "This ain’t my first rodeo: a".toList, [],
        "All hat and no cattle: b".toList, "  * c".toList])
      = .ok ⟨some ⟨⟨⟨2, 1⟩, "This ain’t my first rodeo".toList, ['a'], []⟩, [], "en-tx".toList,
        ⟨none, [⟨⟨⟨4, 1⟩, "All hat and no cattle".toList, ['b'], ["  * c".toList]⟩, [], [], []⟩]⟩,
        []⟩, [], []⟩ := by
    decide +kernel
  obtain ⟨m, hm, hbare⟩ := Node.readFile_of_parse .null [] hparse
  refine ⟨d, hd, hname, m, by rw [hlines, hm], fun h => ?_⟩
  rw [hbare] at h
  simp only [Plain.fileNode, Option.map_some, Plain.Feature.node, Node.mk.injEq, true_and,
    Shape.featureFile.injEq, Option.some.injEq, and_true, Shape.feature.injEq] at h
  obtain ⟨-, -, -, -, htests, -⟩ := h
  simp [Ast.Feature.plain, Ast.Body.plain, Ast.Scenario.plain, Plain.Feature.withKeywords,
    Plain.Body.withKeywords, Plain.Scenario.withKeywords, Plain.Scenario.node,
    texanFeature] at htests
  split at htests <;> simp at htests

end Store

end FeatureTree
