import FeatureTree.Proofs.Plain.Sound
import FeatureTree.Proofs.Text.Pieces

/-!
# What is read can be read back

An English document that is read can be read back from what is written of it, with three exceptions
(`Ast.Law.writable`). Descriptions are cut at line breaks that the reader does not know when they
are put into their normal form; a row without cells is written with one empty cell; and a doc string
that holds both escaped delimiters can be written between neither. Only the first of them can keep
it from being read at all, in every dialect, namely if one of the new lines looks like more than
free text (`Ast.Law.free`).

## Main results

* `Ast.Feature.meets_plain`: a lawful feature meets the standard that its law grants
* `Ast.Document.legible_of_parse`: the feature of a document that is read is legible in its language
* `Ast.Document.fit_of_parse`: the feature of an English document is fit, if it can be written
-/

namespace FeatureTree

open Plain (Free free_nil)

/-! ### Parts -/

namespace Ast

/-- What is asked of a document besides, so that what is written of it can be read back. -/
def Law.writable : Law where
  heading _ h := ∀ c ∈ h.descriptionText, isLineBreak c = true → c = '\n'
  tag _ := True
  step s := (∀ t ∈ s.docString, Text.hasPart (escapedFence quoteFence) t.content = false
      ∨ Text.hasPart (escapedFence backtickFence) t.content = false)
    ∧ (s.docString = none → ∀ r ∈ s.table, r.cells ≠ [])
  rows rows := ∀ r ∈ rows, r.cells ≠ []

/-- A law that holds if two laws hold. -/
def Law.and (law law' : Law) : Law where
  heading kind h := law.heading kind h ∧ law'.heading kind h
  tag t := law.tag t ∧ law'.tag t
  step s := law.step s ∧ law'.step s
  rows rows := law.rows rows ∧ law'.rows rows

/-- Lines that are joined and split again are the lines, or empty. -/
theorem mem_splitLines_joinLines {ls : List Text} (h : ∀ l ∈ ls, l.OneLine) {l : Text}
    (hl : l ∈ Text.splitLines (Text.joinLines ls)) : l = [] ∨ l ∈ ls := by
  by_cases hne : ls = []
  · subst hne
    left
    simpa using List.mem_singleton.mp hl
  · right
    rwa [Text.splitLines_joinLines hne h] at hl

/-- What is asked of descriptions, so that they are cut at line feeds only. -/
def Law.describable : Law where
  heading _ h := ∀ c ∈ h.descriptionText, isLineBreak c = true → c = '\n'
  tag _ := True
  step _ := True
  rows _ := True

/-- What is asked of descriptions, so that each of their lines, as it is written, is free text. -/
def Law.free (d : Dialect) : Law where
  heading kind h := ∀ l ∈ h.plain.description.splitLines, Free d kind l
  tag _ := True
  step _ := True
  rows _ := True

section

variable {d : Dialect}

/-- The lines of a description stay free text, if they are cut at line feeds only. -/
theorem Heading.free_of_describable (hd : d.Distinct) {kind : TokenKind} {h : Heading}
    (hlaw : (Law.ofDialect d).heading kind h) (hdescribable : Law.describable.heading kind h) :
    (Law.free d).heading kind h := by
  obtain ⟨-, -, -, hlines⟩ := hlaw
  intro l hl
  have hnormal := Text.normal_trimDescription h.descriptionText
  have hl : l ∈ Text.splitLines (Text.trimDescription h.descriptionText) := hl
  by_cases hempty : Text.trimDescription h.descriptionText = []
  · rw [hempty] at hl
    obtain rfl := List.mem_singleton.mp hl
    exact free_nil hd kind
  · rw [(hnormal.lines hempty).1, hnormal.descriptionLines_eq,
      Text.breakLines_trimDescription] at hl
    rcases Text.mem_descriptionLines hl with rfl | ⟨m, hm, -, htrim, -⟩
    · exact free_nil hd kind
    · -- a line of the normal form is a line that was read, behind some of its indentation
      have hm' := Text.mem_splitLines_of_mem_breakLines hdescribable hm
      have hsub : ∀ t ∈ Text.dropEndWhile List.isEmpty h.description, t ∈ h.description :=
        fun t ht => (Text.dropEndWhile_isPrefix _ _).subset ht
      rcases mem_splitLines_joinLines (fun t ht => (hlines t (hsub t ht)).2) hm' with rfl | hm'
      · exact (free_nil hd kind).of_trimStart_eq htrim
      · exact (hlines m (hsub m hm')).1.of_trimStart_eq htrim

/-- The heading of a part is fit, if its keyword is told apart and the lines of its description are
free text. -/
theorem Heading.fit_plain {kind : TokenKind} {h : Heading} (hword : d.TitleWord kind h.keyword)
    (hlaw : (Law.ofDialect d).heading kind h) (hfree : (Law.free d).heading kind h) :
    h.plain.Fit d kind := by
  obtain ⟨-, htrimmed, hline, -⟩ := hlaw
  have hkeyword : h.plain.keyword = h.keyword := hword.trimmed
  exact ⟨by rwa [hkeyword], htrimmed, hline, Text.normal_trimDescription _, hfree⟩

/-- Rows of tidy cells are even, if they have as many in each. -/
theorem even_values {rows : List Row} (htidy : ∀ r ∈ rows, ∀ v ∈ r.values, Cell.Tidy v)
    (heven : firstRagged? rows = none) : Plain.Even (rows.map Row.values) := by
  have hlength : ∀ r ∈ rows, ∀ r' ∈ rows, r.cells.length = r'.cells.length := by
    cases rows with
    | nil => simp
    | cons first rows =>
      rw [firstRagged?, List.find?_eq_none] at heven
      have hfirst : ∀ r ∈ first :: rows, r.cells.length = first.cells.length := by
        intro r hr
        rcases List.mem_cons.mp hr with rfl | hr
        · rfl
        · simpa using heven r hr
      exact fun r hr r' hr' => (hfirst r hr).trans (hfirst r' hr').symm
  constructor
  · intro v hv
    obtain ⟨r, hr, rfl⟩ := List.mem_map.mp hv
    exact htidy r hr
  · intro v hv v' hv'
    obtain ⟨r, hr, rfl⟩ := List.mem_map.mp hv
    obtain ⟨r', hr', rfl⟩ := List.mem_map.mp hv'
    simpa [Row.values] using hlength r hr r' hr'

/-- Even rows form a grid, if they have cells. -/
theorem grid_of_even {rows : List Row} (h : Plain.Even (rows.map Row.values))
    (hcells : ∀ r ∈ rows, r.cells ≠ []) : Plain.Grid (rows.map Row.values) := by
  refine ⟨fun v hv => ?_, h.tidy, h.length_eq⟩
  obtain ⟨r, hr, rfl⟩ := List.mem_map.mp hv
  simpa [Row.values] using hcells r hr

/-- A step is read as some step in its own dialect. -/
theorem Step.legible_plain (hd : d ∈ Dialect.all) {s : Step} (hlaw : (Law.ofDialect d).step s)
    (heven : firstRagged? s.table = none) : s.plain.Legible d := by
  obtain ⟨hmem, htrimmed, hline, htidy, hdoc⟩ := hlaw
  refine ⟨Dialect.stepStart_of_mem hd hmem, htrimmed, hline, fun b hb => ?_⟩
  simp only [Step.plain] at hb
  cases ht : s.docString with
  | some t =>
    rw [ht] at hb
    obtain rfl := Option.some.inj hb
    obtain ⟨htype, htypeLine, hlines⟩ := hdoc t ht
    refine .docString ⟨fun l hl => ?_, htype, htypeLine⟩
    rcases mem_splitLines_joinLines (fun l hl => (hlines l hl).oneLine) hl with rfl | hl
    · exact ⟨by simp [Text.OneLine], by simp⟩
    · exact hlines l hl
  | none =>
    rw [ht] at hb
    simp only at hb
    split at hb
    · cases hb
    · next hempty =>
      obtain rfl := Option.some.inj hb
      exact .table (by simpa using hempty) (even_values htidy heven)

/-! ### What laws grant -/

/-- Whether what obeys a law meets a standard, in a dialect. The keyword of rules is told apart in
all dialects but one. -/
structure Law.Grants (law : Law) (σ : Plain.Standard) (d : Dialect) : Prop where
  heading : ∀ kind ∈ TokenKind.titles, kind ≠ .ruleLine ∨ d.name ≠ "en-tx".toList →
    ∀ h, law.heading kind h → h.plain.Fit d kind
  tag : ∀ t, law.tag t → IsTag t.name
  step : ∀ s, law.step s → σ.step s.plain
  rows : ∀ rows, law.rows rows → σ.rows (rows.map Row.values)

variable {law : Law} {σ : Plain.Standard}

/-- A background that obeys a law meets the standard that the law grants. -/
theorem Background.meets_plain (hlaw : law.Grants σ d) {b : Background} (h : b.Obeys law) :
    b.plain.Meets σ d := by
  refine ⟨hlaw.heading _ (by decide) (.inl (by decide)) _ h.heading, fun s hs => ?_⟩
  obtain ⟨x, hx, rfl⟩ := List.mem_map.mp hs
  exact hlaw.step x (h.steps x hx)

/-- Tags that obey a law are tags. -/
theorem Law.Grants.tags (hlaw : law.Grants σ d) {ts : List Tag} (h : ∀ t ∈ ts, law.tag t) :
    ∀ t ∈ ts.map (·.name), IsTag t := by
  intro t ht
  obtain ⟨x, hx, rfl⟩ := List.mem_map.mp ht
  exact hlaw.tag x (h x hx)

/-- Examples that obey a law meet the standard that the law grants. -/
theorem Examples.meets_plain (hlaw : law.Grants σ d) {e : Examples} (h : e.Obeys law) :
    e.plain.Meets σ d :=
  ⟨hlaw.heading _ (by decide) (.inl (by decide)) _ h.heading, hlaw.tags h.tags,
    hlaw.rows _ h.rows⟩

/-- Whether a scenario is an outline agrees with its keyword. -/
theorem Scenario.agrees_plain (words : List Text) (s : Scenario) :
    (s.plain words).Agrees words := by
  have hkeyword : (s.plain words).heading.keyword = s.heading.keyword.trim := rfl
  rw [Plain.Scenario.Agrees, hkeyword]
  simp only [Scenario.plain]
  cases hout : s.isOutline words with
  | true => simpa [isOutline] using hout
  | false =>
    have : words.contains s.heading.keyword.trim = false := by
      rw [isOutline, Bool.or_eq_false_iff] at hout
      exact hout.2
    rw [this]
    rfl

/-- A scenario that obeys a law meets the standard that the law grants. -/
theorem Scenario.meets_plain (hlaw : law.Grants σ d) {s : Scenario} (h : s.Obeys law) :
    (s.plain d.outlineKeywords).Meets σ d := by
  refine ⟨hlaw.heading _ (by decide) (.inl (by decide)) _ h.heading, hlaw.tags h.tags,
    fun t ht => ?_, fun e he => ?_, s.agrees_plain _⟩
  · obtain ⟨x, hx, rfl⟩ := List.mem_map.mp ht
    exact hlaw.step x (h.steps x hx)
  · simp only [Scenario.plain] at he
    split at he
    · obtain ⟨x, hx, rfl⟩ := List.mem_map.mp he
      exact Examples.meets_plain hlaw (h.examples x hx)
    · cases he

/-- A body that obeys a law meets the standard that the law grants. -/
theorem Body.meets_plain (hlaw : law.Grants σ d) {b : Body} (h : b.Obeys law) :
    (b.plain d.outlineKeywords).Meets σ d := by
  refine ⟨fun x hx => ?_, fun x hx => ?_⟩
  · obtain ⟨y, hy, rfl⟩ := Option.map_eq_some_iff.mp hx
    exact Background.meets_plain hlaw (h.background y hy)
  · obtain ⟨y, hy, rfl⟩ := List.mem_map.mp hx
    exact Scenario.meets_plain hlaw (h.scenarios y hy)

/-- A rule that obeys a law meets the standard that the law grants, if its keyword is told apart. -/
theorem Rule.meets_plain (hlaw : law.Grants σ d) (hname : d.name ≠ "en-tx".toList) {r : Rule}
    (h : r.Obeys law) : (r.plain d.outlineKeywords).Meets σ d :=
  ⟨hlaw.heading _ (by decide) (.inr hname) _ h.heading, hlaw.tags h.tags,
    Body.meets_plain hlaw h.body⟩

/-- A lawful feature meets the standard that its law grants. -/
theorem Feature.meets_plain (hd : d ∈ Dialect.all) (hlaw : law.Grants σ d) {f : Feature}
    (h : f.Obeys law) (hlanguage : f.language = d.name)
    (hrules : f.rules = [] ∨ d.name ≠ "en-tx".toList) : f.plain.Meets σ d := by
  have hwords : f.outlineWords = d.outlineKeywords := by
    rw [outlineWords, hlanguage, Dialect.ofName?_name hd, Option.getD_some]
  refine ⟨hlaw.heading _ (by decide) (.inl (by decide)) _ h.heading, hlaw.tags h.tags, hlanguage,
    ?_, fun r hr => ?_⟩
  · rw [plain, hwords]
    exact Body.meets_plain hlaw h.body
  · rw [plain, hwords] at hr
    obtain ⟨x, hx, rfl⟩ := List.mem_map.mp hr
    exact Rule.meets_plain hlaw (hrules.resolve_left (List.ne_nil_of_mem hx)) (h.rules x hx)

/-- What is asked of a document that is read as some document. -/
def Law.legible (d : Dialect) : Law :=
  (Law.ofDialect d).and ((Law.ofTables (firstRagged? · = none)).and (Law.free d))

/-- What obeys the law of legible documents is legible. -/
theorem Law.grants_legible (hd : d ∈ Dialect.all) : (Law.legible d).Grants (.legible d) d where
  heading _ hkind hrule _ h :=
    Heading.fit_plain (Dialect.titleWord_of_mem hd hkind h.1.1 hrule) h.1 h.2.2
  tag _ h := h.1
  step _ h := Step.legible_plain hd h.1 h.2.1
  rows _ h := even_values h.1 h.2.1

end

open Dialect (english)

/-- What is asked of an English document that can be written. -/
def Law.english : Law :=
  (Law.ofDialect Dialect.english).and ((Law.ofTables (firstRagged? · = none)).and Law.writable)

/-- A step that obeys the law of English fits English. -/
theorem Step.fit_plain {s : Step} (h : Law.english.step s) : s.plain.Fit english := by
  obtain ⟨hlaw, heven, hfence, hcells⟩ := h
  have hlegible := Step.legible_plain Dialect.english_mem hlaw heven
  refine ⟨(Dialect.stepWord_english hlaw.1).2, hlegible.text_trimmed, hlegible.text_oneLine,
    fun b hb => ?_⟩
  have hblock := hlegible.block b hb
  simp only [Step.plain] at hb
  cases ht : s.docString with
  | some t =>
    rw [ht] at hb
    obtain rfl := Option.some.inj hb
    cases hblock with
    | docString hquotable =>
      exact .docString ⟨hquotable.lines, hfence t ht, hquotable.type_trimmed,
        hquotable.type_oneLine⟩
  | none =>
    rw [ht] at hb
    simp only at hb
    split at hb
    · cases hb
    · obtain rfl := Option.some.inj hb
      cases hblock with
      | table hne heven => exact .table hne (grid_of_even heven (hcells ht))

/-- What obeys the law of English fits English. -/
theorem Law.grants_english : Law.english.Grants (.fit Dialect.english) Dialect.english where
  heading _ hkind _ _ h := Heading.fit_plain (Dialect.titleWord_english hkind h.1.1) h.1
    (Heading.free_of_describable (Dialect.distinct_of_mem Dialect.english_mem) h.1 h.2.2)
  tag _ h := h.1
  step _ h := Step.fit_plain h
  rows _ h := grid_of_even (even_values h.1 h.2.1) h.2.2

/-- Examples that obey the law of English fit English. -/
theorem Examples.fit_plain {e : Examples} (h : e.Obeys Law.english) : e.plain.Fit english :=
  Examples.meets_plain Law.grants_english h

/-- A lawful feature in English is fit. -/
theorem Feature.fit_plain {f : Feature} (h : f.Obeys Law.english)
    (hlanguage : f.language = english.name) : f.plain.Fit english :=
  Feature.meets_plain Dialect.english_mem Law.grants_english h hlanguage (.inr (by decide))

/-! ### Documents -/

section

variable {law law' : Law}

/-- A background that obeys two laws obeys both together. -/
theorem Background.Obeys.and {b : Background} (h : b.Obeys law) (h' : b.Obeys law') :
    b.Obeys (law.and law') :=
  ⟨⟨h.heading, h'.heading⟩, fun s hs => ⟨h.steps s hs, h'.steps s hs⟩⟩

/-- Examples that obey two laws obey both together. -/
theorem Examples.Obeys.and {e : Examples} (h : e.Obeys law) (h' : e.Obeys law') :
    e.Obeys (law.and law') :=
  ⟨⟨h.heading, h'.heading⟩, fun t ht => ⟨h.tags t ht, h'.tags t ht⟩, h.rows, h'.rows⟩

/-- A scenario that obeys two laws obeys both together. -/
theorem Scenario.Obeys.and {s : Scenario} (h : s.Obeys law) (h' : s.Obeys law') :
    s.Obeys (law.and law') :=
  ⟨⟨h.heading, h'.heading⟩, fun t ht => ⟨h.tags t ht, h'.tags t ht⟩,
    fun t ht => ⟨h.steps t ht, h'.steps t ht⟩,
    fun e he => (h.examples e he).and (h'.examples e he)⟩

/-- A body that obeys two laws obeys both together. -/
theorem Body.Obeys.and {b : Body} (h : b.Obeys law) (h' : b.Obeys law') :
    b.Obeys (law.and law') :=
  ⟨fun x hx => (h.background x hx).and (h'.background x hx),
    fun x hx => (h.scenarios x hx).and (h'.scenarios x hx)⟩

/-- A rule that obeys two laws obeys both together. -/
theorem Rule.Obeys.and {r : Rule} (h : r.Obeys law) (h' : r.Obeys law') :
    r.Obeys (law.and law') :=
  ⟨⟨h.heading, h'.heading⟩, fun t ht => ⟨h.tags t ht, h'.tags t ht⟩, h.body.and h'.body⟩

/-- A document that obeys two laws obeys both at once. -/
theorem Document.Obeys.and {d : Document} (h : d.Obeys law) (h' : d.Obeys law') :
    d.Obeys (law.and law') := fun f hf =>
  ⟨⟨(h f hf).heading, (h' f hf).heading⟩,
    fun t ht => ⟨(h f hf).tags t ht, (h' f hf).tags t ht⟩, (h f hf).body.and (h' f hf).body,
    fun r hr => ((h f hf).rules r hr).and ((h' f hf).rules r hr)⟩

end

/-- The feature of a document that is read has a language of the table, and is legible in it if the
lines of its descriptions are free text. -/
theorem Document.legible_of_parse {dialect : Dialect} (hdialect : dialect ∈ Dialect.all)
    {source : Text} {d : Document} (h : parse dialect source = .ok d) {f : Feature}
    (hf : d.feature = some f) :
    ∃ d' ∈ Dialect.all, f.language = d'.name
      ∧ (d.Obeys (Law.free d') → f.rules = [] ∨ d'.name ≠ "en-tx".toList →
        f.plain.Legible d') := by
  obtain ⟨d', hd', hname, hlaw, htables⟩ := sound_of_parse hdialect h
  refine ⟨d', hd', hname f hf, fun hfree hrules => ?_⟩
  exact Feature.meets_plain hd' (Law.grants_legible hd') ((hlaw.and (htables.and hfree)) f hf)
    (hname f hf) hrules

/-- The feature of an English document that is read can be read back, if it can be written. -/
theorem Document.fit_of_parse {dialect : Dialect} (hdialect : dialect ∈ Dialect.all) {source : Text}
    {d : Document} (h : parse dialect source = .ok d)
    (hlanguage : ∀ f ∈ d.feature, f.language = english.name) (hwritable : d.Obeys Law.writable) :
    ∀ f ∈ d.feature, f.plain.Fit english := by
  intro f hf
  obtain ⟨d', hd', hname, hlaw, htables⟩ := sound_of_parse hdialect h
  obtain rfl : d' = english :=
    Dialect.eq_of_name_eq hd' Dialect.english_mem ((hname f hf).symm.trans (hlanguage f hf))
  exact Feature.fit_plain ((hlaw.and (htables.and hwritable)) f hf) (hlanguage f hf)

end Ast

end FeatureTree
