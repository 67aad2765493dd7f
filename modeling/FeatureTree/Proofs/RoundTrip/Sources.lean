import FeatureTree.Proofs.Node.Read
import FeatureTree.Proofs.Plain.Lawful
import FeatureTree.Proofs.Plain.ReadFragments

/-!
# What a part that was read says

A part that was read on its own was picked out of a document around it, which is in the dialect of
the reader whatever the text of the part says, because the line that names a language can only stand
in front of the title of the feature. So the part obeys the law of that dialect, and its description
holds no characters but those of the text.

## Main results

* `Ast.Document.obeys_chars_of_parse`: descriptions hold characters of the text only
* `Ast.Document.language_of_parse_inFeature`: a text inside a feature in a dialect is in that
  dialect
* `Node.exists_examples_of_readPart`: examples that were read are fit, if their text is free of odd
  line breaks and their first row has cells
-/

namespace FeatureTree

open Dialect (english)

/-! ### Characters of descriptions -/

/-- What is asked of the characters of descriptions. -/
def Ast.Law.chars (p : Char → Prop) : Ast.Law where
  heading _ h := ∀ t ∈ h.description, ∀ c ∈ t, p c
  tag _ := True
  step _ := True
  rows _ := True

namespace ParseState

variable {s : ParseState} {l : Line} {e : Entry} {token : Token} {p : Char → Prop}

/-- A line adds no characters but its own. -/
theorem Sound.keeps_chars (h : s.Sound) (ht : s.Takes l s.place.entries e token)
    (hl : ∀ c ∈ l.text, p c) : (Ast.Law.chars p).Keeps l s.place token := by
  have hkind : token.kind = e.kind := Reading.kind_of_token? ht.reads
  constructor
  case heading =>
    rintro kind - title rfl
    simp [Ast.Law.chars, Ast.Heading.ofTitle]
  case description =>
    rintro text rfl kind hplace x hx t ht'
    rcases List.mem_append.mp ht' with ht' | ht'
    · exact hx t ht'
    · obtain rfl := List.mem_singleton.mp ht'
      have hread : s.reading.token? l .other = .ok (some (.other t)) := by
        have hreads := ht.reads
        rwa [← hkind] at hreads
      have htext : s.place.inText = false := by
        cases hp : s.place <;> rw [hp] at hplace <;> first | rfl | cases hplace
      have hfence : s.reading.fence = none := by
        have hfence := h.fence
        rw [htext] at hfence
        simpa using hfence
      simp only [Reading.token?, hfence, Except.ok.injEq, Option.some.injEq,
        Token.other.injEq] at hread
      obtain rfl := hread
      exact fun c hc => hl c ((Text.dropEndWhile_isPrefix _ _).subset hc)
  all_goals intros; trivial

/-- Reading keeps the characters of descriptions among those of the lines. -/
theorem chars_of_run {ls : List Line} (hs : s.Sound) (hchars : s.document.Obeys (.chars p))
    (hls : ∀ l ∈ ls, l.IsCut ∧ ∀ c ∈ l.text, p c) (h : (s.run ls).faults = []) :
    (s.run ls).document.Obeys (.chars p) := by
  refine (hs.run_induction (P := fun s => s.document.Obeys (.chars p)) ?_ hchars hls h).2
  intro s l e token hs hobeys hl ht
  have hkind : token.kind = e.kind := Reading.kind_of_token? ht.reads
  exact hobeys.take (fun _ _ => trivial) (hs.keeps_chars ht hl)
    (fun text he => State.ne_examplesTable_of_other ht.mem (by rw [← hkind, he]; rfl)) _ _

end ParseState

namespace Ast.Document

variable {dialect : Dialect} {source : Text} {d : Document}

/-- The characters of a line are those of the text. -/
theorem mem_source_of_mem_ofText {l : Line} (hl : l ∈ Line.ofText source) {c : Char}
    (hc : c ∈ l.text) : c ∈ source := by
  rw [← Line.texts_ofText source]
  exact List.mem_flatten.mpr ⟨l.text, List.mem_map_of_mem hl, hc⟩

/-- Descriptions hold characters of the text only. -/
theorem obeys_chars_of_parse (hd : dialect ∈ Dialect.all) {p : Char → Prop}
    (h : parse dialect source = .ok d) (hp : ∀ c ∈ source, p c) : d.Obeys (.chars p) := by
  obtain ⟨hfaults, rfl, -⟩ := run_of_parse h
  refine ParseState.chars_of_run (ParseState.sound_start hd) .empty (fun l hl => ?_) hfaults
  exact ⟨Line.isCut_of_mem_ofText hl, fun c hc => hp c (mem_source_of_mem_ofText hl hc)⟩

/-! ### The language around a part -/

/-- A text inside a feature in a dialect is in that dialect, whatever it says. -/
theorem language_of_parse_inFeature (hd : dialect ∈ Dialect.all)
    (h : parse dialect (Fragment.inFeature dialect.primaryKeywords source) = .ok d) :
    ∀ f ∈ d.feature, f.language = dialect.name := by
  have hsource : Fragment.inFeature dialect.primaryKeywords source
      = Plain.frameTitle dialect ++ '\n' :: source := by
    have hcolon : ": Fake feature to parse\n".toList = ':' :: ' ' :: Plain.frameName ++ ['\n'] := by
      decide
    rw [Plain.frameTitle, Layout.titleLine, if_neg (by decide)]
    simp [Fragment.inFeature, hcolon]
  have hlines : Line.ofText (Plain.frameTitle dialect ++ '\n' :: source)
      = ⟨1, Plain.frameTitle dialect ++ ['\n']⟩ :: Line.numberFrom 2 source.sourceLines := by
    have hline := Plain.oneLine_frameTitle hd
    rw [Line.ofText, Text.sourceLines_append_lineFeed hline]
    rfl
  rw [hsource] at h
  have hname : Text.trim Plain.frameName = Plain.frameName := by decide
  have hword := Plain.titleWord_frame hd
  have honly : (ParseState.start dialect).reading.Only ⟨1, Plain.frameTitle dialect ++ ['\n']⟩
      .featureLine (.featureLine ⟨dialect.primaryKeywords.feature, Plain.frameName⟩) :=
    Reading.only_title rfl (by decide) hword hname .nil (.inr rfl)
  exact language_of_parse hd h hlines fun kind hkind =>
    honly.refuses kind (by rintro rfl; simp at hkind) (by rintro rfl; simp at hkind)

/-- What is read inside a feature in a dialect obeys the law of that dialect, and its tables are
rectangular. -/
theorem sound_of_parse_inFeature (hd : dialect ∈ Dialect.all)
    (h : parse dialect (Fragment.inFeature dialect.primaryKeywords source) = .ok d)
    (hfeature : d.feature.isSome = true) :
    d.Obeys (.ofDialect dialect) ∧ d.Obeys (.ofTables (firstRagged? · = none)) := by
  obtain ⟨d', hd', hname, hlaw, htables⟩ := sound_of_parse hd h
  obtain ⟨f, hf⟩ := Option.isSome_iff_exists.mp hfeature
  obtain rfl : d' = dialect := Dialect.eq_of_name_eq hd' hd
    ((hname f hf).symm.trans (language_of_parse_inFeature hd h f hf))
  exact ⟨hlaw, htables⟩

end Ast.Document

/-! ### Examples -/

/-- The document around examples adds no line breaks but line feeds. -/
theorem Fragment.forall_mem_wrap_example {source : Text}
    (h : ∀ c ∈ source, isLineBreak c = true → c = '\n') :
    ∀ c ∈ Fragment.wrap english.primaryKeywords source .example,
      isLineBreak c = true → c = '\n' := by
  have hframe : ((Fragment.wrap english.primaryKeywords [] .example).all fun c =>
      !isLineBreak c || c == '\n') = true := by decide
  have hwrap : Fragment.wrap english.primaryKeywords source .example
      = Fragment.wrap english.primaryKeywords [] .example ++ source := by
    simp [Fragment.wrap, Fragment.inOutline, Fragment.inFeature]
  intro c hc
  rw [hwrap] at hc
  rcases List.mem_append.mp hc with hc | hc
  · intro hbreak
    simpa [hbreak] using List.all_eq_true.mp hframe c hc
  · exact h c hc

/-- The description of a title holds the characters of its lines and the line feeds between
them. -/
theorem Ast.Heading.forall_mem_descriptionText {h : Heading}
    (hlines : ∀ t ∈ h.description, ∀ c ∈ t, isLineBreak c = true → c = '\n') :
    ∀ c ∈ h.descriptionText, isLineBreak c = true → c = '\n' := by
  intro c hc hbreak
  by_contra hne
  obtain ⟨t, ht, hct⟩ := (Text.mem_joinLines hne).mp hc
  exact hne (hlines t ((Text.dropEndWhile_isPrefix _ _).subset ht) c hct hbreak)

/-- If the first of as many cells in each row is there, every row has cells. -/
theorem Ast.forall_cells_ne_nil {rows : List Row} (heven : firstRagged? rows = none)
    (hhead : ∀ r ∈ rows.head?, r.cells ≠ []) : ∀ r ∈ rows, r.cells ≠ [] := by
  intro r hr
  cases rows with
  | nil => cases hr
  | cons first rows =>
    have hfirst : first.cells ≠ [] := hhead first rfl
    rcases List.mem_cons.mp hr with rfl | hr
    · exact hfirst
    · rw [firstRagged?, List.find?_eq_none] at heven
      have hlength : r.cells.length = first.cells.length := by simpa using heven r hr
      intro hnil
      rw [hnil] at hlength
      exact hfirst (List.eq_nil_of_length_eq_zero hlength.symm)

namespace Node

open Ast (Document)

/-- The first examples of a document are those of a scenario. -/
theorem exists_examples_of_select? {d : Document} {x : Record}
    (h : Fragment.select? d.record .example = some x) :
    ∃ f ∈ d.feature, ∃ s ∈ f.body.scenarios, ∃ e ∈ s.examples, x = e.record := by
  obtain ⟨y, hy, hx⟩ := Option.bind_eq_some_iff.mp h
  obtain ⟨r, hr, hy⟩ := Option.bind_eq_some_iff.mp hy
  obtain ⟨f, hf, rfl⟩ := Option.map_eq_some_iff.mp hr
  have hx := List.mem_of_mem_head? (Option.mem_def.mpr hx)
  have hy := List.mem_of_mem_head? (Option.mem_def.mpr hy)
  refine ⟨f, hf, ?_⟩
  -- backgrounds and rules have no examples
  rcases List.mem_append.mp hy with hy | hy
  · rcases List.mem_append.mp hy with hy | hy
    · obtain ⟨b, -, rfl⟩ : ∃ b ∈ f.body.background, b.record = y := by simpa using hy
      simp [Ast.Background.record, Ast.Heading.record] at hx
    · obtain ⟨s, hs, rfl⟩ := List.mem_map.mp hy
      obtain ⟨e, he, rfl⟩ := List.mem_map.mp hx
      exact ⟨s, hs, e, he, rfl⟩
  · obtain ⟨b, -, rfl⟩ := List.mem_map.mp hy
    simp [Ast.Rule.record, Ast.Heading.record] at hx

/-- Examples that were read in English say what some examples say that are fit, if their text is
free of odd line breaks and their first row has cells. -/
theorem exists_examples_of_readPart {default : Value} {source : Text} {n : Node}
    (h : readPart default (.text english.name) source .example = .ok n)
    (hsource : ∀ c ∈ source, isLineBreak c = true → c = '\n') :
    ∃ p : Plain.Examples, n.bare = p.node
      ∧ ((∀ r ∈ p.rows.head?, r ≠ []) → p.Fit english) := by
  obtain ⟨d, r, hparse, hselect, hn⟩ := exists_parse_of_readPart h
  obtain ⟨f, hf, s, hs, e, he, hr⟩ := exists_examples_of_select? hselect
  refine ⟨e.plain, ?_, fun hcells => ?_⟩
  · rw [bare_of_build hn, hr, Ast.Examples.bare_ofRecord]
  · obtain ⟨hlaw, htables⟩ := Ast.Document.sound_of_parse_inFeature Dialect.english_mem hparse
      (by rw [Option.mem_def.mp hf]; rfl)
    have hchars : d.Obeys (.chars fun c => isLineBreak c = true → c = '\n') :=
      Ast.Document.obeys_chars_of_parse Dialect.english_mem hparse
        (Fragment.forall_mem_wrap_example hsource)
    have hlaw := ((hlaw f hf).body.scenarios s hs).examples e he
    have htables := ((htables f hf).body.scenarios s hs).examples e he
    have hchars := ((hchars f hf).body.scenarios s hs).examples e he
    refine Ast.Examples.fit_plain (hlaw.and (htables.and ⟨?_, fun _ _ => trivial, ?_⟩))
    · exact Ast.Heading.forall_mem_descriptionText hchars.heading
    · refine Ast.forall_cells_ne_nil htables.rows fun r hr => ?_
      have hhead := hcells r.values (by
        simpa [Ast.Examples.plain] using ⟨r, hr, rfl⟩)
      simpa [Ast.Row.values] using hhead

end Node

end FeatureTree
