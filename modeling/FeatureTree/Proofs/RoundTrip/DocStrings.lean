import FeatureTree.Proofs.Plain.Arguments
import FeatureTree.Proofs.RoundTrip.Built
import FeatureTree.Proofs.RoundTrip.Language
import FeatureTree.Proofs.RoundTrip.Tables
import FeatureTree.Proofs.Text.Survival

/-!
# Doc strings that are built and read back

A doc string is written between two delimiters, with the delimiters in its content escaped, and with
the indentation of the step whose argument it is. Its content comes back as what is read of its
written form, and so it comes back as it is if it survives the delimiter that is chosen. That holds
of every content that does not hold both of the escaped delimiters, on its own and at every step of
a feature, in every language.

## Main results

* `Plain.Block.reread_docString`: what comes back of a doc string
* `Store.docString_roundTrips`: doc strings come back, on their own and as arguments of steps
* `Node.docString_chosenWell_iff`: when the choice of the delimiter changes a content that the other
  one would have kept
-/

namespace FeatureTree

open Ast (Document)
open Dialect (english)

namespace Plain

variable {d : Dialect} {content contentType : Text}

/-! ### What comes back of a doc string -/

/-- A content without carriage returns comes back as what is read of its written form. -/
theorem Block.reread_docString (hcr : '\r' ∉ content) (contentType : Text) :
    (Block.docString content contentType).reread
      = .docString (Text.restore (Layout.fenceFor content)
          (Text.protect (Layout.fenceFor content) content)) contentType := by
  have hmark := isFence_fenceFor content
  rw [reread, Block.docString.injEq, and_iff_left rfl]
  generalize Layout.fenceFor content = mark at hmark
  have hline : ∀ l ∈ content.splitLines,
      Reading.rereadLine mark l = Text.restore mark (Text.protect mark l) := by
    intro l hl
    refine Text.dropEndWhile_eq_self fun c hc => ?_
    have hmem : c ∈ Text.restore mark (Text.protect mark l) := List.mem_of_mem_getLast? hc
    have hcn : c ≠ '\n' := by
      rintro rfl
      exact Text.not_mem_restore_protect hmark (by decide) (Text.oneLine_of_mem_splitLines hl) hmem
    have hcr' : c ≠ '\r' := by
      rintro rfl
      refine Text.not_mem_restore_protect hmark (by decide) (fun h => hcr ?_) hmem
      exact (Text.infix_of_mem_splitLines hl).subset h
    simp [hcn, hcr']
  rw [contentLines]
  by_cases hc : content = []
  · obtain ⟨q, rfl, he, -⟩ := hmark.eq_triple
    rw [hc, Text.restore, he]
    rfl
  · rw [if_neg (by simpa using hc), List.map_congr_left hline,
      ← Text.splitLines_restore_protect hmark, Text.joinLines_splitLines]

/-- A content without carriage returns can be quoted. -/
theorem quotable_of_not_mem (hcr : '\r' ∉ content) (htype : contentType.Trimmed)
    (hline : contentType.OneLine) : Quotable content contentType where
  lines _ hl := ⟨Text.oneLine_of_mem_splitLines hl, fun _ hc h =>
    hcr ((Text.infix_of_mem_splitLines hl).subset (h ▸ List.mem_of_mem_getLast? hc))⟩
  type_trimmed := htype
  type_oneLine := hline

/-! ### Features around a doc string -/

/-- The node of a feature, or of a file with a path that holds it. -/
def Feature.nodeAs (f : Feature) (kind : Kind) (path : Value) : Node :=
  if kind = .featureFile then .mk {} (.featureFile path (some f.node) []) else f.node

/-- What is written of a feature is read in whatever dialect finds its language: the same one, or
any one if the language is named. -/
theorem exists_parse_linesIn {given : Dialect} (hd : d ∈ Dialect.all) (asFile : Bool)
    (hgiven : given = d ∨ asFile = true ∧ d ≠ english) {f : Feature} (hf : f.Legible d) :
    ∃ x : Ast.Feature, x.plain = f.reread d
      ∧ Document.parse given (Text.joinLines (linesIn asFile f))
        = .ok (Document.empty.withFeature x) := by
  cases asFile with
  | false =>
    obtain rfl : given = d := by simpa using hgiven
    exact parse_legible hd hf
  | true =>
    have hnamed : d ≠ english ∨ given = d := hgiven.symm.imp (·.2) id
    exact parse_legible_file hnamed hd hf

/-- Where a step of a feature is given an argument that comes back, it comes back with the
feature. -/
theorem Feature.block_reread_argue {b : Block} (hb : b.Fit) (k : PrimaryKeywords) {f : Feature}
    {p : StepPlace} {step : Step} (hstep : f.stepAt? p = some step) :
    ∃ y, (((f.argue p b).withKeywords k).reread d).stepAt? p = some y ∧ y.block = some b := by
  rw [stepAt?_reread, stepAt?_withKeywords, stepAt?_argue, hstep]
  refine ⟨_, rfl, ?_⟩
  have hblock : (step.argue b).withKeyword.block = some b := by
    rw [Step.withKeyword]
    split <;> rfl
  rw [Step.reread, hblock, Option.map_some, hb.reread_eq]

end Plain

namespace Store

variable {s : Store} {i : NodeId} {n : Node} {d given : Dialect} {path : Value}
  {f : Plain.Feature} {kind : Kind}

/-- The text of a feature, alone or in a file, that is legible with the keywords of its language. -/
theorem text_of_legible (hd : d ∈ Dialect.all) (hi : s.Reaches i) (h : s.Represents i n)
    (hbare : n.bare = f.nodeAs kind path)
    (hlegible : (f.withKeywords d.primaryKeywords).Legible d) :
    s.text i = .ok (Text.joinLines
      (Plain.linesIn (kind = .featureFile) (f.withKeywords d.primaryKeywords))) := by
  have hk : Dialect.keywordsFor s.dialect (.text f.language) = .ok d.primaryKeywords := by
    have hlanguage : f.language = d.name := hlegible.language
    rw [hlanguage]
    exact Dialect.keywordsFor_name hd _
  have hwords : ∀ kind w, d.primaryKeywords.ofKind? kind = some w → w ≠ [] := fun kind _ =>
    (Dialect.speaks_of_mem hd).primary_ne_nil kind
  rw [Plain.Feature.nodeAs] at hbare
  by_cases hkind : kind = .featureFile
  · rw [if_pos hkind] at hbare
    rw [Plain.linesIn, if_pos (by simpa using hkind)]
    exact text_of_legible_file hk hwords hi h hbare hlegible
  · rw [if_neg hkind] at hbare
    rw [Plain.linesIn, if_neg (by simpa using hkind)]
    have hkeywords : (n.withKeywords d.primaryKeywords).bare
        = (f.withKeywords d.primaryKeywords).node := by
      rw [Node.bare_withKeywords, hbare, Plain.Feature.withKeywords_node]
    rw [text_of_prints (h.prints_feature hk hwords hbare hi) .null]
    exact Node.text_of_lines
      ((f.withKeywords d.primaryKeywords).shows_of_bare .null hlegible hkeywords)

/-- A doc string comes back as it is if it does not hold both of the escaped delimiters and no line
of it ends in a carriage return: on its own, and as the argument of any step of a feature that is
written and read as a whole, alone or in a file. -/
theorem docString_roundTrips {content contentType : Text} (hd : d ∈ Dialect.all)
    (hreturn : ∀ l ∈ content.splitLines, ∀ c ∈ l.getLast?, c ≠ '\r')
    (hboth : ¬(escapedFence quoteFence <:+: content ∧ escapedFence backtickFence <:+: content))
    (htype : contentType.Trimmed) (hline : contentType.OneLine) :
    (∀ {default dialect : Value}, Dialect.nameOr default dialect = .text d.name →
      ['*', ' '] ∈ d.stepKeywords →
      (Plain.Part.block (.docString content contentType)).RoundTrips default dialect)
    ∧ ∀ {f : Plain.Feature} {p : Plain.StepPlace} {step : Plain.Step},
      f.stepAt? p = some step → (f.withKeywords d.primaryKeywords).Legible d →
      ∀ {s : Store} {i : NodeId} {n : Node} {kind : Kind} {path : Value},
      kind = .feature ∨ kind = .featureFile → s.Reaches i → s.Represents i n →
      n.bare = (f.argue p (.docString content contentType)).nodeAs kind path →
      ∀ {given : Dialect} {default dialect : Value} (path' : Text), given ∈ Dialect.all →
      Dialect.nameOr default dialect = .text given.name →
      given = d ∨ kind = .featureFile ∧ d ≠ english →
      ∃ (t : Text) (m : Node) (x : Plain.Feature) (y : Plain.Step),
        s.text i = .ok t ∧ Node.read default dialect path' t kind = .ok m
        ∧ m.bare = x.nodeAs kind (.text path')
        ∧ x.stepAt? p = some y ∧ y.block = some (.docString content contentType) := by
  have hboth' : Text.hasPart (escapedFence quoteFence) content = false
      ∨ Text.hasPart (escapedFence backtickFence) content = false := by
    rw [← Bool.not_eq_true, ← Bool.not_eq_true, Text.hasPart_iff, Text.hasPart_iff]
    exact not_and_or.mp hboth
  have hfit : (Plain.Block.docString content contentType).Fit :=
    .docString ⟨fun l hl => ⟨Text.oneLine_of_mem_splitLines hl, hreturn l hl⟩, hboth', htype, hline⟩
  refine ⟨fun hdialect hbullet => Plain.Block.roundTrips hd hbullet hdialect hfit, ?_⟩
  intro f p step hstep hlegible s i n kind path hkind hi h hbare given default dialect path'
    hgiven hdialect hfinds
  -- the feature with the doc string is legible, and so it is written and read
  have hargued : ((f.argue p (.docString content contentType)).withKeywords
      d.primaryKeywords).Legible d := by
    rw [Plain.Feature.withKeywords_argue]
    exact Plain.Feature.Legible.argue hfit.legible hlegible p
  have htext := text_of_legible hd hi h hbare hargued
  obtain ⟨x, hx, hparse⟩ := Plain.exists_parse_linesIn hd (kind = .featureFile)
    (by simpa using hfinds) hargued
  obtain ⟨m, hm, hmbare⟩ := Node.exists_read_of_parse hgiven default path' hkind hparse rfl
  obtain ⟨y, hy, hblock⟩ := Plain.Feature.block_reread_argue hfit d.primaryKeywords hstep
  refine ⟨_, m, x.plain, y, htext, ?_, hmbare, hx ▸ hy, hblock⟩
  rw [← Node.read_nameOr, hdialect]
  exact hm

/-- A content of delimiters, blanks and halves of escaped delimiters. -/
def mixedContent : Text := "\"\"\"\"\n  \n\\\"\\\"```\\`\n".toList

/-- The place of the step in the feature in French. -/
def frenchStep : Plain.StepPlace := ⟨none, some 0, 0⟩

/-- A store in which a name holds a file with the feature in French, with a doc string. -/
def frenchNote : NodeId × Store :=
  let f := frenchFeature.argue frenchStep (.docString mixedContent ['a', ' ', 'b'])
  let (i, s) := ({} : Store).plant (f.nodeAs .featureFile .null)
  (i, s.hold "file" (some i))

/-- A doc string with both fences in it, alone and as the argument of a French step. -/
theorem docString_roundTrips_french :
    (Plain.Part.block (.docString mixedContent ['a', ' ', 'b'])).RoundTrips
        .null (.text ['f', 'r'])
      ∧ ∃ (t : Text) (m : Node) (x : Plain.Feature) (y : Plain.Step),
        frenchNote.2.text frenchNote.1 = .ok t
        ∧ Node.read (.text english.name) .null [] t .featureFile = .ok m
        ∧ m.bare = x.nodeAs .featureFile (.text []) ∧ x.stepAt? frenchStep = some y
        ∧ y.block = some (.docString mixedContent ['a', ' ', 'b']) := by
  obtain ⟨d, hd, hname⟩ : ∃ d ∈ Dialect.all, d.name = ['f', 'r'] := by decide
  obtain ⟨hbullet, hrule⟩ := Dialect.bullet_mem_stepKeywords hd (by rw [hname]; decide)
  have hne : d ≠ english := by
    rintro rfl
    exact absurd hname (by decide)
  have hcr : '\r' ∉ mixedContent := by decide
  have hboth : ¬(escapedFence quoteFence <:+: mixedContent
      ∧ escapedFence backtickFence <:+: mixedContent) := by
    rw [← Text.hasPart_iff, ← Text.hasPart_iff]
    decide
  have htype : Text.trim ['a', ' ', 'b'] = ['a', ' ', 'b'] := by decide
  have hline : '\n' ∉ ['a', ' ', 'b'] := by decide
  have hreturn : ∀ l ∈ mixedContent.splitLines, ∀ c ∈ l.getLast?, c ≠ '\r' := fun l hl =>
    ((Plain.quotable_of_not_mem hcr htype hline).lines l hl).no_return
  obtain ⟨halone, hstep⟩ := docString_roundTrips hd hreturn hboth htype hline
  have hfit := built_frenchFeature.fit hd hname.symm (.inr hbullet) (.inr hrule)
  have hreaches : frenchNote.2.Reaches frenchNote.1 :=
    .held (by decide) (by simp [frenchNote, hold, roots])
  have hplant := represents_plant ((frenchFeature.argue frenchStep
    (.docString mixedContent ['a', ' ', 'b'])).nodeAs .featureFile .null) {}
  have hrepresents : frenchNote.2.Represents frenchNote.1 _ :=
    hplant.mono (fun j e he => ⟨e, he, rfl, rfl⟩) fun c q hq => hq
  refine ⟨halone (by rw [hname]; rfl) hbullet, ?_⟩
  exact hstep (p := frenchStep) rfl (Plain.Feature.Fit.legible hfit) (.inr rfl) hreaches
    hrepresents rfl [] Dialect.english_mem rfl (.inr ⟨rfl, hne⟩)

end Store

namespace Node

/-! ### The choice of the delimiter -/

/-- The delimiter is chosen well, unless the content holds the escaped quotes, all of them taken
apart, and escaped backticks that are not. What is written between the chosen delimiters is read as
itself exactly if the content survives them. -/
theorem docString_chosenWell_iff {d : Dialect} (hd : d ∈ Dialect.all)
    (hbullet : ['*', ' '] ∈ d.stepKeywords) {default dialect : Value}
    (hdialect : Dialect.nameOr default dialect = .text d.name) {content contentType : Text}
    (hcr : '\r' ∉ content) (htype : contentType.Trimmed) (hline : contentType.OneLine) :
    (Text.ChosenWell content
      ↔ ¬(escapedFence quoteFence <:+: content ∧ Text.TakenApart quoteFence content
        ∧ ¬Text.TakenApart backtickFence content))
    ∧ ∀ n : Node, n.bare = (Plain.Block.docString content contentType).node → ∀ fallback,
      ∃ t m content', n.text fallback = .ok t ∧ read default dialect [] t .docString = .ok m
        ∧ m.bare = (Plain.Block.docString content' contentType).node
        ∧ (content' = content ↔ Text.Survives (Layout.fenceFor content) content) := by
  refine ⟨Text.chosenWell_iff content, fun n hn fallback => ?_⟩
  obtain ⟨m, hm, hmbare⟩ := Plain.isReadBack_reread_docString hd hbullet default
    (Plain.quotable_of_not_mem hcr htype hline)
  rw [Plain.Block.reread_docString hcr] at hmbare
  have hlines := (Plain.Block.docString content contentType).shows_of_bare fallback hn
  refine ⟨_, m, _, text_of_lines hlines, ?_, hmbare, Iff.rfl⟩
  rw [← read_nameOr, hdialect, read, if_neg (by decide)]
  exact hm

/-- Escaped quotes that are taken apart by two more of them, and escaped backticks. -/
def apartContent : Text := "\\\"\\\"\\\"\"\"\\`\\`\\`".toList

/-- The content would survive the quotes, and it is changed by the backticks that are chosen. -/
theorem docString_chosenWell_iff_apart :
    ¬Text.ChosenWell apartContent ∧ Text.Survives quoteFence apartContent
      ∧ Layout.fenceFor apartContent = backtickFence
      ∧ ∃ t m content', (Plain.Block.docString apartContent []).node.text .null = .ok t
        ∧ read (.text english.name) .null [] t .docString = .ok m
        ∧ m.bare = (Plain.Block.docString content' []).node ∧ content' ≠ apartContent := by
  have hquotes : Text.Survives quoteFence apartContent := by decide
  have hchosen : ¬Text.Survives (Layout.fenceFor apartContent) apartContent := by decide
  have hdialect : Dialect.nameOr (.text english.name) .null = .text english.name := rfl
  have hcr : '\r' ∉ apartContent := by decide
  have htype : Text.trim [] = [] := by decide
  have hline : '\n' ∉ ([] : Text) := by decide
  obtain ⟨-, hread⟩ :=
    docString_chosenWell_iff Dialect.english_mem (by decide) hdialect hcr htype hline
  obtain ⟨t, m, content', ht, hm, hbare, hkept⟩ :=
    hread (Plain.Block.docString apartContent []).node rfl .null
  exact ⟨fun h => hchosen (h ⟨_, .inl rfl, hquotes⟩), hquotes, by decide, t, m, content', ht, hm,
    hbare, fun h => hchosen (hkept.mp h)⟩

end Node

end FeatureTree
