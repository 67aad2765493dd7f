import FeatureTree.Proofs.Gherkin.Laws
import FeatureTree.Proofs.Plain.Rendered
import FeatureTree.Proofs.Schema.Records

/-!
# Records that are rendered

What is rendered of the node of a record depends neither on the data that the record was made from
nor on lines. A part without a keyword is rendered with one of the language that it stands under.

## Main results

* `Node.seen_ofRecord`: records that hold the same are rendered in the same way
* `Ast.Feature.shows_ofRecord`: the lines of the node of a feature's record
-/

namespace FeatureTree

namespace Node

variable (default : Value)

/-- What is seen of a node depends on what it holds in the place of texts, on what is seen of its
parts, and on the language that it stands under. -/
theorem seen_congr {o o' : Origin} {s s' : Shape Node}
    (hs : s.map (seen default) = s'.map (seen default)) (ho : o.language = o'.language) :
    (mk o s).seen default = (mk o' s').seen default := by
  have hcells : ∀ o (s : Shape Node), ((mk o s).seen default).cells
      = fun _ => Fault.ofOption ((s.map (seen default)).list? .cells) >>= (·.mapM Facet.cell) := by
    intro o s
    funext _
    rw [Shape.list?_map]
    cases h : s.list? .cells with
    | none => simp [seen, facet, shape, h, Fault.ofOption, bind, Except.bind]
    | some cells =>
      simp only [seen, facet, shape, h, Fault.ofOption, bind, Except.bind, Option.map_some,
        List.mapM_map]
      rfl
  have hkeyword : keywordOf default o s = keywordOf default o' s' := by
    rw [← keywordOf_map default o (seen default), hs, keywordOf_map, keywordOf, keywordOf, ho]
  have hfield : s.ask = s'.ask := by
    rw [← Shape.ask_map (seen default) s, hs, Shape.ask_map]
  have hfacet : ∀ f g : Facet, f.field = g.field → f.cells = g.cells → f.lines = g.lines →
      f = g := by
    rintro ⟨_, _, _⟩ ⟨_, _, _⟩ rfl rfl rfl
    rfl
  refine hfacet _ _ hfield ?_ ?_
  · rw [hcells, hcells, hs]
  · funext _
    change (mk o s).lines default = (mk o' s').lines default
    rw [lines_eq, lines_eq]
    simp only [shape, origin, hs, hkeyword]

/-- What is seen of the nodes of some kinds in a list, given nodes of the same kinds of which the
same
is seen. -/
theorem map_seen_ofKinds {ns ms : List Node}
    (h : List.Forall₂ (fun n m : Node => n.kind = m.kind ∧ n.seen default = m.seen default) ns ms)
    (kinds : List Kind) :
    (ofKinds kinds ns).map (seen default) = (ofKinds kinds ms).map (seen default) := by
  induction h with
  | nil => rfl
  | @cons n m ns ms hfirst _ ih =>
    rw [ofKinds, ofKinds] at ih ⊢
    rw [List.filter_cons, List.filter_cons, hfirst.1]
    split
    · rw [List.map_cons, List.map_cons, hfirst.2, ih]
    · exact ih

mutual

/-- What is seen of the node of a record does not depend on the data that the record was made
from. -/
theorem seen_ofRecord (language : Option Value) :
    (r : Record) → (ofRecord language r).seen default = (ofRecord language r.bare).seen default
  | ⟨kind, line, keyword, name, description, text, contentType, own, tags, children, steps,
      examples, rows, cells, block, comments, capsule⟩ => by
    have hlist : ∀ l, ∀ rs, List.Forall₂
        (fun n m : Node => n.kind = m.kind ∧ n.seen default = m.seen default)
        (ofRecords l rs) (ofRecords l (Record.bareList rs)) →
        (ofRecords l rs).map (seen default)
          = (ofRecords l (Record.bareList rs)).map (seen default) := by
      intro l rs h
      rw [← List.forall₂_eq_eq_eq, List.forall₂_map_left_iff, List.forall₂_map_right_iff]
      exact h.imp fun n m hnm => hnm.2
    have htags := fun l => hlist l tags (forall₂_seen_ofRecords l tags)
    have hsteps := fun l => hlist l steps (forall₂_seen_ofRecords l steps)
    have hexamples := fun l => hlist l examples (forall₂_seen_ofRecords l examples)
    have hrows := fun l => hlist l rows (forall₂_seen_ofRecords l rows)
    have hcells := fun l => hlist l cells (forall₂_seen_ofRecords l cells)
    have hcomments := fun l => hlist l comments (forall₂_seen_ofRecords l comments)
    have hblock := fun l => seen_ofBlock l block
    have hkinds := fun l => map_seen_ofKinds default (forall₂_seen_ofRecords l children)
    have hlast : ∀ l kinds, (ofKinds kinds (ofRecords l children)).getLast?.map (seen default)
        = (ofKinds kinds (ofRecords l (Record.bareList children))).getLast?.map (seen default) := by
      intro l kinds
      rw [← List.getLast?_map, ← List.getLast?_map, hkinds]
    have hhead : ∀ l kinds, (ofKinds kinds (ofRecords l children)).head?.map (seen default)
        = (ofKinds kinds (ofRecords l (Record.bareList children))).head?.map (seen default) := by
      intro l kinds
      rw [← List.head?_map, ← List.head?_map, hkinds]
    cases kind <;> simp only [Record.bare, ofRecord, reduceCtorEq, if_false, if_true] <;>
      refine seen_congr default ?_ rfl <;> simp only [Shape.map]
    case row => rw [hcells]
    case table => rw [hrows]
    case step => rw [hblock]
    case background => rw [hsteps]
    case scenario => rw [htags, hsteps]
    case outline => rw [htags, hsteps, hexamples]
    case rule => rw [htags, hkinds, hlast]
    case feature => rw [htags, hkinds _ [.scenario, .outline], hkinds _ [.rule], hlast]
    case featureFile => rw [hhead, hcomments]
    -- examples have tags and rows, the other kinds no parts
    all_goals first
      | rfl
      | rw [htags, hrows]

/-- Bare records are rendered like the records they come from. -/
theorem forall₂_seen_ofRecords (language : Option Value) : (rs : List Record) →
    List.Forall₂ (fun n m : Node => n.kind = m.kind ∧ n.seen default = m.seen default)
      (ofRecords language rs) (ofRecords language (Record.bareList rs))
  | [] => .nil
  | r :: rs => by
    rw [Record.bareList, ofRecords, ofRecords]
    exact .cons ⟨by rw [kind_ofRecord, kind_ofRecord, Record.kind_bare], seen_ofRecord language r⟩
      (forall₂_seen_ofRecords language rs)

/-- A bare block is rendered like the block it comes from. -/
theorem seen_ofBlock (language : Option Value) : (r : Option Record) →
    (ofBlock language r).map (seen default)
      = (ofBlock language (Record.bareOption r)).map (seen default)
  | none => rfl
  | some r => by
    rw [Record.bareOption, ofBlock, ofBlock, Option.map_some, Option.map_some,
      seen_ofRecord language r]

end

end Node

/-! ### Documents -/

namespace Ast

open Dialect (keywordsFor)

/-- Every part has a keyword, or the language has the given keywords. -/
def Law.worded (default language : Value) (k : PrimaryKeywords) : Law where
  heading _ h := h.keyword.trim = [] → keywordsFor default language = .ok k
  tag _ := True
  step _ := True
  rows _ := True

variable {default language : Value} {k : PrimaryKeywords}

/-- A titled part goes by its keyword, or by the one of its kind. -/
theorem Heading.keywordOf_eq {h : Heading} {o : Origin} {s : Shape Node} {keyword : Text}
    (hword : h.keyword.trim = [] → keywordsFor default language = .ok k)
    (hfield : s.field? .keyword = some (.text h.keyword.trim))
    (hkind : k.ofKind? s.kind = some keyword)
    (hlanguage : ((s.field? .language).or o.language).getD .null = language) :
    Node.keywordOf default o s = .ok (.text (h.plain.withKeyword keyword).keyword) := by
  have hstep : s.kind ≠ .step := by
    intro hs
    rw [hs] at hkind
    cases hkind
  rw [Node.keywordOf, hfield]
  cases hempty : h.keyword.trim.isEmpty with
  | true =>
    have hnil := List.isEmpty_iff.mp hempty
    simp [Plain.Heading.withKeyword, plain, hnil, hstep, hlanguage, Kind.keywordIn, hword hnil,
      hkind, bind, Except.bind, pure, Except.pure]
  | false => simp [Plain.Heading.withKeyword, plain, hempty]

/-- A background is rendered as the lines of the plain background, with keywords filled in. -/
theorem Background.shows_ofRecord {b : Background} (h : b.Obeys (.worded default language k)) :
    ((Node.ofRecord (some language) b.record).seen default).Shows
      (b.plain.withKeywords k).lines := by
  obtain ⟨steps, hs, hsteps⟩ := Plain.Background.shape_of_bare (b.bare_ofRecord (some language))
  have hkeyword : Node.keywordOf default (Node.ofRecord (some language) b.record).origin
      (Node.ofRecord (some language) b.record).shape
      = .ok (.text (b.heading.plain.withKeyword k.background).keyword) := by
    refine Heading.keywordOf_eq h.heading ?_ ?_ ?_ <;> rw [hs] <;> rfl
  rw [Facet.Shows, Node.seen, Node.facet, Node.lines_eq, hkeyword, hs]
  simp only [Shape.map, Shape.lines, Plain.shows_steps default hsteps, bind, Except.bind,
    Plain.Background.lines, plain, Plain.Background.withKeywords]
  rw [Plain.Heading.withKeyword_eq]
  exact Facet.titledLines_of_shows (fun _ => rfl) _ .nil .nil

/-- A table of examples is rendered as the lines of the plain table, with keywords filled in. -/
theorem Examples.shows_ofRecord {e : Examples} (h : e.Obeys (.worded default language k)) :
    ((Node.ofRecord (some language) e.record).seen default).Shows
      (e.plain.withKeywords k).lines := by
  obtain ⟨tags, rows, hs, htags, hrows⟩ :=
    Plain.Examples.shape_of_bare (e.bare_ofRecord (some language))
  have hkeyword : Node.keywordOf default (Node.ofRecord (some language) e.record).origin
      (Node.ofRecord (some language) e.record).shape
      = .ok (.text (e.heading.plain.withKeyword k.examples).keyword) := by
    refine Heading.keywordOf_eq h.heading ?_ ?_ ?_ <;> rw [hs] <;> rfl
  have hgrid := Node.forall₂_seen default (P := Facet.IsRow)
    (fun values _ m hm => Plain.isRow_of_bare default hm) hrows
  rw [Facet.Shows, Node.seen, Node.facet, Node.lines_eq, hkeyword, hs]
  simp only [Shape.map, Shape.lines, Facet.table_of_rows hgrid, bind, Except.bind,
    Plain.Examples.lines, plain, Plain.Examples.withKeywords]
  rw [Plain.Heading.withKeyword_eq]
  exact Facet.titledLines_of_shows (fun _ => rfl) _ (Plain.named_tags default htags) .nil

/-- Parts that are rendered one by one. -/
theorem forall₂_shows {α : Type} {record : α → Record} {lines : α → List Text} {xs : List α}
    (h : ∀ x ∈ xs, ((Node.ofRecord (some language) (record x)).seen default).Shows (lines x))
    {ls : List (List Text)} (hls : ls = xs.map lines) :
    List.Forall₂ Facet.Shows
      (((xs.map record).map (Node.ofRecord (some language))).map (Node.seen default)) ls := by
  rw [hls, List.map_map, List.map_map, List.forall₂_map_left_iff, List.forall₂_map_right_iff,
    List.forall₂_same]
  exact h

/-- Tags are rendered by their names. -/
theorem named_tagRecords (tags : List Tag) (language : Option Value) :
    List.Forall₂ Facet.IsNamed
      (((tags.map Tag.record).map (Node.ofRecord language)).map (Node.seen default))
      (tags.map (·.name)) :=
  Plain.named_tags default (by simp [Tag.bare_ofRecord])

/-- A scenario is rendered as the lines of the plain scenario, with keywords filled in. -/
theorem Scenario.shows_ofRecord {words : List Text} {s : Scenario}
    (h : s.Obeys (.worded default language k)) :
    ((Node.ofRecord (some language) (s.record words)).seen default).Shows
      ((s.plain words).withKeywords k).lines := by
  have hsteps : Facet.steps (((s.steps.map Step.record).map
      (Node.ofRecord (some language))).map (Node.seen default))
      = .ok ((Plain.stepLines ((s.steps.map Step.plain).map Plain.Step.withKeyword)).map .text) :=
    Plain.shows_steps default (by simp [Step.bare_ofRecord])
  have hexamples : List.Forall₂ Facet.Shows (((s.examples.map Examples.record).map
      (Node.ofRecord (some language))).map (Node.seen default))
      (((s.examples.map Examples.plain).map (Plain.Examples.withKeywords k)).map
        Plain.Examples.lines) :=
    forall₂_shows (fun e he => Examples.shows_ofRecord (h.examples e he)) (by simp)
  cases hout : s.isOutline words with
  | true =>
    have hs : (Node.ofRecord (some language) (s.record words)).shape
        = .outline s.heading.plain.title
          ((s.tags.map Tag.record).map (Node.ofRecord (some language)))
          ((s.steps.map Step.record).map (Node.ofRecord (some language)))
          ((s.examples.map Examples.record).map (Node.ofRecord (some language))) := by
      simp [record, kind, hout, Heading.record, Node.ofRecord, Node.shape, Plain.Heading.title,
        Heading.plain, Node.normalDescription]
    have hkeyword : Node.keywordOf default (Node.ofRecord (some language) (s.record words)).origin
        (Node.ofRecord (some language) (s.record words)).shape
        = .ok (.text (s.heading.plain.withKeyword k.outline).keyword) := by
      refine Heading.keywordOf_eq h.heading ?_ ?_ ?_ <;> rw [hs] <;> rfl
    rw [Facet.Shows, Node.seen, Node.facet, Node.lines_eq, hkeyword, hs]
    simp only [Shape.map, Shape.lines, hsteps, bind, Except.bind, Plain.Scenario.lines, plain,
      Plain.Scenario.withKeywords, hout, if_true, Option.map_some, Option.isSome_some,
      Option.getD_some]
    rw [Plain.Heading.withKeyword_eq]
    exact Facet.titledLines_of_shows (fun _ => rfl) _ (named_tagRecords s.tags _) hexamples
  | false =>
    have hs : (Node.ofRecord (some language) (s.record words)).shape
        = .scenario s.heading.plain.title
          ((s.tags.map Tag.record).map (Node.ofRecord (some language)))
          ((s.steps.map Step.record).map (Node.ofRecord (some language))) := by
      simp [record, kind, hout, Heading.record, Node.ofRecord, Node.shape, Plain.Heading.title,
        Heading.plain, Node.normalDescription]
    have hkeyword : Node.keywordOf default (Node.ofRecord (some language) (s.record words)).origin
        (Node.ofRecord (some language) (s.record words)).shape
        = .ok (.text (s.heading.plain.withKeyword k.scenario).keyword) := by
      refine Heading.keywordOf_eq h.heading ?_ ?_ ?_ <;> rw [hs] <;> rfl
    rw [Facet.Shows, Node.seen, Node.facet, Node.lines_eq, hkeyword, hs]
    simp only [Shape.map, Shape.lines, hsteps, bind, Except.bind, Plain.Scenario.lines, plain,
      Plain.Scenario.withKeywords, hout, Bool.false_eq_true, if_false, Option.map_none,
      Option.isSome_none, Option.getD_none, List.map_nil]
    rw [Plain.Heading.withKeyword_eq]
    exact Facet.titledLines_of_shows (fun _ => rfl) _ (named_tagRecords s.tags _) .nil

/-- The sections of a feature or rule are rendered one by one. -/
theorem Body.shows_ofRecord {words : List Text} {b : Body}
    (h : b.Obeys (.worded default language k)) :
    List.Forall₂ Facet.Shows
      ((b.background.map fun x => (Node.ofRecord (some language) x.record).seen default).toList
        ++ b.scenarios.map fun s => (Node.ofRecord (some language) (s.record words)).seen default)
      ((b.plain words).withKeywords k).parts := by
  refine List.rel_append ?_ ?_
  · cases hb : b.background with
    | none => simp [plain, Plain.Body.withKeywords, hb]
    | some x =>
      simpa [plain, Plain.Body.withKeywords, hb] using
        Background.shows_ofRecord (h.background x hb)
  · simp only [plain, Plain.Body.withKeywords, List.map_map, List.forall₂_map_left_iff,
      List.forall₂_map_right_iff, List.forall₂_same]
    exact fun s hs => Scenario.shows_ofRecord (h.scenarios s hs)

/-- A rule is rendered as the lines of the plain rule, with keywords filled in. -/
theorem Rule.shows_ofRecord {words : List Text} {r : Rule}
    (h : r.Obeys (.worded default language k)) :
    ((Node.ofRecord (some language) (r.record words)).seen default).Shows
      ((r.plain words).withKeywords k).lines := by
  obtain ⟨hsetup, htests, -⟩ := r.body.parts_ofRecord (some language) words []
  simp only [List.map_nil, List.append_nil] at hsetup htests
  have hs : (Node.ofRecord (some language) (r.record words)).shape
      = .rule r.heading.plain.title ((r.tags.map Tag.record).map (Node.ofRecord (some language)))
        (r.body.background.map fun x => Node.ofRecord (some language) x.record)
        (r.body.scenarios.map fun s => Node.ofRecord (some language) (s.record words)) := by
    rw [← hsetup, ← htests]
    simp [record, Heading.record, Node.ofRecord, Node.shape, Plain.Heading.title, Heading.plain,
      Node.normalDescription]
  have hkeyword : Node.keywordOf default (Node.ofRecord (some language) (r.record words)).origin
      (Node.ofRecord (some language) (r.record words)).shape
      = .ok (.text (r.heading.plain.withKeyword k.rule).keyword) := by
    refine Heading.keywordOf_eq h.heading ?_ ?_ ?_ <;> rw [hs] <;> rfl
  rw [Facet.Shows, Node.seen, Node.facet, Node.lines_eq, hkeyword, hs]
  simp only [Shape.map, Shape.lines, Plain.Rule.lines, plain, Plain.Rule.withKeywords]
  rw [Plain.Heading.withKeyword_eq]
  refine Facet.titledLines_of_shows (fun _ => rfl) [] (named_tagRecords r.tags _) ?_
  have hbody := @Body.shows_ofRecord default language k words r.body h.body
  simpa [Function.comp_def] using hbody

/-- The record of a feature with some language becomes a node with the lines of the feature. -/
theorem Feature.shows_ofRecord {f : Feature} (h : f.Obeys (.worded default language k)) :
    ((Node.ofRecord none { f.record with language }).seen default).Shows
      (f.plain.withKeywords k).lines := by
  obtain ⟨hsetup, htests, hrules⟩ := f.body.parts_ofRecord (some language) f.outlineWords f.rules
  have hs : (Node.ofRecord none { f.record with language }).shape
      = .feature f.heading.plain.title language
        ((f.tags.map Tag.record).map (Node.ofRecord (some language)))
        (f.body.background.map fun x => Node.ofRecord (some language) x.record)
        (f.body.scenarios.map fun s => Node.ofRecord (some language) (s.record f.outlineWords))
        (f.rules.map fun r => Node.ofRecord (some language) (r.record f.outlineWords)) := by
    rw [← hsetup, ← htests, ← hrules]
    simp [record, Heading.record, Node.ofRecord, Node.shape, Plain.Heading.title, Heading.plain,
      Node.normalDescription]
  have hkeyword : Node.keywordOf default (Node.ofRecord none { f.record with language }).origin
      (Node.ofRecord none { f.record with language }).shape
      = .ok (.text (f.heading.plain.withKeyword k.feature).keyword) := by
    refine Heading.keywordOf_eq h.heading ?_ ?_ ?_ <;> rw [hs] <;> rfl
  rw [Facet.Shows, Node.seen, Node.facet, Node.lines_eq, hkeyword, hs]
  simp only [Shape.map, Shape.lines, Plain.Feature.lines, plain, Plain.Feature.withKeywords]
  rw [Plain.Heading.withKeyword_eq]
  refine Facet.titledLines_of_shows (fun _ => rfl) [] (named_tagRecords f.tags _) ?_
  refine List.rel_append ?_ ?_
  · have hbody := @Body.shows_ofRecord default language k f.outlineWords f.body h.body
    simpa [Function.comp_def] using hbody
  · simp only [List.map_map, List.forall₂_map_left_iff, List.forall₂_map_right_iff,
      List.forall₂_same]
    exact fun r hr => Rule.shows_ofRecord (h.rules r hr)

end Ast

end FeatureTree
