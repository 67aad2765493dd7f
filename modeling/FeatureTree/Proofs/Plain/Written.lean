import FeatureTree.Proofs.Plain.Reread

/-!
# Lines that can be joined

What is written of a plain document that is legible can be joined and taken apart again
(`Plain.Joinable`): no line of it holds a line feed, and the last one is not empty. Descriptions and
doc strings are cut at their line feeds, and the line feeds in cells are escaped.

## Main results

* `Plain.Joinable.spell`: lines that can be joined are the lines of the document that they make
* `Plain.Feature.Legible.joinable`: the lines of a feature that is legible can be joined
-/

namespace FeatureTree

namespace Plain

variable {d : Dialect}

/-- Whether lines can be joined and taken apart again. -/
structure Joinable (ls : List Text) : Prop where
  oneLine : ∀ l ∈ ls, l.OneLine
  last : ∀ l ∈ ls.getLast?, l ≠ []

namespace Joinable

variable {xs ys : List Text}

/-- An empty group of lines can be joined. -/
theorem nil : Joinable [] := ⟨by simp, by simp⟩

/-- A line that is not empty can be joined. -/
theorem single {l : Text} (h : l.OneLine) (hne : l ≠ []) : Joinable [l] :=
  ⟨by simpa using h, by simpa using hne⟩

/-- Of lines in front of others, the last one may be empty. -/
theorem append_of_ne_nil (hx : ∀ l ∈ xs, l.OneLine) (hy : Joinable ys) (hne : ys ≠ []) :
    Joinable (xs ++ ys) := by
  constructor
  · intro l hl
    rcases List.mem_append.mp hl with hl | hl
    · exact hx l hl
    · exact hy.oneLine l hl
  · intro l hl
    rw [List.getLast?_append_of_ne_nil _ hne] at hl
    exact hy.last l hl

/-- Two groups of lines that can be joined can be joined together. -/
theorem append (hx : Joinable xs) (hy : Joinable ys) : Joinable (xs ++ ys) := by
  by_cases hne : ys = []
  · rw [hne, List.append_nil]
    exact hx
  · exact append_of_ne_nil hx.oneLine hy hne

/-- Many groups of lines that can be joined can be joined together. -/
theorem flatMap {α : Type} {f : α → List Text} {as : List α} (h : ∀ a ∈ as, Joinable (f a)) :
    Joinable (as.flatMap f) := by
  induction as with
  | nil => exact nil
  | cons a as ih =>
    rw [List.flatMap_cons]
    exact (h a (by simp)).append (ih fun b hb => h b (List.mem_cons_of_mem _ hb))

/-- Lines that can be joined are the lines of the document that they make. -/
theorem spell (h : Joinable xs) : Line.Spell (Line.ofText (Text.joinLines xs)) xs :=
  Line.spell_ofText_joinLines h.oneLine h.last

/-- Lines that can be joined can be joined once indented. -/
theorem indent (h : Joinable xs) : Joinable (Layout.indent xs) := by
  constructor
  · intro l hl
    obtain ⟨t, ht, rfl⟩ := List.mem_map.mp hl
    split
    · exact h.oneLine t ht
    · intro hm
      rcases List.mem_append.mp hm with hm | hm
      · exact isMargin_indentUnit.oneLine hm
      · exact h.oneLine t ht hm
  · intro l hl
    rw [Layout.indent, Layout.indentBy, List.getLast?_map] at hl
    obtain ⟨t, ht, rfl⟩ := Option.map_eq_some_iff.mp hl
    have hne := h.last t ht
    rw [if_neg (by simpa using hne)]
    simp [hne]

end Joinable

/-! ### Titles -/

/-- A title is one line if its keyword and its name are. -/
theorem oneLine_titleLine {k name : Text} (hk : k.OneLine) (hname : name.OneLine) :
    (Layout.titleLine k name).OneLine := by
  rw [Layout.titleLine]
  split
  · simpa [Text.OneLine] using hk
  · simpa [Text.OneLine] using ⟨hk, hname⟩

/-- How a part begins goes over the end of no line, and ends with no empty line if no body
follows. -/
theorem joinable_opening {kind : TokenKind} {h : Heading} (hfit : h.Fit d kind) {tags : List Text}
    (htags : ∀ t ∈ tags, IsTag t) (hasBody : Bool) :
    (∀ l ∈ Layout.opening tags (Layout.titleLine h.keyword h.name) h.description hasBody, l.OneLine)
      ∧ (hasBody = false →
        Joinable
          (Layout.opening tags (Layout.titleLine h.keyword h.name) h.description hasBody)) := by
  have htitle := oneLine_titleLine hfit.word.oneLine hfit.name_oneLine
  have hne : Layout.titleLine h.keyword h.name ≠ [] := by
    rw [Layout.titleLine]
    split <;> simp
  have hlines : ∀ l ∈ h.description.splitLines, l.OneLine :=
    fun l hl => Text.oneLine_of_mem_splitLines hl
  have htag : ∀ l ∈ (if tags.isEmpty then [] else [[' '].intercalate tags]), Text.OneLine l := by
    intro l hl
    split at hl
    · cases hl
    · obtain rfl := List.mem_singleton.mp hl
      exact Line.oneLine_tagLine htags
  have hbegin : Joinable ((if tags.isEmpty then [] else [[' '].intercalate tags])
      ++ [Layout.titleLine h.keyword h.name]) :=
    .append_of_ne_nil htag (.single htitle hne) (by simp)
  rw [Layout.opening]
  by_cases hempty : h.description = []
  · simp only [hempty, List.isEmpty_nil, if_true, List.append_nil]
    exact ⟨hbegin.oneLine, fun _ => hbegin⟩
  · have hdescribed : h.description.isEmpty = false := by simpa using hempty
    simp only [hdescribed, Bool.false_eq_true, if_false]
    have hblank : ∀ l ∈ (if hasBody then [[]] else [] : List Text), l.OneLine := by
      cases hasBody <;> simp [Text.OneLine]
    constructor
    · intro l hl
      rcases List.mem_append.mp hl with hl | hl
      · exact hbegin.oneLine l hl
      · rcases List.mem_append.mp hl with hl | hl
        · rcases List.mem_cons.mp hl with rfl | hl
          · simp [Text.OneLine]
          · exact hlines l hl
        · exact hblank l hl
    · rintro rfl
      obtain ⟨hsplit, -, -, hcons, -, hlast⟩ := hfit.normal.lines hempty
      have hdescription : Joinable ([] :: h.description.splitLines) := by
        constructor
        · intro l hl
          rcases List.mem_cons.mp hl with rfl | hl
          · simp [Text.OneLine]
          · exact hlines l hl
        · intro l hl
          rw [List.getLast?_cons_of_ne_nil hcons] at hl
          exact Text.ne_nil_of_isAllBlank (hlast l hl)
      exact hbegin.append (by simpa using hdescription)

/-- A part can be joined if its body and its inner parts can. -/
theorem joinable_part {kind : TokenKind} {h : Heading} (hfit : h.Fit d kind) {tags : List Text}
    (htags : ∀ t ∈ tags, IsTag t) {body : List Text} (hbody : Joinable body)
    {inner : List (List Text)} (hinner : ∀ p ∈ inner, Joinable p ∧ p ≠ []) :
    Joinable (h.part tags body inner) ∧ h.part tags body inner ≠ [] := by
  obtain ⟨hlines, hjoin⟩ := joinable_opening hfit htags !body.isEmpty
  have hopening : Joinable (Layout.opening tags (Layout.titleLine h.keyword h.name) h.description
      (!body.isEmpty) ++ body) := by
    by_cases hempty : body = []
    · subst hempty
      exact (hjoin rfl).append hbody
    · exact .append_of_ne_nil hlines hbody hempty
  have hparts : Joinable (inner.flatMap ([] :: ·)) := by
    refine .flatMap fun p hp => ?_
    obtain ⟨hp, hne⟩ := hinner p hp
    have hblank : ∀ l : Text, l ∈ [[]] → l.OneLine := by simp [Text.OneLine]
    exact .append_of_ne_nil hblank hp hne
  rw [Heading.part, Layout.part, List.map_id']
  refine ⟨hopening.append hparts, ?_⟩
  simp [Layout.opening]

/-! ### Tables and doc strings -/

/-- An escaped cell is one line. -/
theorem oneLine_escape (value : Text) : (Cell.escape value).OneLine := by
  intro hm
  obtain ⟨c, -, hc⟩ := List.mem_flatMap.mp hm
  revert hc
  simp only [Cell.escapeChar]
  split
  · decide
  · split
    · decide
    · split
      · decide
      · next h => simpa using Ne.symm h

/-- A line of a table is one line. -/
theorem oneLine_tableLine {widths : List Nat} {values : List Text} (hne : values ≠ [])
    (hlen : values.length ≤ widths.length) :
    (Layout.tableLine widths (values.map Cell.escape)).OneLine := by
  rw [Cell.tableLine_eq_boxes hne hlen]
  intro hm
  obtain ⟨b, -, hb⟩ := List.mem_flatMap.mp ((List.mem_cons.mp hm).resolve_left (by decide))
  obtain ⟨w, hw, hbox⟩ := Cell.box_eq b.1 b.2
  have hspace : ∀ {u : Text}, (∀ c ∈ u, c = ' ') → '\n' ∉ u := fun hu hm =>
    absurd (hu _ hm) (by decide)
  rw [hbox] at hb
  simp only [List.mem_append, List.mem_singleton] at hb
  rcases hb with ((hb | hb | hb | hb) | hb)
  · exact absurd hb (by decide)
  · exact oneLine_escape b.2 hb
  · exact hspace hw hb
  · exact absurd hb (by decide)
  · exact absurd hb (by decide)

/-- Lines that are not empty can be joined. -/
theorem joinable_of_forall {ls : List Text} (h : ∀ l ∈ ls, l.OneLine ∧ l ≠ []) : Joinable ls :=
  ⟨fun l hl => (h l hl).1, fun l hl => (h l (List.mem_of_getLast? hl)).2⟩

/-- The lines of a grid can be joined. -/
theorem Grid.joinable {rows : List (List Text)} (h : Grid rows) :
    Joinable (Layout.tableLines rows) := by
  refine joinable_of_forall fun l hl => ?_
  rw [Layout.tableLines, Layout.gridLines] at hl
  obtain ⟨cells, hcells, rfl⟩ := List.mem_map.mp hl
  obtain ⟨r, hr, rfl⟩ := List.mem_map.mp hcells
  refine ⟨oneLine_tableLine (h.ne_nil r hr) (Layout.length_le_columnWidths hr), ?_⟩
  simp [Layout.tableLine]

/-- The lines of an even table can be joined. -/
theorem Even.joinable {rows : List (List Text)} (h : Even rows) :
    Joinable (Layout.tableLines rows) :=
  tableLines_fillRow h ▸ h.grid.joinable

/-- The lines of a doc string that can be quoted can be joined. -/
theorem Quotable.joinable {content contentType : Text} (h : Quotable content contentType) :
    Joinable (Layout.docStringLines content contentType) := by
  have hmark := isFence_fenceFor content
  obtain ⟨q, hq, -, -, -, hblank⟩ := hmark.eq_triple
  have hline : (Layout.fenceFor content).OneLine := by
    intro hm
    rw [hq] at hm
    obtain rfl : '\n' = q := by simpa using hm
    exact absurd hblank (by decide)
  rw [Layout.docStringLines]
  refine .append_of_ne_nil (fun l hl => ?_) (.single hline (by simp [hq])) (by simp)
  rcases List.mem_cons.mp hl with rfl | hl
  · intro hm
    rcases List.mem_append.mp hm with hm | hm
    · exact hline hm
    · exact h.type_oneLine hm
  · split at hl
    · cases hl
    · exact Text.oneLine_of_mem_splitLines hl

/-- The lines of a legible argument can be joined. -/
theorem Block.Legible.joinable {b : Block} (h : b.Legible) : Joinable b.lines := by
  cases h with
  | table hne heven => exact heven.joinable
  | docString hquotable => exact hquotable.joinable

/-! ### Parts -/

/-- The lines of a legible step can be joined. -/
theorem Step.Legible.joinable {s : Step} (h : s.Legible d) : Joinable s.lines := by
  have hline : Joinable [s.keyword ++ ' ' :: s.text] := by
    refine .single (fun hm => ?_) (by simp)
    rcases List.mem_append.mp hm with hm | hm
    · exact h.word.oneLine hm
    · exact h.text_oneLine ((List.mem_cons.mp hm).resolve_left (by decide))
  refine hline.append ?_
  cases hb : s.block with
  | none => exact .nil
  | some b => exact (h.block b hb).joinable.indent

/-- The lines of legible steps can be joined. -/
theorem joinable_stepLines {ps : List Step} (h : ∀ p ∈ ps, p.Legible d) : Joinable (stepLines ps) :=
  .flatMap fun p hp => (h p hp).joinable.indent

/-- A legible background has lines that can be joined. -/
theorem Background.Legible.joinable {b : Background} (h : b.Legible d) :
    Joinable b.lines ∧ b.lines ≠ [] :=
  joinable_part h.heading (by simp) (joinable_stepLines h.steps) (by simp)

/-- Legible examples have lines that can be joined. -/
theorem Examples.Legible.joinable {e : Examples} (h : e.Legible d) :
    Joinable e.lines ∧ e.lines ≠ [] :=
  joinable_part h.heading h.tags (Even.joinable h.grid).indent (by simp)

/-- A legible scenario has lines that can be joined. -/
theorem Scenario.Legible.joinable {s : Scenario} (h : s.Legible d) :
    Joinable s.lines ∧ s.lines ≠ [] := by
  refine joinable_part h.heading h.tags (joinable_stepLines h.steps) fun p hp => ?_
  obtain ⟨e, he, rfl⟩ := List.mem_map.mp hp
  exact Examples.Legible.joinable (h.examples e he)

/-- The parts of a legible body have lines that can be joined. -/
theorem Body.Legible.joinable {b : Body} (h : b.Legible d) :
    ∀ p ∈ b.parts, Joinable p ∧ p ≠ [] := by
  intro p hp
  rcases List.mem_append.mp hp with hp | hp
  · obtain ⟨x, hx, rfl⟩ := Option.map_eq_some_iff.mp (Option.mem_toList.mp hp)
    exact Background.Legible.joinable (h.background x hx)
  · obtain ⟨x, hx, rfl⟩ := List.mem_map.mp hp
    exact Scenario.Legible.joinable (h.scenarios x hx)

/-- A legible rule has lines that can be joined. -/
theorem Rule.Legible.joinable {r : Rule} (h : r.Legible d) : Joinable r.lines ∧ r.lines ≠ [] :=
  joinable_part h.heading h.tags .nil (Body.Legible.joinable h.body)

/-- The lines of a feature that is legible can be joined. -/
theorem Feature.Legible.joinable {f : Feature} (h : f.Legible d) :
    Joinable f.lines ∧ f.lines ≠ [] := by
  refine joinable_part h.heading h.tags .nil fun p hp => ?_
  rcases List.mem_append.mp hp with hp | hp
  · exact Body.Legible.joinable h.body p hp
  · obtain ⟨r, hr, rfl⟩ := List.mem_map.mp hp
    exact Rule.Legible.joinable (h.rules r hr)

end Plain

end FeatureTree
