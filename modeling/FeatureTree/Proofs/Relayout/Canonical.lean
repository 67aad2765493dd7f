import FeatureTree.Proofs.Node.Read
import FeatureTree.Proofs.Plain.Rendered
import FeatureTree.Proofs.Relayout.Blocks
import FeatureTree.Proofs.RoundTrip.File
import Mathlib.Logic.Relation

/-!
# What edits of the layout keep

Every edit of the layout of a text that is read in English gives a text that is read in English, as
a document of the same gist, and so does a sequence of edits. So what is written of the text stays
the same: its text is canonical.

The lines of the edited text are read beside those of the text. An edit that keeps each line in its
place is a matter of steps alone. The others replace a block of lines: the lines in front of it and
behind it are read step by step, and what is to be shown of the block is that it takes readers that
are on a level to readers that are on a level again.

## Main results

* `ParseState.Exchange.reachedBy`: lines can be read in place of a block of lines
* `ParseState.Trace.reachedBy_of_edit`: lines that were edited lead a reader to the same place, with
  a document of the same gist
* `Ast.Document.exists_parse_of_relayouts`: a text that was edited is accepted, as a document of the
  same gist
* `Node.text_of_relayouts`: what is written of a text stays the same after any sequence of edits
-/

namespace FeatureTree

open Dialect (english)

section

variable {xs : List Text} {ms : List Marked}

/-- The lines that a description still gets have no breaks. -/
theorem noBreak_descriptionAhead (h : DescribedPlainly ms) :
    ∀ l ∈ descriptionAhead ms, l.NoBreak := by
  induction ms with
  | nil => exact fun l hl => by cases hl
  | cons m ms ih =>
    have hrest := ih fun n hn => h n (List.mem_cons_of_mem _ hn)
    rw [descriptionAhead]
    split
    · next hrole => exact List.forall_mem_cons.mpr ⟨h m List.mem_cons_self hrole, hrest⟩
    · split
      · exact hrest
      · exact fun l hl => by cases hl

/-- The lines of the description that goes on have no breaks. -/
theorem noBreak_descriptionBehind (h : DescribedPlainly ms) (hxs : ∀ l ∈ xs, l.NoBreak) :
    ∀ l ∈ descriptionBehind xs ms, l.NoBreak := by
  induction ms generalizing xs with
  | nil => exact hxs
  | cons m ms ih =>
    have hrest : DescribedPlainly ms := fun n hn => h n (List.mem_cons_of_mem _ hn)
    rw [descriptionBehind]
    split
    · next hrole =>
      refine ih hrest (List.forall_mem_append.mpr ⟨hxs, ?_⟩)
      exact List.forall_mem_singleton.mpr (h m List.mem_cons_self hrole)
    · refine ih hrest ?_
      split
      · exact hxs
      · exact fun l hl => by cases hl

/-- No description goes on behind lines that end it. -/
theorem descriptionBehind_eq_nil (h : ∀ m ∈ ms, m.role.isFree = false) (hne : ms ≠ [])
    (xs : List Text) : descriptionBehind xs ms = [] := by
  induction ms generalizing xs with
  | nil => exact absurd rfl hne
  | cons m ms ih =>
    rw [descriptionBehind_cons, descriptionBehind_of_not_free (h m List.mem_cons_self)]
    by_cases hms : ms = []
    · rw [hms]
      rfl
    · exact ih (fun n hn => h n (List.mem_cons_of_mem _ hn)) hms _

/-- A blank line outside of a description makes no difference to its normal form. -/
theorem normalLines_behind_blank {before after : List Marked} {role : Role} {b : Text}
    (hbefore : DescribedPlainly before) (hafter : DescribedPlainly after)
    (hb : role = .description → (Line.withoutEnd b).NoBreak) (hblank : b.isAllBlank = true)
    (hfree : role.isFree = true) (houtside : Outside before after) :
    Text.normalLines (descriptionBehind (descriptionBehind [] before) [⟨role, b⟩]
        ++ descriptionAhead after)
      = Text.normalLines (descriptionBehind [] before ++ descriptionAhead after) := by
  by_cases hrole : role = .description
  · rw [descriptionBehind_of_role hrole, List.append_assoc]
    refine Text.normalLines_append (noBreak_descriptionBehind hbefore fun l hl => by cases hl)
      (noBreak_descriptionAhead hafter) (hb hrole) ?_ houtside.description
    rw [Line.isAllBlank_withoutEnd, hblank]
  · rw [descriptionBehind_of_free hfree hrole]

end

namespace ParseState

variable {s s' t : ParseState} {ls ls' rest rest' : List Line} {ms : List Marked}
  {xs ys : List Text}

/-- Two readers in front of a text. -/
theorem level_start : Level (start english) (start english) [] [] where
  left := inEnglish_start
  right := inEnglish_start
  place := rfl
  document := .of_not_describes rfl rfl [] []

/-- Lines can stand for themselves where the descriptions so far have one normal form. -/
theorem rewrites_self (hplain : DescribedPlainly ms)
    (hnormal : Text.normalLines (xs ++ descriptionAhead ms)
      = Text.normalLines (ys ++ descriptionAhead ms)) : Rewrites xs ys ms (ms.map (·.text)) := by
  refine .of_respaced ?_ hplain hnormal
  rw [List.forall₂_map_right_iff]
  exact List.forall₂_same.mpr fun m _ => .refl _ _

namespace Trace

/-- No line leads to the end. -/
theorem place_ne_done (h : Trace rest s ls ms t) (hs : s.place ≠ .done) : t.place ≠ .done := by
  induction h with
  | nil s => exact hs
  | @cons s t l ls e token ms chosen reads leaves english tail ih =>
    refine ih fun hdone => ?_
    rw [State.kind_of_next_done (mem_of_chosen? chosen) hdone] at reads
    cases reads

/-- A doc string is open behind the line that opens it and behind its content only. -/
theorem inText_eq_false (h : Trace rest s ls ms t) (hs : ms = [] → s.place.inText = false)
    (hlast : ∀ m ∈ ms.getLast?, m.role ≠ .opening ∧ m.role ≠ .content) :
    t.place.inText = false := by
  induction h with
  | nil s => exact hs rfl
  | @cons s t l ls e token ms chosen reads leaves english tail ih =>
    refine ih (fun hnil => ?_) fun m hm => ?_
    · have hrole := hlast ⟨s.place.role e.kind, l.text⟩ (by rw [hnil]; rfl)
      by_contra htext
      have htext : e.next.inText = true := Bool.eq_true_of_not_eq_false htext
      rcases State.role_of_next_inText (mem_of_chosen? chosen) htext with h | h
      · exact hrole.1 h
      · exact hrole.2 h
    · refine hlast m ?_
      rw [List.getLast?_cons, Option.mem_def.mp hm]
      rfl

/-- A reader that looks ahead over lines that stay as they are sees the same. -/
theorem sameAhead_self (h : Trace rest s ls ms t) (hs : s.InEnglish) (hplain : DescribedPlainly ms)
    (htexts : ls'.map (·.text) = ms.map (·.text)) (hahead : Reading.plain.SameAhead rest rest') :
    Reading.plain.SameAhead (ls ++ rest) (ls' ++ rest') :=
  have hlines : Rewrites [] [] ms (ls'.map (·.text)) := by
    rw [htexts]
    exact rewrites_self hplain rfl
  h.sameAhead hs hlines hahead

/-- Lines that stay as they are take readers on a level to a level. -/
theorem unchanged (h : Trace rest s ls ms t) (hplain : DescribedPlainly ms)
    (htexts : ls'.map (·.text) = ms.map (·.text)) (hlevel : Level s s' xs ys)
    (hreading : s'.reading = s.reading)
    (hnormal : Text.normalLines (xs ++ descriptionAhead ms)
      = Text.normalLines (ys ++ descriptionAhead ms))
    (hahead : Reading.plain.SameAhead rest rest') :
    ∃ t', Trace rest' s' ls' ms t' ∧ Level t t' (descriptionBehind xs ms) (descriptionBehind ys ms)
      ∧ t'.reading = t.reading
      ∧ Text.normalLines (descriptionBehind xs ms)
        = Text.normalLines (descriptionBehind ys ms) := by
  have hlines : Rewrites xs ys ms (ls'.map (·.text)) := by
    rw [htexts]
    exact rewrites_self hplain hnormal
  have hrun := h.rewritten hlines hlevel hreading hahead
  rwa [htexts, remark_texts] at hrun

end Trace

/-! ### Blocks that are exchanged -/

/-- Whether lines lead a reader to a level with one that has read the lines of a text, where both
descriptions have one normal form. -/
def ReachedBy (t : ParseState) (ls : List Line) : Prop :=
  ∃ ms t' xs ys, Trace [] (start english) ls ms t' ∧ DescribedPlainly ms ∧ Level t t' xs ys
    ∧ Text.normalLines xs = Text.normalLines ys

/-- Whether lines can be read in place of a block of lines of a text: readers that look ahead see
the same, and readers that are on a level in front of both are on a level behind them. -/
structure Exchange (before block after : List Marked) (ts : List Text) : Prop where
  ahead : ∀ {s u lb lb' rest rest'}, Trace rest s lb block u → lb'.map (·.text) = ts →
    Reading.plain.SameAhead rest rest' → Reading.plain.SameAhead (lb ++ rest) (lb' ++ rest')
  levels : ∀ {s s' u la lb lb' rest rest'}, Trace (lb ++ rest) (start english) la before s →
    Trace rest s lb block u → lb'.map (·.text) = ts →
    Level s s' (descriptionBehind [] before) (descriptionBehind [] before) →
    Reading.plain.SameAhead rest rest' → ∃ ms u', Trace rest' s' lb' ms u'
      ∧ DescribedPlainly ms ∧ u'.reading = u.reading
      ∧ Level u u' (descriptionBehind (descriptionBehind [] before) block)
        (descriptionBehind (descriptionBehind [] before) ms)
      ∧ Text.normalLines (descriptionBehind (descriptionBehind [] before) block
          ++ descriptionAhead after)
        = Text.normalLines (descriptionBehind (descriptionBehind [] before) ms
          ++ descriptionAhead after)

/-- The lines of an edited text lead a reader where the lines of the text lead one, if a block of
lines was exchanged. -/
theorem Exchange.reachedBy {before block after : List Marked} {ts : List Text}
    (hexchange : Exchange before block after ts)
    (h : Trace [] (start english) ls (before ++ block ++ after) t)
    (hplain : DescribedPlainly (before ++ block ++ after))
    (htexts : ls'.map (·.text) = before.map (·.text) ++ ts ++ after.map (·.text)) :
    t.ReachedBy ls' := by
  obtain ⟨hplain, hafter⟩ := List.forall_mem_append.mp hplain
  obtain ⟨hbefore, -⟩ := List.forall_mem_append.mp hplain
  obtain ⟨lab, lc, u, rfl, h, hc⟩ := h.append_inv
  obtain ⟨la, lb, s, rfl, ha, hb⟩ := h.append_inv
  obtain ⟨lab', lc', rfl, htexts, hc'⟩ := List.map_eq_append_iff.mp htexts
  obtain ⟨la', lb', rfl, ha', hb'⟩ := List.map_eq_append_iff.mp htexts
  rw [List.append_nil] at h ha hb
  have hs := ha.inEnglish inEnglish_start
  have hsameC : Reading.plain.SameAhead lc lc' := by
    have := hc.sameAhead_self (hb.inEnglish hs) hafter hc' (.refl _ [])
    rwa [List.append_nil, List.append_nil] at this
  have hsameB := hexchange.ahead hb hb' hsameC
  obtain ⟨s', htraceA, hlevelA, hreadA, -⟩ :=
    ha.unchanged hbefore ha' level_start rfl rfl hsameB
  obtain ⟨ms, u', htraceB, hplainB, hreadB, hlevelB, hnormal⟩ :=
    hexchange.levels ha hb hb' hlevelA hsameC
  obtain ⟨t', htraceC, hlevelC, -, hlast⟩ :=
    hc.unchanged hafter hc' hlevelB hreadB hnormal (.refl _ [])
  refine ⟨before ++ ms ++ after, t', _, _, ?_, ?_, hlevelC, hlast⟩
  · refine Trace.append ?_ htraceC
    rw [List.append_nil]
    exact htraceA.append htraceB
  · exact List.forall_mem_append.mpr ⟨List.forall_mem_append.mpr ⟨hbefore, hplainB⟩, hafter⟩

/-- What is known of the place behind lines behind which a blank line is outside of doc strings. -/
theorem Trace.blank_place {before after : List Marked}
    (h : Trace rest (start english) ls before s) (houtside : Outside before after) :
    s.place.inText = false ∧ s.place ≠ .done :=
  ⟨h.inText_eq_false (fun _ => rfl) houtside.docString,
    h.place_ne_done fun h => State.noConfusion h⟩

/-- A blank line can come in where none was. -/
theorem exchange_insertBlank {before after : List Marked} {b : Text}
    (hbefore : DescribedPlainly before) (hafter : DescribedPlainly after)
    (hblank : b.isAllBlank = true) (hbreak : (Line.withoutEnd b).NoBreak)
    (houtside : Outside before after) : Exchange before [] after [b] := by
  have hline : ∀ {lb : List Line}, lb.map (·.text) = [b] → ∃ l : Line, lb = [l] ∧ l.text = b := by
    intro lb hlb
    obtain ⟨l, hl, rfl⟩ := List.map_eq_singleton_iff.mp hlb
    exact ⟨l, hl, rfl⟩
  refine ⟨fun hb hlb hsame => ?_, fun ha hb hlb hlevel _ => ?_⟩
  · cases hb
    obtain ⟨l, rfl, hl⟩ := hline hlb
    exact hsame.trans (Reading.sameAhead_blank (by rw [hl, hblank]) _)
  · cases hb
    obtain ⟨l, rfl, rfl⟩ := hline hlb
    obtain ⟨htext, hdone⟩ := ha.blank_place houtside
    obtain ⟨role, u', hfree, htrace, hread, hnext⟩ := hlevel.blank_right htext hdone hblank _
    refine ⟨_, u', htrace, fun m hm _ => ?_, ?_, hnext, ?_⟩
    · obtain rfl := List.mem_singleton.mp hm
      exact hbreak
    · obtain ⟨hreading, hreading'⟩ := hlevel.reading_eq htext
      rw [hread, hreading, hreading']
    · exact (normalLines_behind_blank hbefore hafter (fun _ => hbreak) hblank hfree houtside).symm

/-- A blank line can go. -/
theorem exchange_deleteBlank {before after : List Marked} {m : Marked}
    (hbefore : DescribedPlainly before) (hafter : DescribedPlainly after)
    (hbreak : m.role = .description → (Line.withoutEnd m.text).NoBreak)
    (hblank : m.text.isAllBlank = true) (houtside : Outside before after) :
    Exchange before [m] after [] := by
  have hline : ∀ {s u : ParseState} {lb rest : List Line}, Trace rest s lb [m] u →
      ∃ l : Line, lb = [l] ∧ l.text = m.text := by
    intro s u lb rest hb
    obtain ⟨l, hl, htext⟩ := List.map_eq_singleton_iff.mp hb.map_text_eq.symm
    exact ⟨l, hl, htext⟩
  refine ⟨fun hb hlb hsame => ?_, fun ha hb hlb hlevel _ => ?_⟩
  · obtain rfl := List.map_eq_nil_iff.mp hlb
    obtain ⟨l, rfl, hl⟩ := hline hb
    exact (Reading.sameAhead_blank (by rw [hl, hblank]) _).symm.trans hsame
  · obtain rfl := List.map_eq_nil_iff.mp hlb
    obtain ⟨l, rfl, hl⟩ := hline hb
    obtain ⟨htext, hdone⟩ := ha.blank_place houtside
    rw [← hlevel.place] at htext hdone
    obtain ⟨role, u', hfree, htrace, hread, hnext⟩ :=
      hlevel.symm.blank_right htext hdone (by rw [hl, hblank]) _
    obtain ⟨hmarks, rfl⟩ := hb.unique htrace
    obtain rfl := (List.cons.inj hmarks).1
    obtain ⟨hreading, hreading'⟩ := hlevel.symm.reading_eq htext
    refine ⟨[], _, .nil _, (fun n hn => by cases hn), ?_, hnext.symm, ?_⟩
    · rw [hread, hreading, hreading']
    · exact normalLines_behind_blank hbefore hafter hbreak (by rw [hl, hblank]) hfree houtside

/-- Tags can stand on other lines. -/
theorem exchange_tags {before tags after : List Marked} {ts names : List Text}
    (hroles : ∀ m ∈ tags, m.role = .tags) (hne : tags ≠ []) (hne' : ts ≠ [])
    (hhad : HaveTags (tags.map (·.text)) names) (hhave : HaveTags ts names) :
    Exchange before tags after ts := by
  have hnotFree : ∀ {ms : List Marked}, (∀ m ∈ ms, m.role = .tags) →
      ∀ m ∈ ms, m.role.isFree = false := fun hms m hm => by
    rw [hms m hm]
    rfl
  refine ⟨fun hb hlb hsame => ?_,
    @fun s s' u la lb lb' rest rest' ha hb hlb hlevel hsame => ?_⟩
  · rw [hb.map_text_eq] at hhad
    rw [← hlb] at hhave
    exact ((Reading.sameAhead_tags (exists_hasTags hhad) _).symm.trans hsame).trans
      (Reading.sameAhead_tags (exists_hasTags hhave) _)
  · have hlines : lb ≠ [] := by
      rintro rfl
      exact hne (List.map_eq_nil_iff.mp hb.map_text_eq)
    have hlines' : lb' ≠ [] := by
      rintro rfl
      exact hne' hlb.symm
    rw [hb.map_text_eq] at hhad
    rw [← hlb] at hhave
    obtain ⟨u', htrace, hnext, hread⟩ :=
      hlevel.tags rfl hb hroles hlines hhad hlines' hhave hsame
    have hroles' : ∀ m ∈ lb'.map fun l => (⟨.tags, l.text⟩ : Marked), m.role = .tags := by
      intro m hm
      obtain ⟨l, -, rfl⟩ := List.mem_map.mp hm
      rfl
    have hend := descriptionBehind_eq_nil (hnotFree hroles) hne (descriptionBehind [] before)
    have hend' := descriptionBehind_eq_nil (hnotFree hroles')
      (fun hnil => hlines' (List.map_eq_nil_iff.mp hnil)) (descriptionBehind [] before)
    refine ⟨_, u', htrace, fun m hm h => ?_, hread, ?_, ?_⟩
    · rw [hroles' m hm] at h
      cases h
    · rw [hend, hend']
      exact hnext
    · rw [hend, hend']

/-- Lines whose texts are those of marked lines, behind other indentation. -/
theorem Trace.forall₂_append {w : Text} (h : Trace rest s ls ms t)
    (htexts : ls'.map (·.text) = ms.map (w ++ ·.text)) :
    List.Forall₂ (fun l l' : Line => l'.text = w ++ l.text) ls ls' := by
  have hsame : ls'.map (·.text) = ls.map (w ++ ·.text) := by
    have := congrArg (List.map (w ++ ·)) h.map_text_eq
    rw [List.map_map, List.map_map] at this
    exact htexts.trans this
  have hpairs : List.Forall₂ (· = ·) (ls'.map (·.text)) (ls.map (w ++ ·.text)) := by
    rw [List.forall₂_eq_eq_eq]
    exact hsame
  rw [List.forall₂_map_left_iff, List.forall₂_map_right_iff] at hpairs
  exact hpairs.flip

/-- No doc string is open in front of a line that opens one. -/
theorem Trace.inText_of_opening {m : Marked} (h : Trace rest s ls (m :: ms) t)
    (hm : m.role = .opening) : s.place.inText = false := by
  cases h with
  | cons chosen reads leaves english tail =>
    have hopening : s.place.role _ = .opening := hm
    refine State.inText_eq_false_of_role (mem_of_chosen? chosen) ?_
    rw [hopening]
    decide

/-- A doc string from its opening to its closing delimiter can stand behind other indentation. -/
theorem exchange_docString {before lines after : List Marked} {opening closing : Marked}
    {w : Text} (hopening : opening.role = .opening) (hlines : ∀ m ∈ lines, m.role = .content)
    (hclosing : closing.role = .closing) (hw : ∀ c ∈ w, isBlank c = true) :
    Exchange before (opening :: lines ++ [closing]) after
      ((opening :: lines ++ [closing]).map (w ++ ·.text)) := by
  have hroles : ∀ m ∈ opening :: lines ++ [closing],
      m.role = .opening ∨ m.role = .content ∨ m.role = .closing := by
    intro m hm
    rcases List.mem_append.mp hm with hm | hm
    · rcases List.mem_cons.mp hm with rfl | hm
      · exact .inl hopening
      · exact .inr (.inl (hlines m hm))
    · obtain rfl := List.mem_singleton.mp hm
      exact .inr (.inr hclosing)
  have hnotFree : ∀ {m : Marked}, m.role = .opening ∨ m.role = .content ∨ m.role = .closing →
      m.role.isFree = false ∧ m.role ≠ .description := by
    rintro m (h | h | h) <;> rw [h] <;> decide
  have hroles' : ∀ {ts : List Text}, ∀ m ∈ remark (opening :: lines ++ [closing]) ts,
      m.role = .opening ∨ m.role = .content ∨ m.role = .closing := by
    intro ts m hm
    obtain ⟨n, hn, hrole⟩ := role_of_mem_remark hm
    rw [hrole]
    exact hroles n hn
  refine ⟨fun hb hlb hsame => sameAhead_of_append hw (hb.forall₂_append hlb) hsame,
    @fun s s' u la lb lb' rest rest' ha hb hlb hlevel hsame => ?_⟩
  obtain ⟨hreading, hreading'⟩ := hlevel.reading_eq (hb.inText_of_opening hopening)
  have hdeeper : Reading.Deeper w.length s.reading s'.reading := by
    rw [hreading, hreading']
    exact .refl_of_fence _ rfl
  obtain ⟨u', htrace, hnext, hdeep, -⟩ :=
    hb.deeper hw hroles (hb.forall₂_append hlb) hlevel hdeeper rfl hsame
  have hout : u.place.inText = false := by
    refine hb.inText_eq_false (fun h => by simp at h) fun m hm => ?_
    rw [List.getLast?_concat] at hm
    cases hm
    rw [hclosing]
    decide
  obtain ⟨hread, hread'⟩ := hnext.reading_eq hout
  have hend := descriptionBehind_eq_nil (fun m hm => (hnotFree (hroles m hm)).1) (by simp)
    (descriptionBehind [] before)
  have hend' : descriptionBehind (descriptionBehind [] before)
      (remark (opening :: lines ++ [closing]) (lb'.map (·.text))) = [] := by
    refine descriptionBehind_eq_nil (fun m hm => (hnotFree (hroles' m hm)).1) ?_ _
    rw [hlb]
    exact List.cons_ne_nil _ _
  refine ⟨_, u', htrace, fun m hm h => absurd h (hnotFree (hroles' m hm)).2, ?_, hnext, ?_⟩
  · rw [hread, hread']
  · rw [hend, hend']

/-! ### Edits -/

/-- Lines with other blanks lead a reader where the lines of the text lead one. -/
theorem Rewrites.reachedBy (hlines : Rewrites [] [] ms (ls'.map (·.text)))
    (h : Trace [] (start english) ls ms t) : t.ReachedBy ls' := by
  obtain ⟨t', htrace, hlevel, -, hnormal⟩ := h.rewritten hlines level_start rfl (.refl _ [])
  exact ⟨_, t', _, _, htrace, hlines.describedPlainly, hlevel, hnormal⟩

/-- A description behind other indentation is a matter of other blanks. -/
theorem rewrites_shiftDescription {before lines after : List Marked} {title : Marked} {w : Text}
    (hplain : DescribedPlainly (before ++ (title :: (lines ++ after))))
    (htitle : title.role = .title) (hfree : ∀ m ∈ lines, m.role.isFree = true)
    (hwhole : ∀ m ∈ after.head?, m.role.isFree = false) (hblanks : ∀ c ∈ w, c = ' ' ∨ c = '\t') :
    Rewrites [] [] (before ++ (title :: (lines ++ after))) (before.map (·.text)
      ++ title.text :: (lines.map (Marked.shifted w) ++ after.map (·.text))) := by
  have hafter : DescribedPlainly after := fun n hn => hplain n (by simp [hn])
  have hlines : DescribedPlainly lines := fun n hn => hplain n (by simp [hn])
  have hbefore : DescribedPlainly before := fun n hn => hplain n (by simp [hn])
  have hend : descriptionBehind (descriptionBehind [] before) [title] = [] :=
    descriptionBehind_of_not_free (by rw [htitle]; rfl) _ _
  refine .append_left hbefore (.other ?_ (.refl _ _) (fun _ => rfl) ?_)
  · rw [htitle]
    decide
  · rw [hend]
    refine .shifted hblanks hlines hfree (rewrites_self hafter ?_)
    rw [descriptionAhead_of_head? hwhole, List.append_nil, List.append_nil, List.nil_append,
      List.nil_append]
    exact (Text.normalLines_shifted (Text.blank_of_spaces hblanks) (Text.noBreak_of_spaces hblanks)
      (noBreak_descriptionAhead hlines)).symm

/-- Lines that were edited lead a reader to the same place, with a document of the same gist. -/
theorem Trace.reachedBy_of_edit (h : Trace [] (start english) ls ms t)
    (hplain : DescribedPlainly ms) (hedit : Edit ms (ls'.map (·.text))) : t.ReachedBy ls' := by
  generalize htexts : ls'.map (·.text) = ts at hedit
  cases hedit with
  | respaced lines =>
    rw [← htexts] at lines
    exact Rewrites.reachedBy (.of_respaced lines hplain rfl) h
  | @insertBlank before after b blank oneLine outside =>
    obtain ⟨hbefore, hafter⟩ := List.forall_mem_append.mp hplain
    have hexchange := exchange_insertBlank hbefore hafter blank oneLine outside
    rw [← List.append_nil before] at h hplain
    exact hexchange.reachedBy h hplain (by rw [htexts]; simp)
  | @deleteBlank before after m blank outside =>
    have hbefore : DescribedPlainly before := fun n hn => hplain n (List.mem_append_left _ hn)
    have hafter : DescribedPlainly after := fun n hn => hplain n (by simp [hn])
    have hexchange := exchange_deleteBlank hbefore hafter (hplain m (by simp)) blank outside
    rw [List.append_cons] at h hplain
    exact hexchange.reachedBy h hplain (by rw [htexts, List.append_nil])
  | moveTags roles nonempty nonempty' old new =>
    exact (exchange_tags roles nonempty nonempty' old new).reachedBy h hplain htexts
  | shiftDescription isTitle free whole blanks =>
    have hrewrites := rewrites_shiftDescription hplain isTitle free whole blanks
    rw [← htexts] at hrewrites
    exact Rewrites.reachedBy hrewrites h
  | shiftDocString isOpening contents isClosing spaces =>
    refine (exchange_docString isOpening contents isClosing fun c hc => ?_).reachedBy h hplain
      htexts
    rw [spaces c hc]
    exact Text.isBlank_space

end ParseState

/-! ### Texts -/

namespace Ast.Document

variable {source edited : Text} {d : Document}

/-- Documents of one gist are in one language. -/
theorem language_of_gist_eq {d' : Document} (h : d'.gist = d.gist) {language : Text}
    (hlanguage : ∀ f ∈ d.feature, f.language = language) :
    ∀ f ∈ d'.feature, f.language = language := by
  intro f hf
  have hfeature : d'.feature.map Feature.gist = d.feature.map Feature.gist :=
    congrArg Document.feature h
  rw [Option.mem_def.mp hf] at hfeature
  obtain ⟨f', hf', heq⟩ := Option.map_eq_some_iff.mp hfeature.symm
  have hsame : f'.gist.language = f.gist.language := congrArg Feature.language heq
  exact hsame.symm.trans (hlanguage f' hf')

/-- A text that is read in English is read as a document of the same gist after an edit of its
layout. -/
theorem exists_parse_of_relayout (hparse : parse english source = .ok d)
    (hlanguage : ∀ f ∈ d.feature, f.language = english.name)
    (hplain : DescribedPlainly source.marked) (h : source.Relayout edited) :
    ∃ d', parse english edited = .ok d' ∧ d'.gist = d.gist ∧ DescribedPlainly edited.marked := by
  obtain ⟨t, htrace, rfl, hleave, hend⟩ := trace_of_parse hparse hlanguage
  have hlines : (Line.ofText edited).map (·.text) = edited.sourceLines :=
    Line.map_text_numberFrom 1 edited.sourceLines
  rw [Text.Relayout, ← hlines] at h
  obtain ⟨ms', t', xs, ys, htrace', hplain', hlevel, hnormal⟩ := htrace.reachedBy_of_edit hplain h
  obtain ⟨hparse', rfl⟩ := parse_of_trace htrace' (hlevel.leaves hleave) (hlevel.place ▸ hend)
  exact ⟨t'.document, hparse', (hlevel.document.gist_eq hnormal).symm, hplain'⟩

/-- So it is after any sequence of edits. -/
theorem exists_parse_of_relayouts (hparse : parse english source = .ok d)
    (hlanguage : ∀ f ∈ d.feature, f.language = english.name)
    (hplain : DescribedPlainly source.marked)
    (h : Relation.ReflTransGen Text.Relayout source edited) :
    ∃ d', parse english edited = .ok d' ∧ d'.gist = d.gist ∧ DescribedPlainly edited.marked := by
  induction h with
  | refl => exact ⟨d, hparse, rfl, hplain⟩
  | tail hedits hedit ih =>
    obtain ⟨d', hparse', hgist', hplain'⟩ := ih
    obtain ⟨d'', hparse'', hgist'', hplain''⟩ := exists_parse_of_relayout hparse'
      (language_of_gist_eq hgist' hlanguage) hplain' hedit
    exact ⟨d'', hparse'', hgist''.trans hgist', hplain''⟩

end Ast.Document

/-! ### Files -/

namespace Ast

/-- What is asked of an English document whose descriptions are cut at line feeds only. -/
def Law.englishDescribable : Law :=
  (Law.ofDialect Dialect.english).and
    ((Law.ofTables (firstRagged? · = none)).and Law.describable)

/-- What obeys the law of English with plain descriptions is legible. -/
theorem Law.grants_englishDescribable :
    Law.englishDescribable.Grants (.legible Dialect.english) Dialect.english where
  heading _ hkind _ _ h := Heading.fit_plain (Dialect.titleWord_english hkind h.1.1) h.1
    (Heading.free_of_describable (Dialect.distinct_of_mem Dialect.english_mem) h.1 h.2.2)
  tag _ h := h.1
  step _ h := Step.legible_plain Dialect.english_mem h.1 h.2.1
  rows _ h := even_values h.1 h.2.1

/-- A description is cut at line feeds only exactly if none of its lines holds another line
break. -/
theorem Law.describable_iff {kind : TokenKind} {h : Heading} : Law.describable.heading kind h
    ↔ ∀ l ∈ h.description, ∀ c ∈ l, isLineBreak c = true → c = '\n' := by
  have hmem : ∀ c, c ≠ '\n' → (c ∈ h.descriptionText ↔ ∃ l ∈ h.description, c ∈ l) := by
    intro c hc
    obtain ⟨dropped, hlines, hempty⟩ :=
      Text.exists_dropEndWhile_append List.isEmpty h.description
    rw [Heading.descriptionText, Text.mem_joinLines hc]
    constructor
    · rintro ⟨l, hl, hcl⟩
      exact ⟨l, (Text.dropEndWhile_isPrefix _ _).subset hl, hcl⟩
    · rintro ⟨l, hl, hcl⟩
      rw [hlines] at hl
      rcases List.mem_append.mp hl with hl | hl
      · exact ⟨l, hl, hcl⟩
      · rw [List.isEmpty_iff.mp (hempty l hl)] at hcl
        cases hcl
  constructor
  · intro hlaw l hl c hc hbreak
    by_contra hne
    exact hne (hlaw c ((hmem c hne).mpr ⟨l, hl, hc⟩) hbreak)
  · intro hlines c hc hbreak
    by_contra hne
    obtain ⟨l, hl, hcl⟩ := (hmem c hne).mp hc
    exact hne (hlines l hl c hcl hbreak)

end Ast

namespace ParseState

variable {s t : ParseState} {ls rest : List Line} {ms : List Marked}

/-- A reader that takes no line breaks into descriptions makes a document that is described
plainly. -/
theorem Trace.describable (h : Trace rest s ls ms t) (hs : s.InEnglish)
    (hplain : DescribedPlainly ms) (hobeys : s.document.Obeys Ast.Law.describable) :
    t.document.Obeys Ast.Law.describable := by
  induction h with
  | nil s => exact hobeys
  | @cons s t l ls e token ms chosen reads leaves english tail ih =>
    have he := mem_of_chosen? chosen
    have hkind : token.kind = e.kind := Reading.kind_of_token? reads
    refine ih (hs.goes he reads english) (fun m hm => hplain m (List.mem_cons_of_mem _ hm)) ?_
    have hkeeps : Ast.Law.describable.Keeps l s.place token := by
      refine ⟨?_, fun _ _ _ _ => trivial, fun _ _ => trivial, fun _ _ _ _ => trivial, ?_,
        fun _ _ _ _ => trivial, fun _ _ _ _ _ => trivial, fun _ _ _ _ => trivial,
        fun _ _ _ _ => trivial⟩
      · intro kind _ title _
        exact Ast.Law.describable_iff.mpr fun l hl => by cases hl
      · rintro text rfl kind hplace x hx
        have hother : e.kind = .other := hkind.symm
        have htext : s.place.inText = false := by
          cases hp : s.place <;> rw [hp] at hplace <;> first | rfl | cases hplace
        have hline : text = Line.withoutEnd l.text := by
          rw [hother] at reads
          simp only [Reading.token?, hs.fence_eq_none htext, Except.ok.injEq, Option.some.injEq,
            Token.other.injEq] at reads
          exact reads.symm
        have hbreak := hplain _ List.mem_cons_self (by rw [hother, State.role, htext]; rfl)
        rw [Ast.Law.describable_iff] at hx ⊢
        intro k hk
        rcases List.mem_append.mp hk with hk | hk
        · exact hx k hk
        · intro c hc hb
          rw [List.mem_singleton.mp hk, hline] at hc
          rw [hbreak c hc] at hb
          cases hb
    exact hobeys.take (fun _ _ => trivial) hkeeps
      (fun text ht => State.ne_examplesTable_of_other he (by rw [← hkind, ht]; rfl)) _ _

end ParseState

namespace Node

/-- What is written of a text that is read in English stays the same after any sequence of edits of
its layout, if no line of its descriptions holds a line break. -/
theorem text_of_relayouts {default : Value} {path source edited : Text} {n : Node}
    {d : Ast.Document} (hread : readFile default (.text english.name) path source = .ok n)
    (hparse : Ast.Document.parse english source = .ok d)
    (hlanguage : ∀ f ∈ d.feature, f.language = english.name)
    (hplain : DescribedPlainly source.marked)
    (hedits : Relation.ReflTransGen Text.Relayout source edited) (fallback : Value) :
    ∃ t m, n.text fallback = .ok t ∧ readFile default (.text english.name) path edited = .ok m
      ∧ m.text fallback = .ok t := by
  obtain ⟨d', hd', hbare⟩ := exists_parse_of_readFile hread
  obtain rfl : d = d' := Except.ok.inj (hparse.symm.trans hd')
  obtain ⟨d', hparse', hgist, -⟩ :=
    Ast.Document.exists_parse_of_relayouts hparse hlanguage hplain hedits
  obtain ⟨m, hm, hbare'⟩ := readFile_of_parse default path hparse'
  rw [Ast.Document.plain_of_gist_eq hgist] at hbare'
  have hlegible : ∀ p ∈ d.feature.map Ast.Feature.plain, p.Legible english := by
    intro p hp
    obtain ⟨f, hf, rfl⟩ := Option.map_eq_some_iff.mp hp
    obtain ⟨dialect, hdialect, hname, hlaw, htables⟩ :=
      Ast.Document.sound_of_parse Dialect.english_mem hparse
    obtain rfl : dialect = english := Dialect.eq_of_name_eq hdialect Dialect.english_mem
      ((hname f hf).symm.trans (hlanguage f hf))
    obtain ⟨s, htrace, rfl, -, -⟩ := Ast.Document.trace_of_parse hparse hlanguage
    have hdescribable := htrace.describable ParseState.inEnglish_start hplain .empty
    exact Ast.Feature.meets_plain Dialect.english_mem Ast.Law.grants_englishDescribable
      ((hlaw.and (htables.and hdescribable)) f hf) (hlanguage f hf) (.inr (by decide))
  have htext := text_of_lines (Plain.lines_of_legible_file fallback hlegible hbare)
  have htext' := text_of_lines (Plain.lines_of_legible_file fallback hlegible hbare')
  exact ⟨_, m, htext, hm, htext'⟩

/-- The lines of the small file. -/
theorem marked_small : Text.marked
      "@a\nFeature: b\n\n  c\n\n  Scenario: d\n    * e\n      | f |\n".toList
    = [⟨.tags, "@a\n".toList⟩, ⟨.title, "Feature: b\n".toList⟩, ⟨.blank, ['\n']⟩,
      ⟨.description, "  c\n".toList⟩, ⟨.description, ['\n']⟩,
      ⟨.title, "  Scenario: d\n".toList⟩, ⟨.step, "    * e\n".toList⟩,
      ⟨.row, "      | f |\n".toList⟩] := by
  decide +kernel

/-- A document with a description in it is described plainly. -/
theorem describedPlainly_small : DescribedPlainly
    (Text.marked "@a\nFeature: b\n\n  c\n\n  Scenario: d\n    * e\n      | f |\n".toList) := by
  intro m hm hrole
  rw [marked_small] at hm
  have hends : Line.withoutEnd m.text = "  c".toList ∨ Line.withoutEnd m.text = [] := by
    revert m
    decide
  rcases hends with h | h <;> rw [h] <;> simp [Text.NoBreak, isLineBreak]

/-- The small file with other ends of lines and other blanks. -/
theorem relayout_small : Text.Relayout
    "@a\nFeature: b\n\n  c\n\n  Scenario: d\n    * e\n      | f |\n".toList
    "@a\r\nFeature:\tb\n\n  c\n\nScenario:d\n    *   e\n|  f   |\n".toList := by
  have hlines : Text.sourceLines
        "@a\r\nFeature:\tb\n\n  c\n\nScenario:d\n    *   e\n|  f   |\n".toList
      = ["@a\r\n".toList, "Feature:\tb\n".toList, ['\n'], "  c\n".toList, ['\n'],
        "Scenario:d\n".toList, "    *   e\n".toList, "|  f   |\n".toList] := by decide
  have hfeature : Respaced .title "Feature: b\n".toList "Feature:\tb\n".toList :=
    @Respaced.title .featureLine "Feature".toList " b\n".toList _ _ _
      (by decide) (by decide) (by decide) rfl (by decide)
  have hscenario : Respaced .title "  Scenario: d\n".toList "Scenario:d\n".toList :=
    @Respaced.title .scenarioLine "Scenario".toList " d\n".toList _ _ _
      (by decide) (by decide) (by decide) rfl (by decide)
  have hstep : Respaced .step "    * e\n".toList "    *   e\n".toList :=
    @Respaced.step "* ".toList "e\n".toList "  e\n".toList _ _
      (by decide) (by decide) (by decide) (by decide)
  have hcell : Cell.Repadded " f ".toList "  f   ".toList :=
    .inr ⟨[' '], [], [' ', ' '], [' ', ' '], ['f'],
      by simp [IsMargin], by simp, by simp [IsMargin], by simp [IsMargin], rfl, rfl⟩
  have hrow : Respaced .row "      | f |\n".toList "|  f   |\n".toList :=
    @Respaced.cells [" f ".toList] ["  f   ".toList] [] _ _
      (by decide) (by decide) (.cons hcell .nil)
  rw [Text.Relayout, marked_small, hlines]
  exact .respaced (.cons (.ends (by decide)) (.cons hfeature (.cons (.ends rfl)
    (.cons (.ends rfl) (.cons (.ends rfl) (.cons hscenario (.cons hstep (.cons hrow .nil))))))))

/-- The small file with a blank line in front of its table. -/
theorem relayout_small_blank : Text.Relayout
    "@a\r\nFeature:\tb\n\n  c\n\nScenario:d\n    *   e\n|  f   |\n".toList
    "@a\r\nFeature:\tb\n\n  c\n\nScenario:d\n    *   e\n\n|  f   |\n".toList := by
  have hmarked : Text.marked
        "@a\r\nFeature:\tb\n\n  c\n\nScenario:d\n    *   e\n|  f   |\n".toList
      = [⟨.tags, "@a\r\n".toList⟩, ⟨.title, "Feature:\tb\n".toList⟩, ⟨.blank, ['\n']⟩,
        ⟨.description, "  c\n".toList⟩, ⟨.description, ['\n']⟩,
        ⟨.title, "Scenario:d\n".toList⟩, ⟨.step, "    *   e\n".toList⟩]
        ++ [⟨.row, "|  f   |\n".toList⟩] := by decide +kernel
  have houtside : Outside [⟨.tags, "@a\r\n".toList⟩, ⟨.title, "Feature:\tb\n".toList⟩,
      ⟨.blank, ['\n']⟩, ⟨.description, "  c\n".toList⟩, ⟨.description, ['\n']⟩,
      ⟨.title, "Scenario:d\n".toList⟩, ⟨.step, "    *   e\n".toList⟩]
      [⟨.row, "|  f   |\n".toList⟩] := ⟨by decide, .inl (by decide)⟩
  have honeLine : (Line.withoutEnd ['\n']).NoBreak := by
    rw [show Line.withoutEnd ['\n'] = [] from rfl]
    simp [Text.NoBreak]
  rw [Text.Relayout, hmarked]
  exact .insertBlank (b := ['\n']) (by decide) honeLine houtside

/-- The small file is written as before after both edits. -/
theorem text_of_relayouts_small :
    ∃ n t m, readFile .null (.text english.name) []
        "@a\nFeature: b\n\n  c\n\n  Scenario: d\n    * e\n      | f |\n".toList = .ok n
      ∧ n.text .null = .ok t
      ∧ readFile .null (.text english.name) []
        "@a\r\nFeature:\tb\n\n  c\n\nScenario:d\n    *   e\n\n|  f   |\n".toList = .ok m
      ∧ m.text .null = .ok t := by
  obtain ⟨d, hparse, hlanguage, -, -⟩ := exists_parse_small
  obtain ⟨n, hread, -⟩ := readFile_of_parse .null [] hparse
  obtain ⟨t, m, h⟩ := text_of_relayouts hread hparse hlanguage describedPlainly_small
    (.tail (.single relayout_small) relayout_small_blank) .null
  exact ⟨n, t, m, hread, h⟩

end Node

end FeatureTree
