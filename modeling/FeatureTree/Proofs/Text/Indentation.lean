import FeatureTree.Proofs.Text.Description
import Mathlib.Data.List.Forall2

/-!
# Descriptions behind other indentation

The normal form of a description does not depend on where the description stands: the same blanks
in front of all its lines that are not blank make no difference to it, and neither do blank lines at
its ends. To say so, the lines of a text are taken with the breaks that end them
(`Text.endedLines`), so that something can be put in front of each and the breaks stay what they
were.

## Main results

* `Text.dedent_shifted`: what stands in front of all lines is no indentation of a single one
* `Text.trimDescription_indented`: nor does it make a difference to a text that is cut into lines
* `Text.trimDescription_append_blank`, `Text.trimDescription_blank_append`: blank lines at an end
* `Text.trimDescription_normalizes`: what the normal form of a description is
-/

namespace FeatureTree

namespace Text

/-- A line with a text in front of it, unless the line is blank. -/
def shifted (w l : Text) : Text := if l.isAllBlank then l else w ++ l

section Shifted

variable {w : Text} (hw : ∀ c ∈ w, isBlank c = true)

include hw

/-- A line that is indented is blank if it was. -/
theorem isAllBlank_shifted (l : Text) : (shifted w l).isAllBlank = l.isAllBlank := by
  rw [shifted]
  split
  · rfl
  · rw [isAllBlank_append, isAllBlank_iff.mpr hw, Bool.true_and]

/-- Indenting a line that is not blank adds to its indentation. -/
theorem indentOf_shifted {l : Text} (h : l.isAllBlank = false) :
    indentOf (shifted w l) = w.length + indentOf l := by
  obtain ⟨v, hl, hv⟩ := exists_append_trimStart l
  have hlen : indentOf l = v.length := by
    conv_lhs => rw [hl]
    exact indentOf_append_trimStart hv head?_trimStart
  have hblank : ∀ c ∈ w ++ v, isBlank c = true := List.forall_mem_append.mpr ⟨hw, hv⟩
  rw [shifted, h, if_neg (by simp), hlen]
  conv_lhs => rw [hl, ← List.append_assoc]
  rw [indentOf_append_trimStart hblank head?_trimStart, List.length_append]

/-- Blank edges of lines that are indented are those of the lines. -/
theorem dropBlankEdges_shifted (ls : List Text) :
    dropBlankEdges (ls.map (shifted w)) = (dropBlankEdges ls).map (shifted w) := by
  have hp : isAllBlank ∘ shifted w = isAllBlank := funext (isAllBlank_shifted hw)
  have hdrop : ∀ ls : List Text,
      (ls.map (shifted w)).dropWhile isAllBlank = (ls.dropWhile isAllBlank).map (shifted w) := by
    intro ls
    rw [List.dropWhile_map, hp]
  rw [dropBlankEdges, hdrop, dropEndWhile, ← List.map_reverse, hdrop, ← List.map_reverse]
  rfl

/-- Indenting all lines adds to the indentation that they share. -/
theorem sharedIndent_shifted {ls : List Text} {l : Text} (hl : l ∈ ls) (hb : l.isAllBlank = false) :
    sharedIndent (ls.map (shifted w)) = w.length + sharedIndent ls := by
  have hb' : (shifted w l).isAllBlank = false := (isAllBlank_shifted hw l).trans hb
  apply Nat.le_antisymm
  · obtain ⟨m, hm, hmb, hmin⟩ := exists_indentOf_eq_sharedIndent hl hb
    have hle := sharedIndent_le (List.mem_map_of_mem hm) ((isAllBlank_shifted hw m).trans hmb)
    rwa [indentOf_shifted hw hmb, hmin] at hle
  · obtain ⟨m', hm', hmb, hmin⟩ := exists_indentOf_eq_sharedIndent (List.mem_map_of_mem hl) hb'
    obtain ⟨m, hm, rfl⟩ := List.mem_map.mp hm'
    rw [isAllBlank_shifted hw] at hmb
    have hle := sharedIndent_le hm hmb
    rw [indentOf_shifted hw hmb] at hmin
    omega

/-- Lines that are indented and dedented are the lines that are dedented. -/
theorem dedent_shifted (ls : List Text) : dedent (ls.map (shifted w)) = dedent ls := by
  rw [dedent, dedent, List.map_map]
  refine List.map_congr_left fun l hl => ?_
  cases hb : l.isAllBlank with
  | true => simp [isAllBlank_shifted hw, hb]
  | false =>
    have hb' : (shifted w l).isAllBlank = false := (isAllBlank_shifted hw l).trans hb
    have hdrop : (shifted w l).drop (w.length + sharedIndent ls) = l.drop (sharedIndent ls) := by
      rw [shifted, hb, if_neg (by simp), ← List.drop_drop, List.drop_left]
    simp only [Function.comp_apply, hb', sharedIndent_shifted hw hl hb, hdrop]

end Shifted

/-! ### Lines with their ends -/

/-- Lines with a character in front of the first of them. -/
def consLine (c : Char) : List Text → List Text
  | [] => [[c]]
  | line :: lines => (c :: line) :: lines

/-- The lines of a text, cut at all line breaks, each with the break that ends it. -/
def endedLines : Text → List Text
  | [] => []
  | '\r' :: '\n' :: t => ['\r', '\n'] :: endedLines t
  | c :: t => if isLineBreak c then [c] :: endedLines t else consLine c (endedLines t)

/-- A text with another one in front of all its lines that are not blank. -/
def indented (w t : Text) : Text := ((endedLines t).map (shifted w)).flatten

/-- What ends a line in front of a text: a break that the text does not go on. -/
def IsEnd (e t : Text) : Prop :=
  e = ['\r', '\n'] ∨ ∃ c, e = [c] ∧ isLineBreak c = true ∧ ¬['\r', '\n'] <+: c :: t

/-- The end of a line is blank. -/
theorem IsEnd.isAllBlank {e t : Text} (h : IsEnd e t) : e.isAllBlank = true := by
  rcases h with rfl | ⟨c, rfl, hc, -⟩
  · rfl
  · exact isAllBlank_iff.mpr (by simpa using isBlank_of_isLineBreak hc)

/-- A break that starts a text ends the line in front of it. -/
theorem exists_isEnd {c : Char} (h : isLineBreak c = true) (t : Text) :
    ∃ e u, c :: t = e ++ u ∧ IsEnd e u ∧ u.length ≤ t.length := by
  by_cases hr : ['\r', '\n'] <+: c :: t
  · obtain ⟨u, hu⟩ := hr
    have hlength := congrArg List.length hu
    simp only [List.length_append, List.length_cons, List.length_nil] at hlength
    exact ⟨['\r', '\n'], u, hu.symm, .inl rfl, by omega⟩
  · exact ⟨[c], t, rfl, .inr ⟨c, rfl, h, hr⟩, Nat.le_refl _⟩

/-- A text is empty, or one line that no break ends, or a line with its end before more lines. -/
theorem induction_lines {motive : Text → Prop} (nil : motive [])
    (last : ∀ l : Text, l.NoBreak → l ≠ [] → motive l)
    (line : ∀ l e t : Text, l.NoBreak → IsEnd e t → motive t → motive (l ++ (e ++ t)))
    (t : Text) : motive t := by
  induction hn : t.length using Nat.strongRecOn generalizing t with
  | ind n ih =>
    have ht := List.takeWhile_append_dropWhile (p := (!isLineBreak ·)) (l := t)
    have hl : NoBreak (t.takeWhile (!isLineBreak ·)) := fun c hc => by
      simpa using List.all_eq_true.mp List.all_takeWhile c hc
    cases hd : t.dropWhile (!isLineBreak ·) with
    | nil =>
      rw [hd, List.append_nil] at ht
      rw [ht] at hl
      by_cases hne : t = []
      · exact hne ▸ nil
      · exact last t hl hne
    | cons c u =>
      have hc : isLineBreak c = true := by
        have := List.head?_dropWhile_not (!isLineBreak ·) t
        simpa [hd] using this
      obtain ⟨e, v, hev, he, hlength⟩ := exists_isEnd hc u
      rw [hd, hev] at ht
      have hlt : v.length < n := by
        have hu := congrArg List.length hev
        have hsum := congrArg List.length ht
        simp only [List.length_append, List.length_cons] at hu hsum
        omega
      rw [← ht]
      exact line _ e v hl he (ih v.length hlt v rfl)

/-- A line with its end is the first of the lines. -/
theorem breakLines_append_end {l e t : Text} (hl : l.NoBreak) (he : IsEnd e t) :
    breakLines (l ++ (e ++ t)) = l :: breakLines t := by
  induction l with
  | nil =>
    rcases he with rfl | ⟨c, rfl, hc, hr⟩
    · rfl
    · exact breakLines_cons_of_break hc hr
  | cons c l ih =>
    have hl' : NoBreak l := fun d hd => hl d (List.mem_cons_of_mem _ hd)
    exact breakLines_cons_of_not_break (hl c (by simp)) (ih hl')

/-- What is no break belongs to the first line. -/
theorem endedLines_cons_of_not_break {c : Char} (h : isLineBreak c = false) (t : Text) :
    endedLines (c :: t) = consLine c (endedLines t) := by
  have hr : c ≠ '\r' := fun e => by subst e; revert h; decide
  rw [endedLines.eq_def]
  split
  · next heq => cases heq
  · next t' heq =>
    cases heq
    exact absurd rfl hr
  · next c' t' _ heq =>
    cases heq
    rw [h, if_neg (by simp)]

/-- A break alone is a line with its end. -/
theorem endedLines_cons_of_break {c : Char} {t : Text} (h : isLineBreak c = true)
    (hr : ¬['\r', '\n'] <+: c :: t) : endedLines (c :: t) = [c] :: endedLines t := by
  rw [endedLines.eq_def]
  split
  · next heq => cases heq
  · next t' heq =>
    cases heq
    exact absurd (List.prefix_append ['\r', '\n'] t') hr
  · next c' t' _ heq =>
    cases heq
    rw [if_pos h]

/-- A line with its end is the first of the lines with their ends. -/
theorem endedLines_append_end {l e t : Text} (hl : l.NoBreak) (he : IsEnd e t) :
    endedLines (l ++ (e ++ t)) = (l ++ e) :: endedLines t := by
  induction l with
  | nil =>
    rcases he with rfl | ⟨c, rfl, hc, hr⟩
    · rfl
    · exact endedLines_cons_of_break hc hr
  | cons c l ih =>
    have hl' : NoBreak l := fun d hd => hl d (List.mem_cons_of_mem _ hd)
    rw [List.cons_append, endedLines_cons_of_not_break (hl c (by simp)), ih hl']
    rfl

/-- A text without breaks is one line without an end. -/
theorem endedLines_of_noBreak {l : Text} (hl : l.NoBreak) (hne : l ≠ []) : endedLines l = [l] := by
  induction l with
  | nil => exact absurd rfl hne
  | cons c l ih =>
    have hl' : NoBreak l := fun d hd => hl d (List.mem_cons_of_mem _ hd)
    rw [endedLines_cons_of_not_break (hl c (by simp))]
    by_cases hnil : l = []
    · subst hnil
      rfl
    · rw [ih hl' hnil]
      rfl

/-- Indentation is put in front of a line and not between the line and its end. -/
theorem shifted_append {w l e : Text} (he : e.isAllBlank = true) :
    shifted w (l ++ e) = shifted w l ++ e := by
  rw [shifted, shifted, isAllBlank_append, he, Bool.and_true]
  split
  · rfl
  · rw [List.append_assoc]

/-- Indenting a line adds no break. -/
theorem NoBreak.shifted {w l : Text} (hw : w.NoBreak) (hl : l.NoBreak) : (shifted w l).NoBreak := by
  rw [Text.shifted]
  split
  · exact hl
  · exact List.forall_mem_append.mpr ⟨hw, hl⟩

/-- A text without breaks is indented as a line. -/
theorem indented_of_noBreak (w : Text) {l : Text} (hl : l.NoBreak) (hne : l ≠ []) :
    indented w l = shifted w l := by
  rw [indented, endedLines_of_noBreak hl hne, List.map_singleton, List.flatten_singleton]

/-- The first line is indented, and the rest behind its end. -/
theorem indented_append_end (w : Text) {l e t : Text} (hl : l.NoBreak) (he : IsEnd e t) :
    indented w (l ++ (e ++ t)) = shifted w l ++ (e ++ indented w t) := by
  rw [indented, endedLines_append_end hl he, List.map_cons, List.flatten_cons,
    shifted_append he.isAllBlank, List.append_assoc]
  rfl

/-- An indented line is empty if the line is. -/
theorem shifted_eq_nil_iff {w l : Text} : shifted w l = [] ↔ l = [] := by
  cases hl : l.isAllBlank with
  | true => simp [shifted, hl]
  | false => simp [shifted, hl, ne_nil_of_isAllBlank hl]

section

variable {w : Text} (hw : w.NoBreak)

include hw

/-- What is put in front of lines does not start with a line feed, so a text that starts with one
started with one before. -/
theorem head?_of_indented {t : Text} (h : (indented w t).head? = some '\n') :
    t.head? = some '\n' := by
  have hline : ∀ {l : Text}, l.NoBreak → (shifted w l).head? ≠ some '\n' := fun hl hhead => by
    have hbreak := hw.shifted hl '\n' (List.mem_of_mem_head? hhead)
    revert hbreak
    decide
  induction t using induction_lines with
  | nil => cases h
  | last l hl hne =>
    rw [indented_of_noBreak w hl hne] at h
    exact absurd h (hline hl)
  | line l e t hl he _ =>
    rw [indented_append_end w hl he] at h
    by_cases hnil : l = []
    · subst hnil
      rcases he with rfl | ⟨c, rfl, -, -⟩ <;> exact h
    · obtain ⟨c, r, hcr⟩ := List.exists_cons_of_ne_nil (mt shifted_eq_nil_iff.mp hnil)
      rw [hcr] at h
      exact absurd (hcr ▸ h) (hline hl)

/-- An end stays one in front of an indented text. -/
theorem IsEnd.indented {e t : Text} (he : IsEnd e t) : IsEnd e (indented w t) := by
  refine he.imp_right fun ⟨c, hc, hbreak, hr⟩ => ⟨c, hc, hbreak, fun hp => hr ?_⟩
  obtain ⟨rfl, u, hu⟩ := List.cons_prefix_cons.mp hp
  have hhead := head?_of_indented hw (t := t) (by rw [← hu]; rfl)
  obtain ⟨r, rfl⟩ := List.head?_eq_some_iff.mp hhead
  exact List.prefix_append ['\r', '\n'] r

/-- A text in front of lines is found in front of them when they are cut. -/
theorem breakLines_indented (t : Text) :
    breakLines (indented w t) = (breakLines t).map (shifted w) := by
  induction t using induction_lines with
  | nil => rfl
  | last l hl hne =>
    rw [indented_of_noBreak w hl hne, breakLines_of_noBreak hl hne,
      breakLines_of_noBreak (hw.shifted hl) (mt shifted_eq_nil_iff.mp hne), List.map_singleton]
  | line l e t hl he ih =>
    rw [indented_append_end w hl he, breakLines_append_end (hw.shifted hl) (he.indented hw),
      breakLines_append_end hl he, ih, List.map_cons]

/-- What stands in front of all lines of a text that are not blank makes no difference to its normal
form, if it is blank. -/
theorem trimDescription_indented (hblank : ∀ c ∈ w, isBlank c = true) (t : Text) :
    trimDescription (indented w t) = trimDescription t := by
  rw [trimDescription, trimDescription, descriptionLines, descriptionLines,
    breakLines_indented hw, dropBlankEdges_shifted hblank, dedent_shifted hblank]

end

/-! ### Blank lines at the ends -/

/-- An end stays one if more is put behind the text. -/
theorem IsEnd.append {e t : Text} (he : IsEnd e t) (hne : t ≠ []) (u : Text) :
    IsEnd e (t ++ u) := by
  refine he.imp_right fun ⟨c, hc, hbreak, hr⟩ => ⟨c, hc, hbreak, fun hp => hr ?_⟩
  obtain ⟨d, r, rfl⟩ := List.exists_cons_of_ne_nil hne
  rw [List.cons_append, List.cons_prefix_cons, List.cons_prefix_cons] at hp
  rw [List.cons_prefix_cons, List.cons_prefix_cons]
  exact ⟨hp.1, hp.2.1, List.nil_prefix⟩

/-- Behind a break a text is cut as if it stood alone, but for a line feed that goes on a carriage
return. -/
theorem exists_breakLines_append {p : Text} (hp : ∀ c ∈ p.getLast?, isLineBreak c = true)
    (t : Text) : ∃ ls, breakLines (p ++ t) = breakLines p ++ ls
      ∧ (breakLines t = ls ∨ breakLines t = [] :: ls) := by
  induction p using induction_lines with
  | nil => exact ⟨breakLines t, rfl, .inl rfl⟩
  | last l hl hne =>
    have hmem := List.getLast_mem hne
    have hbreak := hp _ (List.getLast?_eq_some_getLast hne)
    rw [hl _ hmem] at hbreak
    cases hbreak
  | line l e u hl he ih =>
    rw [List.append_assoc, List.append_assoc, breakLines_append_end hl he]
    by_cases hu : u = []
    · subst hu
      rw [List.nil_append]
      by_cases he' : IsEnd e t
      · exact ⟨breakLines t, breakLines_append_end hl he', .inl rfl⟩
      · -- the text goes on the carriage return that the first one ends in
        obtain ⟨c, rfl, hc, -⟩ := he.resolve_left fun h => he' (.inl h)
        have hr : ['\r', '\n'] <+: c :: t := by
          by_contra hr
          exact he' (.inr ⟨c, rfl, hc, hr⟩)
        obtain ⟨r, hr⟩ := hr
        cases hr
        exact ⟨breakLines r, breakLines_append_end hl (.inl rfl),
          .inr (breakLines_cons_of_break (by decide) (by simp))⟩
    · have hlast : ∀ c ∈ u.getLast?, isLineBreak c = true := fun c hc => hp c (by
        rw [List.getLast?_append, List.getLast?_append, Option.mem_def.mp hc]
        rfl)
      obtain ⟨ls, hls, hor⟩ := ih hlast
      exact ⟨ls, by rw [breakLines_append_end hl (he.append hu t), hls, List.cons_append], hor⟩

/-- The characters of a line are those of the text. -/
theorem mem_of_mem_breakLines {t l : Text} (hl : l ∈ breakLines t) {c : Char} (hc : c ∈ l) :
    c ∈ t := by
  induction t using induction_lines with
  | nil => cases hl
  | last m hm hne =>
    rw [breakLines_of_noBreak hm hne, List.mem_singleton] at hl
    exact hl ▸ hc
  | line m e t hm he ih =>
    rw [breakLines_append_end hm he] at hl
    rw [List.mem_append, List.mem_append]
    rcases List.mem_cons.mp hl with rfl | hl
    · exact .inl hc
    · exact .inr (.inr (ih hl))

/-- The lines of a blank text are blank. -/
theorem isAllBlank_of_mem_breakLines {t : Text} (ht : t.isAllBlank = true) :
    ∀ l ∈ breakLines t, l.isAllBlank = true := fun _ hl =>
  isAllBlank_iff.mpr fun _ hc => isAllBlank_iff.mp ht _ (mem_of_mem_breakLines hl hc)

/-- A break behind a text makes an empty line at most. -/
theorem breakLines_concat {c : Char} (hc : isLineBreak c = true) (t : Text) :
    breakLines (t ++ [c]) = breakLines t ∨ breakLines (t ++ [c]) = breakLines t ++ [[]] := by
  have hend : IsEnd [c] [] := .inr ⟨c, rfl, hc, by simp⟩
  have halone : breakLines [c] = [[]] := breakLines_cons_of_break hc (by simp)
  induction t using induction_lines with
  | nil => exact .inr halone
  | last l hl hne =>
    rw [breakLines_of_noBreak hl hne]
    exact .inl (breakLines_append_end hl hend)
  | line l e t hl he ih =>
    rw [List.append_assoc, List.append_assoc, breakLines_append_end hl he]
    by_cases ht : t = []
    · subst ht
      rw [List.nil_append]
      by_cases he' : IsEnd e [c]
      · exact .inr (by rw [breakLines_append_end hl he', halone]; rfl)
      · obtain ⟨d, rfl, hd, -⟩ := he.resolve_left fun h => he' (.inl h)
        have hr : ['\r', '\n'] <+: [d, c] := by
          by_contra hr
          exact he' (.inr ⟨d, rfl, hd, hr⟩)
        obtain ⟨r, hr⟩ := hr
        cases hr
        exact .inl (breakLines_append_end (e := ['\r', '\n']) hl (.inl rfl))
    · rw [breakLines_append_end hl (he.append ht [c])]
      exact ih.imp (congrArg _) (congrArg _)

/-- Blank lines in front of a text make no difference to its normal form. -/
theorem trimDescription_blank_append {p : Text} (hblank : p.isAllBlank = true)
    (hp : ∀ c ∈ p.getLast?, isLineBreak c = true) (t : Text) :
    trimDescription (p ++ t) = trimDescription t := by
  obtain ⟨ls, hls, hor⟩ := exists_breakLines_append hp t
  have hedges : dropBlankEdges (breakLines t) = dropBlankEdges ls := by
    rcases hor with h | h
    · rw [h]
    · have hempty : ∀ l ∈ ([[]] : List Text), isAllBlank l = true := by simp
      rw [h]
      exact dropBlankEdges_blank_append hempty ls
  rw [trimDescription, trimDescription, descriptionLines, descriptionLines, hls, hedges,
    dropBlankEdges_blank_append (isAllBlank_of_mem_breakLines hblank)]

/-- Blank lines behind a text make no difference to its normal form. -/
theorem trimDescription_append_blank {t q : Text} (hblank : q.isAllBlank = true)
    (hq : (∀ c ∈ t.getLast?, isLineBreak c = true) ∨ ∀ c ∈ q.head?, isLineBreak c = true) :
    trimDescription (t ++ q) = trimDescription t := by
  have hbehind : ∀ {p r : Text}, (∀ c ∈ p.getLast?, isLineBreak c = true) → r.isAllBlank = true →
      dropBlankEdges (breakLines (p ++ r)) = dropBlankEdges (breakLines p) := by
    intro p r hp hr
    obtain ⟨ls, hls, hor⟩ := exists_breakLines_append hp r
    have hall := isAllBlank_of_mem_breakLines hr
    rw [hls]
    refine dropBlankEdges_append_blank _ fun l hl => hall l ?_
    rcases hor with h | h <;> rw [h]
    · exact hl
    · exact List.mem_cons_of_mem _ hl
  have hedges : dropBlankEdges (breakLines (t ++ q)) = dropBlankEdges (breakLines t) := by
    rcases hq with ht | hq
    · exact hbehind ht hblank
    · cases q with
      | nil => rw [List.append_nil]
      | cons c r =>
        have hc : isLineBreak c = true := hq c rfl
        have hr : isAllBlank r = true := by
          rw [← List.singleton_append, isAllBlank_append, Bool.and_eq_true] at hblank
          exact hblank.2
        have hend : ∀ d ∈ (t ++ [c]).getLast?, isLineBreak d = true := by simpa using hc
        rw [← List.singleton_append, ← List.append_assoc, hbehind hend hr]
        rcases breakLines_concat hc t with h | h
        · rw [h]
        · rw [h, dropBlankEdges_append_blank _ (by simp)]
  rw [trimDescription, trimDescription, descriptionLines, descriptionLines, hedges]

/-! ### What a normal form is -/

/-- What is dropped at the edges is blank lines in front and blank lines behind. -/
theorem exists_dropBlankEdges_pad (ls : List Text) : ∃ before after,
    ls = before ++ dropBlankEdges ls ++ after ∧ (∀ l ∈ before, l.isAllBlank = true)
      ∧ ∀ l ∈ after, l.isAllBlank = true := by
  obtain ⟨after, hafter, hblank⟩ := exists_dropEndWhile_append isAllBlank (ls.dropWhile isAllBlank)
  refine ⟨ls.takeWhile isAllBlank, after, ?_, fun l hl => ?_, hblank⟩
  · rw [List.append_assoc]
    conv_lhs => rw [← List.takeWhile_append_dropWhile (p := isAllBlank) (l := ls), hafter]
    rfl
  · exact List.all_eq_true.mp List.all_takeWhile l hl

/-- A line of a normal form against the line of the description that it was: blank lines are empty,
and the others have lost a number of blanks in front. -/
def Dedented (k : Nat) (source line : Text) : Prop :=
  if source.isAllBlank then line = []
  else ∃ w : Text, source = w ++ line ∧ w.length = k ∧ w.isAllBlank = true

/-- Lines are dedented one by one, by the indentation that they share. -/
theorem forall₂_dedented (ls : List Text) :
    List.Forall₂ (Dedented (sharedIndent ls)) ls (dedent ls) := by
  refine List.forall₂_map_right_iff.mpr (List.forall₂_same.mpr fun l hl => ?_)
  rw [Dedented]
  cases hb : l.isAllBlank with
  | true => rfl
  | false =>
    obtain ⟨w, hw, hblank⟩ := exists_append_trimStart l
    have hle := sharedIndent_le hl hb
    have hlen : indentOf l = w.length := by
      conv_lhs => rw [hw]
      exact indentOf_append_trimStart hblank head?_trimStart
    refine ⟨l.take (sharedIndent ls), (List.take_append_drop _ _).symm, ?_, ?_⟩
    · have := congrArg List.length hw
      rw [List.length_append] at this
      rw [List.length_take]
      omega
    · rw [hw, List.take_append_of_le_length (by omega), isAllBlank_iff]
      exact fun c hc => hblank c (List.mem_of_mem_take hc)

/-- A line without indentation that is not blank starts with what is not blank. -/
theorem exists_not_blank_of_indentOf_eq_zero {l : Text} (hb : l.isAllBlank = false)
    (h : indentOf l = 0) : ∃ c ∈ l.head?, isBlank c = false := by
  obtain ⟨c, r, rfl⟩ := List.exists_cons_of_ne_nil (ne_nil_of_isAllBlank hb)
  refine ⟨c, rfl, ?_⟩
  cases hc : isBlank c with
  | false => rfl
  | true =>
    rw [indentOf, trimStart, List.dropWhile_cons_of_pos hc, List.length_cons] at h
    have := (List.dropWhile_sublist isBlank (l := r)).length_le
    omega

/-- The normal form of a description, line for line. The lines between the blank ones at the ends
have all lost the same number of blanks, as many as leave one of them at the left edge. -/
structure IsNormalFormOf (s t : Text) : Prop where
  /-- Both ways of cutting into lines give the same. -/
  lines : splitLines t = breakLines t
  dedented : ∃ before sources after k, breakLines s = before ++ sources ++ after
    ∧ (∀ l ∈ before ++ after, l.isAllBlank = true)
    ∧ List.Forall₂ (Dedented k) sources (splitLines t)
  first : ∀ l ∈ (splitLines t).head?, l.isAllBlank = false
  last : ∀ l ∈ (splitLines t).getLast?, l.isAllBlank = false
  empty : ∀ l ∈ splitLines t, l.isAllBlank = true → l = []
  edge : ∃ l ∈ splitLines t, ∃ c ∈ l.head?, isBlank c = false

/-- Nothing is left of a description if all its lines are blank. -/
theorem trimDescription_eq_nil_iff (s : Text) :
    trimDescription s = [] ↔ ∀ l ∈ breakLines s, l.isAllBlank = true := by
  rw [← dropBlankEdges_eq_nil_iff]
  constructor
  · intro h
    have hlines := breakLines_trimDescription s
    rw [h] at hlines
    exact List.map_eq_nil_iff.mp hlines.symm
  · intro h
    rw [trimDescription, descriptionLines, h]
    rfl

/-- What trimming leaves of a description is its normal form. -/
theorem isNormalFormOf_trimDescription {s : Text} (h : trimDescription s ≠ []) :
    IsNormalFormOf s (trimDescription s) := by
  obtain ⟨hsplit, -, -, hne, hfirst, hlast⟩ := (normal_trimDescription s).lines h
  have hnormal := (normal_trimDescription s).descriptionLines_eq
  have hlines : splitLines (trimDescription s) = dedent (dropBlankEdges (breakLines s)) := by
    rw [hsplit, hnormal, breakLines_trimDescription, descriptionLines]
  obtain ⟨before, after, hpad, hbefore, hafter⟩ := exists_dropBlankEdges_pad (breakLines s)
  refine ⟨hsplit.trans hnormal, ⟨before, _, after, _, hpad,
    List.forall_mem_append.mpr ⟨hbefore, hafter⟩, hlines ▸ forall₂_dedented _⟩, hfirst, hlast,
    fun l hl hb => eq_nil_of_mem_dedent (hlines ▸ hl) hb, ?_⟩
  obtain ⟨l, hl⟩ := Option.ne_none_iff_exists'.mp (mt List.head?_eq_none_iff.mp hne)
  obtain ⟨m, hm, hmb, hindent⟩ := exists_indentOf_eq_sharedIndent (List.mem_of_mem_head? hl)
    (hfirst l hl)
  refine ⟨m, hm, exists_not_blank_of_indentOf_eq_zero hmb ?_⟩
  rw [hindent, hlines, sharedIndent_dedent]

/-- The normal form of a description is its own normal form, is empty when there is no line that is
not blank, and else has the lines of the description without the indentation that they share. The
same spaces and tabs in front of all lines that are not blank and blank lines at the ends make no
difference to it. -/
theorem trimDescription_normalizes (s : Text) :
    trimDescription (trimDescription s) = trimDescription s
      ∧ (trimDescription s = [] ↔ ∀ l ∈ breakLines s, l.isAllBlank = true)
      ∧ (trimDescription s ≠ [] → IsNormalFormOf s (trimDescription s))
      ∧ (∀ w : Text, (∀ c ∈ w, c = ' ' ∨ c = '\t') →
        trimDescription (indented w s) = trimDescription s)
      ∧ ∀ p q : Text, p.isAllBlank = true → q.isAllBlank = true →
        (∀ c ∈ p.getLast?, isLineBreak c = true) →
        ((∀ c ∈ s.getLast?, isLineBreak c = true) ∨ ∀ c ∈ q.head?, isLineBreak c = true) →
        trimDescription (p ++ s ++ q) = trimDescription s := by
  refine ⟨trimDescription_trimDescription s, trimDescription_eq_nil_iff s,
    isNormalFormOf_trimDescription, fun w hw => ?_, fun p q hp hq hpend hqstart => ?_⟩
  · have hspace : ∀ c ∈ w, isBlank c = true ∧ isLineBreak c = false := fun c hc => by
      rcases hw c hc with rfl | rfl <;> decide
    exact trimDescription_indented (fun c hc => (hspace c hc).2) (fun c hc => (hspace c hc).1) s
  · rw [List.append_assoc, trimDescription_blank_append hp hpend,
      trimDescription_append_blank hq hqstart]

/-- A description with tabs and spaces, a line of blanks and other blank lines around it. -/
theorem trimDescription_normalizes_tabbed :
    trimDescription (ofString " \ta\n\n \t b ") = ofString "a\n\n b "
      ∧ IsNormalFormOf (ofString " \ta\n\n \t b ") (ofString "a\n\n b ")
      ∧ indented ['\t'] (ofString " \ta\n\n \t b ") = ofString "\t \ta\n\n\t \t b "
      ∧ trimDescription (ofString "\t \ta\n\n\t \t b ") = ofString "a\n\n b "
      ∧ trimDescription (ofString "  \r\n \ta\n\n \t b \x0b\t") = ofString "a\n\n b " := by
  have hvalue : trimDescription (ofString " \ta\n\n \t b ") = ofString "a\n\n b " := by decide
  have hindented : indented ['\t'] (ofString " \ta\n\n \t b ")
      = ofString "\t \ta\n\n\t \t b " := by decide
  have hend : (ofString "  \r\n").getLast? = some '\n' := by decide
  have hstart : (ofString "\x0b\t").head? = some '\x0b' := by decide
  have hbreak : isLineBreak '\n' = true ∧ isLineBreak '\x0b' = true := by decide
  obtain ⟨-, -, hnormal, hshift, hpad⟩ := trimDescription_normalizes (ofString " \ta\n\n \t b ")
  have hform := hnormal (by rw [hvalue]; decide)
  have htab := hshift ['\t'] (by simp)
  have hblank := hpad (ofString "  \r\n") (ofString "\x0b\t") (by decide) (by decide)
    (by rw [hend]; rintro _ ⟨⟩; exact hbreak.1)
    (.inr (by rw [hstart]; rintro _ ⟨⟩; exact hbreak.2))
  rw [hvalue] at hform htab hblank
  rw [hindented] at htab
  exact ⟨hvalue, hform, hindented, htab, hblank⟩

end Text

end FeatureTree
