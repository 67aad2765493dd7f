import FeatureTree.Proofs.Text.Description
import FeatureTree.Proofs.Text.Pieces
import Mathlib.Data.List.Forall2

/-!
# The lines of a description and of its normal form

The reader cuts a description at line feeds alone, and the normal form cuts it at every character
that ends a line in some convention. So a line of the description can become several lines of the
normal form, which are written as lines of a document. There is one more for every line break that
is no line feed, if it stands between the first and the last character that are not blank; elsewhere
it makes a blank line at an end, which is dropped. A carriage return directly before a line feed
would count with it as one break, so that case is left out.

## Main results

* `Text.dropBlankEdges_splitOnP`: what is left of the pieces of a text without the blank ones at its
  ends
* `Text.lines_trimDescription`: how many lines a normal form has, and when each of them is a line of
  the description
-/

namespace FeatureTree

namespace Text

/-! ### Blank pieces at the ends -/

/-- Breaks outside of a text make blank pieces, of which the text takes in what is next to it. -/
theorem dropBlankEdges_splitOnP {p : Char → Bool} (hp : ∀ c, p c = true → isBlank c = true)
    {w t v : Text} (hw : ∀ c ∈ w, isBlank c = true) (hv : ∀ c ∈ v, isBlank c = true)
    (ht : t.Trimmed) (hne : t ≠ []) :
    dropBlankEdges ((w ++ t ++ v).splitOnP p)
      = (w.rtakeWhile (!p ·) ++ t ++ v.takeWhile (!p ·)).splitOnP p := by
  have hnot : ∀ c, isBlank c = false → p c = false := by
    intro c hc
    rw [← Bool.not_eq_true]
    intro hpc
    rw [hp c hpc] at hc
    cases hc
  have hblank : ∀ {u : Text} {ls : List Text}, (∀ c ∈ u, isBlank c = true) →
      (∀ l ∈ ls, ∀ c ∈ l, c ∈ u) → ∀ l ∈ ls, l.isAllBlank = true := fun hu hls l hl =>
    isAllBlank_iff.mpr fun c hc => hu c (hls l hl c hc)
  have hsolid : ∀ {l : Text} {c : Char}, c ∈ l → isBlank c = false → l.isAllBlank = false := by
    intro l c hl hc
    rw [← Bool.not_eq_true, isAllBlank_iff]
    intro hall
    rw [hall c hl] at hc
    cases hc
  obtain ⟨ls, hls, heq⟩ := exists_splitOnP_append (p := p) w (t ++ v)
  obtain ⟨ms, hms, heq'⟩ := exists_append_splitOnP (p := p) (w.rtakeWhile (!p ·) ++ t) v
  rw [List.append_assoc, heq, ← List.append_assoc (w.rtakeWhile _), heq',
    dropBlankEdges_blank_append (hblank hw hls), dropBlankEdges_append_blank _ (hblank hv hms)]
  have hfirst := forall_mem_rtakeWhile (p := p) (w := w)
  have hlast := forall_mem_takeWhile (p := p) (v := v)
  generalize w.rtakeWhile (!p ·) = w' at hfirst
  generalize v.takeWhile (!p ·) = v' at hlast
  apply dropBlankEdges_eq_self
  · -- the first piece holds the first character of the text
    obtain ⟨c, r, rfl⟩ := List.exists_cons_of_ne_nil hne
    have hc : isBlank c = false := ht.head c rfl
    rw [List.append_assoc, List.cons_append]
    exact fun l hl => hsolid (mem_of_mem_head?_splitOnP hfirst (hnot c hc) l hl) hc
  · -- the last piece holds the last character of the text
    obtain ⟨r, c, rfl⟩ := (List.eq_nil_or_concat' t).resolve_left hne
    have hc : isBlank c = false := ht.last c (by simp)
    rw [← List.append_assoc, List.append_assoc _ [c], List.singleton_append]
    exact fun l hl => hsolid (mem_of_mem_getLast?_splitOnP hlast (hnot c hc) l hl) hc

/-! ### Counting lines -/

/-- The number of line breaks that are no line feeds. -/
def oddBreaks (t : Text) : Nat := t.countP fun c => isLineBreak c && c != '\n'

/-- The line breaks of a text are its line feeds and the odd ones. -/
theorem countP_isLineBreak (t : Text) :
    t.countP isLineBreak = t.countP (· == '\n') + t.oddBreaks := by
  induction t with
  | nil => rfl
  | cons c t ih =>
    rw [oddBreaks] at ih ⊢
    rw [List.countP_cons, List.countP_cons, List.countP_cons, ih]
    by_cases hc : c = '\n'
    · subst hc
      simp only [beq_self_eq_true, bne_self_eq_false, Bool.and_false, if_true]
      rw [if_pos (by decide)]
      simp only [Bool.false_eq_true, if_false]
      omega
    · have hbeq : (c == '\n') = false := by simpa using hc
      have hbne : (c != '\n') = true := by simpa using hc
      simp only [hbeq, hbne, Bool.and_true, Bool.false_eq_true, if_false]
      omega

/-- There are no odd breaks if all breaks are line feeds. -/
theorem oddBreaks_eq_zero_iff {t : Text} :
    t.oddBreaks = 0 ↔ ∀ c ∈ t, isLineBreak c = true → c = '\n' := by
  simp [oddBreaks, List.countP_eq_zero]

/-! ### Where lines come from -/

/-- Whether a line is another one without some blanks at its ends. -/
def CutFrom (whole line : Text) : Prop :=
  ∃ before after : Text, whole = before ++ line ++ after
    ∧ before.isAllBlank = true ∧ after.isAllBlank = true

namespace CutFrom

/-- A line is cut from itself. -/
theorem refl (l : Text) : CutFrom l l := ⟨[], [], by simp, rfl, rfl⟩

/-- What is cut from a line that was cut is cut from the first line. -/
theorem trans {k l m : Text} (h : CutFrom k l) (h' : CutFrom l m) : CutFrom k m := by
  obtain ⟨b, a, rfl, hb, ha⟩ := h
  obtain ⟨b', a', rfl, hb', ha'⟩ := h'
  refine ⟨b ++ b', a' ++ a, by simp, ?_, ?_⟩
  · rw [isAllBlank_append, hb, hb']; rfl
  · rw [isAllBlank_append, ha, ha']; rfl

/-- Nothing is left of a blank line. -/
theorem of_isAllBlank {l : Text} (h : l.isAllBlank = true) : CutFrom l [] :=
  ⟨l, [], by simp, h, rfl⟩

/-- Indentation can be cut from a line. -/
theorem drop {l : Text} {k : Nat} (h : k ≤ indentOf l) : CutFrom l (l.drop k) := by
  obtain ⟨w, hl, hw⟩ := exists_append_trimStart l
  have hlen : indentOf l = w.length := by
    conv_lhs => rw [hl]
    exact indentOf_append_trimStart hw head?_trimStart
  refine ⟨l.take k, [], by simp, ?_, rfl⟩
  rw [hl, List.take_append_of_le_length (by omega), isAllBlank_iff]
  exact fun c hc => hw c (List.mem_of_mem_take hc)

end CutFrom

/-- Lines that are cut twice are cut from the first ones, one by one. -/
theorem forall₂_cutFrom_trans {ks ls ms : List Text} (h : List.Forall₂ CutFrom ks ls)
    (h' : List.Forall₂ CutFrom ls ms) : List.Forall₂ CutFrom ks ms := by
  induction h generalizing ms with
  | nil => exact h'
  | cons hkl _ ih =>
    cases h' with
    | cons hlm h' => exact .cons (hkl.trans hlm) (ih h')

/-- Removing the shared indentation keeps the lines, without blanks at their ends. -/
theorem forall₂_cutFrom_dedent (ls : List Text) : List.Forall₂ CutFrom ls (dedent ls) := by
  refine List.forall₂_map_right_iff.mpr (List.forall₂_same.mpr fun l hl => ?_)
  cases hb : l.isAllBlank with
  | true => exact .of_isAllBlank hb
  | false => exact .drop (sharedIndent_le hl hb)

/-- What is put behind joined lines is put behind the last of them. -/
theorem joinLines_concat_append (ls : List Text) (l v : Text) :
    joinLines (ls ++ [l]) ++ v = joinLines (ls ++ [l ++ v]) := by
  induction ls with
  | nil => simp
  | cons m ls ih =>
    rw [List.cons_append, List.cons_append, joinLines_cons (by simp), joinLines_cons (by simp),
      List.append_assoc, List.cons_append, ih]

/-- What is put in front of joined lines is put in front of the first of them. -/
theorem append_joinLines_cons (w l : Text) (ls : List Text) :
    w ++ joinLines (l :: ls) = joinLines ((w ++ l) :: ls) := by
  cases ls with
  | nil => simp
  | cons m ls => rw [joinLines_cons_cons, joinLines_cons_cons, List.append_assoc]

/-- Blanks behind a text belong to its last line, unless there is a line feed among them. -/
theorem forall₂_cutFrom_append (t : Text) {v : Text} (hv : v.isAllBlank = true)
    (hone : v.OneLine) : List.Forall₂ CutFrom (splitLines (t ++ v)) (splitLines t) := by
  obtain ⟨ls, l, hls⟩ := (List.eq_nil_or_concat' (splitLines t)).resolve_left (splitLines_ne_nil t)
  have hlines : ∀ m ∈ ls ++ [l], m.OneLine := fun m hm => oneLine_of_mem_splitLines (hls ▸ hm)
  have hsplit : splitLines (t ++ v) = ls ++ [l ++ v] := by
    rw [← joinLines_splitLines t, hls, joinLines_concat_append]
    refine splitLines_joinLines (by simp) fun m hm => ?_
    rcases List.mem_append.mp hm with hm | hm
    · exact hlines m (List.mem_append_left _ hm)
    · rw [List.mem_singleton] at hm
      subst hm
      intro hc
      rcases List.mem_append.mp hc with hc | hc
      · exact hlines l (by simp) hc
      · exact hone hc
  rw [hsplit, hls]
  exact List.rel_append (List.forall₂_same.mpr fun m _ => .refl m)
    (.cons ⟨[], v, rfl, rfl, hv⟩ .nil)

/-- Blanks in front of a text belong to its first line, unless there is a line feed among them. -/
theorem forall₂_append_cutFrom {w : Text} (t : Text) (hw : w.isAllBlank = true)
    (hone : w.OneLine) : List.Forall₂ CutFrom (splitLines (w ++ t)) (splitLines t) := by
  obtain ⟨l, ls, hls⟩ := List.exists_cons_of_ne_nil (splitLines_ne_nil t)
  have hlines : ∀ m ∈ l :: ls, m.OneLine := fun m hm => oneLine_of_mem_splitLines (hls ▸ hm)
  have hsplit : splitLines (w ++ t) = (w ++ l) :: ls := by
    rw [← joinLines_splitLines t, hls, append_joinLines_cons]
    refine splitLines_joinLines (by simp) fun m hm => ?_
    rcases List.mem_cons.mp hm with rfl | hm
    · intro hc
      rcases List.mem_append.mp hc with hc | hc
      · exact hone hc
      · exact hlines l (by simp) hc
    · exact hlines m (List.mem_cons_of_mem _ hm)
  rw [hsplit, hls]
  exact .cons ⟨w, [], by simp, hw, rfl⟩ (List.forall₂_same.mpr fun m _ => .refl m)

/-! ### Lines of normal forms -/

/-- An empty line at the end does not count for a description. -/
theorem dropBlankEdges_breakLines {s : Text} (h : ¬['\r', '\n'] <:+: s) :
    dropBlankEdges (breakLines s) = dropBlankEdges (s.splitOnP isLineBreak) := by
  rcases splitOnP_isLineBreak h with he | he
  · rw [he]
  · rw [he, dropBlankEdges_append_blank _ (by simp)]

section

variable {s : Text}

/-- The lines of a description between its blank ones. -/
theorem dropBlankEdges_splitLines (hs : s.trim ≠ []) {w v : Text} (heq : s = w ++ s.trim ++ v)
    (hw : ∀ c ∈ w, isBlank c = true) (hv : ∀ c ∈ v, isBlank c = true) :
    dropBlankEdges s.splitLines
      = splitLines (w.rtakeWhile (!· == '\n') ++ s.trim ++ v.takeWhile (!· == '\n')) := by
  have hfeed : ∀ c : Char, (c == '\n') = true → isBlank c = true := by
    intro c hc
    rw [beq_iff_eq] at hc
    subst hc
    rfl
  rw [splitLines_eq_splitOnP, splitLines_eq_splitOnP]
  conv_lhs => rw [heq]
  exact dropBlankEdges_splitOnP hfeed hw hv (trimmed_trim s) hs

/-- The lines that the normal form of a description is made of. -/
theorem dropBlankEdges_breakLines_eq (hreturn : ¬['\r', '\n'] <:+: s) (hs : s.trim ≠ [])
    {w v : Text} (heq : s = w ++ s.trim ++ v) (hw : ∀ c ∈ w, isBlank c = true)
    (hv : ∀ c ∈ v, isBlank c = true) :
    dropBlankEdges s.breakLines
      = (w.rtakeWhile (!isLineBreak ·) ++ s.trim ++ v.takeWhile (!isLineBreak ·)).splitOnP
          isLineBreak := by
  rw [dropBlankEdges_breakLines hreturn]
  conv_lhs => rw [heq]
  exact dropBlankEdges_splitOnP (fun _ => isBlank_of_isLineBreak) hw hv (trimmed_trim s) hs

end

/-- Blanks around a text belong to its first and its last line. -/
theorem forall₂_cutFrom_pad {a b : Text} (t : Text) (ha : ∀ c ∈ a, isBlank c = true ∧ c ≠ '\n')
    (hb : ∀ c ∈ b, isBlank c = true ∧ c ≠ '\n') :
    List.Forall₂ CutFrom (splitLines (a ++ t ++ b)) (splitLines t) :=
  forall₂_cutFrom_trans
    (forall₂_cutFrom_append (a ++ t) (isAllBlank_iff.mpr fun c hc => (hb c hc).1)
      fun hc => (hb _ hc).2 rfl)
    (forall₂_append_cutFrom t (isAllBlank_iff.mpr fun c hc => (ha c hc).1)
      fun hc => (ha _ hc).2 rfl)

/-- If a text has no line breaks but line feeds, the two cuts of it in its surroundings differ in
what the first and the last piece take in. -/
theorem forall₂_cutFrom_splitOnP {w t v : Text} (hw : ∀ c ∈ w, isBlank c = true)
    (hv : ∀ c ∈ v, isBlank c = true) (ht : ∀ c ∈ t, isLineBreak c = true → c = '\n') :
    List.Forall₂ CutFrom
      (splitLines (w.rtakeWhile (!· == '\n') ++ t ++ v.takeWhile (!· == '\n')))
      ((w.rtakeWhile (!isLineBreak ·) ++ t ++ v.takeWhile (!isLineBreak ·)).splitOnP
        isLineBreak) := by
  have hfeed : isLineBreak '\n' = true := by decide
  have hweak : ∀ c, (!isLineBreak c) = true → (!c == '\n') = true := by
    intro c hc
    simp only [Bool.not_eq_true', beq_eq_false_iff_ne] at hc ⊢
    rintro rfl
    rw [hfeed] at hc
    cases hc
  obtain ⟨a, ha⟩ := rtakeWhile_isSuffix_rtakeWhile hweak w
  obtain ⟨b, hb⟩ := takeWhile_isPrefix_takeWhile hweak v
  have hablank : ∀ c ∈ a, isBlank c = true ∧ c ≠ '\n' := by
    intro c hc
    have hmem : c ∈ w.rtakeWhile (!· == '\n') := ha ▸ List.mem_append_left _ hc
    exact ⟨hw c ((List.rtakeWhile_suffix _ _).subset hmem),
      by simpa using forall_mem_rtakeWhile c hmem⟩
  have hbblank : ∀ c ∈ b, isBlank c = true ∧ c ≠ '\n' := by
    intro c hc
    have hmem : c ∈ v.takeWhile (!· == '\n') := hb ▸ List.mem_append_right _ hc
    exact ⟨hv c ((List.takeWhile_sublist _).subset hmem),
      by simpa using forall_mem_takeWhile c hmem⟩
  have hcut : ∀ c ∈ w.rtakeWhile (!isLineBreak ·) ++ t ++ v.takeWhile (!isLineBreak ·),
      isLineBreak c = (c == '\n') := by
    intro c hc
    rw [List.mem_append, List.mem_append] at hc
    rw [Bool.eq_iff_iff, beq_iff_eq]
    refine ⟨fun hbreak => ?_, fun he => he ▸ hfeed⟩
    rcases hc with (hc | hc) | hc
    · rw [forall_mem_rtakeWhile c hc] at hbreak
      cases hbreak
    · exact ht c hc hbreak
    · rw [forall_mem_takeWhile c hc] at hbreak
      cases hbreak
  rw [splitOnP_congr hcut, ← splitLines_eq_splitOnP, ← ha, ← hb]
  simpa only [List.append_assoc] using forall₂_cutFrom_pad
    (w.rtakeWhile (!isLineBreak ·) ++ t ++ v.takeWhile (!isLineBreak ·)) hablank hbblank

/-- A trimmed description has the lines of the description without blank edges, dedented. -/
theorem splitLines_trimDescription {s : Text} (h : dropBlankEdges s.breakLines ≠ []) :
    splitLines (trimDescription s) = dedent (dropBlankEdges s.breakLines) :=
  splitLines_joinLines (by simpa [descriptionLines, dedent] using h)
    fun _ hl => (noBreak_of_mem_descriptionLines hl).oneLine

/-- The lines of the normal form of a description. Nothing is left of a blank one. Else, counted
from the first to the last line that is not blank, there is one line for each line of the
description and one more for each line break inside that is no line feed; and line for line they are
those of the description exactly when there is no such line break. -/
theorem lines_trimDescription {s : Text} (hreturn : ¬['\r', '\n'] <:+: s) :
    (s.isAllBlank = true → dropBlankEdges s.splitLines = [] ∧ trimDescription s = [])
      ∧ (s.isAllBlank = false →
        (splitLines (trimDescription s)).length
            = (dropBlankEdges s.splitLines).length + s.trim.oddBreaks
          ∧ (List.Forall₂ CutFrom (dropBlankEdges s.splitLines) (splitLines (trimDescription s))
            ↔ ∀ c ∈ s.trim, isLineBreak c = true → c = '\n')) := by
  have hpieces : ∀ p : Char → Bool, s.isAllBlank = true →
      dropBlankEdges (s.splitOnP p) = [] := fun p hblank =>
    (dropBlankEdges_eq_nil_iff _).mpr fun l hl =>
      isAllBlank_iff.mpr fun c hc => isAllBlank_iff.mp hblank c (mem_of_mem_splitOnP hl hc)
  refine ⟨fun hblank => ⟨?_, ?_⟩, fun hsolid => ?_⟩
  · rw [splitLines_eq_splitOnP, hpieces _ hblank]
  · rw [trimDescription, descriptionLines, dropBlankEdges_breakLines hreturn, hpieces _ hblank]
    rfl
  · obtain ⟨w, v, heq, hw, hv⟩ := exists_trim_pad s
    have hne := trim_ne_nil hsolid
    have hdoc := dropBlankEdges_splitLines hne heq hw hv
    have hnorm := dropBlankEdges_breakLines_eq hreturn hne heq hw hv
    have hresult : splitLines (trimDescription s) = dedent (dropBlankEdges s.breakLines) :=
      splitLines_trimDescription (hnorm ▸ List.splitOnP_ne_nil _ _)
    have hlength : (splitLines (trimDescription s)).length
        = (dropBlankEdges s.splitLines).length + s.trim.oddBreaks := by
      rw [hresult, dedent, List.length_map, hnorm, hdoc, splitLines_eq_splitOnP,
        length_splitOnP_pad forall_mem_rtakeWhile forall_mem_takeWhile,
        length_splitOnP_pad forall_mem_rtakeWhile forall_mem_takeWhile, countP_isLineBreak]
      omega
    refine ⟨hlength, fun hcut => ?_, fun hfeeds => ?_⟩
    · rw [← oddBreaks_eq_zero_iff]
      have := hcut.length_eq
      omega
    · rw [hresult, hdoc, hnorm]
      exact forall₂_cutFrom_trans (forall₂_cutFrom_splitOnP hw hv hfeeds) (forall₂_cutFrom_dedent _)

/-- A vertical tab inside a description makes two lines of one. -/
theorem lines_trimDescription_verticalTab :
    ¬['\r', '\n'] <:+: ofString "a\x0bb"
      ∧ (splitLines (trimDescription (ofString "a\x0bb"))).length = 2
      ∧ (dropBlankEdges (splitLines (ofString "a\x0bb"))).length = 1
      ∧ ¬List.Forall₂ CutFrom (dropBlankEdges (splitLines (ofString "a\x0bb")))
          (splitLines (trimDescription (ofString "a\x0bb"))) := by
  have hreturn : ¬['\r', '\n'] <:+: ofString "a\x0bb" := by decide
  have key := (lines_trimDescription hreturn).2 (by decide)
  have hone : (dropBlankEdges (splitLines (ofString "a\x0bb"))).length = 1 := by decide
  have hodd : (ofString "a\x0bb").trim.oddBreaks = 1 := by decide
  refine ⟨hreturn, by rw [key.1, hone, hodd], hone, fun hcut => ?_⟩
  exact absurd (key.2.mp hcut '\x0b' (by decide) (by decide)) (by decide)

end Text

end FeatureTree
