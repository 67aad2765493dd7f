import FeatureTree.Proofs.Text.Lines

/-!
# The normal form of descriptions

Putting a description into its normal form drops the blank lines at its ends and the indentation
that all its lines share. Done once, there is nothing left to drop: the first and the last line are
not blank, and some line stands at the left edge. So a normal form is its own normal form, and a
line of it that is not empty is a line of the description behind some of its indentation.

## Main results

* `Text.trimDescription_trimDescription`: a normal form is its own normal form
* `Text.Normal.lines`: what the lines of a normal form look like
* `Text.mem_descriptionLines`: where the lines of a normal form come from
-/

namespace FeatureTree

namespace Text

/-! ### Indentation -/

/-- The indentation of a line is the length of what is blank in front of the rest. -/
theorem indentOf_append_trimStart {w t : Text} (hw : ∀ c ∈ w, isBlank c = true)
    (ht : ∀ c ∈ t.head?, isBlank c = false) : indentOf (w ++ t) = w.length := by
  rw [indentOf, trimStart_append_of_blank hw, trimStart_eq_self ht, List.length_append]
  omega

/-- Dropping a part of the indentation leaves the rest of it. -/
theorem exists_drop_indent {l : Text} {k : Nat} (h : k ≤ indentOf l) :
    ∃ w : Text, (∀ c ∈ w, isBlank c = true) ∧ l.drop k = w ++ trimStart l
      ∧ w.length = indentOf l - k := by
  obtain ⟨w, hl, hw⟩ := exists_append_trimStart l
  have hlen : indentOf l = w.length := by
    conv_lhs => rw [hl]
    exact indentOf_append_trimStart hw head?_trimStart
  refine ⟨w.drop k, fun c hc => hw c (List.drop_subset _ _ hc), ?_, ?_⟩
  · conv_lhs => rw [hl]
    rw [List.drop_append_of_le_length (by omega)]
  · rw [List.length_drop, hlen]

/-- Taking some of the indentation away leaves the trimmed line the same. -/
theorem trimStart_drop {l : Text} {k : Nat} (h : k ≤ indentOf l) :
    trimStart (l.drop k) = trimStart l := by
  obtain ⟨w, hw, hl, -⟩ := exists_drop_indent h
  rw [hl, trimStart_append_of_blank hw, trimStart_eq_self head?_trimStart]

/-- Taking some of the indentation away leaves the rest of it. -/
theorem indentOf_drop {l : Text} {k : Nat} (h : k ≤ indentOf l) :
    indentOf (l.drop k) = indentOf l - k := by
  obtain ⟨w, hw, hl, hlen⟩ := exists_drop_indent h
  rw [hl, indentOf_append_trimStart hw head?_trimStart, hlen]

/-- Taking some of the indentation away leaves a line blank, or not blank. -/
theorem isAllBlank_drop {l : Text} {k : Nat} (h : k ≤ indentOf l) :
    isAllBlank (l.drop k) = l.isAllBlank := by
  rw [Bool.eq_iff_iff, isAllBlank_iff, isAllBlank_iff, ← trimStart_eq_nil_iff,
    ← trimStart_eq_nil_iff, trimStart_drop h]

/-- No line that is not blank is indented less than what is shared. -/
theorem sharedIndent_le {ls : List Text} {l : Text} (hl : l ∈ ls) (hb : l.isAllBlank = false) :
    sharedIndent ls ≤ indentOf l := by
  have hmem : indentOf l ∈ (ls.filter fun l => !l.isAllBlank).map indentOf :=
    List.mem_map_of_mem (List.mem_filter.mpr ⟨hl, by simp [hb]⟩)
  cases hm : ((ls.filter fun l => !l.isAllBlank).map indentOf).min? with
  | none => rw [sharedIndent, hm]; exact Nat.zero_le _
  | some n =>
    rw [sharedIndent, hm]
    exact (List.min?_eq_some_iff.mp hm).2 _ hmem

/-- Some line that is not blank has no more indentation than what is shared. -/
theorem exists_indentOf_eq_sharedIndent {ls : List Text} {l : Text} (hl : l ∈ ls)
    (hb : l.isAllBlank = false) :
    ∃ m ∈ ls, m.isAllBlank = false ∧ indentOf m = sharedIndent ls := by
  have hmem : indentOf l ∈ (ls.filter fun l => !l.isAllBlank).map indentOf :=
    List.mem_map_of_mem (List.mem_filter.mpr ⟨hl, by simp [hb]⟩)
  cases hm : ((ls.filter fun l => !l.isAllBlank).map indentOf).min? with
  | none => simp [List.min?_eq_none_iff.mp hm] at hmem
  | some n =>
    obtain ⟨m, hm', hn⟩ := List.mem_map.mp (List.min?_eq_some_iff.mp hm).1
    obtain ⟨hmls, hmb⟩ := List.mem_filter.mp hm'
    exact ⟨m, hmls, by simpa using hmb, by rw [sharedIndent, hm]; exact hn⟩

/-- Lines share no indentation once one of them has none. -/
theorem sharedIndent_eq_zero {ls : List Text}
    (h : ∀ l ∈ ls, l.isAllBlank = false → ∃ m ∈ ls, m.isAllBlank = false ∧ indentOf m = 0) :
    sharedIndent ls = 0 := by
  cases hm : ((ls.filter fun l => !l.isAllBlank).map indentOf).min? with
  | none => rw [sharedIndent, hm]; rfl
  | some n =>
    obtain ⟨l, hl, -⟩ := List.mem_map.mp (List.min?_eq_some_iff.mp hm).1
    obtain ⟨hlls, hlb⟩ := List.mem_filter.mp hl
    obtain ⟨m, hmls, hmb, hm0⟩ := h l hlls (by simpa using hlb)
    have := sharedIndent_le hmls hmb
    omega

/-! ### Removing the shared indentation -/

/-- A line that is dedented is blank if it was. -/
theorem isAllBlank_dedentLine {ls : List Text} {l : Text} (hl : l ∈ ls) :
    isAllBlank (if l.isAllBlank then [] else l.drop (sharedIndent ls)) = l.isAllBlank := by
  cases hb : l.isAllBlank with
  | true => rfl
  | false =>
    rw [if_neg (by simp), isAllBlank_drop (sharedIndent_le hl hb), hb]

/-- Lines that are dedented share no indentation. -/
theorem sharedIndent_dedent (ls : List Text) : sharedIndent (dedent ls) = 0 := by
  refine sharedIndent_eq_zero fun l hl hb => ?_
  obtain ⟨m, hm, rfl⟩ := List.mem_map.mp hl
  rw [isAllBlank_dedentLine hm] at hb
  obtain ⟨n, hn, hnb, hind⟩ := exists_indentOf_eq_sharedIndent hm hb
  refine ⟨_, List.mem_map_of_mem hn, by rw [isAllBlank_dedentLine hn, hnb], ?_⟩
  rw [hnb, if_neg (by simp), indentOf_drop (Nat.le_of_eq hind.symm), hind, Nat.sub_self]

/-- Lines that share no indentation, of which the blank ones are empty, stay as they are. -/
theorem dedent_eq_self {ls : List Text} (hs : sharedIndent ls = 0)
    (hb : ∀ l ∈ ls, l.isAllBlank = true → l = []) : dedent ls = ls := by
  have hid : ∀ l ∈ ls, (if l.isAllBlank then ([] : Text) else l.drop (sharedIndent ls)) = l := by
    intro l hl
    cases hl' : l.isAllBlank with
    | true => rw [if_pos rfl, hb l hl hl']
    | false => rw [if_neg (by simp), hs, List.drop_zero]
  exact (List.map_congr_left hid).trans (List.map_id' ls)

/-- A blank line is empty once it is dedented. -/
theorem eq_nil_of_mem_dedent {ls : List Text} {l : Text} (hl : l ∈ dedent ls)
    (hb : l.isAllBlank = true) : l = [] := by
  obtain ⟨m, hm, rfl⟩ := List.mem_map.mp hl
  rw [isAllBlank_dedentLine hm] at hb
  rw [if_pos hb]

/-! ### Dropping blank lines at the ends -/

/-- Lines stay as they are if neither the first nor the last is blank. -/
theorem dropBlankEdges_eq_self {ls : List Text} (first : ∀ l ∈ ls.head?, l.isAllBlank = false)
    (last : ∀ l ∈ ls.getLast?, l.isAllBlank = false) : dropBlankEdges ls = ls := by
  rw [dropBlankEdges, dropWhile_eq_self first, dropEndWhile_eq_self last]

/-- The last line is not blank once blank edges are dropped. -/
theorem getLast?_dropBlankEdges {ls : List Text} :
    ∀ l ∈ (dropBlankEdges ls).getLast?, l.isAllBlank = false :=
  getLast?_dropEndWhile

/-- The first line is not blank once blank edges are dropped. -/
theorem head?_dropBlankEdges {ls : List Text} :
    ∀ l ∈ (dropBlankEdges ls).head?, l.isAllBlank = false := by
  intro l hl
  obtain ⟨ms, hms⟩ := dropEndWhile_isPrefix isAllBlank (ls.dropWhile isAllBlank)
  have hhead : l ∈ (ls.dropWhile isAllBlank).head? := by
    rw [← hms]
    cases hd : dropBlankEdges ls with
    | nil => simp [hd] at hl
    | cons a r =>
      rw [hd] at hl
      rw [← dropBlankEdges, hd]
      simpa using hl
  exact head?_dropWhile l hhead

/-- Dropping blank edges adds no line. -/
theorem mem_of_mem_dropBlankEdges {ls : List Text} {l : Text} (h : l ∈ dropBlankEdges ls) :
    l ∈ ls :=
  (List.dropWhile_subset _) ((dropEndWhile_isPrefix _ _).subset h)

/-- Blank lines in front of others are dropped. -/
theorem dropBlankEdges_blank_append {xs : List Text} (h : ∀ x ∈ xs, x.isAllBlank = true)
    (ys : List Text) : dropBlankEdges (xs ++ ys) = dropBlankEdges ys := by
  rw [dropBlankEdges, dropBlankEdges, List.dropWhile_append_of_pos h]

/-- Blank lines behind others are dropped. -/
theorem dropBlankEdges_append_blank (xs : List Text) {ys : List Text}
    (h : ∀ y ∈ ys, y.isAllBlank = true) : dropBlankEdges (xs ++ ys) = dropBlankEdges xs := by
  by_cases hx : ∀ x ∈ xs, x.isAllBlank = true
  · rw [dropBlankEdges_blank_append hx, (dropBlankEdges_eq_nil_iff ys).mpr h,
      (dropBlankEdges_eq_nil_iff xs).mpr hx]
  · have hdrop : (xs ++ ys).dropWhile isAllBlank = xs.dropWhile isAllBlank ++ ys := by
      rw [List.dropWhile_append, if_neg]
      rw [List.isEmpty_iff, dropWhile_eq_nil]
      exact hx
    rw [dropBlankEdges, hdrop, dropEndWhile_append_of_all h, dropBlankEdges]

/-! ### Normal forms -/

/-- A line between two breaks has no break in it. -/
theorem noBreak_of_mem_breakLines {t l : Text} (h : l ∈ breakLines t) : l.NoBreak := by
  fun_induction breakLines t generalizing l with
  | case1 => simp at h
  | case2 t ih | case3 c t _ _ ih =>
    rcases List.mem_cons.mp h with rfl | h
    · simp [NoBreak]
    · exact ih h
  | case4 c t _ hc _ _ =>
    rw [List.mem_singleton] at h
    subst h
    simpa [NoBreak] using hc
  | case5 c t _ hc line lines hs ih =>
    rcases List.mem_cons.mp h with rfl | h
    · have hline : NoBreak line := ih (hs ▸ List.mem_cons_self)
      intro d hd
      rcases List.mem_cons.mp hd with rfl | hd
      · simpa using hc
      · exact hline d hd
    · exact ih (hs ▸ List.mem_cons_of_mem _ h)

/-- A line of a normal form is empty, or a line of the description behind some of its
indentation. -/
theorem mem_descriptionLines {t l : Text} (h : l ∈ descriptionLines t) :
    l = [] ∨ ∃ m ∈ breakLines t, m.isAllBlank = false ∧ trimStart l = trimStart m
      ∧ ∃ k, l = m.drop k := by
  obtain ⟨m, hm, rfl⟩ := List.mem_map.mp h
  cases hb : m.isAllBlank with
  | true => exact .inl (if_pos rfl)
  | false =>
    rw [if_neg (by simp)]
    exact .inr ⟨m, mem_of_mem_dropBlankEdges hm, hb, trimStart_drop (sharedIndent_le hm hb), _, rfl⟩

/-- A line of a description has no break in it. -/
theorem noBreak_of_mem_descriptionLines {t l : Text} (h : l ∈ descriptionLines t) :
    l.NoBreak := by
  rcases mem_descriptionLines h with rfl | ⟨m, hm, -, -, k, rfl⟩
  · simp [NoBreak]
  · exact fun c hc => noBreak_of_mem_breakLines hm c (List.drop_subset _ _ hc)

/-- The first line of a description is not blank. -/
theorem head?_descriptionLines {t : Text} :
    ∀ l ∈ (descriptionLines t).head?, l.isAllBlank = false := by
  intro l hl
  rw [descriptionLines, dedent, List.head?_map] at hl
  obtain ⟨m, hm, rfl⟩ := Option.map_eq_some_iff.mp hl
  rw [isAllBlank_dedentLine (List.mem_of_mem_head? hm)]
  exact head?_dropBlankEdges m hm

/-- The last line of a description is not blank. -/
theorem getLast?_descriptionLines {t : Text} :
    ∀ l ∈ (descriptionLines t).getLast?, l.isAllBlank = false := by
  intro l hl
  rw [descriptionLines, dedent, List.getLast?_map] at hl
  obtain ⟨m, hm, rfl⟩ := Option.map_eq_some_iff.mp hl
  rw [isAllBlank_dedentLine (List.mem_of_mem_getLast? hm)]
  exact getLast?_dropBlankEdges m hm

/-- A line that is not blank is not empty. -/
theorem ne_nil_of_isAllBlank {l : Text} (h : l.isAllBlank = false) : l ≠ [] := by
  rintro rfl
  exact Bool.noConfusion h

/-- The lines of a trimmed description are those of the description. -/
theorem breakLines_trimDescription (t : Text) :
    breakLines (trimDescription t) = descriptionLines t :=
  breakLines_joinLines (fun _ hl => noBreak_of_mem_descriptionLines hl)
    fun l hl => ne_nil_of_isAllBlank (getLast?_descriptionLines l hl)

/-- A normal form is its own normal form. -/
theorem trimDescription_trimDescription (t : Text) :
    trimDescription (trimDescription t) = trimDescription t := by
  rw [trimDescription, descriptionLines, breakLines_trimDescription,
    dropBlankEdges_eq_self head?_descriptionLines getLast?_descriptionLines,
    @dedent_eq_self (descriptionLines t) (sharedIndent_dedent _)
      fun l hl hb => eq_nil_of_mem_dedent hl hb]
  rfl

/-- Whether a text is the normal form of a description. -/
def Normal (t : Text) : Prop := t.trimDescription = t

/-- A trimmed description is in normal form. -/
theorem normal_trimDescription (t : Text) : (trimDescription t).Normal :=
  trimDescription_trimDescription t

namespace Normal

variable {t : Text}

/-- The lines of a description in normal form are those between its breaks. -/
theorem descriptionLines_eq (h : t.Normal) : t.descriptionLines = t.breakLines := by
  rw [← breakLines_trimDescription, h]

/-- The lines of a normal form that is not empty: none holds a line break, the last one is not
blank, and joined they are the normal form. -/
theorem lines (h : t.Normal) (hne : t ≠ []) :
    splitLines t = descriptionLines t ∧ joinLines (splitLines t) = t
      ∧ (∀ l ∈ splitLines t, l.NoBreak) ∧ splitLines t ≠ []
      ∧ (∀ l ∈ (splitLines t).head?, l.isAllBlank = false)
      ∧ ∀ l ∈ (splitLines t).getLast?, l.isAllBlank = false := by
  have hlines : descriptionLines t ≠ [] := by
    intro he
    refine hne ?_
    rw [← h, trimDescription, he]
    rfl
  have hsplit : splitLines t = descriptionLines t := by
    conv_lhs => rw [← h, trimDescription]
    exact splitLines_joinLines hlines
      fun l hl => (noBreak_of_mem_descriptionLines hl).oneLine
  rw [hsplit]
  exact ⟨rfl, h, fun l hl => noBreak_of_mem_descriptionLines hl, hlines,
    head?_descriptionLines, getLast?_descriptionLines⟩

/-- Blank lines behind a normal form make no difference. -/
theorem of_blank_lines_behind (h : t.Normal) (hne : t ≠ []) (k : Nat) :
    joinLines (dropEndWhile List.isEmpty (splitLines t ++ List.replicate k [])) = t := by
  obtain ⟨-, hjoin, -, -, -, hlast⟩ := h.lines hne
  rw [dropEndWhile_append_of_all fun l hl => by rw [List.eq_of_mem_replicate hl]; rfl,
    dropEndWhile_eq_self fun l hl => by
      simpa using ne_nil_of_isAllBlank (hlast l hl), hjoin]

end Normal

end Text

end FeatureTree
