import FeatureTree.Proofs.Text.Lines
import FeatureTree.Proofs.Text.Trimming
import Mathlib.Data.List.DropRight
import Mathlib.Data.List.TakeWhile

/-!
# Texts cut into pieces

A text that is cut at characters of some kind has one piece more than it has such characters. The
lines between line feeds are such pieces, and so are the lines between breaks of all conventions,
where an empty piece at the end does not count, and a carriage return with a line feed counts as one
break. A text in front of another one has only its last piece in common with it, and a text behind
another one only its first.

## Main results

* `Text.exists_splitOnP_append`, `Text.exists_append_splitOnP`: what texts around a text add to its
  pieces
* `Text.splitOnP_isLineBreak`: the lines of all conventions as pieces
* `Text.mem_splitLines_of_mem_breakLines`: a text without other line breaks has no other lines
-/

namespace FeatureTree

namespace Text

variable {p : Char → Bool}

/-- A text has one piece more than separators. -/
theorem length_splitOnP (t : Text) : (t.splitOnP p).length = t.countP p + 1 := by
  induction t with
  | nil => rfl
  | cons c t ih =>
    rw [List.splitOnP_cons_eq_if_modifyHead, List.countP_cons]
    split
    · rw [List.length_cons, ih]
    · rw [List.length_modifyHead, ih]

/-- The characters of a piece are those of the text. -/
theorem mem_of_mem_splitOnP {t l : Text} (hl : l ∈ t.splitOnP p) {c : Char} (hc : c ∈ l) :
    c ∈ t := by
  induction t generalizing l with
  | nil =>
    rw [List.splitOnP_nil, List.mem_singleton] at hl
    exact hl ▸ hc
  | cons d t ih =>
    rw [List.splitOnP_cons_eq_if_modifyHead] at hl
    split at hl
    · rcases List.mem_cons.mp hl with rfl | hl
      · cases hc
      · exact List.mem_cons_of_mem _ (ih hl hc)
    · cases hs : t.splitOnP p with
      | nil => exact absurd hs (List.splitOnP_ne_nil _ _)
      | cons piece pieces =>
        rw [hs, List.modifyHead_cons] at hl
        rcases List.mem_cons.mp hl with rfl | hl
        · rcases List.mem_cons.mp hc with rfl | hc
          · exact List.mem_cons_self
          · exact List.mem_cons_of_mem _ (ih (hs ▸ List.mem_cons_self) hc)
        · exact List.mem_cons_of_mem _ (ih (hs ▸ List.mem_cons_of_mem _ hl) hc)

/-- Of a text in front only the part behind its last break goes on in the next piece. -/
theorem exists_splitOnP_append (w t : Text) :
    ∃ ls : List Text, (∀ l ∈ ls, ∀ c ∈ l, c ∈ w)
      ∧ (w ++ t).splitOnP p = ls ++ (w.rtakeWhile (!p ·) ++ t).splitOnP p := by
  have hw : w.rdropWhile (!p ·) ++ w.rtakeWhile (!p ·) = w := List.rdropWhile_append_rtakeWhile
  rcases List.eq_nil_or_concat' (w.rdropWhile (!p ·)) with hnil | ⟨u, c, hu⟩
  · rw [hnil, List.nil_append] at hw
    exact ⟨[], by simp, by rw [hw, List.nil_append]⟩
  · have hc : p c = true := by
      have := List.rdropWhile_last_not (!p ·) w (by rw [hu]; simp)
      simpa [hu] using this
    refine ⟨u.splitOnP p, fun l hl d hd => ?_, ?_⟩
    · rw [← hw, hu]
      simp [mem_of_mem_splitOnP hl hd]
    · conv_lhs => rw [← hw, hu]
      simpa using List.splitOnP_append_cons u (w.rtakeWhile (!p ·) ++ t) hc

/-- Of a text behind only the part before its first break belongs to the last piece. -/
theorem exists_append_splitOnP (t v : Text) :
    ∃ ls : List Text, (∀ l ∈ ls, ∀ c ∈ l, c ∈ v)
      ∧ (t ++ v).splitOnP p = (t ++ v.takeWhile (!p ·)).splitOnP p ++ ls := by
  have hv := List.takeWhile_append_dropWhile (p := (!p ·)) (l := v)
  cases hd : v.dropWhile (!p ·) with
  | nil =>
    rw [hd, List.append_nil] at hv
    exact ⟨[], by simp, by rw [hv, List.append_nil]⟩
  | cons c u =>
    have hc : p c = true := by
      have hhead : c ∈ (v.dropWhile (!p ·)).head? := by rw [hd]; rfl
      simpa using head?_dropWhile c hhead
    refine ⟨u.splitOnP p, fun l hl d hmem => ?_, ?_⟩
    · rw [← hv, hd]
      simp [mem_of_mem_splitOnP hl hmem]
    · conv_lhs => rw [← hv, hd]
      rw [← List.append_assoc]
      exact List.splitOnP_append_cons _ _ hc

/-- What is taken from the end up to a separator has none. -/
theorem forall_mem_rtakeWhile {w : Text} : ∀ c ∈ w.rtakeWhile (!p ·), p c = false := fun c hc => by
  simpa using List.mem_rtakeWhile_imp hc

/-- What is taken from the start up to a separator has none. -/
theorem forall_mem_takeWhile {v : Text} : ∀ c ∈ v.takeWhile (!p ·), p c = false := fun c hc => by
  simpa using List.all_eq_true.mp List.all_takeWhile c hc

/-- Separators that agree on a text split it the same way. -/
theorem splitOnP_congr {p q : Char → Bool} {t : Text} (h : ∀ c ∈ t, p c = q c) :
    t.splitOnP p = t.splitOnP q := by
  induction t with
  | nil => rfl
  | cons c t ih =>
    rw [List.splitOnP_cons_eq_if_modifyHead, List.splitOnP_cons_eq_if_modifyHead,
      h c (by simp), ih fun d hd => h d (List.mem_cons_of_mem _ hd)]

/-- A text in the middle of one piece at each end. -/
theorem length_splitOnP_pad {p : Char → Bool} {w t v : Text} (hw : ∀ c ∈ w, p c = false)
    (hv : ∀ c ∈ v, p c = false) : ((w ++ t ++ v).splitOnP p).length = t.countP p + 1 := by
  have hzero : ∀ {u : Text}, (∀ c ∈ u, p c = false) → u.countP p = 0 := fun h => by
    rw [List.countP_eq_zero]
    intro c hc
    simp [h c hc]
  rw [length_splitOnP, List.countP_append, List.countP_append, hzero hw, hzero hv]
  omega

/-- Taking as long as a weaker condition holds takes no less from the start. -/
theorem takeWhile_isPrefix_takeWhile {q : Char → Bool} (h : ∀ c, p c = true → q c = true)
    (t : Text) : t.takeWhile p <+: t.takeWhile q := by
  have hboth : (t.takeWhile q).takeWhile p = t.takeWhile p := by
    rw [List.takeWhile_takeWhile]
    congr 1
    funext c
    cases hc : p c with
    | true => simp [h c hc]
    | false => simp
  exact hboth ▸ List.takeWhile_prefix p

/-- Taking as long as a weaker condition holds takes no less from the end. -/
theorem rtakeWhile_isSuffix_rtakeWhile {q : Char → Bool} (h : ∀ c, p c = true → q c = true)
    (t : Text) : t.rtakeWhile p <:+ t.rtakeWhile q := by
  rw [List.rtakeWhile, List.rtakeWhile, List.reverse_suffix]
  exact takeWhile_isPrefix_takeWhile h _

/-- The first piece holds what stands in front of all breaks. -/
theorem mem_of_mem_head?_splitOnP {w t : Text} {c : Char} (hw : ∀ d ∈ w, p d = false)
    (hc : p c = false) : ∀ l ∈ ((w ++ c :: t).splitOnP p).head?, c ∈ l := by
  obtain ⟨ls, -, heq⟩ := exists_append_splitOnP (p := p) (w ++ [c]) t
  have hpiece : ∀ d ∈ w ++ [c] ++ t.takeWhile (!p ·), p d = false := by
    intro d hd
    rw [List.append_assoc, List.mem_append, List.mem_append, List.mem_singleton] at hd
    rcases hd with hd | rfl | hd
    · exact hw d hd
    · exact hc
    · exact forall_mem_takeWhile d hd
  rw [List.splitOnP_eq_singleton hpiece] at heq
  rw [← List.singleton_append, ← List.append_assoc, heq]
  intro l hl
  obtain rfl := Option.some.inj hl
  simp

/-- The last piece holds what stands behind all breaks. -/
theorem mem_of_mem_getLast?_splitOnP {t v : Text} {c : Char} (hv : ∀ d ∈ v, p d = false)
    (hc : p c = false) : ∀ l ∈ ((t ++ c :: v).splitOnP p).getLast?, c ∈ l := by
  obtain ⟨ls, -, heq⟩ := exists_splitOnP_append (p := p) t (c :: v)
  have hpiece : ∀ d ∈ t.rtakeWhile (!p ·) ++ c :: v, p d = false := by
    intro d hd
    rw [List.mem_append, List.mem_cons] at hd
    rcases hd with hd | rfl | hd
    · exact forall_mem_rtakeWhile d hd
    · exact hc
    · exact hv d hd
  rw [heq, List.splitOnP_eq_singleton hpiece]
  intro l hl
  rw [List.getLast?_append, List.getLast?_singleton, Option.some_or] at hl
  obtain rfl := Option.some.inj hl
  simp

/-! ### Lines as pieces -/

/-- Lines are the pieces between line feeds. -/
theorem splitLines_eq_splitOnP (t : Text) : splitLines t = t.splitOnP (· == '\n') := by
  rw [splitLines]
  induction t with
  | nil => rfl
  | cons c t ih =>
    rw [splitAtChar, List.splitOnP_cons_eq_if_modifyHead, ← ih]
    by_cases hc : c = '\n'
    · rw [if_pos hc, if_pos (by simpa using hc)]
    · rw [if_neg hc, if_neg (by simpa using hc)]
      cases hs : splitAtChar '\n' t with
      | nil => exact absurd hs (splitAtChar_ne_nil _ _)
      | cons piece pieces => rfl

/-- Cutting at all line breaks leaves out an empty line at the end, if there is one. -/
theorem splitOnP_isLineBreak {t : Text} (h : ¬['\r', '\n'] <:+: t) :
    t.splitOnP isLineBreak = breakLines t ∨ t.splitOnP isLineBreak = breakLines t ++ [[]] := by
  induction t with
  | nil => exact .inr rfl
  | cons c t ih =>
    have ht : ¬['\r', '\n'] <:+: t := fun hp => h (hp.trans (List.suffix_cons c t).isInfix)
    rw [List.splitOnP_cons_eq_if_modifyHead]
    cases hc : isLineBreak c with
    | true =>
      rw [if_pos rfl, breakLines_cons_of_break hc fun hp => h hp.isInfix]
      exact (ih ht).imp (congrArg _) (congrArg _)
    | false =>
      rw [if_neg (by simp)]
      cases hs : breakLines t with
      | nil =>
        -- nothing is left behind the character, so it is the last line
        obtain rfl := eq_nil_of_breakLines hs
        have hnot : NoBreak [c] := by simpa [NoBreak] using hc
        rw [breakLines_of_noBreak hnot (by simp)]
        exact .inl rfl
      | cons l ls =>
        rw [hs] at ih
        rw [breakLines_cons_of_not_break hc hs]
        rcases ih ht with ih | ih
        · exact .inl (by rw [ih]; rfl)
        · exact .inr (by rw [ih]; rfl)

/-- A text without other line breaks than line feeds has no other lines than those between them. -/
theorem mem_splitLines_of_mem_breakLines {t l : Text}
    (h : ∀ c ∈ t, isLineBreak c = true → c = '\n') (hl : l ∈ breakLines t) : l ∈ splitLines t := by
  have hreturn : ¬['\r', '\n'] <:+: t := fun hp =>
    absurd (h '\r' (hp.subset (by simp)) (by decide)) (by decide)
  have hcut : t.splitOnP (· == '\n') = t.splitOnP isLineBreak := by
    refine splitOnP_congr fun c hc => ?_
    rw [Bool.eq_iff_iff, beq_iff_eq]
    exact ⟨fun he => he ▸ by decide, h c hc⟩
  rw [splitLines_eq_splitOnP, hcut]
  rcases splitOnP_isLineBreak hreturn with heq | heq <;> rw [heq]
  · exact hl
  · exact List.mem_append_left _ hl

end Text

end FeatureTree
