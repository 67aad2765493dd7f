import FeatureTree.Proofs.Text.Replacement

/-!
# Contents that survive their delimiter

A content survives a delimiter when it is read as itself between two of them. What does not survive
is a written form of the delimiter that the content holds itself, since it is read as the delimiter.
Still, writing can take such a form apart: if two more characters of the delimiter follow it, its
last character is the first of a delimiter and gets a backslash in front.

## Main results

* `Text.survives_iff`: a content survives exactly if all written forms in it are taken apart
* `Text.chosenWell_iff`: when a delimiter is chosen that is not survived, though the other one is
-/

namespace FeatureTree

namespace Text

variable {mark t : Text}

/-- Whether a text is read as itself where it is written between delimiters. -/
def Survives (mark t : Text) : Prop := restore mark (protect mark t) = t

instance (mark t : Text) : Decidable (Survives mark t) :=
  inferInstanceAs (Decidable (restore mark (protect mark t) = t))

/-- Whether every written delimiter in a text is followed by what makes a delimiter of its last
character. -/
def TakenApart (mark t : Text) : Prop :=
  ∀ s r, t = s ++ escapedFence mark ++ r → mark.tail <+: r

/-- There is no written delimiter in an empty text. -/
theorem TakenApart.nil (h : escapedFence mark ≠ []) : TakenApart mark [] := by
  intro s r heq
  simp [h] at heq

/-- A character in front matters only where it begins a written delimiter. -/
theorem takenApart_cons_iff {c : Char} :
    TakenApart mark (c :: t)
      ↔ (∀ r, c :: t = escapedFence mark ++ r → mark.tail <+: r) ∧ TakenApart mark t := by
  constructor
  · intro h
    refine ⟨fun r heq => h [] r heq, fun s r heq => h (c :: s) r ?_⟩
    rw [heq]
    rfl
  · rintro ⟨hfront, ht⟩ s r heq
    cases s with
    | nil => exact hfront r heq
    | cons d s => exact ht s r (List.cons.inj heq).2

section

variable {q : Char} (hq : q ≠ '\\')

include hq

/-- Behind a character that begins no delimiter, replacing goes on. -/
theorem tripled_backslash (t : Text) : tripled q ('\\' :: t) = '\\' :: tripled q t :=
  replaceAll_cons_of_not_isPrefix fun h => hq (List.cons_prefix_cons.mp h).1

/-- A quote in front of a backslash is no fence. -/
theorem tripled_self_backslash (t : Text) :
    tripled q (q :: '\\' :: t) = q :: '\\' :: tripled q t := by
  have hn : ¬[q, q, q] <+: q :: '\\' :: t := by
    rw [List.cons_prefix_cons, List.cons_prefix_cons]
    exact fun h => hq h.2.1
  rw [tripled, replaceAll_cons_of_not_isPrefix hn, ← tripled, tripled_backslash hq]

/-- A written delimiter is left as it is, unless it is taken apart. -/
theorem written_prefix_tripled_iff (r : Text) :
    ['\\', q, '\\', q, '\\', q] <+: tripled q (['\\', q, '\\', q, '\\', q] ++ r)
      ↔ ¬[q, q] <+: r := by
  have hfront : tripled q (['\\', q, '\\', q, '\\', q] ++ r)
      = '\\' :: q :: '\\' :: q :: '\\' :: tripled q (q :: r) := by
    simp only [List.cons_append, List.nil_append]
    rw [tripled_backslash hq, tripled_self_backslash hq, tripled_self_backslash hq]
  have hlast : [q] <+: tripled q (q :: r) ↔ ¬[q, q] <+: r := by
    by_cases hr : [q, q] <+: r
    · have hp : [q, q, q] <+: q :: r := List.cons_prefix_cons.mpr ⟨rfl, hr⟩
      rw [tripled, replaceAll_cons_of_isPrefix hp (by simp), List.cons_append,
        List.cons_prefix_cons]
      simp [hr, hq]
    · have hp : ¬[q, q, q] <+: q :: r := fun h => hr (List.cons_prefix_cons.mp h).2
      rw [tripled, replaceAll_cons_of_not_isPrefix hp]
      simp [hr]
  rw [hfront, ← hlast]
  simp only [List.cons_prefix_cons, true_and]

/-- Of a text that starts with a written delimiter, either the form is read as the delimiter, or it
is taken apart and read as itself. -/
theorem restore_tripled_cons_iff {c : Char} {t : Text} (hp : ¬[q, q, q] <+: c :: t)
    (ih : replaceAll ['\\', q, '\\', q, '\\', q] [q, q, q] (tripled q t) = t
      ↔ TakenApart [q, q, q] t) :
    replaceAll ['\\', q, '\\', q, '\\', q] [q, q, q] (tripled q (c :: t)) = c :: t
      ↔ TakenApart [q, q, q] (c :: t) := by
  have hesc : escapedFence [q, q, q] = ['\\', q, '\\', q, '\\', q] := rfl
  have hstep : tripled q (c :: t) = c :: tripled q t := replaceAll_cons_of_not_isPrefix hp
  rw [takenApart_cons_iff, hesc]
  by_cases hw : ['\\', q, '\\', q, '\\', q] <+: c :: tripled q t
  · obtain rfl : '\\' = c := (List.cons_prefix_cons.mp hw).1
    obtain ⟨r, hr⟩ := prefix_of_prefix_tripled hq hw
    have hr' : ¬[q, q] <+: r := by
      rwa [← written_prefix_tripled_iff hq, hr, hstep]
    refine iff_of_false ?_ fun h => hr' (h.1 r hr.symm)
    rw [hstep, replaceAll_cons_of_isPrefix hw (by simp), List.cons_append]
    exact fun h => hq (List.cons.inj h).1
  · rw [hstep, replaceAll_cons_of_not_isPrefix hw, List.cons.injEq, ih]
    refine ⟨fun h => ⟨fun r hr => ?_, h.2⟩, fun h => ⟨rfl, h.2⟩⟩
    by_contra hn
    rw [← hstep, hr] at hw
    exact hw ((written_prefix_tripled_iff hq r).mpr hn)

/-- The last character of a delimiter is none that a written delimiter begins with. -/
theorem takenApart_append_iff (t : Text) :
    TakenApart [q, q, q] ([q, q, q] ++ t) ↔ TakenApart [q, q, q] t := by
  have hcons : ∀ s, TakenApart [q, q, q] (q :: s) ↔ TakenApart [q, q, q] s := by
    intro s
    rw [takenApart_cons_iff, and_iff_right]
    intro r heq
    exact absurd (List.cons.inj heq).1 hq
  simp only [List.cons_append, List.nil_append, hcons]

/-- A text is read back from its written form exactly if it is taken apart. -/
theorem restore_tripled_iff (t : Text) :
    replaceAll ['\\', q, '\\', q, '\\', q] [q, q, q] (tripled q t) = t
      ↔ TakenApart [q, q, q] t := by
  have hne : [q, q, q] ≠ [] := by simp
  induction t using replacement_induction hne with
  | nil => exact iff_of_true rfl (.nil (by simp [escapedFence]))
  | found t ih =>
    rw [tripled, replaceAll_append (by simp), replaceAll_append (by simp),
      List.append_right_inj, takenApart_append_iff hq]
    exact ih
  | kept c t hp ih => exact restore_tripled_cons_iff hq hp ih

end

/-- A text survives a delimiter exactly if all written delimiters in it are taken apart. -/
theorem survives_iff (hm : IsFence mark) : Survives mark t ↔ TakenApart mark t := by
  obtain ⟨q, rfl, he, hq, -, -⟩ := hm.eq_triple
  rw [Survives, restore, protect, he]
  exact restore_tripled_iff hq t

/-- A text that holds no written delimiter survives. -/
theorem survives_of_not_hasPart (hm : IsFence mark) (h : hasPart (escapedFence mark) t = false) :
    Survives mark t :=
  restore_protect hm h

/-- The quotes are chosen where they do no harm. Where they might, the backticks are chosen, and it
depends on the written backticks in the content whether these are survived. -/
theorem survives_fenceFor_iff (content : Text) :
    Survives (Layout.fenceFor content) content
      ↔ (escapedFence quoteFence <:+: content → TakenApart backtickFence content) := by
  rw [← hasPart_iff, Layout.fenceFor]
  split
  · next hq =>
    rw [survives_iff (.inr rfl)]
    exact ⟨fun h _ => h, fun h => h hq⟩
  · next hq =>
    refine iff_of_true (survives_of_not_hasPart (.inl rfl) ?_) fun h => absurd h hq
    exact Bool.not_eq_true _ ▸ hq

/-- Whether the delimiter that is chosen for a content is survived, if one of the two is. -/
def ChosenWell (content : Text) : Prop :=
  (∃ mark, IsFence mark ∧ Survives mark content) → Survives (Layout.fenceFor content) content

/-- The choice does harm exactly where all written quotes in the content are taken apart, but not
all written backticks: the quotes would do, and the backticks are chosen. -/
theorem chosenWell_iff (content : Text) :
    ChosenWell content
      ↔ ¬(escapedFence quoteFence <:+: content ∧ TakenApart quoteFence content
        ∧ ¬TakenApart backtickFence content) := by
  have hsome : (∃ mark, IsFence mark ∧ Survives mark content)
      ↔ TakenApart quoteFence content ∨ TakenApart backtickFence content := by
    rw [← survives_iff (.inl rfl), ← survives_iff (.inr rfl)]
    exact ⟨by rintro ⟨mark, rfl | rfl, h⟩ <;> simp [h],
      fun h => h.elim (fun h => ⟨_, .inl rfl, h⟩) fun h => ⟨_, .inr rfl, h⟩⟩
  rw [ChosenWell, hsome, survives_fenceFor_iff]
  tauto

/-! ### Lines between delimiters -/

/-- Reading what was written brings in no blanks. -/
theorem not_mem_restore_protect (hm : IsFence mark) {c : Char} (hc : isBlank c = true)
    (h : c ∉ t) : c ∉ restore mark (protect mark t) := by
  obtain ⟨q, rfl, he, -, -, hq⟩ := hm.eq_triple
  have hcq : c ≠ q := by
    rintro rfl
    rw [hq] at hc
    cases hc
  have hcb : c ≠ '\\' := by
    rintro rfl
    exact absurd hc (by decide)
  rw [restore, protect, he]
  exact not_mem_replaceAll (by simp [hcq]) (by simp) (not_mem_replaceAll (by simp [hcq, hcb])
    (by simp) h)

/-- Lines are written and read one by one. -/
theorem splitLines_restore_protect (hm : IsFence mark) (t : Text) :
    splitLines (restore mark (protect mark t))
      = (splitLines t).map fun l => restore mark (protect mark l) := by
  have hlines : ∀ u, splitLines (restore mark u) = (splitLines u).map (restore mark) := by
    obtain ⟨q, rfl, he, -, hq, -⟩ := hm.eq_triple
    have hq' : '\n' ≠ q := hq.symm
    intro u
    unfold restore
    rw [he]
    exact splitLines_replaceAll (by simp [OneLine, hq']) (by simp [OneLine, hq']) (by simp) u
  rw [hlines, splitLines_protect hm, List.map_map]
  rfl

end Text

end FeatureTree
