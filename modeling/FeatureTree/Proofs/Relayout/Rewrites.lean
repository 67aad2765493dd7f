import FeatureTree.Proofs.Relayout.Edits

/-!
# Lines that are written again

Lines that can stand for other lines, with the descriptions that are being read in front of both
(`Rewrites`). Such lines come from edits: any lines with other blanks, and the lines of a whole
description behind spaces and tabs.

## Main results

* `Rewrites.of_respaced`: lines with other blanks can stand for lines
* `Rewrites.shifted`: so can a description behind other indentation
* `Rewrites.describedPlainly`: no line breaks come into descriptions
-/

namespace FeatureTree

namespace Text

variable {w : Text}

/-- What is dropped at the end of a text does not depend on what is in front of the rest. -/
theorem dropEndWhile_append_of_ne_nil {p : Char → Bool} {t : Text} (h : dropEndWhile p t ≠ [])
    (w : Text) : dropEndWhile p (w ++ t) = w ++ dropEndWhile p t := by
  have hne : (t.reverse.dropWhile p).isEmpty = false := by
    rw [Bool.eq_false_iff, Ne, List.isEmpty_iff]
    exact fun hnil => h (by rw [dropEndWhile, hnil]; rfl)
  rw [dropEndWhile, List.reverse_append, List.dropWhile_append, hne, if_neg (by simp),
    List.reverse_append, List.reverse_reverse, dropEndWhile]

/-- Spaces and tabs are blank. -/
theorem blank_of_spaces (hw : ∀ c ∈ w, c = ' ' ∨ c = '\t') : ∀ c ∈ w, isBlank c = true :=
  fun c hc => by rcases hw c hc with rfl | rfl <;> decide

/-- Spaces and tabs are no breaks. -/
theorem noBreak_of_spaces (hw : ∀ c ∈ w, c = ' ' ∨ c = '\t') : w.NoBreak :=
  fun c hc => by rcases hw c hc with rfl | rfl <;> decide

/-- Indenting a line does not count once it is trimmed. -/
theorem trimStart_shifted (hw : ∀ c ∈ w, isBlank c = true) (l : Text) :
    trimStart (shifted w l) = trimStart l := by
  rw [shifted]
  split
  · rfl
  · exact trimStart_append_of_blank hw

/-- Indenting a line adds no break. -/
theorem noBreak_shifted (hw : w.NoBreak) {l : Text} (hl : l.NoBreak) : (shifted w l).NoBreak := by
  rw [shifted]
  split
  · exact hl
  · exact List.forall_mem_append.mpr ⟨hw, hl⟩

end Text

/-- A line is shifted as what it is without its end. -/
theorem Line.withoutEnd_shifted (w t : Text) :
    withoutEnd (Text.shifted w t) = Text.shifted w (withoutEnd t) := by
  rw [Text.shifted, Text.shifted, isAllBlank_withoutEnd]
  cases hblank : t.isAllBlank with
  | true => rfl
  | false =>
    have hne : withoutEnd t ≠ [] := fun hnil => by
      rw [← isAllBlank_withoutEnd, hnil] at hblank
      cases hblank
    simp only [Bool.false_eq_true, if_false]
    exact Text.dropEndWhile_append_of_ne_nil hne w

/-- Lines with the roles of others. -/
def remark (ms : List Marked) (ts : List Text) : List Marked :=
  List.zipWith (fun m t => ⟨m.role, t⟩) ms ts

/-- Whether lines can stand for lines with roles, where `xs` and `ys` are the descriptions that are
being read in front of them: lines of descriptions have other indentation, other lines have other
blanks, and whenever a description ends it is of one normal form. -/
inductive Rewrites : List Text → List Text → List Marked → List Text → Prop
  | nil {xs ys : List Text} (same : Text.normalLines xs = Text.normalLines ys) :
    Rewrites xs ys [] []
  | description {xs ys : List Text} {m : Marked} {ms : List Marked} {t : Text} {ts : List Text}
      (role : m.role = .description)
      (trimmed : (Line.withoutEnd t).trimStart = (Line.withoutEnd m.text).trimStart)
      (noBreak : (Line.withoutEnd t).NoBreak)
      (tail : Rewrites (descriptionBehind xs [m]) (descriptionBehind ys [⟨m.role, t⟩]) ms ts) :
    Rewrites xs ys (m :: ms) (t :: ts)
  | other {xs ys : List Text} {m : Marked} {ms : List Marked} {t : Text} {ts : List Text}
      (role : m.role ≠ .description) (respaced : Respaced m.role m.text t)
      (same : m.role.isFree = false → Text.normalLines xs = Text.normalLines ys)
      (tail : Rewrites (descriptionBehind xs [m]) (descriptionBehind ys [⟨m.role, t⟩]) ms ts) :
    Rewrites xs ys (m :: ms) (t :: ts)

/-- What is known of the first of lines that can stand for others. -/
theorem Rewrites.cons_inv {xs ys : List Text} {role : Role} {t t' : Text} {ms : List Marked}
    {ts : List Text} (h : Rewrites xs ys (⟨role, t⟩ :: ms) (t' :: ts)) :
    (role = .description ∧ (Line.withoutEnd t').trimStart = (Line.withoutEnd t).trimStart
        ∧ (Line.withoutEnd t').NoBreak
      ∨ role ≠ .description ∧ Respaced role t t')
      ∧ (role.isFree = false → Text.normalLines xs = Text.normalLines ys)
      ∧ Rewrites (descriptionBehind xs [⟨role, t⟩]) (descriptionBehind ys [⟨role, t'⟩]) ms ts := by
  cases h with
  | description hrole trimmed noBreak tail =>
    have hrole : role = .description := hrole
    exact ⟨.inl ⟨hrole, trimmed, noBreak⟩, fun h => (by rw [hrole] at h; cases h), tail⟩
  | other hrole respaced same tail => exact ⟨.inr ⟨hrole, respaced⟩, same, tail⟩

/-- The description that goes on behind lines is told line by line. -/
theorem descriptionBehind_cons (xs : List Text) (m : Marked) (ms : List Marked) :
    descriptionBehind xs (m :: ms) = descriptionBehind (descriptionBehind xs [m]) ms := by
  rw [descriptionBehind, descriptionBehind]
  split <;> rfl

/-- A line of a description is added to it. -/
theorem descriptionBehind_of_role {role : Role} (h : role = .description) (t : Text)
    (xs : List Text) : descriptionBehind xs [⟨role, t⟩] = xs ++ [Line.withoutEnd t] := by
  rw [descriptionBehind, if_pos h, descriptionBehind]

/-- Another free line leaves the description as it is. -/
theorem descriptionBehind_of_free {role : Role} (h : role.isFree = true) (hne : role ≠ .description)
    (t : Text) (xs : List Text) : descriptionBehind xs [⟨role, t⟩] = xs := by
  rw [descriptionBehind, if_neg hne, if_pos h, descriptionBehind]

/-- Lines that are not free end descriptions. -/
theorem descriptionBehind_of_not_free {role : Role} (h : role.isFree = false) (t : Text)
    (xs : List Text) : descriptionBehind xs [⟨role, t⟩] = [] := by
  have hrole : role ≠ .description := by
    rintro rfl
    cases h
  simp [descriptionBehind, hrole, h]

/-- A description gets nothing from lines that end it. -/
theorem descriptionAhead_of_head? {ms : List Marked} (h : ∀ m ∈ ms.head?, m.role.isFree = false) :
    descriptionAhead ms = [] := by
  cases ms with
  | nil => rfl
  | cons m ms =>
    have hfree := h m rfl
    have hrole : m.role ≠ .description := by
      intro hrole
      rw [hrole] at hfree
      cases hfree
    rw [descriptionAhead, if_neg hrole, if_neg (by simp [hfree])]

/-- A line is spaced as itself. -/
theorem Respaced.refl (role : Role) (t : Text) : Respaced role t t := .ends rfl

/-- Lines with their own roles are the lines. -/
theorem remark_texts (ms : List Marked) : remark ms (ms.map (·.text)) = ms := by
  induction ms with
  | nil => rfl
  | cons m ms ih => exact congrArg (m :: ·) ih

/-- The roles of lines are those of the lines that they stand for. -/
theorem role_of_mem_remark {ms : List Marked} {ts : List Text} {m : Marked}
    (h : m ∈ remark ms ts) : ∃ n ∈ ms, m.role = n.role := by
  induction ms generalizing ts with
  | nil => cases h
  | cons n ms ih =>
    cases ts with
    | nil => cases h
    | cons t ts =>
      rcases List.mem_cons.mp h with rfl | h
      · exact ⟨n, List.mem_cons_self, rfl⟩
      · obtain ⟨n', hn', hrole⟩ := ih h
        exact ⟨n', List.mem_cons_of_mem _ hn', hrole⟩

namespace Rewrites

variable {xs ys : List Text} {ms ms' : List Marked} {ts ts' : List Text}

/-- Lines with other blanks can stand for lines, if the descriptions that are being read will be of
one normal form. -/
theorem of_respaced (h : List.Forall₂ (fun m t => Respaced m.role m.text t) ms ts)
    (hplain : DescribedPlainly ms)
    (hnormal : Text.normalLines (xs ++ descriptionAhead ms)
      = Text.normalLines (ys ++ descriptionAhead ms)) : Rewrites xs ys ms ts := by
  induction h generalizing xs ys with
  | nil => exact .nil (by simpa [descriptionAhead] using hnormal)
  | @cons m t ms ts hline hlines ih =>
    have hrest : DescribedPlainly ms := fun n hn => hplain n (List.mem_cons_of_mem _ hn)
    obtain ⟨role, text⟩ := m
    rw [descriptionAhead] at hnormal
    by_cases hrole : role = .description
    · have hsame : Line.withoutEnd t = Line.withoutEnd text := by
        subst hrole
        cases hline with
        | ends same => exact same
        | around part _ => rcases part with h | h <;> cases h
      refine .description hrole (by rw [hsame]) ?_ (ih hrest ?_)
      · rw [hsame]
        exact hplain _ List.mem_cons_self hrole
      · rw [descriptionBehind_of_role hrole, descriptionBehind_of_role hrole, hsame,
          List.append_assoc, List.append_assoc]
        rwa [if_pos hrole] at hnormal
    · rw [if_neg hrole] at hnormal
      cases hfree : role.isFree with
      | true =>
        refine .other hrole hline (fun h => by simp [hfree] at h) (ih hrest ?_)
        rw [descriptionBehind_of_free hfree hrole, descriptionBehind_of_free hfree hrole]
        rwa [if_pos hfree] at hnormal
      | false =>
        rw [if_neg (by simp [hfree]), List.append_nil, List.append_nil] at hnormal
        refine .other hrole hline (fun _ => hnormal) (ih hrest ?_)
        rw [descriptionBehind_of_not_free hfree, descriptionBehind_of_not_free hfree]

/-- Lines that stay as they are can stand in front of lines that can stand for others. -/
theorem append_left (hplain : DescribedPlainly ms)
    (h : Rewrites (descriptionBehind xs ms) (descriptionBehind xs ms) ms' ts') :
    Rewrites xs xs (ms ++ ms') (ms.map (·.text) ++ ts') := by
  induction ms generalizing xs with
  | nil => exact h
  | cons m ms ih =>
    rw [descriptionBehind_cons] at h
    have hrest := ih (fun n hn => hplain n (List.mem_cons_of_mem _ hn)) h
    by_cases hrole : m.role = .description
    · exact .description hrole rfl (hplain m List.mem_cons_self hrole) hrest
    · exact .other hrole (.refl _ _) (fun _ => rfl) hrest

/-- The lines of a description behind spaces and tabs can stand for the description. -/
theorem shifted {w : Text} (hw : ∀ c ∈ w, c = ' ' ∨ c = '\t') (hplain : DescribedPlainly ms)
    (hfree : ∀ m ∈ ms, m.role.isFree = true)
    (h : Rewrites (xs ++ descriptionAhead ms) (ys ++ (descriptionAhead ms).map (Text.shifted w))
      ms' ts') : Rewrites xs ys (ms ++ ms') (ms.map (Marked.shifted w) ++ ts') := by
  induction ms generalizing xs ys with
  | nil => simpa [descriptionAhead] using h
  | cons m ms ih =>
    have hrest : DescribedPlainly ms := fun n hn => hplain n (List.mem_cons_of_mem _ hn)
    have hfree' : ∀ n ∈ ms, n.role.isFree = true := fun n hn => hfree n (List.mem_cons_of_mem _ hn)
    obtain ⟨role, text⟩ := m
    rw [descriptionAhead] at h
    rw [List.map_cons, List.cons_append, List.cons_append, Marked.shifted]
    by_cases hrole : role = .description
    · rw [if_pos hrole] at h ⊢
      have hend := Line.withoutEnd_shifted w text
      refine .description hrole ?_ ?_ (ih hrest hfree' ?_)
      · rw [hend, Text.trimStart_shifted (Text.blank_of_spaces hw)]
      · rw [hend]
        exact Text.noBreak_shifted (Text.noBreak_of_spaces hw) (hplain _ List.mem_cons_self hrole)
      · rw [descriptionBehind_of_role hrole, descriptionBehind_of_role hrole, hend,
          List.append_assoc, List.append_assoc]
        exact h
    · have hm : role.isFree = true := hfree _ List.mem_cons_self
      rw [if_neg hrole] at h ⊢
      refine .other hrole (.refl _ _) (fun h => by simp [hm] at h) (ih hrest hfree' ?_)
      rw [descriptionBehind_of_free hm hrole, descriptionBehind_of_free hm hrole]
      rwa [if_pos hm] at h

/-- No line breaks come into descriptions. -/
theorem describedPlainly (h : Rewrites xs ys ms ts) : DescribedPlainly (remark ms ts) := by
  induction h with
  | nil same => exact fun m hm => by cases hm
  | description role trimmed noBreak tail ih =>
    exact List.forall_mem_cons.mpr ⟨fun _ => noBreak, ih⟩
  | other role respaced same tail ih =>
    exact List.forall_mem_cons.mpr ⟨fun h => absurd h role, ih⟩

end Rewrites

end FeatureTree
