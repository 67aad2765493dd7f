import Mathlib.Data.List.Basic
import FeatureTree.Text.Description

/-!
# Trimming

What is left of a text when its ends are dropped. A text is `Trimmed` when trimming leaves it alone,
which is the case exactly when neither of its ends is blank; such a text is found again in any line
that puts blanks around it. A line of a document is known by its text without the carriage returns
and line feeds at its end (`IsLine`).

## Main results

* `Text.trimmed_iff`: a text is trimmed exactly when neither of its ends is blank
* `Text.trim_pad`: blanks around a trimmed text are dropped
-/

namespace FeatureTree

variable {α : Type} {p : α → Bool}

namespace Text

/-! ### Dropping at the end -/

/-- Nothing is dropped if the first member stays. -/
theorem dropWhile_eq_self {xs : List α} (h : ∀ x ∈ xs.head?, p x = false) :
    xs.dropWhile p = xs := by
  cases xs with
  | nil => rfl
  | cons x xs => exact List.dropWhile_cons_of_neg (by simp [h x (by simp)])

/-- The first member that stays is not one to be dropped. -/
theorem head?_dropWhile {xs : List α} : ∀ x ∈ (xs.dropWhile p).head?, p x = false := by
  intro x hx
  have hnot := List.head?_dropWhile_not p xs
  rwa [Option.mem_def.mp hx] at hnot

/-- Members that satisfy `p` make no difference at the end. -/
theorem dropEndWhile_append_of_all {xs ys : List α} (h : ∀ y ∈ ys, p y = true) :
    dropEndWhile p (xs ++ ys) = dropEndWhile p xs := by
  rw [dropEndWhile, List.reverse_append, List.dropWhile_append_of_pos (by simpa using h),
    dropEndWhile]

/-- Nothing is dropped from the end if the last member stays. -/
theorem dropEndWhile_concat_of_neg {xs : List α} {x : α} (h : p x = false) :
    dropEndWhile p (xs ++ [x]) = xs ++ [x] := by
  simp [dropEndWhile, h]

/-- A list whose last member does not satisfy `p` is left alone. -/
theorem dropEndWhile_eq_self {xs : List α} (h : ∀ x ∈ xs.getLast?, p x = false) :
    dropEndWhile p xs = xs := by
  rcases List.eq_nil_or_concat' xs with rfl | ⟨ys, y, rfl⟩
  · rfl
  · exact dropEndWhile_concat_of_neg (h y (by simp))

/-- The last member that stays is not one to be dropped. -/
theorem getLast?_dropEndWhile {xs : List α} :
    ∀ x ∈ (dropEndWhile p xs).getLast?, p x = false := by
  intro x hx
  rw [dropEndWhile, List.getLast?_reverse] at hx
  exact head?_dropWhile x hx

/-- What is dropped at the end satisfies `p`. -/
theorem exists_dropEndWhile_append (p : α → Bool) (xs : List α) :
    ∃ ys, xs = dropEndWhile p xs ++ ys ∧ ∀ y ∈ ys, p y = true := by
  refine ⟨(xs.reverse.takeWhile p).reverse, ?_, ?_⟩
  · rw [dropEndWhile, ← List.reverse_append, List.takeWhile_append_dropWhile, List.reverse_reverse]
  · intro y hy
    exact List.all_eq_true.mp List.all_takeWhile y (List.mem_reverse.mp hy)

/-- Dropping from the end leaves the start. -/
theorem dropEndWhile_isPrefix (p : α → Bool) (xs : List α) : dropEndWhile p xs <+: xs := by
  obtain ⟨ys, h, -⟩ := exists_dropEndWhile_append p xs
  exact ⟨ys, h.symm⟩

/-- A list whose first member does not satisfy `p` keeps it. -/
theorem dropEndWhile_cons_of_neg {x : α} {xs : List α} (h : p x = false) :
    dropEndWhile p (x :: xs) = x :: dropEndWhile p xs := by
  obtain ⟨ys, hys, hall⟩ := exists_dropEndWhile_append p xs
  have hlast : ∀ y ∈ (x :: dropEndWhile p xs).getLast?, p y = false := by
    intro y hy
    rw [List.getLast?_cons] at hy
    cases hl : (dropEndWhile p xs).getLast? with
    | none =>
      rw [hl, Option.getD_none] at hy
      obtain rfl : x = y := by simpa using hy
      exact h
    | some z =>
      rw [hl, Option.getD_some] at hy
      exact getLast?_dropEndWhile y (hl ▸ hy)
  calc dropEndWhile p (x :: xs) = dropEndWhile p ((x :: dropEndWhile p xs) ++ ys) := by
        rw [List.cons_append, ← hys]
    _ = x :: dropEndWhile p xs := by
        rw [dropEndWhile_append_of_all hall, dropEndWhile_eq_self hlast]

/-! ### Blanks -/

/-- Spaces are blank. -/
@[simp] theorem isBlank_space : isBlank ' ' = true := by decide

/-- Line feeds are blank. -/
@[simp] theorem isBlank_lineFeed : isBlank '\n' = true := by decide

/-- Carriage returns are blank. -/
@[simp] theorem isBlank_return : isBlank '\r' = true := by decide

/-- A text of blanks before another makes no difference to what starts it. -/
theorem trimStart_append_of_blank {w t : Text} (h : ∀ c ∈ w, isBlank c = true) :
    trimStart (w ++ t) = trimStart t :=
  List.dropWhile_append_of_pos h

/-- A text that starts with what is not blank is not trimmed there. -/
theorem trimStart_eq_self {t : Text} (h : ∀ c ∈ t.head?, isBlank c = false) : trimStart t = t :=
  dropWhile_eq_self h

/-- A text that was trimmed starts with what is not blank. -/
theorem head?_trimStart {t : Text} : ∀ c ∈ (trimStart t).head?, isBlank c = false :=
  head?_dropWhile

/-- Nothing is left of a text if all of it is blank. -/
theorem trimStart_eq_nil_iff {t : Text} : trimStart t = [] ↔ ∀ c ∈ t, isBlank c = true :=
  dropWhile_eq_nil

/-- What is dropped at the start is blank. -/
theorem exists_append_trimStart (t : Text) :
    ∃ w, t = w ++ trimStart t ∧ ∀ c ∈ w, isBlank c = true :=
  ⟨t.takeWhile isBlank, List.takeWhile_append_dropWhile.symm,
    fun c hc => List.all_eq_true.mp List.all_takeWhile c hc⟩

/-- A text is blank if all its characters are. -/
theorem isAllBlank_iff {t : Text} : t.isAllBlank = true ↔ ∀ c ∈ t, isBlank c = true := by
  simp [isAllBlank]

/-- The empty text is blank. -/
@[simp] theorem isAllBlank_nil : isAllBlank [] = true := rfl

/-- Two texts are blank together if both are. -/
theorem isAllBlank_append {s t : Text} :
    (s ++ t).isAllBlank = (s.isAllBlank && t.isAllBlank) := by
  simp [isAllBlank]

/-- Something is left of a text that is not blank. -/
theorem isAllBlank_eq_false_iff {t : Text} : t.isAllBlank = false ↔ trimStart t ≠ [] := by
  rw [Ne, trimStart_eq_nil_iff, ← isAllBlank_iff, Bool.not_eq_true]

/-! ### Trimmed texts -/

/-- A text without blanks at its ends. -/
def Trimmed (t : Text) : Prop := t.trim = t

/-- A text is trimmed exactly when neither of its ends is blank. -/
theorem trimmed_iff {t : Text} :
    t.Trimmed ↔ (∀ c ∈ t.head?, isBlank c = false) ∧ ∀ c ∈ t.getLast?, isBlank c = false := by
  constructor
  · intro h
    have hlast : ∀ c ∈ t.getLast?, isBlank c = false := by
      rw [← h]
      exact getLast?_dropEndWhile
    refine ⟨?_, hlast⟩
    have hlen : t.length ≤ (trimStart t).length := by
      have := (dropEndWhile_isPrefix isBlank (trimStart t)).length_le
      rwa [show dropEndWhile isBlank (trimStart t) = t from h] at this
    have hstart : trimStart t = t :=
      (List.dropWhile_suffix isBlank).eq_of_length_le hlen
    rw [← hstart]
    exact head?_trimStart
  · rintro ⟨first, last⟩
    exact trim_of_no_blank_ends first last

/-- The empty text is trimmed. -/
@[simp] theorem trimmed_nil : Trimmed [] := rfl

/-- A trimmed text starts with what is not blank. -/
theorem Trimmed.head {t : Text} (h : t.Trimmed) : ∀ c ∈ t.head?, isBlank c = false :=
  (trimmed_iff.mp h).1

/-- A trimmed text ends with what is not blank. -/
theorem Trimmed.last {t : Text} (h : t.Trimmed) : ∀ c ∈ t.getLast?, isBlank c = false :=
  (trimmed_iff.mp h).2

/-- A trimmed text is not trimmed further. -/
theorem Trimmed.trimStart {t : Text} (h : t.Trimmed) : trimStart t = t := trimStart_eq_self h.head

/-- Trimming twice is trimming once. -/
theorem trimmed_trim (t : Text) : (trim t).Trimmed := by
  rw [trimmed_iff]
  refine ⟨?_, getLast?_dropEndWhile⟩
  intro c hc
  have hpre : trim t <+: Text.trimStart t := dropEndWhile_isPrefix isBlank _
  obtain ⟨s, hs⟩ := hpre
  have hhead : c ∈ (Text.trimStart t).head? := by
    rw [← hs]
    cases h : trim t with
    | nil => simp [h] at hc
    | cons a r => simpa [h] using hc
  exact head?_trimStart c hhead

/-- Blanks around a trimmed text are dropped. -/
theorem trim_pad {w t e : Text} (hw : ∀ c ∈ w, isBlank c = true) (ht : t.Trimmed)
    (he : ∀ c ∈ e, isBlank c = true) : trim (w ++ t ++ e) = t := by
  rw [List.append_assoc, trim, trimStart_append_of_blank hw]
  cases t with
  | nil => rw [List.nil_append, trimStart_eq_nil_iff.mpr he]; rfl
  | cons c r =>
    have hc : isBlank c = false := ht.head c (by simp)
    rw [List.cons_append, trimStart_cons_of_not_blank hc, ← List.cons_append, trimEnd,
      dropEndWhile_append_of_all he, dropEndWhile_eq_self ht.last]

/-- Blanks behind a text make no difference to what it is trimmed to. -/
theorem trim_append_blank (t : Text) {e : Text} (he : ∀ c ∈ e, isBlank c = true) :
    trim (t ++ e) = trim t := by
  obtain ⟨w, ht, hw⟩ := exists_append_trimStart t
  have htrim : trim t = trimEnd (trimStart t) := rfl
  have hends : trim (t ++ e) = trimEnd (trimStart (trimStart t ++ e)) := by
    conv_lhs => rw [ht]
    rw [List.append_assoc, trim, trimStart_append_of_blank hw]
  rw [hends, htrim]
  cases hs : trimStart t with
  | nil => rw [List.nil_append, trimStart_eq_nil_iff.mpr he]
  | cons c r =>
    have hc : isBlank c = false := head?_trimStart (t := t) c (by rw [hs]; rfl)
    rw [List.cons_append, trimStart_cons_of_not_blank hc, ← List.cons_append, trimEnd, trimEnd,
      dropEndWhile_append_of_all he]

/-- A text is what it is trimmed to, with blanks around. -/
theorem exists_trim_pad (t : Text) :
    ∃ w v : Text, t = w ++ t.trim ++ v ∧ (∀ c ∈ w, isBlank c = true)
      ∧ ∀ c ∈ v, isBlank c = true := by
  obtain ⟨w, ht, hw⟩ := exists_append_trimStart t
  obtain ⟨v, hv, hblank⟩ := exists_dropEndWhile_append isBlank (trimStart t)
  refine ⟨w, v, ?_, hw, hblank⟩
  conv_lhs => rw [ht, hv]
  rw [List.append_assoc]
  rfl

/-- What is blank behind a trimmed text is trimmed away. -/
theorem trim_append_of_blank {t e : Text} (ht : t.Trimmed) (he : ∀ c ∈ e, isBlank c = true) :
    trim (t ++ e) = t := by
  simpa using trim_pad (w := []) (by simp) ht he

/-- Something is left of a text that is not blank, at both ends. -/
theorem trim_ne_nil {t : Text} (h : t.isAllBlank = false) : t.trim ≠ [] := by
  intro hnil
  obtain ⟨w, v, heq, hw, hv⟩ := exists_trim_pad t
  rw [hnil, List.append_nil] at heq
  rw [heq, isAllBlank_append, isAllBlank_iff.mpr hw, isAllBlank_iff.mpr hv] at h
  cases h

end Text

end FeatureTree
