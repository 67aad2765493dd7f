import FeatureTree.Gherkin.Token
import FeatureTree.Proofs.Text.Lines

/-!
# Tag lines

A tag is an `@` and a name behind it that holds neither blanks nor another `@`; the name can be
empty. What is read from a tag line is always such tags, and tags that are written on one line, with
a blank between them, are read as themselves: behind every blank stands an `@`, so nothing on the
line starts a comment.

## Main results

* `Line.isTag_of_tags?`: what is read from a tag line is tags
* `Line.tags?_tagLine`: tags that are written on one line are read as themselves
-/

namespace FeatureTree

/-- Whether a text is a tag. -/
def IsTag (t : Text) : Prop := ∃ name, t = '@' :: name ∧ '@' ∉ name ∧ ∀ c ∈ name, isBlank c = false

/-- An at sign is not blank. -/
theorem isBlank_at : isBlank '@' = false := by decide

namespace IsTag

variable {t : Text}

/-- A tag has nothing blank. -/
theorem not_blank (h : IsTag t) : ∀ c ∈ t, isBlank c = false := by
  obtain ⟨name, rfl, -, hb⟩ := h
  intro c hc
  rcases List.mem_cons.mp hc with rfl | hc
  · exact isBlank_at
  · exact hb c hc

/-- A tag is trimmed. -/
theorem trimmed (h : IsTag t) : t.Trimmed :=
  Text.trimmed_iff.mpr ⟨fun c hc => h.not_blank c (List.mem_of_mem_head? hc),
    fun c hc => h.not_blank c (List.mem_of_mem_getLast? hc)⟩

/-- A tag is one line. -/
theorem oneLine (h : IsTag t) : t.OneLine := fun hm => by
  have := h.not_blank '\n' hm
  revert this
  decide

/-- A tag is not empty. -/
theorem ne_nil (h : IsTag t) : t ≠ [] := by
  obtain ⟨name, rfl, -, -⟩ := h
  exact List.cons_ne_nil _ _

end IsTag

namespace Line

/-- The line on which tags are written. -/
def tagLine (tags : List Text) : Text := [' '].intercalate tags

/-- A tag alone is the line. -/
@[simp] theorem tagLine_singleton (t : Text) : tagLine [t] = t := by
  simp [tagLine, List.intercalate]

/-- Between two tags stands a space. -/
theorem tagLine_cons_cons (t u : Text) (ts : List Text) :
    tagLine (t :: u :: ts) = t ++ ' ' :: tagLine (u :: ts) := by
  simp [tagLine, List.intercalate, List.intersperse]

/-- A line of tags starts with the `@` of its first tag. -/
theorem exists_tagLine_eq_cons {tags : List Text} (hne : tags ≠ []) (h : ∀ t ∈ tags, IsTag t) :
    ∃ t, tagLine tags = '@' :: t := by
  obtain ⟨t, ts, rfl⟩ := List.exists_cons_of_ne_nil hne
  obtain ⟨name, rfl, -, -⟩ := h t (by simp)
  cases ts with
  | nil => exact ⟨name, tagLine_singleton _⟩
  | cons u us => exact ⟨name ++ ' ' :: tagLine (u :: us), tagLine_cons_cons _ _ _⟩

/-- A line of tags is trimmed. -/
theorem trimmed_tagLine {tags : List Text} (h : ∀ t ∈ tags, IsTag t) : (tagLine tags).Trimmed := by
  cases tags with
  | nil => exact Text.trimmed_nil
  | cons t ts =>
    obtain ⟨s, hs⟩ := exists_tagLine_eq_cons (List.cons_ne_nil t ts) h
    rw [Text.trimmed_iff]
    refine ⟨?_, ?_⟩
    · rw [hs]
      simpa using isBlank_at
    · -- the last character is that of the last tag
      clear hs s
      induction ts generalizing t with
      | nil =>
        rw [tagLine_singleton]
        exact (h t (by simp)).trimmed.last
      | cons u us ih =>
        have hrest := ih u fun t ht => h t (List.mem_cons_of_mem _ ht)
        obtain ⟨s, hs⟩ := exists_tagLine_eq_cons (List.cons_ne_nil u us)
          fun t ht => h t (List.mem_cons_of_mem _ ht)
        rw [tagLine_cons_cons]
        rw [hs] at hrest ⊢
        simpa [List.getLast?_append, List.getLast?_cons] using hrest

/-- The characters of a line of tags are those of the tags, and spaces. -/
theorem mem_tagLine {c : Char} (hc : c ≠ ' ') {tags : List Text} (h : c ∈ tagLine tags) :
    ∃ t ∈ tags, c ∈ t := by
  induction tags with
  | nil => simp [tagLine, List.intercalate] at h
  | cons t ts ih =>
    cases ts with
    | nil => exact ⟨t, by simp, by simpa using h⟩
    | cons u us =>
      rw [tagLine_cons_cons, List.mem_append, List.mem_cons] at h
      rcases h with h | h | h
      · exact ⟨t, by simp, h⟩
      · exact absurd h hc
      · obtain ⟨v, hv, hcv⟩ := ih h
        exact ⟨v, List.mem_cons_of_mem _ hv, hcv⟩

/-- A line of tags is one line. -/
theorem oneLine_tagLine {tags : List Text} (h : ∀ t ∈ tags, IsTag t) :
    (tagLine tags).OneLine := fun hm => by
  obtain ⟨t, ht, hc⟩ := mem_tagLine (by decide) hm
  exact (h t ht).oneLine hc

/-! ### Comments behind tags -/

/-- No comment starts in what is not blank. -/
theorem beforeComment_append {s : Text} (h : ∀ c ∈ s, isBlank c = false) (t : Text) :
    beforeComment (s ++ t) = s ++ beforeComment t := by
  induction s with
  | nil => rfl
  | cons c s ih =>
    have hc : isBlank c = false := h c (by simp)
    have hrest := ih fun d hd => h d (List.mem_cons_of_mem _ hd)
    cases hst : s ++ t with
    | nil =>
      obtain ⟨rfl, rfl⟩ := List.append_eq_nil_iff.mp hst
      rfl
    | cons d u =>
      rw [hst] at hrest
      rw [List.cons_append, hst, beforeComment, hc, Bool.false_and, if_neg (by simp), hrest]
      rfl

/-- Nothing on a line of tags starts a comment. -/
theorem beforeComment_tagLine {tags : List Text} (h : ∀ t ∈ tags, IsTag t) :
    beforeComment (tagLine tags) = tagLine tags := by
  induction tags with
  | nil => rfl
  | cons t ts ih =>
    have hall : ∀ u ∈ ts, IsTag u := fun u hu => h u (List.mem_cons_of_mem _ hu)
    have ht := (h t (by simp)).not_blank
    cases ts with
    | nil =>
      rw [tagLine_singleton]
      simpa [beforeComment] using beforeComment_append ht []
    | cons u us =>
      obtain ⟨s, hs⟩ := exists_tagLine_eq_cons (List.cons_ne_nil u us) hall
      have hrest := ih hall
      rw [hs] at hrest
      rw [tagLine_cons_cons, beforeComment_append ht, hs, beforeComment]
      simp [hrest]

/-! ### Reading tags -/

/-- The tags of a line are read back. -/
theorem tagsFrom_tagLine {tags : List Text} (hne : tags ≠ []) (h : ∀ t ∈ tags, IsTag t)
    (column : Nat) : ∃ cs, tagsFrom column (Text.splitAtChar '@' (tagLine tags)).tail = .ok cs
      ∧ cs.map (·.2) = tags := by
  induction tags generalizing column with
  | nil => exact absurd rfl hne
  | cons t ts ih =>
    obtain ⟨name, rfl, hat, hb⟩ := h t (by simp)
    have hsplit : ∀ s, (Text.splitAtChar '@' ('@' :: s)).tail = Text.splitAtChar '@' s := by
      intro s
      rw [Text.splitAtChar, if_pos rfl, List.tail_cons]
    have htrim : Text.Trimmed name :=
      Text.trimmed_iff.mpr ⟨fun c hc => hb c (List.mem_of_mem_head? hc),
        fun c hc => hb c (List.mem_of_mem_getLast? hc)⟩
    have hany : name.any isBlank = false := by
      rw [List.any_eq_false]
      exact fun c hc => by simp [hb c hc]
    cases ts with
    | nil =>
      rw [tagLine_singleton, hsplit, Text.splitAtChar_of_not_mem hat, tagsFrom, htrim, hany]
      exact ⟨[(column, '@' :: name)], rfl, rfl⟩
    | cons u us =>
      have hall : ∀ t ∈ u :: us, IsTag t := fun t ht => h t (List.mem_cons_of_mem _ ht)
      obtain ⟨cs, hcs, hmap⟩ := ih (by simp) hall (column + (name ++ [' ']).length + 1)
      obtain ⟨s, hs⟩ := exists_tagLine_eq_cons (List.cons_ne_nil u us) hall
      have hat' : '@' ∉ name ++ [' '] := by simp [hat]
      have hpiece : Text.trim (name ++ [' ']) = name := Text.trim_append_of_blank htrim (by simp)
      rw [hs, hsplit] at hcs
      have hcut : name ++ ' ' :: '@' :: s = (name ++ [' ']) ++ '@' :: s := by simp
      rw [tagLine_cons_cons, List.cons_append, hsplit, hs, hcut,
        Text.splitAtChar_append_cons hat', tagsFrom, hpiece, hany, if_neg (by simp), hcs]
      exact ⟨(column, '@' :: name) :: cs, rfl, by rw [List.map_cons, hmap]⟩

/-- Tags that are written on one line are read as themselves. -/
theorem tags?_tagLine {l : Line} {tags : List Text} (hne : tags ≠ []) (h : ∀ t ∈ tags, IsTag t)
    {e : Text} (he : ∀ c ∈ e, isBlank c = true) (hl : l.trimmed = tagLine tags ++ e) :
    ∃ cs, l.tags? = .ok (some cs) ∧ cs.map (·.2) = tags := by
  obtain ⟨s, hs⟩ := exists_tagLine_eq_cons hne h
  have hline : (beforeComment l.trimmed.trim).trim = tagLine tags := by
    rw [hl, Text.trim_append_of_blank (trimmed_tagLine h) he, beforeComment_tagLine h]
    exact trimmed_tagLine h
  obtain ⟨cs, hcs, hmap⟩ := tagsFrom_tagLine hne h l.column
  refine ⟨cs, ?_, hmap⟩
  simp only [tags?, if_pos (show l.trimmed.head? = some '@' by rw [hl, hs]; rfl), hline, hcs]
  rfl

/-- What is read as tags are tags. -/
theorem isTag_of_tagsFrom {column : Nat} {pieces : List Text} (hp : ∀ p ∈ pieces, '@' ∉ p)
    {cs : List (Nat × Text)} (h : tagsFrom column pieces = .ok cs) : ∀ t ∈ cs, IsTag t.2 := by
  induction pieces generalizing column cs with
  | nil =>
    cases h
    simp
  | cons p ps ih =>
    rw [tagsFrom] at h
    split at h
    · cases h
    · next hany =>
      cases hrest : tagsFrom (column + p.length + 1) ps with
      | error f => rw [hrest] at h; cases h
      | ok rest =>
        rw [hrest] at h
        cases h
        intro t ht
        rcases List.mem_cons.mp ht with rfl | ht
        · refine ⟨p.trim, rfl, fun hm => hp p (by simp) ?_, fun c hc => ?_⟩
          · exact (List.dropWhile_subset _) ((Text.dropEndWhile_isPrefix isBlank _).subset hm)
          · simpa using List.any_eq_false.mp (Bool.not_eq_true _ ▸ hany) c hc
        · exact ih (fun q hq => hp q (List.mem_cons_of_mem _ hq)) hrest t ht

/-- What is read from a tag line is tags. -/
theorem isTag_of_tags? {l : Line} {cs : List (Nat × Text)} (h : l.tags? = .ok (some cs)) :
    ∀ t ∈ cs, IsTag t.2 := by
  rw [tags?] at h
  split at h
  · cases ht : tagsFrom l.column (Text.splitAtChar '@'
      (Text.trim (beforeComment l.trimmed.trim))).tail with
    | error f => simp only [ht, Except.map] at h; cases h
    | ok ts =>
      simp only [ht, Except.map] at h
      cases h
      exact isTag_of_tagsFrom
        (fun p hp => Text.not_mem_of_mem_splitAtChar (List.mem_of_mem_tail hp)) ht
  · cases h

end Line

end FeatureTree
