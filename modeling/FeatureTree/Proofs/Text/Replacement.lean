import FeatureTree.Layout
import FeatureTree.Proofs.Text.Lines

/-!
# Escaped delimiters

Inside a doc string its delimiter is written with a backslash before each character, and the reader
replaces this written form by the delimiter again. That gives the content back unless the content
holds the written form itself: a written form that only comes about by writing never starts before
the delimiter that it stands for, because the delimiter is one character three times and would have
been found earlier.

## Main results

* `Text.restore_protect`: reading the written form of a content gives the content back
* `Text.not_isPrefixOf_protect`: no line of the written form starts with the delimiter
* `Text.splitLines_protect`: the lines of the written form are the written forms of the lines
-/

namespace FeatureTree

namespace Text

/-! ### Occurrences -/

/-- A prefix without a certain character ends before its first occurrence. -/
theorem prefix_of_prefix_append_cons {s p t : Text} {d : Char} (h : p <+: s ++ d :: t)
    (hd : d ∉ p) : p <+: s := by
  rcases List.prefix_or_prefix_of_prefix h (List.prefix_append s (d :: t)) with hp | ⟨u, rfl⟩
  · exact hp
  · rw [List.prefix_append_right_inj] at h
    cases u with
    | nil => simp
    | cons e u =>
      obtain ⟨rfl, -⟩ := List.cons_prefix_cons.mp h
      simp at hd

/-- A text is part of another exactly when it stands in it as a run of adjacent characters. -/
theorem hasPart_iff {part t : Text} : hasPart part t = true ↔ part <:+: t := by
  induction t with
  | nil => simp [hasPart]
  | cons c t ih =>
    rw [hasPart, Bool.or_eq_true, List.isPrefixOf_iff_prefix, ih, List.infix_cons_iff]

/-- What is part of a part is part of the whole. -/
theorem hasPart_of_infix {part s t : Text} (h : hasPart part s = true) (hst : s <:+: t) :
    hasPart part t = true :=
  hasPart_iff.mpr ((hasPart_iff.mp h).trans hst)

/-- A line of a text stands in it. -/
theorem infix_of_mem_splitLines {t l : Text} (h : l ∈ splitLines t) : l <:+: t := by
  have key : ∀ ls : List Text, l ∈ ls → l <:+: joinLines ls := by
    intro ls
    induction ls with
    | nil => simp
    | cons m ms ih =>
      intro hl
      cases ms with
      | nil => simp_all
      | cons n ns =>
        rw [joinLines_cons_cons]
        rcases List.mem_cons.mp hl with rfl | hl
        · exact (List.prefix_append _ _).isInfix
        · exact (ih hl).trans ⟨m ++ ['\n'], [], by simp⟩
  have := key _ h
  rwa [joinLines_splitLines] at this

/-! ### Replacing step by step -/

section

variable {old new : Text}

/-- Skipping some characters replaces in the rest. -/
theorem replaceAfter_eq_drop (k : Nat) (t : Text) :
    replaceAfter old new k t = replaceAll old new (t.drop k) := by
  induction t generalizing k with
  | nil => cases k <;> rfl
  | cons c t ih =>
    cases k with
    | zero => rfl
    | succ k => rw [replaceAfter, ih, List.drop_succ_cons]

/-- Where the old text starts it is replaced, and the search goes on behind it. -/
theorem replaceAll_cons_of_isPrefix {c : Char} {t : Text} (h : old <+: c :: t) (hne : old ≠ []) :
    replaceAll old new (c :: t) = new ++ replaceAll old new ((c :: t).drop old.length) := by
  obtain ⟨n, hn⟩ : ∃ n, old.length = n + 1 :=
    Nat.exists_eq_succ_of_ne_zero (by simpa using hne)
  rw [replaceAll, replaceAfter, if_pos (List.isPrefixOf_iff_prefix.mpr h), replaceAfter_eq_drop, hn]
  rfl

/-- The old text in front of another one is replaced. -/
theorem replaceAll_append (hne : old ≠ []) (t : Text) :
    replaceAll old new (old ++ t) = new ++ replaceAll old new t := by
  obtain ⟨c, s, rfl⟩ := List.exists_cons_of_ne_nil hne
  rw [List.cons_append, replaceAll_cons_of_isPrefix ⟨t, by simp⟩ hne, ← List.cons_append,
    List.drop_left]

/-- Where the old text does not start a character is kept. -/
theorem replaceAll_cons_of_not_isPrefix {c : Char} {t : Text} (h : ¬old <+: c :: t) :
    replaceAll old new (c :: t) = c :: replaceAll old new t := by
  rw [replaceAll, replaceAfter, if_neg (by rwa [List.isPrefixOf_iff_prefix])]
  rfl

/-- A text that holds none of the first characters of what is replaced is left alone. -/
theorem replaceAll_append_of_not_mem {s : Text} (h : ∀ c ∈ s, ∀ d ∈ old.head?, c ≠ d)
    (hne : old ≠ []) (t : Text) : replaceAll old new (s ++ t) = s ++ replaceAll old new t := by
  induction s with
  | nil => rfl
  | cons c s ih =>
    have hc : ¬old <+: c :: (s ++ t) := by
      obtain ⟨d, r, rfl⟩ := List.exists_cons_of_ne_nil hne
      rw [List.cons_prefix_cons]
      exact fun e => h c (by simp) d (by simp) e.1.symm
    rw [List.cons_append, replaceAll_cons_of_not_isPrefix hc,
      ih fun d hd => h d (List.mem_cons_of_mem _ hd), List.cons_append]

/-- Induction along the steps of a replacement: an occurrence is passed as a whole, any other
character alone. -/
theorem replacement_induction {motive : Text → Prop} (hne : old ≠ []) (nil : motive [])
    (found : ∀ t, motive t → motive (old ++ t))
    (kept : ∀ c t, ¬old <+: c :: t → motive t → motive (c :: t)) (t : Text) : motive t := by
  induction hn : t.length using Nat.strongRecOn generalizing t with
  | ind n ih =>
    cases t with
    | nil => exact nil
    | cons c t =>
      by_cases hp : old <+: c :: t
      · obtain ⟨r, hr⟩ := hp
        have hlen : r.length < n := by
          have h0 : 0 < old.length := List.length_pos_of_ne_nil hne
          have := congrArg List.length hr
          rw [List.length_append] at this
          omega
        exact hr ▸ found r (ih r.length hlen r rfl)
      · exact kept c t hp (ih t.length (by rw [← hn, List.length_cons]; omega) t rfl)

/-- Replacing goes on afresh behind a character that what is replaced does not hold. -/
theorem replaceAll_append_cons {d : Char} (hd : d ∉ old) (hne : old ≠ []) (s t : Text) :
    replaceAll old new (s ++ d :: t) = replaceAll old new s ++ d :: replaceAll old new t := by
  induction s using replacement_induction hne with
  | nil =>
    refine replaceAll_cons_of_not_isPrefix fun h => hd ?_
    obtain ⟨c, r, rfl⟩ := List.exists_cons_of_ne_nil hne
    obtain ⟨rfl, -⟩ := List.cons_prefix_cons.mp h
    exact List.mem_cons_self
  | found r ih =>
    rw [List.append_assoc, replaceAll_append hne, replaceAll_append hne, ih, List.append_assoc]
  | kept c s hp ih =>
    have hp' : ¬old <+: c :: (s ++ d :: t) := fun h =>
      hp (prefix_of_prefix_append_cons (by rwa [List.cons_append]) hd)
    rw [List.cons_append, replaceAll_cons_of_not_isPrefix hp',
      replaceAll_cons_of_not_isPrefix hp, ih,
      List.cons_append]

/-- Replacing brings in no character but those of what is put in. -/
theorem not_mem_replaceAll {c : Char} (hnew : c ∉ new) (hne : old ≠ []) {t : Text} (h : c ∉ t) :
    c ∉ replaceAll old new t := by
  induction t using replacement_induction hne with
  | nil => exact h
  | found r ih =>
    rw [replaceAll_append hne, List.mem_append]
    exact fun hm => hm.elim hnew (ih fun hr => h (List.mem_append_right _ hr))
  | kept d t hp ih =>
    rw [replaceAll_cons_of_not_isPrefix hp, List.mem_cons]
    rintro (e | hm)
    · exact h (e ▸ List.mem_cons_self)
    · exact ih (fun ht => h (List.mem_cons_of_mem _ ht)) hm

/-- Replacing within a line by a line leaves a line. -/
theorem oneLine_replaceAll (hnew : new.OneLine) (hne : old ≠ []) {t : Text} (h : t.OneLine) :
    (replaceAll old new t).OneLine := not_mem_replaceAll hnew hne h

/-- Replacing goes line by line if neither text holds a line feed. -/
theorem splitLines_replaceAll (hold : old.OneLine) (hnew : new.OneLine) (hne : old ≠ [])
    (t : Text) :
    splitLines (replaceAll old new t) = (splitLines t).map (replaceAll old new) := by
  have key : ∀ ls : List Text, ls ≠ [] → (∀ l ∈ ls, l.OneLine) →
      splitLines (replaceAll old new (joinLines ls)) = ls.map (replaceAll old new) := by
    intro ls
    induction ls with
    | nil => exact fun h _ => absurd rfl h
    | cons l ls ih =>
      intro _ h
      have hl : l.OneLine := h l (by simp)
      cases ls with
      | nil => simpa using splitLines_of_oneLine (oneLine_replaceAll hnew hne hl)
      | cons m ms =>
        rw [joinLines_cons_cons, replaceAll_append_cons hold hne,
          splitLines_append_lineFeed (oneLine_replaceAll hnew hne hl),
          ih (by simp) fun l hm => h l (List.mem_cons_of_mem _ hm)]
        rfl
  have := key (splitLines t) (splitLines_ne_nil t) fun l hl => oneLine_of_mem_splitLines hl
  rwa [joinLines_splitLines] at this

end

/-! ### A delimiter and its written form -/

/-- A delimiter of doc strings: a character three times that is no backslash, blank or pipe. -/
def IsFence (mark : Text) : Prop := mark = quoteFence ∨ mark = backtickFence

/-- A fence is three quotes or backticks, each of which is escaped by itself. -/
theorem IsFence.eq_triple {mark : Text} (h : IsFence mark) :
    ∃ q, mark = [q, q, q] ∧ escapedFence mark = ['\\', q, '\\', q, '\\', q] ∧ q ≠ '\\'
      ∧ q ≠ '\n' ∧ isBlank q = false := by
  rcases h with rfl | rfl
  · exact ⟨'"', rfl, rfl, by decide, by decide, by decide⟩
  · exact ⟨'`', rfl, rfl, by decide, by decide, by decide⟩

/-- A text as it is written between delimiters. -/
def protect (mark t : Text) : Text := replaceAll mark (escapedFence mark) t

/-- A text as it is read between delimiters. -/
def restore (mark t : Text) : Text := replaceAll (escapedFence mark) mark t

section

variable {q : Char} (hq : q ≠ '\\')

/-- The replacement of a character three times by its written form. -/
abbrev tripled (q : Char) (t : Text) : Text :=
  replaceAll [q, q, q] ['\\', q, '\\', q, '\\', q] t

include hq

/-- A written form that starts with the character stands for a text that does, and not for the
delimiter. -/
theorem tripled_eq_cons_self {t u : Text} (h : tripled q t = q :: u) :
    ∃ t', t = q :: t' ∧ u = tripled q t' ∧ ¬[q, q, q] <+: t := by
  cases t with
  | nil => simp [tripled] at h
  | cons c t =>
    by_cases hp : [q, q, q] <+: c :: t
    · rw [tripled, replaceAll_cons_of_isPrefix hp (by simp), List.cons_append] at h
      exact absurd (List.cons.inj h).1.symm hq
    · rw [tripled, replaceAll_cons_of_not_isPrefix hp] at h
      obtain ⟨rfl, rfl⟩ := List.cons.inj h
      exact ⟨t, rfl, rfl, hp⟩

/-- What was escaped does not start with a fence. -/
theorem not_prefix_tripled (t : Text) : ¬[q, q, q] <+: tripled q t := by
  rintro ⟨r, hr⟩
  obtain ⟨t₁, rfl, h₁, hn⟩ := tripled_eq_cons_self hq hr.symm
  obtain ⟨t₂, rfl, h₂, -⟩ := tripled_eq_cons_self hq h₁.symm
  obtain ⟨t₃, rfl, -, -⟩ := tripled_eq_cons_self hq h₂.symm
  exact hn ⟨t₃, rfl⟩

/-- A backslash that is no part of a written delimiter starts one only where the text did. -/
theorem prefix_of_prefix_tripled {t : Text}
    (h : ['\\', q, '\\', q, '\\', q] <+: '\\' :: tripled q t) :
    ['\\', q, '\\', q, '\\', q] <+: '\\' :: t := by
  -- a backslash behind the character is literal, for otherwise the delimiter was there before
  have literal : ∀ {s u : Text}, ¬[q, q, q] <+: q :: s → tripled q s = '\\' :: u →
      ∃ s', s = '\\' :: s' ∧ u = tripled q s' := by
    intro s u hn hs
    cases s with
    | nil => simp [tripled] at hs
    | cons c s =>
      by_cases hp : [q, q, q] <+: c :: s
      · obtain ⟨r, hr⟩ := hp
        exact absurd ⟨q :: r, by rw [← hr]; rfl⟩ hn
      · rw [tripled, replaceAll_cons_of_not_isPrefix hp] at hs
        obtain ⟨rfl, rfl⟩ := List.cons.inj hs
        exact ⟨s, rfl, rfl⟩
  obtain ⟨r, hr⟩ := h
  obtain ⟨t₁, rfl, h₁, n₁⟩ := tripled_eq_cons_self hq (List.cons.inj hr).2.symm
  obtain ⟨t₂, rfl, h₂⟩ := literal n₁ h₁.symm
  obtain ⟨t₃, rfl, h₃, n₃⟩ := tripled_eq_cons_self hq h₂.symm
  obtain ⟨t₄, rfl, h₄⟩ := literal n₃ h₃.symm
  obtain ⟨t₅, rfl, -, -⟩ := tripled_eq_cons_self hq h₄.symm
  exact ⟨t₅, rfl⟩

/-- Escaped fences are restored in what has none of its own. -/
theorem restore_tripled {t : Text} (h : ¬['\\', q, '\\', q, '\\', q] <:+: t) :
    replaceAll ['\\', q, '\\', q, '\\', q] [q, q, q] (tripled q t) = t := by
  have hne : ([q, q, q] : Text) ≠ [] := by simp
  induction t using replacement_induction hne with
  | nil => rfl
  | found r ih =>
    rw [tripled, replaceAll_append hne, replaceAll_append (by simp),
      ih fun hr => h (hr.trans (List.suffix_append _ _).isInfix)]
  | kept c t hp ih =>
    rw [tripled, replaceAll_cons_of_not_isPrefix hp]
    have hn : ¬['\\', q, '\\', q, '\\', q] <+: c :: tripled q t := by
      intro hpre
      obtain rfl : '\\' = c := (List.cons_prefix_cons.mp hpre).1
      exact h (prefix_of_prefix_tripled hq hpre).isInfix
    rw [replaceAll_cons_of_not_isPrefix hn,
      ih fun ht => h (ht.trans (List.suffix_cons _ _).isInfix)]

end

variable {mark : Text}

/-- Reading the written form of a text gives the text back, unless it holds the written form of the
delimiter. -/
theorem restore_protect (hm : IsFence mark) {t : Text}
    (h : hasPart (escapedFence mark) t = false) : restore mark (protect mark t) = t := by
  obtain ⟨q, rfl, he, hq, -, -⟩ := hm.eq_triple
  rw [restore, protect, he]
  exact restore_tripled hq fun hi => by
    rw [he, hasPart_iff.mpr hi] at h
    exact Bool.noConfusion h

/-- Protected text does not start with the fence. -/
theorem not_isPrefixOf_protect (hm : IsFence mark) (t : Text) :
    mark.isPrefixOf (protect mark t) = false := by
  obtain ⟨q, rfl, he, hq, -, -⟩ := hm.eq_triple
  rw [← Bool.not_eq_true, List.isPrefixOf_iff_prefix, protect, he]
  exact not_prefix_tripled hq t

/-- What is blank in front of a text needs no protection. -/
theorem protect_append_of_blank (hm : IsFence mark) {w : Text} (hw : ∀ c ∈ w, isBlank c = true)
    (t : Text) : protect mark (w ++ t) = w ++ protect mark t := by
  obtain ⟨q, rfl, -, -, -, hq⟩ := hm.eq_triple
  refine replaceAll_append_of_not_mem (fun c hc d hd => ?_) (by simp) t
  obtain rfl : q = d := by simpa using hd
  rintro rfl
  rw [hw c hc] at hq
  exact Bool.noConfusion hq

/-- No line of the written form starts with the delimiter, whatever its indentation. -/
theorem not_isPrefixOf_trimStart_protect (hm : IsFence mark) (t : Text) :
    mark.isPrefixOf (trimStart (protect mark t)) = false := by
  obtain ⟨w, ht, hw⟩ := exists_append_trimStart t
  have hhead : ∀ c ∈ (protect mark (trimStart t)).head?, isBlank c = false := by
    intro c hc
    obtain ⟨q, rfl, he, hq, -, -⟩ := hm.eq_triple
    rw [protect, he] at hc
    cases hs : trimStart t with
    | nil => simp [hs] at hc
    | cons d r =>
      rw [hs] at hc
      by_cases hp : [q, q, q] <+: d :: r
      · rw [replaceAll_cons_of_isPrefix hp (by simp)] at hc
        obtain rfl : '\\' = c := by simpa using hc
        decide
      · rw [replaceAll_cons_of_not_isPrefix hp] at hc
        exact head?_trimStart c (by rw [hs]; simpa using hc)
  rw [ht, protect_append_of_blank hm hw, trimStart_append_of_blank hw, trimStart_eq_self hhead]
  exact not_isPrefixOf_protect hm _

/-- The lines of the written form are the written forms of the lines. -/
theorem splitLines_protect (hm : IsFence mark) (t : Text) :
    splitLines (protect mark t) = (splitLines t).map (protect mark) := by
  obtain ⟨q, rfl, he, -, hq, -⟩ := hm.eq_triple
  have hq' : '\n' ≠ q := hq.symm
  unfold protect
  rw [he]
  exact splitLines_replaceAll (by simp [OneLine, hq']) (by simp [OneLine, hq']) (by simp) t

/-- Protected text is empty if the text is. -/
theorem protect_eq_nil_iff (hm : IsFence mark) {t : Text} : protect mark t = [] ↔ t = [] := by
  obtain ⟨q, rfl, he, -, -, -⟩ := hm.eq_triple
  rw [protect, he]
  constructor
  · intro h
    cases t with
    | nil => rfl
    | cons c r =>
      by_cases hp : [q, q, q] <+: c :: r
      · rw [replaceAll_cons_of_isPrefix hp (by simp)] at h
        simp at h
      · rw [replaceAll_cons_of_not_isPrefix hp] at h
        simp at h
  · rintro rfl
    rfl

end Text

end FeatureTree
