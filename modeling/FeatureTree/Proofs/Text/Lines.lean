import FeatureTree.Gherkin.Line
import FeatureTree.Proofs.Text.Trimming

/-!
# Lines that were joined

Cutting at line feeds undoes joining, as long as no line holds a line feed. The lines of a document
keep the line feeds that end them, so they spell the lines that were joined up to that line feed
(`Line.Shows`, `Line.Spell`); a last line that is empty is not seen.

## Main results

* `Text.splitLines_joinLines`: cutting at line feeds undoes joining
* `Text.breakLines_joinLines`: so does cutting at all line breaks, if there are no others
* `Line.spell_ofText_joinLines`: the lines of a document spell the lines that were joined
-/

namespace FeatureTree

namespace Text

/-- Whether a text stands on one line. -/
def OneLine (t : Text) : Prop := '\n' ∉ t

/-! ### Joining -/

/-- Joining no lines gives an empty text. -/
@[simp] theorem joinLines_nil : joinLines [] = [] := rfl

/-- A line alone is joined to itself. -/
@[simp] theorem joinLines_singleton (l : Text) : joinLines [l] = l := by
  simp [joinLines, List.intercalate]

/-- Between two lines stands a line feed. -/
theorem joinLines_cons_cons (l m : Text) (ls : List Text) :
    joinLines (l :: m :: ls) = l ++ '\n' :: joinLines (m :: ls) := by
  simp [joinLines, List.intercalate, List.intersperse]

/-- Between a line and those behind it stands a line feed. -/
theorem joinLines_cons {ls : List Text} (h : ls ≠ []) (l : Text) :
    joinLines (l :: ls) = l ++ '\n' :: joinLines ls := by
  obtain ⟨m, ms, rfl⟩ := List.exists_cons_of_ne_nil h
  exact joinLines_cons_cons l m ms

/-- Joined lines have their characters, and line feeds. -/
theorem mem_joinLines {c : Char} (hc : c ≠ '\n') {ls : List Text} :
    c ∈ joinLines ls ↔ ∃ l ∈ ls, c ∈ l := by
  induction ls with
  | nil => simp
  | cons l ls ih =>
    cases ls with
    | nil => simp
    | cons m ms => simp [joinLines_cons_cons, ih, hc]

/-! ### Cutting at line feeds -/

/-- A text without the separator is one piece. -/
theorem splitAtChar_of_not_mem {sep : Char} {l : Text} (h : sep ∉ l) : splitAtChar sep l = [l] := by
  induction l with
  | nil => rfl
  | cons c l ih =>
    have hc : c ≠ sep := fun e => h (e ▸ List.mem_cons_self)
    rw [splitAtChar, if_neg hc, ih fun hm => h (List.mem_cons_of_mem _ hm)]

/-- The first piece ends in front of the first separator. -/
theorem splitAtChar_append_cons {sep : Char} {l : Text} (h : sep ∉ l) (t : Text) :
    splitAtChar sep (l ++ sep :: t) = l :: splitAtChar sep t := by
  induction l with
  | nil => simp [splitAtChar]
  | cons c l ih =>
    have hc : c ≠ sep := fun e => h (e ▸ List.mem_cons_self)
    rw [List.cons_append, splitAtChar, if_neg hc, ih fun hm => h (List.mem_cons_of_mem _ hm)]

/-- One line is split into itself. -/
theorem splitLines_of_oneLine {l : Text} (h : l.OneLine) : splitLines l = [l] :=
  splitAtChar_of_not_mem h

/-- The first line ends in front of the first line feed. -/
theorem splitLines_append_lineFeed {l : Text} (h : l.OneLine) (t : Text) :
    splitLines (l ++ '\n' :: t) = l :: splitLines t :=
  splitAtChar_append_cons h t

/-- Cutting at a separator undoes joining. -/
theorem splitAtChar_intercalate {sep : Char} {ls : List Text} (hne : ls ≠ [])
    (h : ∀ l ∈ ls, sep ∉ l) : splitAtChar sep ([sep].intercalate ls) = ls := by
  induction ls with
  | nil => exact absurd rfl hne
  | cons l ls ih =>
    rw [List.forall_mem_cons] at h
    cases ls with
    | nil => simpa using splitAtChar_of_not_mem h.1
    | cons m ms =>
      rw [List.intercalate_cons_cons, List.append_assoc, List.singleton_append,
        splitAtChar_append_cons h.1, ih (by simp) h.2]

/-- Cutting at line feeds undoes joining. -/
theorem splitLines_joinLines {ls : List Text} (hne : ls ≠ []) (h : ∀ l ∈ ls, l.OneLine) :
    splitLines (joinLines ls) = ls :=
  splitAtChar_intercalate hne h

/-- A piece between separators holds none. -/
theorem not_mem_of_mem_splitAtChar {sep : Char} {t l : Text} (h : l ∈ splitAtChar sep t) :
    sep ∉ l := by
  induction t generalizing l with
  | nil =>
    rw [splitAtChar, List.mem_singleton] at h
    subst h
    simp
  | cons c t ih =>
    rw [splitAtChar] at h
    by_cases hc : c = sep
    · rw [if_pos hc, List.mem_cons] at h
      rcases h with rfl | h
      · simp
      · exact ih h
    · rw [if_neg hc] at h
      cases hs : splitAtChar sep t with
      | nil => exact absurd hs (splitAtChar_ne_nil _ _)
      | cons piece pieces =>
        rw [hs, List.mem_cons] at h
        rcases h with rfl | h
        · have hp : sep ∉ piece := ih (hs ▸ List.mem_cons_self)
          intro hm
          rcases List.mem_cons.mp hm with e | hm
          · exact hc e.symm
          · exact hp hm
        · exact ih (hs ▸ List.mem_cons_of_mem _ h)

/-- A piece between line feeds stands on one line. -/
theorem oneLine_of_mem_splitLines {t l : Text} (h : l ∈ splitLines t) : l.OneLine :=
  not_mem_of_mem_splitAtChar h

/-- A text has one line at least. -/
theorem splitLines_ne_nil (t : Text) : splitLines t ≠ [] := splitAtChar_ne_nil _ _

/-! ### Cutting at all line breaks -/

/-- Whether no line of some convention ends inside a text. -/
def NoBreak (t : Text) : Prop := ∀ c ∈ t, isLineBreak c = false

/-- A text without breaks is one line. -/
theorem NoBreak.oneLine {t : Text} (h : t.NoBreak) : t.OneLine := fun hm => by
  have := h '\n' hm
  revert this
  decide

/-- Line breaks are blank. -/
theorem isBlank_of_isLineBreak {c : Char} (h : isLineBreak c = true) : isBlank c = true := by
  simp only [isLineBreak, isBlank, Bool.or_eq_true, Bool.and_eq_true, decide_eq_true_eq,
    beq_iff_eq] at h ⊢
  omega

/-- Only an empty text has no lines. -/
theorem eq_nil_of_breakLines {t : Text} (h : breakLines t = []) : t = [] := by
  rw [breakLines.eq_def] at h
  split at h
  · rfl
  · cases h
  · split at h
    · cases h
    · split at h <;> cases h

/-- A break ends a line, unless it is a carriage return that a line feed follows. -/
theorem breakLines_cons_of_break {c : Char} {t : Text} (h : isLineBreak c = true)
    (hr : ¬['\r', '\n'] <+: c :: t) : breakLines (c :: t) = [] :: breakLines t := by
  rw [breakLines.eq_def]
  split
  · next heq => cases heq
  · next t' heq =>
    cases heq
    exact absurd (List.prefix_append ['\r', '\n'] t') hr
  · next c' t' _ heq =>
    cases heq
    rw [if_pos h]

/-- What is no break belongs to the first line between breaks. -/
theorem breakLines_cons_of_not_break {c : Char} (h : isLineBreak c = false) {l : Text}
    {ls : List Text} {t : Text} (ht : breakLines t = l :: ls) :
    breakLines (c :: t) = (c :: l) :: ls := by
  have hr : c ≠ '\r' := fun e => by subst e; revert h; decide
  rw [breakLines.eq_def]
  split
  · rename_i heq
    cases heq
  · rename_i t' heq
    cases heq
    exact absurd rfl hr
  · rename_i c' t' _ heq
    cases heq
    rw [h, if_neg (by simp), ht]

/-- A line feed ends the first line between breaks. -/
theorem breakLines_append_lineFeed {l : Text} (h : l.NoBreak) (t : Text) :
    breakLines (l ++ '\n' :: t) = l :: breakLines t := by
  induction l with
  | nil => exact breakLines_cons_of_break (by decide) (by simp)
  | cons c l ih =>
    have hl : NoBreak l := fun d hd => h d (List.mem_cons_of_mem _ hd)
    exact breakLines_cons_of_not_break (h c (by simp)) (ih hl)

/-- A text without breaks is one line between breaks. -/
theorem breakLines_of_noBreak {l : Text} (h : l.NoBreak) (hne : l ≠ []) : breakLines l = [l] := by
  induction l with
  | nil => exact absurd rfl hne
  | cons c l ih =>
    have hc : isLineBreak c = false := h c (by simp)
    have hl : NoBreak l := fun d hd => h d (List.mem_cons_of_mem _ hd)
    cases l with
    | nil =>
      have hr : c ≠ '\r' := fun e => by subst e; revert hc; decide
      rw [breakLines.eq_def]
      split
      · rename_i heq
        cases heq
      · rename_i t' heq
        cases heq
      · rename_i c' t' _ heq
        cases heq
        rw [hc, if_neg (by simp)]
        rfl
    | cons d l => exact breakLines_cons_of_not_break hc (ih hl (by simp))

/-- Cutting at all line breaks undoes joining, if no line holds one and the last one is not
empty. -/
theorem breakLines_joinLines {ls : List Text} (h : ∀ l ∈ ls, l.NoBreak)
    (hlast : ∀ l ∈ ls.getLast?, l ≠ []) : breakLines (joinLines ls) = ls := by
  induction ls with
  | nil => rfl
  | cons l ls ih =>
    have hl : l.NoBreak := h l (by simp)
    cases ls with
    | nil => rw [joinLines_singleton, breakLines_of_noBreak hl (hlast l (by simp))]
    | cons m ms =>
      rw [joinLines_cons_cons, breakLines_append_lineFeed hl,
        ih (fun l hm => h l (List.mem_cons_of_mem _ hm)) (by simpa using hlast)]

/-! ### Source lines -/

/-- A source line keeps its line feed. -/
theorem sourceLines_append_lineFeed {l : Text} (h : l.OneLine) (t : Text) :
    sourceLines (l ++ '\n' :: t) = (l ++ ['\n']) :: sourceLines t := by
  induction l with
  | nil => simp [sourceLines]
  | cons c l ih =>
    have hc : c ≠ '\n' := fun e => h (e ▸ List.mem_cons_self)
    have hl : OneLine l := fun hm => h (List.mem_cons_of_mem _ hm)
    rw [List.cons_append, sourceLines, if_neg hc, ih hl, List.cons_append]

/-- One line without a line feed is one source line. -/
theorem sourceLines_of_oneLine {l : Text} (h : l.OneLine) (hne : l ≠ []) : sourceLines l = [l] := by
  induction l with
  | nil => exact absurd rfl hne
  | cons c l ih =>
    have hc : c ≠ '\n' := fun e => h (e ▸ List.mem_cons_self)
    have hl : OneLine l := fun hm => h (List.mem_cons_of_mem _ hm)
    rw [sourceLines, if_neg hc]
    cases l with
    | nil => rfl
    | cons d l => rw [ih hl (by simp)]

end Text

namespace Line

/-- Whether a line shows a text: it is the text, with or without a line feed behind it. -/
def Shows (l : Line) (t : Text) : Prop := l.text = t ∨ l.text = t ++ ['\n']

/-- Whether lines show texts, line by line. -/
def Spell (ls : List Line) (ts : List Text) : Prop := List.Forall₂ Shows ls ts

/-- A line shows its text with or without a line feed behind it. -/
theorem Shows.exists_lineFeed {l : Line} {t : Text} (h : l.Shows t) :
    ∃ e : Text, (e = [] ∨ e = ['\n']) ∧ l.text = t ++ e := by
  rcases h with h | h
  · exact ⟨[], .inl rfl, by rw [h, List.append_nil]⟩
  · exact ⟨['\n'], .inr rfl, h⟩

/-- A line shows its text with nothing but line feeds behind it. -/
theorem Shows.exists_end {l : Line} {t : Text} (h : l.Shows t) :
    ∃ e : Text, l.text = t ++ e ∧ ∀ c ∈ e, c = '\n' := by
  obtain ⟨e, he, hl⟩ := h.exists_lineFeed
  refine ⟨e, hl, ?_⟩
  rcases he with rfl | rfl <;> simp

/-- The source lines of joined lines spell the lines. -/
theorem spell_numberFrom_sourceLines {ts : List Text} (h : ∀ t ∈ ts, t.OneLine)
    (hlast : ∀ t ∈ ts.getLast?, t ≠ []) (n : Nat) :
    Spell (numberFrom n (Text.sourceLines (Text.joinLines ts))) ts := by
  induction ts generalizing n with
  | nil => exact .nil
  | cons t ts ih =>
    have ht : t.OneLine := h t (by simp)
    cases ts with
    | nil =>
      rw [Text.joinLines_singleton, Text.sourceLines_of_oneLine ht (hlast t (by simp))]
      exact .cons (.inl rfl) .nil
    | cons u us =>
      rw [Text.joinLines_cons_cons, Text.sourceLines_append_lineFeed ht]
      exact .cons (.inr rfl)
        (ih (fun t hm => h t (List.mem_cons_of_mem _ hm)) (by simpa using hlast) (n + 1))

/-- The lines of a document spell the lines that were joined. -/
theorem spell_ofText_joinLines {ts : List Text} (h : ∀ t ∈ ts, t.OneLine)
    (hlast : ∀ t ∈ ts.getLast?, t ≠ []) : Spell (ofText (Text.joinLines ts)) ts :=
  spell_numberFrom_sourceLines h hlast 1

/-- A line feed behind the last line makes no further line. -/
theorem spell_ofText_lineFeed {ts : List Text} (h : ∀ t ∈ ts, t.OneLine) :
    Spell (ofText (Text.joinLines (ts ++ [[]]))) ts := by
  have key : ∀ n, Spell (numberFrom n (Text.sourceLines (Text.joinLines (ts ++ [[]])))) ts := by
    induction ts with
    | nil => exact fun n => .nil
    | cons t ts ih =>
      intro n
      rw [List.cons_append, Text.joinLines_cons (by simp),
        Text.sourceLines_append_lineFeed (h t (by simp))]
      exact .cons (.inr rfl) (ih (fun u hu => h u (List.mem_cons_of_mem _ hu)) (n + 1))
  exact key 1

/-- Lines that spell two lists of texts spell one and then the other. -/
theorem Spell.append_inv {ls : List Line} {ts us : List Text} (h : Spell ls (ts ++ us)) :
    ∃ ls₁ ls₂, ls = ls₁ ++ ls₂ ∧ Spell ls₁ ts ∧ Spell ls₂ us := by
  induction ts generalizing ls with
  | nil => exact ⟨[], ls, rfl, .nil, h⟩
  | cons t ts ih =>
    cases h with
    | cons hl hrest =>
      obtain ⟨ls₁, ls₂, rfl, h₁, h₂⟩ := ih hrest
      exact ⟨_ :: ls₁, ls₂, rfl, .cons hl h₁, h₂⟩

end Line

end FeatureTree
