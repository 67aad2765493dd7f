import FeatureTree.Proofs.Gherkin.Choices
import FeatureTree.Proofs.Relayout.Gist
import Mathlib.Data.List.Find

/-!
# Lines with other blanks

What a line says as a token of a kind, columns apart, is what it is `Reading.sees`. It depends on
the line without its end, and for everything but free text on the line without its indentation.

## Main results

* `Reading.sees_of_trimmed`: indentation makes no difference outside of free text
* `Reading.sees_of_withoutEnd_eq`: the end of a line makes no difference
-/

namespace FeatureTree

open Dialect (english)

/-! ### What a line says -/

namespace Line

/-- The tags between one `@` and the next, if none holds a blank. -/
def namesOf : List Text → Option (List Text)
  | [] => some []
  | piece :: rest =>
    if piece.trim.any isBlank then none else (namesOf rest).map (('@' :: piece.trim) :: ·)

/-- The tags of a line, wherever it begins. -/
theorem tagsFrom_eq (pieces : List Text) (column : Nat) :
    (∀ names, namesOf pieces = some names →
        ∃ tags, tagsFrom column pieces = .ok tags ∧ tags.map (·.2) = names)
      ∧ (namesOf pieces = none → ∃ fault, tagsFrom column pieces = .error fault) := by
  induction pieces generalizing column with
  | nil => exact ⟨fun names h => ⟨[], rfl, by cases h; rfl⟩, fun h => by cases h⟩
  | cons piece rest ih =>
    obtain ⟨hsome, hnone⟩ := ih (column + piece.length + 1)
    rw [namesOf, tagsFrom]
    cases piece.trim.any isBlank with
    | true =>
      exact ⟨fun names h => (by cases h), fun _ => ⟨_, rfl⟩⟩
    | false =>
      simp only [Bool.false_eq_true, if_false]
      refine ⟨fun names h => ?_, fun h => ?_⟩
      · obtain ⟨names, hnames, rfl⟩ := Option.map_eq_some_iff.mp h
        obtain ⟨tags, htags, rfl⟩ := hsome names hnames
        exact ⟨(column, '@' :: piece.trim) :: tags, by rw [htags]; rfl, rfl⟩
      · obtain ⟨fault, hfault⟩ := hnone (Option.map_eq_none_iff.mp h)
        exact ⟨fault, by rw [hfault]; rfl⟩

end Line

namespace Reading

variable {r r' : Reading} {l l' : Line} {kind : TokenKind} {token token' : Token}

/-- What a line says as a token of a kind, or nothing if it is faulty as one. -/
def sees (r : Reading) (l : Line) (kind : TokenKind) : Option (Option Token) :=
  match r.token? l kind with
  | .ok token => some (token.map Token.gist)
  | .error _ => none

/-- A line is accepted as a kind if something of the kind is seen in it. -/
theorem accepts?_eq : r.accepts? l kind = (r.sees l kind).map Option.isSome := by
  rw [accepts?, sees]
  cases r.token? l kind <;> simp

/-- What a line says does not depend on its number. -/
theorem sees_of_number (r : Reading) (n n' : Nat) (t : Text) (kind : TokenKind) :
    r.sees ⟨n, t⟩ kind = r.sees ⟨n', t⟩ kind := by
  cases kind <;> rfl

/-- A line that says the same is read as a token that says the same. -/
theorem exists_token_of_sees_eq (h : r'.sees l' kind = r.sees l kind)
    (ht : r.token? l kind = .ok (some token)) :
    ∃ token', r'.token? l' kind = .ok (some token') ∧ token.gist = token'.gist := by
  rw [sees, sees, ht] at h
  cases ht' : r'.token? l' kind with
  | error fault =>
    rw [ht'] at h
    cases h
  | ok t =>
    rw [ht'] at h
    obtain ⟨token', rfl, heq⟩ := Option.map_eq_some_iff.mp (Option.some.inj h)
    exact ⟨token', rfl, heq.symm⟩

/-- What a token does to the reading depends on what it says, and on the indentation of the line
that opens a doc string. -/
theorem after_eq (h : token.gist = token'.gist)
    (hindent : token.kind = .docStringSeparator → l'.indent = l.indent) :
    r.after l' token' = r.after l token := by
  cases token with
  | docStringSeparator mark mediaType =>
    cases token' <;> cases h
    rw [after, after, hindent rfl]
  | _ => cases token' <;> first | rfl | (cases h <;> rfl)

/-! ### Lines without their indentation -/

/-- A line of tags says what its names are. -/
theorem sees_tagLine : r.sees l .tagLine = if l.trimmed.head? = some '@' then
      (Line.namesOf (Text.splitAtChar '@' (Text.trim (Line.beforeComment l.trimmed.trim))).tail).map
        fun names => some (.tagLine (names.map fun name => (0, name)))
    else some none := by
  simp only [sees, token?, Line.tags?]
  by_cases hat : l.trimmed.head? = some '@'
  · rw [if_pos hat, if_pos hat]
    obtain ⟨hsome, hnone⟩ := Line.tagsFrom_eq
      (Text.splitAtChar '@' (Text.trim (Line.beforeComment l.trimmed.trim))).tail l.column
    cases hnames : Line.namesOf
        (Text.splitAtChar '@' (Text.trim (Line.beforeComment l.trimmed.trim))).tail with
    | none =>
      obtain ⟨fault, hfault⟩ := hnone hnames
      simp only [hfault, Except.map, Option.map_none]
    | some names =>
      obtain ⟨tags, htags, rfl⟩ := hsome names hnames
      simp [htags, Except.map, Token.gist, Function.comp_def]
  · rw [if_neg hat, if_neg hat]
    rfl

/-- A row says what the values of its cells are. -/
theorem sees_tableRow : r.sees l .tableRow = some (if l.trimmed.head? = some '|' then
      some (.tableRow ((Cell.pieces l.trimmed.trim).tail.dropLast.map
        fun piece => (0, Cell.trim (Cell.unescape piece))))
    else none) := by
  have hvalues : ∀ column row, (Cell.ofRow column row).map (fun p => (0, p.2))
      = (Cell.pieces row).tail.dropLast.map fun piece => (0, Cell.trim (Cell.unescape piece)) := by
    intro column row
    have := congrArg (List.map (Prod.mk 0))
      (Cell.values_withColumns (column + 1) (Cell.pieces row).tail.dropLast)
    rwa [List.map_map, List.map_map] at this
  simp only [sees, token?]
  split <;> simp [Token.gist, hvalues]

/-- A line is trimmed at its start and then at its end. -/
theorem trim_eq_trimEnd_trimmed : l.text.trim = l.trimmed.trimEnd := rfl

/-- Outside of free text, indentation makes no difference to what a line says. -/
theorem sees_of_trimmed (hdialect : r'.dialect = r.dialect)
    (hmark : r'.fence.map (·.mark) = r.fence.map (·.mark)) (ht : l'.trimmed = l.trimmed)
    (hkind : kind ≠ .other) : r'.sees l' kind = r.sees l kind := by
  have htrim : l'.text.trim = l.text.trim := by
    rw [trim_eq_trimEnd_trimmed, trim_eq_trimEnd_trimmed, ht]
  cases kind with
  | eof => rfl
  | empty => simp only [sees, token?, ht]
  | comment =>
    simp only [sees, token?, ht]
    split <;> rfl
  | tagLine => rw [sees_tagLine, sees_tagLine, ht]
  | tableRow => rw [sees_tableRow, sees_tableRow, ht]
  | featureLine | ruleLine | backgroundLine | scenarioLine | examplesLine =>
    simp only [sees, token?, Line.title?, ht, hdialect]
  | stepLine => simp only [sees, token?, ht, hdialect]
  | docStringSeparator =>
    cases hf : r.fence with
    | none =>
      rw [hf] at hmark
      have hf' : r'.fence = none := by simpa using hmark
      simp only [sees, token?, hf, hf', Line.openingFence?, ht]
    | some fence =>
      rw [hf] at hmark
      obtain ⟨fence', hf', heq⟩ := Option.map_eq_some_iff.mp hmark
      simp only [sees, token?, hf, hf', ht, heq]
  | language => simp only [sees, token?, Line.language?, htrim]
  | other => exact absurd rfl hkind

end Reading

/-! ### Lines without their end -/

namespace Line

/-- The end of a line is line feeds and carriage returns. -/
theorem exists_withoutEnd_append (t : Text) :
    ∃ e, t = withoutEnd t ++ e ∧ ∀ c ∈ e, c = '\r' ∨ c = '\n' := by
  obtain ⟨e, ht, he⟩ := Text.exists_dropEndWhile_append (fun c => c = '\r' || c = '\n') t
  exact ⟨e, ht, by simpa using he⟩

/-- What ends a line is no part of it. -/
theorem withoutEnd_append (t : Text) {e : Text} (he : ∀ c ∈ e, c = '\r' ∨ c = '\n') :
    withoutEnd (t ++ e) = withoutEnd t :=
  Text.dropEndWhile_append_of_all (by simpa using he)

/-- A line without its end has no end to be taken away. -/
theorem withoutEnd_withoutEnd (t : Text) : withoutEnd (withoutEnd t) = withoutEnd t := by
  obtain ⟨e, ht, he⟩ := exists_withoutEnd_append t
  conv_rhs => rw [ht, withoutEnd_append _ he]

/-- The end of a line is blank. -/
theorem blank_of_end {e : Text} (he : ∀ c ∈ e, c = '\r' ∨ c = '\n') :
    ∀ c ∈ e, isBlank c = true := fun c hc => by
  rcases he c hc with rfl | rfl <;> decide

/-- A line is blank if it is without its end. -/
theorem isAllBlank_withoutEnd (t : Text) : (withoutEnd t).isAllBlank = t.isAllBlank := by
  obtain ⟨e, ht, he⟩ := exists_withoutEnd_append t
  conv_rhs => rw [ht, Text.isAllBlank_append, Text.isAllBlank_iff.mpr (blank_of_end he),
    Bool.and_true]

/-- The line without its end. -/
def endless (l : Line) : Line := ⟨l.number, withoutEnd l.text⟩

variable (l : Line)

/-- Behind its indentation, a line and its end follow each other. -/
theorem trimmed_eq_append {e : Text} (ht : l.text = withoutEnd l.text ++ e)
    (hblank : l.endless.trimmed ≠ []) : l.trimmed = l.endless.trimmed ++ e := by
  rw [trimmed, Text.trimStart]
  conv_lhs => rw [ht]
  rw [List.dropWhile_append, if_neg]
  · rfl
  · rw [List.isEmpty_iff]
    exact hblank

/-- A trimmed line is empty if it is without its end. -/
theorem trimmed_endless_eq_nil_iff : l.endless.trimmed = [] ↔ l.trimmed = [] := by
  rw [trimmed, trimmed, Text.trimStart_eq_nil_iff, Text.trimStart_eq_nil_iff, ← Text.isAllBlank_iff,
    ← Text.isAllBlank_iff]
  exact Bool.eq_iff_iff.mp (isAllBlank_withoutEnd l.text)

/-- A trimmed line is the one without an end, with the end behind it. -/
theorem exists_trimmed_endless : ∃ e, l.trimmed = l.endless.trimmed ++ e
    ∧ (∀ c ∈ e, c = '\r' ∨ c = '\n') ∧ (l.endless.trimmed = [] → e = []) := by
  obtain ⟨e, ht, he⟩ := exists_withoutEnd_append l.text
  by_cases hblank : l.endless.trimmed = []
  · refine ⟨[], ?_, by simp, fun _ => rfl⟩
    rw [hblank, l.trimmed_endless_eq_nil_iff.mp hblank]
    rfl
  · exact ⟨e, l.trimmed_eq_append ht hblank, he, fun h => absurd h hblank⟩

/-- A line is the same once trimmed, with or without its end. -/
theorem trim_trimmed_endless : l.endless.trimmed.trim = l.trimmed.trim := by
  obtain ⟨e, ht, he, -⟩ := l.exists_trimmed_endless
  rw [ht, Text.trim_append_blank _ (blank_of_end he)]

/-- The text of a line is the same once trimmed, with or without its end. -/
theorem trim_text_endless : l.endless.text.trim = l.text.trim := by
  obtain ⟨e, ht, he⟩ := exists_withoutEnd_append l.text
  conv_rhs => rw [ht, Text.trim_append_blank _ (blank_of_end he)]
  rfl

/-- A trimmed line starts with the same character, with or without its end. -/
theorem head?_trimmed_endless : l.endless.trimmed.head? = l.trimmed.head? := by
  obtain ⟨e, ht, -, hnil⟩ := l.exists_trimmed_endless
  rw [ht]
  cases h : l.endless.trimmed with
  | nil => rw [hnil h]; rfl
  | cons c t => rfl

/-- A word that holds no line end starts a line exactly if it starts the line without its end. -/
theorem prefix_trimmed_endless_iff {w : Text} (hr : '\r' ∉ w) (hn : '\n' ∉ w) :
    w <+: l.endless.trimmed ↔ w <+: l.trimmed := by
  obtain ⟨e, ht, he, -⟩ := l.exists_trimmed_endless
  rw [ht]
  refine ⟨fun h => h.trans (List.prefix_append _ _), fun h => ?_⟩
  cases e with
  | nil => rwa [List.append_nil] at h
  | cons c e =>
    refine Text.prefix_of_prefix_append_cons h ?_
    rcases he c List.mem_cons_self with rfl | rfl
    · exact hr
    · exact hn

/-- What stands behind a word that starts a line is trimmed to the same without the end. -/
theorem trim_drop_endless {w : Text} (hr : '\r' ∉ w) (hn : '\n' ∉ w) (hw : w <+: l.trimmed) :
    Text.trim (l.endless.trimmed.drop w.length) = Text.trim (l.trimmed.drop w.length) := by
  have hlen := ((l.prefix_trimmed_endless_iff hr hn).mpr hw).length_le
  obtain ⟨e, ht, he, -⟩ := l.exists_trimmed_endless
  rw [ht, List.drop_append_of_le_length hlen, Text.trim_append_blank _ (blank_of_end he)]

/-- What a line of a doc string loses of its indentation, it loses without its end as well. -/
theorem exists_rest_endless (i : Nat) : ∃ e, (∀ c ∈ e, c = '\r' ∨ c = '\n')
    ∧ (if i > l.indent then l.trimmed else l.text.drop i)
      = (if i > l.endless.indent then l.endless.trimmed else l.endless.text.drop i) ++ e := by
  obtain ⟨e, ht, he⟩ := exists_withoutEnd_append l.text
  have htext : l.endless.text = withoutEnd l.text := rfl
  have hdrop : l.text.drop i = l.endless.text.drop i ++ e.drop (i - l.endless.text.length) := by
    conv_lhs => rw [ht]
    rw [List.drop_append, htext]
  by_cases hblank : l.endless.trimmed = []
  · -- both are blank, so that they are indented by their whole lengths
    have hindent : l.endless.indent = l.endless.text.length := by
      have hnil : Text.trimStart l.endless.text = [] := hblank
      rw [indent, Text.indentOf, hnil, List.length_nil, Nat.sub_zero]
    have hrest : (if i > l.endless.indent then l.endless.trimmed else l.endless.text.drop i)
        = l.endless.text.drop i := by
      split
      · next h => rw [hblank, List.drop_of_length_le (by omega)]
      · rfl
    rw [hrest]
    split
    · next h =>
      have hlen : l.endless.text.length ≤ l.text.length := by
        conv_rhs => rw [ht]
        simp [htext]
      have hindent' : l.indent = l.text.length := by
        have hnil : Text.trimStart l.text = [] := l.trimmed_endless_eq_nil_iff.mp hblank
        rw [indent, Text.indentOf, hnil, List.length_nil, Nat.sub_zero]
      refine ⟨[], by simp, ?_⟩
      rw [l.trimmed_endless_eq_nil_iff.mp hblank, List.drop_of_length_le (by omega)]
      rfl
    · exact ⟨_, fun c hc => he c (List.drop_subset _ _ hc), hdrop⟩
  · have htrimmed := l.trimmed_eq_append ht hblank
    have hindent : l.indent = l.endless.indent := by
      have hlen : l.text.length = l.endless.text.length + e.length := by
        conv_lhs => rw [ht]
        rw [List.length_append, htext]
      have hlen' : (Text.trimStart l.text).length
          = (Text.trimStart l.endless.text).length + e.length := by
        rw [← List.length_append]
        exact congrArg List.length htrimmed
      rw [indent, indent, Text.indentOf, Text.indentOf, hlen, hlen', Nat.add_sub_add_right]
    rw [hindent]
    split
    · exact ⟨e, he, htrimmed⟩
    · exact ⟨_, fun c hc => he c (List.drop_subset _ _ hc), hdrop⟩

/-- Inside a doc string the end of a line makes no difference to its text. -/
theorem fencedText_endless {fence : Fence} (hmark : Text.IsFence fence.mark) :
    l.endless.fencedText fence = l.fencedText fence := by
  obtain ⟨e, he, hrest⟩ := l.exists_rest_endless fence.indent
  have hescaped : escapedFence fence.mark ≠ [] ∧ '\r' ∉ escapedFence fence.mark
      ∧ '\n' ∉ escapedFence fence.mark := by
    rcases hmark with h | h <;> rw [h] <;> decide
  obtain ⟨hne, hr, hn⟩ := hescaped
  have hend : ∀ c ∈ e, c ∉ escapedFence fence.mark := fun c hc => by
    rcases he c hc with rfl | rfl
    · exact hr
    · exact hn
  have happend : ∀ t : Text, Text.replaceAll (escapedFence fence.mark) fence.mark (t ++ e)
      = Text.replaceAll (escapedFence fence.mark) fence.mark t ++ e := by
    intro t
    cases e with
    | nil => simp
    | cons c e =>
      have hkept : Text.replaceAll (escapedFence fence.mark) fence.mark (e ++ []) = e ++ [] :=
        Text.replaceAll_append_of_not_mem (fun d hd x hx heq =>
          hend d (List.mem_cons_of_mem _ hd) (heq ▸ List.mem_of_mem_head? hx)) hne []
      rw [Text.replaceAll_append_cons (hend c List.mem_cons_self) hne]
      simpa using hkept
  simp only [fencedText]
  rw [hrest, happend, withoutEnd_append _ he]

end Line

namespace Reading

variable {r : Reading}

/-- No word of English goes over the end of a line. -/
theorem not_mem_openers {kind : TokenKind} {w : Text} (h : w ∈ english.openers kind) :
    '\r' ∉ w ∧ '\n' ∉ w := by
  have key : ∀ kind ∈ TokenKind.openable, ∀ w ∈ english.openers kind, '\r' ∉ w ∧ '\n' ∉ w := by
    decide
  exact key kind (Dialect.mem_openable_of_mem_openers h) w h

/-- A line is the same title, with or without its end. -/
theorem title?_endless {kind : TokenKind} (hkind : kind ∈ TokenKind.titles) (l : Line) :
    l.endless.title? (english.titleWords kind) = l.title? (english.titleWords kind) := by
  have hword : ∀ k ∈ english.titleWords kind, '\r' ∉ k ++ [':'] ∧ '\n' ∉ k ++ [':'] := by
    intro k hk
    have hopens : k ++ [':'] ∈ english.openers kind := by
      rw [openers_title hkind]
      exact List.mem_map_of_mem hk
    exact not_mem_openers hopens
  have hfind : (english.titleWords kind).find? (fun k => (k ++ [':']).isPrefixOf l.endless.trimmed)
      = (english.titleWords kind).find? fun k => (k ++ [':']).isPrefixOf l.trimmed := by
    refine List.find?_congr fun k hk => ?_
    rw [Bool.eq_iff_iff, List.isPrefixOf_iff_prefix, List.isPrefixOf_iff_prefix]
    exact l.prefix_trimmed_endless_iff (hword k hk).1 (hword k hk).2
  rw [Line.title?, Line.title?, hfind]
  refine Option.map_congr fun k hk => ?_
  have hp := List.find?_some hk
  obtain ⟨hr, hn⟩ := hword k (List.mem_of_find?_eq_some hk)
  have hdrop := l.trim_drop_endless hr hn (List.isPrefixOf_iff_prefix.mp hp)
  rw [List.length_append] at hdrop
  exact congrArg (TitleLine.mk k) hdrop

/-- A line has the same step keyword, with or without its end. -/
theorem stepKeywordOf?_endless (l : Line) :
    english.stepKeywordOf? l.endless.trimmed = english.stepKeywordOf? l.trimmed := by
  have hsame : english.stepKeywords.filter (·.isPrefixOf l.endless.trimmed)
      = english.stepKeywords.filter (·.isPrefixOf l.trimmed) := by
    refine List.filter_congr fun w hw => ?_
    obtain ⟨hr, hn⟩ := @not_mem_openers .stepLine w hw
    rw [Bool.eq_iff_iff, List.isPrefixOf_iff_prefix, List.isPrefixOf_iff_prefix]
    exact l.prefix_trimmed_endless_iff hr hn
  rw [Dialect.stepKeywordOf?, Dialect.stepKeywordOf?, hsame]

/-- A line starts with the same fence, with or without its end. -/
theorem isPrefixOf_fence_endless {mark : Text} (hmark : Text.IsFence mark) (l : Line) :
    mark.isPrefixOf l.endless.trimmed = mark.isPrefixOf l.trimmed
      ∧ (mark <+: l.trimmed → Text.trim (l.endless.trimmed.drop mark.length)
        = Text.trim (l.trimmed.drop mark.length)) := by
  obtain ⟨hr, hn⟩ : '\r' ∉ mark ∧ '\n' ∉ mark := by
    rcases hmark with rfl | rfl <;> decide
  refine ⟨?_, l.trim_drop_endless hr hn⟩
  rw [Bool.eq_iff_iff, List.isPrefixOf_iff_prefix, List.isPrefixOf_iff_prefix]
  exact l.prefix_trimmed_endless_iff hr hn

/-- A line opens the same doc string, with or without its end. -/
theorem openingFence?_endless (l : Line) : l.endless.openingFence? = l.openingFence? := by
  have key : ∀ mark : Text, Text.IsFence mark →
      (if mark.isPrefixOf l.endless.trimmed then
          some (mark, Text.trim (l.endless.trimmed.drop mark.length)) else none)
        = if mark.isPrefixOf l.trimmed then
          some (mark, Text.trim (l.trimmed.drop mark.length)) else none := by
    intro mark hmark
    obtain ⟨hp, htrim⟩ := isPrefixOf_fence_endless hmark l
    rw [hp]
    split
    · next h => rw [htrim (List.isPrefixOf_iff_prefix.mp h)]
    · rfl
  simp only [Line.openingFence?]
  rw [key quoteFence (.inl rfl), key backtickFence (.inr rfl)]

/-- The end of a line makes no difference to what the line says in English. -/
theorem sees_endless (hdialect : r.dialect = english)
    (hmark : ∀ fence ∈ r.fence, Text.IsFence fence.mark) (l : Line) (kind : TokenKind) :
    r.sees l.endless kind = r.sees l kind := by
  by_cases hkind : kind ∈ TokenKind.titles
  · rw [sees, sees, token?_title hkind, token?_title hkind, hdialect, title?_endless hkind]
  cases kind with
  | eof => rfl
  | empty =>
    have hnil : l.endless.trimmed.isEmpty = l.trimmed.isEmpty := by
      rw [Bool.eq_iff_iff, List.isEmpty_iff, List.isEmpty_iff]
      exact l.trimmed_endless_eq_nil_iff
    simp only [sees, token?, hnil]
  | comment =>
    simp only [sees, token?, l.head?_trimmed_endless]
    split <;> rfl
  | tagLine =>
    rw [sees_tagLine, sees_tagLine, l.head?_trimmed_endless, l.trim_trimmed_endless]
  | tableRow =>
    rw [sees_tableRow, sees_tableRow, l.head?_trimmed_endless, l.trim_trimmed_endless]
  | featureLine | ruleLine | backgroundLine | scenarioLine | examplesLine =>
    exact absurd (by decide) hkind
  | stepLine =>
    simp only [sees, token?, hdialect, stepKeywordOf?_endless]
    cases hk : english.stepKeywordOf? l.trimmed with
    | none => rfl
    | some w =>
      obtain ⟨hw, hp⟩ := Dialect.mem_of_stepKeywordOf? hk
      obtain ⟨hr, hn⟩ := @not_mem_openers .stepLine w hw
      simp only [Option.map_some, l.trim_drop_endless hr hn (List.isPrefixOf_iff_prefix.mp hp)]
  | docStringSeparator =>
    cases hf : r.fence with
    | none => simp only [sees, token?, hf, openingFence?_endless]
    | some fence =>
      simp only [sees, token?, hf, (isPrefixOf_fence_endless (hmark fence hf) l).1]
  | language => simp only [sees, token?, Line.language?, l.trim_text_endless]
  | other =>
    cases hf : r.fence with
    | none =>
      have hend : Line.withoutEnd l.endless.text = Line.withoutEnd l.text :=
        Line.withoutEnd_withoutEnd l.text
      simp only [sees, token?, hf, hend]
    | some fence => simp only [sees, token?, hf, l.fencedText_endless (hmark fence hf)]

/-- Lines that differ in their ends say the same in English. -/
theorem sees_of_withoutEnd_eq (hdialect : r.dialect = english)
    (hmark : ∀ fence ∈ r.fence, Text.IsFence fence.mark) {l l' : Line}
    (h : Line.withoutEnd l'.text = Line.withoutEnd l.text) (kind : TokenKind) :
    r.sees l' kind = r.sees l kind := by
  rw [← sees_endless hdialect hmark l, ← sees_endless hdialect hmark l', Line.endless, Line.endless,
    h]
  exact (r.sees_of_number _ _ _ kind)

end Reading

end FeatureTree
