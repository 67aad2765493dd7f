import FeatureTree.Proofs.Lists
import FeatureTree.Proofs.Relayout.Levels

/-!
# Blocks of lines that are edited

What an edit does to a few lines that stand together, for readers on a level in front of them: a
blank line that comes or goes, tags that move between tag lines, and a doc string behind other
indentation.

## Main results

* `ParseState.Level.blank_right`: a blank line more
* `ParseState.Level.tags`: tags on other lines
* `ParseState.Trace.deeper`: a doc string behind other indentation
-/

namespace FeatureTree

open Dialect (english)

/-! ### Blank lines -/

namespace State

/-- A blank line that is outside of doc strings leads nowhere. -/
theorem find?_blank : ∀ place ∈ all, place.inText = false → place ≠ .done →
    (place.entries.find? fun e => e.kind = .empty || e.kind = .other).any (·.next = place)
      = true := by
  decide

end State

namespace Reading

variable {l : Line} {rest ls : List Line}

/-- A blank line is read as such, or as free text. -/
theorem accepts?_blank (hl : l.text.isAllBlank = true) (kind : TokenKind) :
    plain.accepts? l kind = some (kind = .empty || kind = .other) := by
  have htrimmed : l.trimmed = [] := Text.trimStart_eq_nil_iff.mpr (Text.isAllBlank_iff.mp hl)
  have honly := only_empty (r := plain) (l := l) (Dialect.distinct_of_mem Dialect.english_mem) rfl
    htrimmed
  by_cases hempty : kind = .empty
  · rw [hempty, accepts?_of_reads honly.reads]
    rfl
  · by_cases hother : kind = .other
    · rw [hother]
      rfl
    · rw [accepts?_of_refuses (honly.refuses kind hempty hother)]
      simp [hempty, hother]

/-- A blank line is taken by the first entry for blank lines or free text. -/
theorem chosen?_blank (hl : l.text.isAllBlank = true) {es : List Entry}
    (hes : ∀ e ∈ es, (e.kind = .empty || e.kind = .other) = true → e.ahead = none) :
    plain.chosen? l rest es = some (es.find? fun e => e.kind = .empty || e.kind = .other) := by
  induction es with
  | nil => rfl
  | cons e es ih =>
    rw [chosen?, accepts?_blank hl, List.find?_cons]
    cases hkind : (decide (e.kind = .empty) || decide (e.kind = .other)) with
    | true => simp only [hes e List.mem_cons_self hkind]
    | false => exact ih fun e he => hes e (List.mem_cons_of_mem _ he)

/-- A reader that looks ahead does not see blank lines. -/
theorem sameAhead_blank (hl : l.text.isAllBlank = true) (ls : List Line) :
    plain.SameAhead ls (l :: ls) := by
  refine .cons_of_skips (fun kind hkind => ?_) ?_ ls
  · rw [accepts?_blank hl]
    revert kind
    decide
  · rw [skips?, accepts?_blank hl]
    rfl

end Reading

namespace ParseState

variable {s s' t : ParseState} {l l' : Line} {ls ls' rest rest' : List Line} {ms : List Marked}
  {e : Entry} {token : Token} {xs ys : List Text}

/-- A blank line outside of doc strings is taken by an entry that leads nowhere. -/
theorem exists_blank (hs : s.InEnglish) (htext : s.place.inText = false) (hdone : s.place ≠ .done)
    (hl : l.text.isAllBlank = true) (rest : List Line) : ∃ e token,
      s.reading.chosen? l rest s.place.entries = some (some e)
        ∧ s.reading.token? l e.kind = .ok (some token) ∧ e.next = s.place
        ∧ (s.place.role e.kind).isFree = true ∧ s.reading.after l token = s.reading
        ∧ (token = .empty ∨ ∃ text, token = .other text) := by
  have hplain : s.reading = .plain := hs.reading_eq htext
  have halone : ∀ e ∈ s.place.entries, (e.kind = .empty || e.kind = .other) = true →
      e.ahead = none := by
    intro e he hkind
    cases hahead : e.ahead with
    | none => rfl
    | some kind =>
      rw [(State.ahead_of_mem_entries he hahead).1] at hkind
      cases hkind
  have hchosen : Reading.plain.chosen? l rest s.place.entries = some (s.place.entries.find? _) :=
    Reading.chosen?_blank hl halone
  have hfind := State.find?_blank s.place s.place.mem_all htext hdone
  cases he : s.place.entries.find? fun e => e.kind = .empty || e.kind = .other with
  | none =>
    rw [he] at hfind
    cases hfind
  | some e =>
    rw [he] at hfind hchosen
    have hkind := List.find?_some he
    simp only [Bool.or_eq_true, decide_eq_true_eq] at hkind
    have hnext : e.next = s.place := by simpa using hfind
    rw [hplain]
    rcases hkind with hkind | hkind
    · have haccepts : Reading.plain.accepts? l e.kind = some true := by
        rw [Reading.accepts?_blank hl, hkind]
        rfl
      obtain ⟨token, htoken⟩ := Reading.exists_token_of_accepts? haccepts
      have htoken' : token.kind = .empty := (Reading.kind_of_token? htoken).trans hkind
      refine ⟨e, token, hchosen, htoken, hnext, by rw [hkind]; rfl, ?_⟩
      cases token <;> cases htoken'
      exact ⟨rfl, .inl rfl⟩
    · obtain ⟨text, htoken⟩ := Reading.plain.token?_other_isSome l
      refine ⟨e, .other text, hchosen, by rw [hkind, htoken], hnext, ?_, rfl, .inr ⟨text, rfl⟩⟩
      rw [hkind, State.role, htext]
      rfl

/-- A blank line more, outside of doc strings, leaves readers on a level. -/
theorem Level.blank_right (h : Level s s' xs ys) (htext : s.place.inText = false)
    (hdone : s.place ≠ .done) (hl : l.text.isAllBlank = true) (rest : List Line) :
    ∃ role t', role.isFree = true ∧ Trace rest s' [l] [⟨role, l.text⟩] t'
      ∧ t'.reading = s'.reading ∧ Level s t' xs (descriptionBehind ys [⟨role, l.text⟩]) := by
  rw [← h.place] at htext hdone
  obtain ⟨e, token, hchosen, hreads, hnext, hfree, hafter, htoken⟩ :=
    exists_blank h.right htext hdone hl rest
  have he := mem_of_chosen? hchosen
  have hreading : (s'.goes l e.next token).reading = s'.reading := hafter
  have henglish : (s'.goes l e.next token).reading.dialect = english := by
    rw [hreading]
    exact h.right.english
  refine ⟨s'.place.role e.kind, s'.goes l e.next token, hfree, ?_, hreading, ?_⟩
  · refine .cons hchosen hreads ?_ henglish (.nil _)
    rw [hnext]
    exact leave_self
  · refine ⟨h.left, h.right.goes he hreads henglish, hnext.trans h.place, ?_⟩
    rw [descriptionBehind_eq_freeText h.right he hreads hfree]
    have halike := h.document
    rw [← h.place] at halike ⊢
    simp only [ParseState.goes, hnext]
    refine halike.take_right ?_ _ l htoken
    rintro text rfl
    refine State.describes_of_description he ?_
    rw [← Reading.kind_of_token? hreads, Token.kind, State.role, htext]
    rfl

namespace Trace

/-- Lines lead a reader along one trace. -/
theorem unique {ms' : List Marked} {t' : ParseState} (h : Trace rest s ls ms t)
    (h' : Trace rest s ls ms' t') : ms = ms' ∧ t = t' := by
  induction h generalizing ms' with
  | nil s =>
    cases h'
    exact ⟨rfl, rfl⟩
  | cons chosen reads leaves english tail ih =>
    cases h' with
    | cons chosen' reads' leaves' english' tail' =>
      rw [chosen] at chosen'
      cases chosen'
      rw [reads] at reads'
      cases reads'
      obtain ⟨rfl, rfl⟩ := ih tail'
      exact ⟨rfl, rfl⟩

end Trace

end ParseState

/-! ### Tags -/

namespace Reading

variable {l : Line} {names : List Text}

/-- A line of tags can be read as those tags and in no other way. -/
theorem only_hasTags (h : l.text.HasTags names) :
    ∃ tags, plain.Only l .tagLine (.tagLine tags) ∧ tags.map (·.2) = names := by
  obtain ⟨tags, htags, hnames⟩ := h
  have htoken : plain.token? l .tagLine = .ok (some (.tagLine tags)) := by
    have hline : l.tags? = .ok (some tags) := htags
    simp only [token?, hline]
    rfl
  exact ⟨tags, only_of_mark rfl rfl (.inl ⟨rfl, rfl⟩) (head?_of_tagLine htoken) htoken, hnames⟩

/-- A reader that looks ahead does not see tag lines. -/
theorem sameAhead_tags {ls : List Line} (h : ∀ l ∈ ls, ∃ names, l.text.HasTags names)
    (rest : List Line) : plain.SameAhead rest (ls ++ rest) := by
  induction ls with
  | nil => exact .refl _ _
  | cons l ls ih =>
    obtain ⟨names, hl⟩ := h l List.mem_cons_self
    obtain ⟨tags, honly, -⟩ := only_hasTags hl
    have hrefuse : ∀ kind, kind ≠ .tagLine → kind ≠ .other → plain.accepts? l kind = some false :=
      fun kind hne hother => accepts?_of_refuses (honly.refuses kind hne hother)
    refine (ih fun l hl => h l (List.mem_cons_of_mem _ hl)).trans (.cons_of_skips ?_ ?_ _)
    · intro kind hkind
      refine hrefuse kind ?_ ?_ <;> rintro rfl <;> revert hkind <;> decide
    · rw [skips?, hrefuse .empty (by decide) (by decide), hrefuse .comment (by decide) (by decide),
        accepts?_of_reads honly.reads]

end Reading

namespace Ast

/-- The gist of a document with tags more. -/
theorem Document.gist_take_tags (d : Document) (language : Text) (l : Line) (here next : State)
    (tags : List (Nat × Text)) : (d.take language l here next (.tagLine tags)).gist
      = d.gist.withTags (d.gist.tags ++ (tags.map (·.2)).map (Tag.mk default)) := by
  simp [take, gist, withTags, Tag.gist, Function.comp_def]

end Ast

namespace ParseState

variable {s s' t : ParseState} {l l' : Line} {ls ls' rest rest' : List Line} {ms : List Marked}
  {e : Entry} {token : Token} {xs ys names : List Text}

/-- A reader with some tags more than another one. -/
structure Tagged (s t : ParseState) (names : List Text) : Prop where
  reading : t.reading = s.reading
  gist : t.document.gist
    = s.document.gist.withTags (s.document.gist.tags ++ names.map (Ast.Tag.mk default))

/-- Tags of some lines and of those behind them wait together. -/
theorem Tagged.trans {s t u : ParseState} {names names' : List Text} (h : s.Tagged t names)
    (h' : t.Tagged u names') : s.Tagged u (names ++ names') where
  reading := h'.reading.trans h.reading
  gist := by
    rw [h'.gist, h.gist, List.map_append, ← List.append_assoc]
    rfl

/-- A tag line takes the reader to a place for tags, with its tags. -/
theorem goes_tags (hs : s.InEnglish) (he : e ∈ s.place.entries) (hkind : e.kind = .tagLine)
    (hl : l.text.HasTags names) : ∃ token, s.reading.token? l e.kind = .ok (some token)
      ∧ (s.goes l e.next token).reading.dialect = english ∧ s.Tagged (s.goes l e.next token) names
      ∧ (s.goes l e.next token).InEnglish := by
  have htext : s.place.inText = false :=
    State.inText_eq_false_of_role he (by
      rw [hkind]
      exact ⟨fun h => (by cases h), fun h => by cases h⟩)
  obtain ⟨tags, honly, hnames⟩ := Reading.only_hasTags hl
  have hreads : s.reading.token? l e.kind = .ok (some (.tagLine tags)) := by
    rw [hs.reading_eq htext, hkind]
    exact honly.reads
  have henglish : (s.goes l e.next (.tagLine tags)).reading.dialect = english := hs.english
  refine ⟨.tagLine tags, hreads, henglish, ⟨rfl, ?_⟩, hs.goes he hreads henglish⟩
  rw [← hnames]
  exact s.document.gist_take_tags (s.reading.after l (.tagLine tags)).dialect.name l s.place e.next
    tags

/-- Lines of tags, at a place for tags, stay there. -/
theorem trace_tags (hs : s.InEnglish)
    (hplace : s.place.entries.head? = some (State.on .tagLine s.place)) {parts : List (List Text)}
    (hls : List.Forall₂ (fun l names => l.text.HasTags names) ls parts) (rest : List Line) :
    ∃ t, Trace rest s ls (ls.map fun l => ⟨.tags, l.text⟩) t ∧ t.place = s.place
      ∧ s.Tagged t parts.flatten := by
  induction hls generalizing s with
  | nil =>
    refine ⟨s, .nil s, rfl, rfl, ?_⟩
    rw [List.flatten_nil, List.map_nil, List.append_nil]
    rfl
  | @cons l names ls parts hl hls ih =>
    obtain ⟨es, hes⟩ : ∃ es, s.place.entries = State.on .tagLine s.place :: es := by
      cases hentries : s.place.entries with
      | nil =>
        rw [hentries] at hplace
        cases hplace
      | cons e es =>
        rw [hentries] at hplace
        exact ⟨es, by rw [Option.some.inj hplace]⟩
    have he : State.on .tagLine s.place ∈ s.place.entries := by
      rw [hes]
      exact List.mem_cons_self
    obtain ⟨token, hreads, henglish, htagged, hnext⟩ := goes_tags hs he rfl hl
    obtain ⟨t, htrace, hend, htagged'⟩ := ih hnext hplace
    refine ⟨t, ?_, hend, htagged.trans htagged'⟩
    have hchosen : s.reading.chosen? l (ls ++ rest) s.place.entries
        = some (some (State.on .tagLine s.place)) := by
      rw [hes, Reading.chosen?, Reading.accepts?_of_reads hreads]
      rfl
    exact .cons hchosen hreads leave_self henglish htrace

/-- Lines of tags that begin at any place. -/
theorem trace_tags_begin (hs : s.InEnglish)
    (hchosen : s.reading.chosen? l (ls ++ rest) s.place.entries = some (some e))
    (hkind : e.kind = .tagLine) (hleave : s.leave e.next = s) (hl : l.text.HasTags names)
    {parts : List (List Text)}
    (hls : List.Forall₂ (fun l names => l.text.HasTags names) ls parts) :
    ∃ t, Trace rest s (l :: ls) ((l :: ls).map fun l => ⟨.tags, l.text⟩) t ∧ t.place = e.next
      ∧ s.Tagged t (names ++ parts.flatten) := by
  have he := mem_of_chosen? hchosen
  obtain ⟨token, hreads, henglish, htagged, hnext⟩ := goes_tags hs he hkind hl
  obtain ⟨hplace, -⟩ := State.head?_entries_of_tagLine he hkind
  obtain ⟨t, htrace, hend, htagged'⟩ := trace_tags hnext hplace hls rest
  refine ⟨t, ?_, hend, htagged.trans htagged'⟩
  have hrole : s.place.role e.kind = .tags := by
    rw [hkind]
    rfl
  have hstep := Trace.cons hchosen hreads hleave henglish htrace
  rwa [hrole] at hstep

/-- Each of some lines that have tags has tags. -/
theorem exists_hasTags (h : HaveTags (ls.map (·.text)) names) :
    ∀ l ∈ ls, ∃ names, l.text.HasTags names := by
  obtain ⟨parts, hparts, -⟩ := h
  intro l hl
  obtain ⟨names, -, hnames⟩ := exists_right_of_forall₂ (List.forall₂_map_left_iff.mp hparts) hl
  exact ⟨names, hnames⟩

/-- The first line of tags has the first of them, and the others have the rest. -/
theorem haveTags_cons (h : HaveTags ((l :: ls).map (·.text)) names) : ∃ first parts,
    l.text.HasTags first ∧ List.Forall₂ (fun l names => l.text.HasTags names) ls parts
      ∧ names = first ++ parts.flatten := by
  obtain ⟨parts, hparts, rfl⟩ := h
  rw [List.forall₂_map_left_iff] at hparts
  cases hparts with
  | cons hl hls => exact ⟨_, _, hl, hls, rfl⟩

/-- Tags on other lines leave readers on a level, behind them. -/
theorem Level.tags (h : Level s s' xs ys) (hnormal : Text.normalLines xs = Text.normalLines ys)
    (htrace : Trace rest s ls ms t) (hroles : ∀ m ∈ ms, m.role = .tags) (hne : ls ≠ [])
    (hhad : HaveTags (ls.map (·.text)) names) (hne' : ls' ≠ [])
    (hhave : HaveTags (ls'.map (·.text)) names) (hahead : Reading.plain.SameAhead rest rest') :
    ∃ t', Trace rest' s' ls' (ls'.map fun l => ⟨.tags, l.text⟩) t' ∧ Level t t' [] []
      ∧ t'.reading = t.reading := by
  have hgist := h.document.gist_eq hnormal
  cases htrace with
  | nil => exact absurd rfl hne
  | @cons s t l ls e token ms chosen reads leaves english tail =>
    obtain ⟨l', ls', rfl⟩ := List.exists_cons_of_ne_nil hne'
    have he := mem_of_chosen? chosen
    have hkind := State.kind_of_role_tags (hroles _ List.mem_cons_self)
    have htext : s.place.inText = false := State.inText_eq_false_of_role he (by
      rw [hkind]
      exact ⟨fun h => (by cases h), fun h => by cases h⟩)
    obtain ⟨hplain, hplain'⟩ := h.reading_eq htext
    obtain ⟨first, parts, hl, hls, rfl⟩ := haveTags_cons hhad
    obtain ⟨first', parts', hl', hls', hnames⟩ := haveTags_cons hhave
    obtain ⟨_, honly, -⟩ := Reading.only_hasTags hl
    obtain ⟨_, honly', -⟩ := Reading.only_hasTags hl'
    have hsame : Reading.plain.SameAhead (ls ++ rest) (ls' ++ rest') :=
      ((Reading.sameAhead_tags (fun k hk => exists_hasTags hhad k (by simp [hk])) rest).symm.trans
        hahead).trans
        (Reading.sameAhead_tags (fun k hk => exists_hasTags hhave k (by simp [hk])) rest')
    have hchosen' : s'.reading.chosen? l' (ls' ++ rest') s'.place.entries = some (some e) := by
      rw [← chosen]
      refine h.chosen ?_ hsame
      rw [hplain, hplain']
      exact honly.kin honly'
    obtain ⟨u, htrace, hplace, htagged⟩ := trace_tags_begin h.left chosen hkind leaves hl hls
    obtain ⟨u', htrace', hplace', htagged'⟩ :=
      trace_tags_begin h.right hchosen' hkind (h.leaves leaves) hl' hls'
    obtain ⟨-, rfl⟩ := htrace.unique (.cons chosen reads leaves english tail)
    refine ⟨u', htrace', ⟨htrace.inEnglish h.left, htrace'.inEnglish h.right,
      hplace'.trans hplace.symm, ?_⟩, ?_⟩
    · rw [hplace]
      refine .of_not_describes (State.head?_entries_of_tagLine he hkind).2.1 ?_ [] []
      rw [htagged.gist, htagged'.gist, hgist, hnames]
    · rw [htagged.reading, htagged'.reading, hplain, hplain']

end ParseState

/-! ### Doc strings -/

namespace Line

variable {l l' : Line} {w : Text}

/-- What is blank in front of a line does not count once it is trimmed. -/
theorem trimmed_of_append (hw : ∀ c ∈ w, isBlank c = true) (h : l'.text = w ++ l.text) :
    l'.trimmed = l.trimmed := by
  rw [trimmed, trimmed, h, Text.trimStart_append_of_blank hw]

/-- What is blank in front of a line adds to its indentation. -/
theorem indent_of_append (hw : ∀ c ∈ w, isBlank c = true) (h : l'.text = w ++ l.text) :
    l'.indent = w.length + l.indent := by
  have hlen : (Text.trimStart l.text).length ≤ l.text.length :=
    (List.dropWhile_suffix isBlank).length_le
  have htrim : Text.trimStart l'.text = Text.trimStart l.text := trimmed_of_append hw h
  rw [indent, indent, Text.indentOf, Text.indentOf, htrim, h, List.length_append]
  omega

/-- A line of a doc string loses the indentation that all lines of the doc string have more. -/
theorem fencedText_of_append (hw : ∀ c ∈ w, isBlank c = true) (h : l'.text = w ++ l.text)
    (mark : Text) (i : Nat) : l'.fencedText ⟨mark, w.length + i⟩ = l.fencedText ⟨mark, i⟩ := by
  have hdrop : l'.text.drop (w.length + i) = l.text.drop i := by
    rw [h, ← List.drop_drop, List.drop_left]
  simp only [fencedText, indent_of_append hw h, trimmed_of_append hw h, hdrop,
    gt_iff_lt, Nat.add_lt_add_iff_left]

end Line

namespace Reading

/-- Whether two readings are the same, but for a doc string that is open with more indentation in
the second. -/
def Deeper (k : Nat) (r r' : Reading) : Prop :=
  r'.dialect = r.dialect
    ∧ r'.fence = r.fence.map fun fence => { fence with indent := k + fence.indent }

variable {r r' : Reading} {l l' : Line} {w : Text} {kind : TokenKind} {token token' : Token}

/-- A line with other indentation is read as the same kinds of token. -/
theorem kin_of_trimmed_eq (hdialect : r'.dialect = r.dialect)
    (hmark : r'.fence.map (·.mark) = r.fence.map (·.mark)) (h : l'.trimmed = l.trimmed) :
    r.Kin l r' l' := by
  intro kind
  by_cases hother : kind = .other
  · rw [hother]
    rfl
  · rw [accepts?_eq, accepts?_eq, sees_of_trimmed hdialect hmark h hother]

namespace Deeper

/-- A reader in no doc string is as deep as itself, whatever the depth. -/
theorem refl_of_fence (k : Nat) (h : r.fence = none) : Deeper k r r := ⟨rfl, by rw [h]; rfl⟩

/-- Readers at different depths wait for the same fence. -/
theorem mark_eq {k : Nat} (h : Deeper k r r') : r'.fence.map (·.mark) = r.fence.map (·.mark) := by
  rw [h.2, Option.map_map]
  rfl

/-- In a doc string, a line with as much indentation more says the same. -/
theorem stands (h : Deeper w.length r r') (hw : ∀ c ∈ w, isBlank c = true)
    (hl : l'.text = w ++ l.text) (hkind : kind = .other → r.fence ≠ none) :
    Stands kind r l r' l' := by
  have htrimmed := Line.trimmed_of_append hw hl
  refine ⟨kin_of_trimmed_eq h.1 h.mark_eq htrimmed, ?_⟩
  by_cases hother : kind = .other
  · obtain ⟨fence, hf⟩ := Option.ne_none_iff_exists'.mp (hkind hother)
    have hf' := h.2
    rw [hf] at hf'
    rw [hother]
    simp only [sees, token?, hf, hf', Option.map_some, Line.fencedText_of_append hw hl]
  · exact sees_of_trimmed h.1 h.mark_eq htrimmed hother

/-- Readers at different depths stay so behind lines that say the same. -/
theorem after (h : Deeper w.length r r') (hw : ∀ c ∈ w, isBlank c = true)
    (hl : l'.text = w ++ l.text) (hgist : token.gist = token'.gist) :
    Deeper w.length (r.after l token) (r'.after l' token') := by
  cases token with
  | docStringSeparator mark mediaType =>
    cases token' <;> cases hgist
    have hf' := h.2
    cases hf : r.fence with
    | none =>
      rw [hf] at hf'
      simp only [Reading.after, hf, hf', Option.map_none]
      exact ⟨h.1, by rw [Line.indent_of_append hw hl]; rfl⟩
    | some fence =>
      rw [hf] at hf'
      simp only [Reading.after, hf, hf', Option.map_some]
      exact ⟨h.1, rfl⟩
  | language name =>
    cases token' <;> cases hgist
    exact ⟨by simp only [Reading.after, h.1], h.2⟩
  | _ => cases token' <;> first | exact h | cases hgist

end Deeper

end Reading

namespace ParseState

variable {s s' t : ParseState} {ls ls' rest rest' : List Line} {ms : List Marked}
  {xs ys : List Text} {w : Text}

/-- A reader that looks ahead at lines with other indentation sees the same. -/
theorem sameAhead_of_append (hw : ∀ c ∈ w, isBlank c = true)
    (hlines : List.Forall₂ (fun l l' : Line => l'.text = w ++ l.text) ls ls')
    (hahead : Reading.plain.SameAhead rest rest') :
    Reading.plain.SameAhead (ls ++ rest) (ls' ++ rest') := by
  induction hlines with
  | nil => exact hahead
  | cons hl hls ih =>
    exact .cons (Reading.kin_of_trimmed_eq rfl rfl (Line.trimmed_of_append hw hl)) ih

/-- The lines of a doc string with as much indentation more leave readers on a level. -/
theorem Trace.deeper (h : Trace rest s ls ms t) (hw : ∀ c ∈ w, isBlank c = true)
    (hroles : ∀ m ∈ ms, m.role = .opening ∨ m.role = .content ∨ m.role = .closing)
    (hlines : List.Forall₂ (fun l l' : Line => l'.text = w ++ l.text) ls ls')
    (hlevel : Level s s' xs ys) (hdeeper : Reading.Deeper w.length s.reading s'.reading)
    (hnormal : Text.normalLines xs = Text.normalLines ys)
    (hahead : Reading.plain.SameAhead rest rest') :
    ∃ t', Trace rest' s' ls' (remark ms (ls'.map (·.text))) t'
      ∧ Level t t' (descriptionBehind xs ms)
        (descriptionBehind ys (remark ms (ls'.map (·.text))))
      ∧ Reading.Deeper w.length t.reading t'.reading
      ∧ Text.normalLines (descriptionBehind xs ms)
        = Text.normalLines (descriptionBehind ys (remark ms (ls'.map (·.text)))) := by
  induction h generalizing xs ys ls' s' with
  | nil s =>
    cases hlines
    exact ⟨s', .nil s', hlevel, hdeeper, hnormal⟩
  | @cons s t l ls e token ms chosen reads leaves english tail ih =>
    cases hlines with
    | @cons _ l' _ ls' hl hls =>
      have he := mem_of_chosen? chosen
      have hrole : s.place.role e.kind = .opening ∨ s.place.role e.kind = .content
          ∨ s.place.role e.kind = .closing := hroles _ List.mem_cons_self
      have hfree : (s.place.role e.kind).isFree = false := by
        rcases hrole with h | h | h <;> rw [h] <;> rfl
      have hother : e.kind = .other → s.reading.fence ≠ none := by
        intro hkind hnone
        have htext := hlevel.left.fence
        rw [hnone, Option.isSome_none] at htext
        rw [hkind, State.role, ← htext] at hrole
        rcases hrole with h | h | h <;> cases h
      have hstands := hdeeper.stands hw hl hother
      obtain ⟨token', hreads', hgist⟩ := Reading.exists_token_of_sees_eq hstands.sees reads
      have hchosen := hlevel.chosen hstands.kin (sameAhead_of_append hw hls hahead)
      obtain ⟨henglish', hnext⟩ := hlevel.goes he reads english hreads' (fun _ => hgist)
        fun _ => hnormal
      have hroles' := fun m hm => hroles m (List.mem_cons_of_mem _ hm)
      obtain ⟨t', htrace, hend, hdeep, hlast⟩ := ih hroles'
        hls hnext (hdeeper.after hw hl hgist) (by
          rw [descriptionBehind_of_not_free hfree, descriptionBehind_of_not_free hfree])
      have hremark : remark (⟨s.place.role e.kind, l.text⟩ :: ms) ((l' :: ls').map (·.text))
          = ⟨s.place.role e.kind, l'.text⟩ :: remark ms (ls'.map (·.text)) := rfl
      rw [hremark, descriptionBehind_cons xs, descriptionBehind_cons ys]
      refine ⟨t', ?_, hend, hdeep, hlast⟩
      rw [chosen] at hchosen
      rw [← hlevel.place]
      exact .cons hchosen hreads' (hlevel.leaves leaves) henglish' htrace

end ParseState

end FeatureTree
