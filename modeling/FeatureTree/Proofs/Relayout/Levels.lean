import FeatureTree.Proofs.Relayout.Rewrites

/-!
# Two readers side by side

A reader goes over the lines of a text and another one over those of an edited text. They are on a
level if they stand at the same place with documents that are alike (`ParseState.Level`). A line
that is read as the same kinds of token and says the same takes both to a level again
(`ParseState.Level.goes`), and so do lines that are written again with other blanks
(`ParseState.Trace.rewritten`).

## Main results

* `ParseState.replaces_of_respaced`: a line with other blanks can stand for the line
* `ParseState.Level.goes`: what one line keeps
* `ParseState.Trace.rewritten`: what lines with other blanks keep
-/

namespace FeatureTree

open Dialect (english)

/-- The reading of the lines of an English text that are outside of doc strings. -/
def Reading.plain : Reading := ⟨english, none⟩

/-! ### Lines of roles -/

namespace State

variable {place : State} {e : Entry}

/-- What the role of a line tells of its place and of the kind of token that it is taken as. -/
theorem forall_entries_role : ∀ place ∈ all, ∀ e ∈ place.entries,
    (place.inText = true →
        e.ahead = none ∧ (place.role e.kind = .content ∨ place.role e.kind = .closing))
      ∧ (place.role e.kind = .title → e.kind ∈ TokenKind.titles)
      ∧ (e.next.inText = true → place.role e.kind = .opening ∨ place.role e.kind = .content)
      ∧ (e.next = .done → e.kind = .eof)
      ∧ (e.kind = .tagLine → e.next.entries.head? = some (on .tagLine e.next)
        ∧ e.next.describes = false ∧ e.next.inText = false) := by
  decide +kernel

/-- No description is being read in a table. -/
theorem describes_of_inTable (h : place.inTable = true) : place.describes = false := by
  have key : ∀ place ∈ all, place.inTable = true → place.describes = false := by decide
  exact key place place.mem_all h

/-- In a doc string nothing is looked for ahead. -/
theorem ahead_of_inText (he : e ∈ place.entries) (h : place.inText = true) : e.ahead = none :=
  ((forall_entries_role place place.mem_all e he).1 h).1

/-- What is neither content nor its end is in no doc string. -/
theorem inText_eq_false_of_role (he : e ∈ place.entries)
    (h : place.role e.kind ≠ .content ∧ place.role e.kind ≠ .closing) : place.inText = false := by
  by_contra htext
  rcases ((forall_entries_role place place.mem_all e he).1 (by simpa using htext)).2 with hr | hr
  · exact h.1 hr
  · exact h.2 hr

/-- A title is of a kind of titles. -/
theorem mem_titles_of_role (he : e ∈ place.entries) (h : place.role e.kind = .title) :
    e.kind ∈ TokenKind.titles :=
  (forall_entries_role place place.mem_all e he).2.1 h

/-- What leads into a doc string opens it or is its content. -/
theorem role_of_next_inText (he : e ∈ place.entries) (h : e.next.inText = true) :
    place.role e.kind = .opening ∨ place.role e.kind = .content :=
  (forall_entries_role place place.mem_all e he).2.2.1 h

/-- Only the end leads to where all is done. -/
theorem kind_of_next_done (he : e ∈ place.entries) (h : e.next = .done) : e.kind = .eof :=
  (forall_entries_role place place.mem_all e he).2.2.2.1 h

/-- Behind a tag line, tag lines stay. -/
theorem head?_entries_of_tagLine (he : e ∈ place.entries) (h : e.kind = .tagLine) :
    e.next.entries.head? = some (on .tagLine e.next) ∧ e.next.describes = false
      ∧ e.next.inText = false :=
  (forall_entries_role place place.mem_all e he).2.2.2.2 h

/-- Tags are lines of tags. -/
theorem kind_of_role_tags {kind : TokenKind} (h : place.role kind = .tags) : kind = .tagLine := by
  cases kind <;> simp only [role] at h <;> first | rfl | cases h | (split at h <;> cases h)

/-- Steps are lines of steps. -/
theorem kind_of_role_step {kind : TokenKind} (h : place.role kind = .step) : kind = .stepLine := by
  cases kind <;> simp only [role] at h <;> first | rfl | cases h | (split at h <;> cases h)

/-- Rows are lines of tables. -/
theorem kind_of_role_row {kind : TokenKind} (h : place.role kind = .row) : kind = .tableRow := by
  cases kind <;> simp only [role] at h <;> first | rfl | cases h | (split at h <;> cases h)

/-- Descriptions are free text. -/
theorem kind_of_role_description {kind : TokenKind} (h : place.role kind = .description) :
    kind = .other := by
  cases kind <;> simp only [role] at h <;> first | rfl | cases h | (split at h <;> cases h)

end State

/-! ### Lines with other blanks -/

namespace Line

variable {l l' : Line}

/-- What a text starts with is not lost when it is trimmed. -/
theorem head?_trim (t : Text) : t.trim.head? = t.trimStart.head? := by
  rw [Text.trim]
  cases h : t.trimStart with
  | nil => rfl
  | cons c r =>
    have hc : isBlank c = false := Text.head?_trimStart (t := t) c (by rw [h]; rfl)
    rw [Text.trimEnd, Text.dropEndWhile_cons_of_neg hc]
    rfl

/-- Lines that are the same once trimmed start with the same character. -/
theorem head?_trimmed_of_trim_eq (h : l'.text.trim = l.text.trim) :
    l'.trimmed.head? = l.trimmed.head? := by
  rw [trimmed, trimmed, ← head?_trim, ← head?_trim, h]

/-- Lines that differ in their ends are indented alike, if they are not blank. -/
theorem indent_of_withoutEnd_eq (h : withoutEnd l'.text = withoutEnd l.text)
    (hne : l.trimmed ≠ []) : l'.indent = l.indent := by
  have key : ∀ l : Line, l.trimmed ≠ [] → l.indent = l.endless.indent := by
    intro l hne
    obtain ⟨e, ht, -⟩ := exists_withoutEnd_append l.text
    have hblank : l.endless.trimmed ≠ [] := fun h => hne (l.trimmed_endless_eq_nil_iff.mp h)
    have hlen : l.text.length = l.endless.text.length + e.length := by
      conv_lhs => rw [ht]
      exact List.length_append
    have hlen' : (Text.trimStart l.text).length
        = (Text.trimStart l.endless.text).length + e.length := by
      rw [← List.length_append]
      exact congrArg List.length (l.trimmed_eq_append ht hblank)
    rw [indent, indent, Text.indentOf, Text.indentOf, hlen, hlen', Nat.add_sub_add_right]
  have hendless : l'.endless.text = l.endless.text := h
  have hne' : l'.trimmed ≠ [] := by
    rw [Ne, ← trimmed_endless_eq_nil_iff, trimmed, hendless]
    exact fun hnil => hne (l.trimmed_endless_eq_nil_iff.mp hnil)
  rw [key l' hne', key l hne, indent, indent, hendless]

end Line

namespace Reading

/-- Whether a line, in its reading, can stand for another line that is taken as a token of a
kind. -/
structure Stands (kind : TokenKind) (r : Reading) (l : Line) (r' : Reading) (l' : Line) : Prop where
  kin : r.Kin l r' l'
  sees : r'.sees l' kind = r.sees l kind

variable {r r' : Reading} {l l' : Line} {kind : TokenKind} {token token' : Token}

/-- Lines in which the same is seen are of a kin. -/
theorem kin_of_sees (h : ∀ kind, r'.sees l' kind = r.sees l kind) : r.Kin l r' l' := fun kind => by
  rw [accepts?_eq, accepts?_eq, h kind]

/-- Lines that can be read in one way, and say the same, stand for each other. -/
theorem Only.stands (h : r.Only l kind token) (h' : r'.Only l' kind token')
    (hgist : token'.gist = token.gist) : Stands kind r l r' l' where
  kin := h.kin h'
  sees := by simp only [Reading.sees, h.reads, h'.reads, Option.map_some, hgist]

/-- A line that is read as a tag line or as a row outside of doc strings can be read in no other
way. -/
theorem only_of_mark (hf : r.fence = none) (hd : r.dialect = english) {c : Char}
    (hc : kind = .tagLine ∧ c = '@' ∨ kind = .tableRow ∧ c = '|')
    (hhead : l.trimmed.head? = some c) (hreads : r.token? l kind = .ok (some token)) :
    r.Only l kind token := by
  have hmark : r.dialect.Marks kind [c] ∧ kind ≠ .comment := by
    rw [hd]
    rcases hc with ⟨rfl, rfl⟩ | ⟨rfl, rfl⟩
    · exact ⟨(Dialect.distinct_of_mem Dialect.english_mem).tag, by decide⟩
    · exact ⟨(Dialect.distinct_of_mem Dialect.english_mem).row, by decide⟩
  exact hmark.1.only (head?_eq_some_iff.mp hhead) hf hmark.2 hreads

/-- Lines of tags or rows that say the same and start with the same mark stand for each other. -/
theorem stands_of_mark (hc : kind = .tagLine ∧ l'.trimmed.head? = some '@'
      ∨ kind = .tableRow ∧ l'.trimmed.head? = some '|')
    (hhead : l'.trimmed.head? = l.trimmed.head?) (hsees : plain.sees l' kind = plain.sees l kind)
    (hreads : plain.token? l kind = .ok (some token)) : Stands kind plain l plain l' := by
  obtain ⟨token', hreads', hgist⟩ := exists_token_of_sees_eq hsees hreads
  rcases hc with ⟨rfl, hc⟩ | ⟨rfl, hc⟩
  · exact (only_of_mark rfl rfl (.inl ⟨rfl, rfl⟩) (hhead ▸ hc) hreads).stands
      (only_of_mark rfl rfl (.inl ⟨rfl, rfl⟩) hc hreads') hgist.symm
  · exact (only_of_mark rfl rfl (.inr ⟨rfl, rfl⟩) (hhead ▸ hc) hreads).stands
      (only_of_mark rfl rfl (.inr ⟨rfl, rfl⟩) hc hreads') hgist.symm

/-- A line of tags starts with an at sign. -/
theorem head?_of_tagLine (h : r.token? l .tagLine = .ok (some token)) :
    l.trimmed.head? = some '@' := by
  by_contra hnot
  have hnone := Line.tags?.eq_1 l
  rw [if_neg hnot] at hnone
  simp only [token?, hnone] at h
  cases h

/-- A line of a table starts with a pipe. -/
theorem head?_of_tableRow (h : r.token? l .tableRow = .ok (some token)) :
    l.trimmed.head? = some '|' := by
  by_contra hnot
  simp only [token?, if_neg hnot] at h
  cases h

/-- A delimiter is not blank. -/
theorem trimmed_ne_nil_of_separator (hmark : ∀ fence ∈ r.fence, Text.IsFence fence.mark)
    (h : r.token? l .docStringSeparator = .ok (some token)) : l.trimmed ≠ [] := by
  have key : ∀ mark : Text, Text.IsFence mark → mark.isPrefixOf l.trimmed = true →
      l.trimmed ≠ [] := by
    intro mark hmark hp hnil
    rw [hnil] at hp
    rcases hmark with rfl | rfl <;> cases hp
  cases hf : r.fence with
  | none =>
    intro hnil
    have hnone : l.openingFence? = none := by
      rw [openingFence?_eq_none_iff, hnil]
      decide
    simp only [token?, hf, hnone, Option.map_none] at h
    cases h
  | some fence =>
    simp only [token?, hf] at h
    split at h
    · next hp => exact key fence.mark (hmark fence hf) hp
    · cases h

/-- Rows of one sequence of cells, up to the spaces around them, say the same. -/
theorem sees_of_repadded {cells cells' : List Text} {last : Text}
    (hbefore : Cell.pieces l.text.trim = [] :: (cells ++ [last]))
    (hafter : l'.text.trim = '|' :: (cells'.flatMap (· ++ ['|']) ++ last))
    (hcells : List.Forall₂ Cell.Repadded cells cells') (hhead : l.trimmed.head? = some '|') :
    l'.trimmed.head? = l.trimmed.head? ∧ r.sees l' .tableRow = r.sees l .tableRow := by
  have hclosed : ∀ cell ∈ cells, Cell.IsClosed cell := fun cell hc => by
    refine Cell.isClosed_of_mem (t := l.text.trim) ?_
    rw [hbefore, ← List.cons_append, List.dropLast_concat]
    exact List.mem_cons_of_mem _ hc
  have hlast : Cell.IsPiece last := Cell.isPiece_of_mem (t := l.text.trim) (by simp [hbefore])
  have hpieces : Cell.pieces l'.text.trim = [] :: (cells' ++ [last]) := by
    rw [hafter, Cell.pieces_pipe, Cell.pieces_of_repadded hclosed hcells hlast]
  have hhead' : l'.trimmed.head? = some '|' := by
    rw [Line.trimmed, ← Line.head?_trim, hafter]
    rfl
  refine ⟨hhead'.trans hhead.symm, ?_⟩
  rw [sees_tableRow, sees_tableRow, if_pos hhead, if_pos hhead', l.trim_trimmed, l'.trim_trimmed,
    hbefore, hpieces, List.tail_cons, List.tail_cons, List.dropLast_concat, List.dropLast_concat]
  have hvalues := congrArg (List.map (Prod.mk 0)) (Cell.map_value_of_repadded hcells)
  rw [List.map_map, List.map_map] at hvalues
  exact congrArg (fun values => some (some (Token.tableRow values))) hvalues

/-- Lines of tags or rows between other blanks stand for each other. -/
theorem stands_of_trim_eq (hkind : kind = .tagLine ∨ kind = .tableRow)
    (hreads : plain.token? l kind = .ok (some token)) (same : l'.text.trim = l.text.trim) :
    Stands kind plain l plain l' := by
  have hhead := Line.head?_trimmed_of_trim_eq same
  rcases hkind with rfl | rfl
  · refine stands_of_mark (.inl ⟨rfl, hhead.trans (head?_of_tagLine hreads)⟩) hhead ?_ hreads
    rw [sees_tagLine, sees_tagLine, hhead, l.trim_trimmed, l'.trim_trimmed, same]
  · refine stands_of_mark (.inr ⟨rfl, hhead.trans (head?_of_tableRow hreads)⟩) hhead ?_ hreads
    rw [sees_tableRow, sees_tableRow, hhead, l.trim_trimmed, l'.trim_trimmed, same]

/-- Rows of cells between other spaces stand for each other. -/
theorem stands_of_repadded {cells cells' : List Text} {last : Text}
    (hreads : plain.token? l .tableRow = .ok (some token))
    (hbefore : Cell.pieces l.text.trim = [] :: (cells ++ [last]))
    (hafter : l'.text.trim = '|' :: (cells'.flatMap (· ++ ['|']) ++ last))
    (hcells : List.Forall₂ Cell.Repadded cells cells') : Stands .tableRow plain l plain l' := by
  have hhead := head?_of_tableRow hreads
  obtain ⟨hsame, hsees⟩ := sees_of_repadded hbefore hafter hcells hhead
  exact stands_of_mark (.inr ⟨rfl, hsame.trans hhead⟩) hsame hsees hreads

/-- A line that starts like a title is read as nothing else with a title. -/
theorem kind_of_titleStart {kind' : TokenKind} {k s : Text} (hkind' : kind' ∈ TokenKind.titles)
    (hkind : kind ∈ TokenKind.titles) (hk : k ∈ english.titleWords kind')
    (hl : l.trimmed = k ++ ':' :: s) (hreads : plain.token? l kind = .ok (some token)) :
    kind = kind' := by
  have honly := only_titleStart (r := plain) (l := l) rfl rfl hkind' hk hl
  have hother : kind ≠ .other := by
    rintro rfl
    revert hkind
    decide
  by_contra hne
  rw [honly.refuses kind hne hother] at hreads
  cases hreads

end Reading

namespace ParseState

variable {s s' t : ParseState} {l l' : Line} {e : Entry} {kind : TokenKind} {token token' : Token}

/-- Whether a line can stand for another that is taken as a token of a kind, at its place and for a
reader that looks ahead. -/
structure Replaces (s : ParseState) (kind : TokenKind) (l l' : Line) : Prop where
  stands : Reading.Stands kind s.reading l s.reading l'
  ahead : Reading.plain.Kin l .plain l'
  indent : kind = .docStringSeparator → l'.indent = l.indent

/-- A line that can stand for another one outside of doc strings can replace it. -/
theorem Replaces.of_plain (hreading : s.reading = .plain) (hne : kind ≠ .docStringSeparator)
    (hstands : Reading.Stands kind .plain l .plain l') : s.Replaces kind l l' where
  stands := by rwa [hreading]
  ahead := hstands.kin
  indent := fun h => absurd h hne

/-- A line with another end can stand for the line. -/
theorem InEnglish.replaces_of_withoutEnd_eq (hs : s.InEnglish)
    (hreads : s.reading.token? l kind = .ok (some token))
    (same : Line.withoutEnd l'.text = Line.withoutEnd l.text) : s.Replaces kind l l' := by
  have hsees := Reading.sees_of_withoutEnd_eq hs.english hs.mark same
  have hplain := Reading.sees_of_withoutEnd_eq (r := .plain) rfl (fun _ h => by cases h) same
  refine ⟨⟨Reading.kin_of_sees hsees, hsees _⟩, Reading.kin_of_sees hplain, fun hkind => ?_⟩
  refine Line.indent_of_withoutEnd_eq same fun hnil => ?_
  rw [hkind] at hreads
  exact Reading.trimmed_ne_nil_of_separator hs.mark hreads hnil

/-- A line with other blanks can stand for the line. -/
theorem replaces_of_respaced (hs : s.InEnglish) (he : e ∈ s.place.entries)
    (hreads : s.reading.token? l e.kind = .ok (some token))
    (h : Respaced (s.place.role e.kind) l.text l'.text) : s.Replaces e.kind l l' := by
  generalize hrole : s.place.role e.kind = role at h
  have hplain : role ≠ .content ∧ role ≠ .closing → s.reading = .plain := fun hne =>
    hs.reading_eq (State.inText_eq_false_of_role he (by rwa [hrole]))
  cases h with
  | ends same => exact hs.replaces_of_withoutEnd_eq hreads same
  | around part same =>
    have hkind : e.kind = .tagLine ∨ e.kind = .tableRow := by
      rcases part with rfl | rfl
      · exact .inl (State.kind_of_role_tags hrole)
      · exact .inr (State.kind_of_role_row hrole)
    have hreading := hplain (by rcases part with rfl | rfl <;> decide)
    rw [hreading] at hreads
    refine .of_plain hreading ?_ (Reading.stands_of_trim_eq hkind hreads same)
    rcases hkind with h | h <;> rw [h] <;> decide
  | @title kind k rest rest' _ _ isTitle keyword before after same =>
    have hreading := hplain (by decide)
    rw [hreading] at hreads
    have honly := Reading.only_titleStart (r := .plain) (l := l) rfl rfl isTitle keyword before
    have honly' := Reading.only_titleStart (r := .plain) (l := l') rfl rfl isTitle keyword after
    rw [same] at honly'
    have hkind : e.kind = kind := Reading.kind_of_titleStart isTitle
      (State.mem_titles_of_role he hrole) keyword before hreads
    rw [hkind]
    refine .of_plain hreading ?_ (honly.stands honly' rfl)
    rintro rfl
    revert isTitle
    decide
  | @step w rest rest' _ _ keyword before after same =>
    have hreading := hplain (by decide)
    have honly := Reading.only_stepWord (r := .plain) (l := l) rfl rfl keyword before
    have honly' := Reading.only_stepWord (r := .plain) (l := l') rfl rfl keyword after
    rw [same] at honly'
    rw [State.kind_of_role_step hrole]
    exact .of_plain hreading (by decide) (honly.stands honly' rfl)
  | cells before after same =>
    have hreading := hplain (by decide)
    rw [hreading, State.kind_of_role_row hrole] at hreads
    rw [State.kind_of_role_row hrole]
    exact .of_plain hreading (by decide) (Reading.stands_of_repadded hreads before after same)

/-! ### Levels -/

/-- Whether two readers stand at the same place, in English and without a fault, and their documents
are alike but for the descriptions `xs` and `ys` that are being read. -/
structure Level (s s' : ParseState) (xs ys : List Text) : Prop where
  left : s.InEnglish
  right : s'.InEnglish
  place : s'.place = s.place
  document : Ast.Document.Alike s.place s.document s'.document xs ys

/-- A place is left without a fault if it is in no table, or in one that is not ragged. -/
theorem leave_eq_self_iff (hs : s.faults = []) {next : State} :
    s.leave next = s ↔ (s.place.inTable = true → s.place ≠ next →
      Ast.firstRagged? (s.document.openRows s.place) = none) := by
  rw [leave]
  by_cases hin : s.place.inTable = true ∧ s.place ≠ next
  · rw [if_pos (by simpa using hin)]
    cases hrow : Ast.firstRagged? (s.document.openRows s.place) with
    | none => exact ⟨fun _ _ _ => rfl, fun _ => rfl⟩
    | some row =>
      refine ⟨fun h => absurd hs ?_, fun h => absurd (h hin.1 hin.2) (by simp)⟩
      rw [← h]
      exact note_ne_nil s _
  · rw [if_neg (by simpa using hin)]
    exact ⟨fun _ hin' hne => absurd ⟨hin', hne⟩ hin, fun _ => rfl⟩

/-- What a free line adds to a description is the line, if it is one of it. -/
theorem descriptionBehind_eq_freeText (hs : s.InEnglish) (he : e ∈ s.place.entries)
    (hreads : s.reading.token? l e.kind = .ok (some token))
    (hfree : (s.place.role e.kind).isFree = true) (xs : List Text) :
    descriptionBehind xs [⟨s.place.role e.kind, l.text⟩] = xs ++ token.freeText := by
  have hkind : token.kind = e.kind := Reading.kind_of_token? hreads
  by_cases hrole : s.place.role e.kind = .description
  · have hother := State.kind_of_role_description hrole
    have hnone := hs.fence_eq_none (State.inText_eq_false_of_role he (by rw [hrole]; decide))
    rw [hother] at hreads
    simp only [Reading.token?, hnone, Except.ok.injEq, Option.some.injEq] at hreads
    subst hreads
    simp only [descriptionBehind, hrole, if_true]
    rfl
  · have hnil : token.freeText = [] := by
      cases token <;> first | rfl | skip
      next text =>
      rw [← hkind, Token.kind] at hfree hrole
      rcases s.place.role_other with h | h
      · rw [h] at hfree
        cases hfree
      · exact absurd h hrole
    simp only [descriptionBehind, if_neg hrole, hfree, if_true, hnil, List.append_nil]

namespace Level

variable {xs ys : List Text} {rest rest' : List Line}

/-- That two readers are level holds in both directions. -/
theorem symm (h : Level s s' xs ys) : Level s' s ys xs where
  left := h.right
  right := h.left
  place := h.place.symm
  document := by
    rw [h.place]
    exact h.document.symm

/-- Readers on a level outside of doc strings read alike. -/
theorem reading_eq (h : Level s s' xs ys) (htext : s.place.inText = false) :
    s.reading = .plain ∧ s'.reading = .plain :=
  ⟨h.left.reading_eq htext, h.right.reading_eq (h.place ▸ htext)⟩

/-- A line that can stand for another one is taken by the same entry. -/
theorem chosen (h : Level s s' xs ys) (hkin : s.reading.Kin l s'.reading l')
    (hahead : Reading.plain.SameAhead rest rest') :
    s'.reading.chosen? l' rest' s'.place.entries = s.reading.chosen? l rest s.place.entries := by
  rw [h.place]
  refine hkin.chosen?_eq fun e he kind hkind => ?_
  cases htext : s.place.inText with
  | true =>
    rw [State.ahead_of_inText he htext] at hkind
    cases hkind
  | false =>
    obtain ⟨hreading, hreading'⟩ := h.reading_eq htext
    rw [hreading, hreading']
    exact hahead kind (State.ahead_of_mem_entries he hkind).2

/-- The tables that are being read may end at the same lines. -/
theorem leaves (h : Level s s' xs ys) {next : State} (hleave : s.leave next = s) :
    s'.leave next = s' := by
  rw [leave_eq_self_iff h.right.faultless, h.place]
  intro hin hne
  have hnot : s.place.describes = false := State.describes_of_inTable hin
  have hgist := h.document.gist
  rw [Ast.Document.describedAs_of_not_describes hnot,
    Ast.Document.describedAs_of_not_describes hnot] at hgist
  rw [← Ast.Document.firstRagged?_openRows hgist]
  exact (leave_eq_self_iff h.left.faultless).mp hleave hin hne

/-- A line and one that can stand for it take readers on a level to a level again. Only a line of a
description may say something else. -/
theorem goes (h : Level s s' xs ys) (he : e ∈ s.place.entries)
    (hreads : s.reading.token? l e.kind = .ok (some token))
    (henglish : (s.goes l e.next token).reading.dialect = english)
    (hreads' : s'.reading.token? l' e.kind = .ok (some token'))
    (hgist : s.place.role e.kind ≠ .description → token.gist = token'.gist)
    (hlines : (s.place.role e.kind).isFree = false → Text.normalLines xs = Text.normalLines ys) :
    (s'.goes l' e.next token').reading.dialect = english
      ∧ Level (s.goes l e.next token) (s'.goes l' e.next token')
        (descriptionBehind xs [⟨s.place.role e.kind, l.text⟩])
        (descriptionBehind ys [⟨s.place.role e.kind, l'.text⟩]) := by
  have he' : e ∈ s'.place.entries := h.place ▸ he
  have hkind : token.kind = e.kind := Reading.kind_of_token? hreads
  have hkind' : token'.kind = e.kind := Reading.kind_of_token? hreads'
  have henglish' : (s'.goes l' e.next token').reading.dialect = english := by
    by_cases hlanguage : token'.kind = .language
    · have hsame := hgist (by rw [← hkind', hlanguage]; exact fun h => by cases h)
      cases token' <;> cases hlanguage
      cases token <;> cases hsame
      simp only [ParseState.goes, Reading.after, h.left.english, h.right.english] at henglish ⊢
      exact henglish
    · exact (s'.reading.dialect_after l' hlanguage).trans h.right.english
  refine ⟨henglish', h.left.goes he hreads henglish, h.right.goes he' hreads' henglish', rfl, ?_⟩
  have hname : (s.reading.after l token).dialect = english := henglish
  have hname' : (s'.reading.after l' token').dialect = english := henglish'
  simp only [ParseState.goes, hname, hname', h.place]
  cases hfree : (s.place.role e.kind).isFree with
  | true =>
    have hbehind := descriptionBehind_eq_freeText h.right he' hreads' (h.place.symm ▸ hfree) ys
    rw [h.place] at hbehind
    rw [descriptionBehind_eq_freeText h.left he hreads hfree, hbehind]
    exact h.document.take_free he hkind hkind' hfree _ _ _
  | false =>
    rw [descriptionBehind_of_not_free hfree, descriptionBehind_of_not_free hfree]
    have hrole : s.place.role e.kind ≠ .description := by
      intro hrole
      rw [hrole] at hfree
      cases hfree
    exact h.document.take he hkind (hgist hrole) hfree (hlines hfree) _ _ _

end Level

end ParseState

/-! ### Lines that are written again -/

namespace Reading

variable {l l' : Line}

/-- Indentation and ends make no difference to the kinds of token that a line outside of doc strings
can be read as. -/
theorem kin_of_trimmed
    (h : (Line.withoutEnd l'.text).trimStart = (Line.withoutEnd l.text).trimStart) :
    plain.Kin l plain l' := by
  intro kind
  by_cases hother : kind = .other
  · rw [hother]
    rfl
  · have hends : ∀ l : Line, plain.sees l.endless kind = plain.sees l kind := fun l =>
      sees_endless rfl (fun _ h => by cases h) l kind
    have hsame : plain.sees l'.endless kind = plain.sees l.endless kind :=
      sees_of_trimmed rfl rfl h hother
    rw [accepts?_eq, accepts?_eq, ← hends l, ← hends l', hsame]

end Reading

namespace ParseState

variable {s s' t : ParseState} {l l' : Line} {ls ls' rest rest' : List Line} {ms : List Marked}
  {e : Entry} {token : Token} {xs ys : List Text}

/-- What is known of a line that can stand for the first line of a trace: a reader that looks ahead
sees the same, the line is taken as a token that says the same, and the reading goes on alike. -/
theorem exists_token_of_rewrites {ts : List Text} (hs : s.InEnglish)
    (he : e ∈ s.place.entries) (hreads : s.reading.token? l e.kind = .ok (some token))
    (h : Rewrites xs ys (⟨s.place.role e.kind, l.text⟩ :: ms) (l'.text :: ts)) :
    Reading.plain.Kin l .plain l' ∧ s.reading.Kin l s.reading l'
      ∧ ∃ token', s.reading.token? l' e.kind = .ok (some token')
        ∧ (s.place.role e.kind ≠ .description → token.gist = token'.gist)
        ∧ s.reading.after l' token' = s.reading.after l token := by
  obtain ⟨⟨hrole, htrimmed, -⟩ | ⟨-, hrespaced⟩, -⟩ := h.cons_inv
  · have hkin := Reading.kin_of_trimmed htrimmed
    have hplain : s.reading = .plain :=
      hs.reading_eq (State.inText_eq_false_of_role he (by rw [hrole]; decide))
    have hother := State.kind_of_role_description hrole
    rw [hother] at hreads
    obtain ⟨text, htext⟩ := s.reading.token?_other_isSome l
    obtain ⟨text', htext'⟩ := s.reading.token?_other_isSome l'
    rw [hreads] at htext
    cases htext
    exact ⟨hkin, hplain ▸ hkin, _, hother ▸ htext', fun hne => absurd hrole hne, rfl⟩
  · obtain ⟨hstands, hkin, hindent⟩ := replaces_of_respaced hs he hreads hrespaced
    obtain ⟨token', hreads', hgist⟩ := Reading.exists_token_of_sees_eq hstands.sees hreads
    refine ⟨hkin, hstands.kin, token', hreads', fun _ => hgist, ?_⟩
    exact Reading.after_eq hgist fun hkind =>
      hindent ((Reading.kind_of_token? hreads).symm.trans hkind)

namespace Trace

/-- A reader that looks ahead over lines that are written again sees the same. -/
theorem sameAhead (h : Trace rest s ls ms t) (hs : s.InEnglish)
    (hlines : Rewrites xs ys ms (ls'.map (·.text))) (hahead : Reading.plain.SameAhead rest rest') :
    Reading.plain.SameAhead (ls ++ rest) (ls' ++ rest') := by
  induction h generalizing xs ys ls' with
  | nil s =>
    cases ls' with
    | nil => exact hahead
    | cons l' ls' => cases hlines
  | @cons s t l ls e token ms chosen reads leaves english tail ih =>
    cases ls' with
    | nil => cases hlines
    | cons l' ls' =>
      have he := mem_of_chosen? chosen
      obtain ⟨hkin, -⟩ := exists_token_of_rewrites hs he reads hlines
      exact .cons hkin (ih (hs.goes he reads english) hlines.cons_inv.2.2)

/-- Lines that are written again take readers on a level to a level. -/
theorem rewritten (h : Trace rest s ls ms t) (hlines : Rewrites xs ys ms (ls'.map (·.text)))
    (hlevel : Level s s' xs ys) (hreading : s'.reading = s.reading)
    (hahead : Reading.plain.SameAhead rest rest') :
    ∃ t', Trace rest' s' ls' (remark ms (ls'.map (·.text))) t'
      ∧ Level t t' (descriptionBehind xs ms)
        (descriptionBehind ys (remark ms (ls'.map (·.text))))
      ∧ t'.reading = t.reading
      ∧ Text.normalLines (descriptionBehind xs ms)
        = Text.normalLines (descriptionBehind ys (remark ms (ls'.map (·.text)))) := by
  induction h generalizing xs ys ls' s' with
  | nil s =>
    cases ls' with
    | nil =>
      cases hlines with
      | nil same => exact ⟨s', .nil s', hlevel, hreading, same⟩
    | cons l' ls' => cases hlines
  | @cons s t l ls e token ms chosen reads leaves english tail ih =>
    cases ls' with
    | nil => cases hlines
    | cons l' ls' =>
      have he := mem_of_chosen? chosen
      obtain ⟨-, hkin, token', hreads', hgist, hafter⟩ :=
        exists_token_of_rewrites hlevel.left he reads hlines
      obtain ⟨-, hsame, hrest⟩ := hlines.cons_inv
      rw [← hreading] at hreads' hafter
      have hchosen := hlevel.chosen (by rw [hreading]; exact hkin)
        (tail.sameAhead (hlevel.left.goes he reads english) hrest hahead)
      obtain ⟨henglish', hnext⟩ := hlevel.goes he reads english hreads' hgist hsame
      obtain ⟨t', htrace, hend, hread, hnormal⟩ := ih hrest hnext
        (by rw [ParseState.goes, ParseState.goes, hafter, hreading])
      have hremark : remark (⟨s.place.role e.kind, l.text⟩ :: ms) ((l' :: ls').map (·.text))
          = ⟨s.place.role e.kind, l'.text⟩ :: remark ms (ls'.map (·.text)) := rfl
      rw [hremark, descriptionBehind_cons xs, descriptionBehind_cons ys]
      refine ⟨t', ?_, hend, hread, hnormal⟩
      rw [chosen] at hchosen
      rw [← hlevel.place]
      exact .cons hchosen hreads' (hlevel.leaves leaves) henglish' htrace

end Trace

end ParseState

end FeatureTree
