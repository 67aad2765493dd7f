import FeatureTree.Proofs.Gherkin.Choices
import FeatureTree.Proofs.Plain.Sound

/-!
# The roles of lines

What a line is can only be said within the document that it stands in: a line of cells is a row
behind a step, free text under a title and content between the delimiters of a doc string. The
reader gives every line a role, by the place where it is read and the kind of token that it is taken
as (`ParseState.marks`).

A run without a fault is a chain of choices, one for each line. `ParseState.Trace` is that chain
with the roles that the choices give; it can be cut at any line, and what is known of one line after
the other is known of the chain.

## Main results

* `ParseState.trace_of_run`: an English run without a fault is a trace
* `ParseState.Trace.append_inv`: a trace can be cut where its roles are cut
* `Ast.Document.trace_of_parse`, `Ast.Document.parse_of_trace`: a text is read as a document exactly
  if a trace leads there
-/

namespace FeatureTree

open Dialect (english)

/-- What a line is in the document that it stands in. -/
inductive Role where
  | blank
  | comment
  | language
  | tags
  | title
  | step
  | row
  /-- The line that opens a doc string. -/
  | opening
  /-- A line between the delimiters of a doc string. -/
  | content
  /-- The line that closes a doc string. -/
  | closing
  /-- A line of free text under a title, which can be blank. -/
  | description
  /-- A line that does not fit its place. -/
  | misplaced
deriving DecidableEq, Repr

/-- Whether a line can stand between the lines of a description: it is one of them, or it is blank
or a comment. -/
def Role.isFree : Role → Bool
  | .blank | .comment | .description => true
  | _ => false

/-- The role of a line that is taken at a place as a token of a kind. -/
def State.role (place : State) : TokenKind → Role
  | .empty => .blank
  | .comment => .comment
  | .language => .language
  | .tagLine => .tags
  | .featureLine | .ruleLine | .backgroundLine | .scenarioLine | .examplesLine => .title
  | .stepLine => .step
  | .tableRow => .row
  | .docStringSeparator => if place.inText then .closing else .opening
  | .other => if place.inText then .content else .description
  | .eof => .misplaced

/-- The text of a line, with the role that the line has. -/
structure Marked where
  role : Role
  text : Text
deriving DecidableEq, Repr

/-- The lines that a description still gets from the lines that follow. -/
def descriptionAhead : List Marked → List Text
  | [] => []
  | m :: ms =>
    if m.role = .description then Line.withoutEnd m.text :: descriptionAhead ms
    else if m.role.isFree then descriptionAhead ms
    else []

/-- The lines of the description that goes on behind some lines; `lines` are those that it had in
front of them. -/
def descriptionBehind (lines : List Text) : List Marked → List Text
  | [] => lines
  | m :: ms =>
    if m.role = .description then descriptionBehind (lines ++ [Line.withoutEnd m.text]) ms
    else descriptionBehind (if m.role.isFree then lines else []) ms

namespace ParseState

/-- A line with the role that the reader gives it; `rest` is what follows the line. -/
def mark (s : ParseState) (l : Line) (rest : List Line) : Marked :=
  ⟨((s.choose l rest s.place.entries).2.map fun (e, _) => s.place.role e.kind).getD .misplaced,
    l.text⟩

/-- Lines with the roles that the reader gives them one after the other. -/
def marks (s : ParseState) : List Line → List Marked
  | [] => []
  | l :: rest => s.mark l rest :: (s.advance l rest).marks rest

end ParseState

/-- The lines of a text with their roles, for a reader that starts in English. -/
def Text.marked (source : Text) : List Marked :=
  (ParseState.start english).marks (Line.ofText source)

/-- The delimiter of a doc string that a line opens is one of the two. -/
theorem Line.isFence_of_openingFence? {l : Line} {mark mediaType : Text}
    (h : l.openingFence? = some (mark, mediaType)) : Text.IsFence mark := by
  have key : ∀ fence : Text, (if fence.isPrefixOf l.trimmed then
      some (fence, Text.trim (l.trimmed.drop fence.length)) else none) = some (mark, mediaType) →
      fence = mark := by
    intro fence h
    split at h <;> cases h
    rfl
  rw [openingFence?, Option.orElse_eq_orElse, Option.orElse_eq_or, Option.or_eq_some_iff] at h
  exact h.imp (fun h => (key _ h).symm) fun h => (key _ h.2).symm

namespace ParseState

/-! ### States in English -/

/-- Whether a reader has noted no fault, reads English and knows whether a doc string is open, and
by which delimiter. -/
structure InEnglish (s : ParseState) : Prop where
  faultless : s.faults = []
  english : s.reading.dialect = english
  fence : s.reading.fence.isSome = s.place.inText
  mark : ∀ fence ∈ s.reading.fence, Text.IsFence fence.mark

/-- Reading starts in English without a fault. -/
theorem inEnglish_start : (start english).InEnglish := ⟨rfl, rfl, rfl, fun _ h => by cases h⟩

variable {s s' : ParseState} {l : Line} {ls ls' rest : List Line} {e : Entry} {token : Token}
  {ms ms' : List Marked}

/-- Outside of doc strings no fence is waited for. -/
theorem InEnglish.fence_eq_none (h : s.InEnglish) (hplace : s.place.inText = false) :
    s.reading.fence = none := by
  have hfence := h.fence
  rw [hplace] at hfence
  simpa using hfence

/-- Outside of doc strings lines are read in plain English. -/
theorem InEnglish.reading_eq (h : s.InEnglish) (hplace : s.place.inText = false) :
    s.reading = ⟨Dialect.english, none⟩ := by
  have hnone := h.fence_eq_none hplace
  have hd := h.english
  generalize s.reading = r at hd hnone
  obtain ⟨d, fence⟩ := r
  cases hd
  cases hnone
  rfl

/-- A line that is taken in English keeps the reader in English. -/
theorem InEnglish.goes (h : s.InEnglish) (he : e ∈ s.place.entries)
    (hreads : s.reading.token? l e.kind = .ok (some token))
    (henglish : (s.goes l e.next token).reading.dialect = Dialect.english) :
    (s.goes l e.next token).InEnglish where
  faultless := h.faultless
  english := henglish
  fence := by
    have hkind : token.kind = e.kind := Reading.kind_of_token? hreads
    have hafter : (s.reading.after l token).fence.isSome
        = (s.reading.fence.isSome != decide (token.kind = .docStringSeparator)) := by
      cases token with
      | docStringSeparator mark mediaType =>
        rw [Reading.after]
        cases s.reading.fence <;> rfl
      | _ => simp [Reading.after, Token.kind]
    have hnext := State.inText_next he
    rw [← hkind, ← h.fence, ← hafter] at hnext
    exact hnext.symm
  mark := by
    intro fence hfence
    have hkind : token.kind = e.kind := Reading.kind_of_token? hreads
    cases token with
    | docStringSeparator mark mediaType =>
      rw [← hkind] at hreads
      rw [ParseState.goes, Reading.after] at hfence
      cases hopen : s.reading.fence with
      | none =>
        simp only [hopen, Option.mem_def, Option.some.injEq] at hfence
        subst hfence
        simp only [Token.kind, Reading.token?, hopen, Except.ok.injEq,
          Option.map_eq_some_iff] at hreads
        obtain ⟨p, hp, heq⟩ := hreads
        cases heq
        exact Line.isFence_of_openingFence? hp
      | some open' => simp [hopen] at hfence
    | _ => exact h.mark fence hfence

/-! ### Traces -/

/-- Whether the reader goes, in English and without a fault, over lines that get certain roles, from
one state to another. `rest` is what stands behind the lines. -/
inductive Trace (rest : List Line) :
    ParseState → List Line → List Marked → ParseState → Prop
  | nil (s : ParseState) : Trace rest s [] [] s
  | cons {s s' : ParseState} {l : Line} {ls : List Line} {e : Entry} {token : Token}
      {ms : List Marked}
      (chosen : s.reading.chosen? l (ls ++ rest) s.place.entries = some (some e))
      (reads : s.reading.token? l e.kind = .ok (some token)) (leaves : s.leave e.next = s)
      (english : (s.goes l e.next token).reading.dialect = Dialect.english)
      (tail : Trace rest (s.goes l e.next token) ls ms s') :
    Trace rest s (l :: ls) (⟨s.place.role e.kind, l.text⟩ :: ms) s'

/-- An entry that is chosen is one of the entries. -/
theorem mem_of_chosen? {r : Reading} {es : List Entry} (h : r.chosen? l rest es = some (some e)) :
    e ∈ es := by
  induction es with
  | nil => cases h
  | cons e' es ih =>
    rw [Reading.chosen?] at h
    split at h
    · cases h
    · exact List.mem_cons_of_mem _ (ih h)
    · split at h
      · cases h
        exact List.mem_cons_self
      · split at h
        · cases h
        · cases h
          exact List.mem_cons_self
        · exact List.mem_cons_of_mem _ (ih h)

namespace Trace

/-- A traced run in English stays in English. -/
theorem inEnglish (h : Trace rest s ls ms s') (hs : s.InEnglish) : s'.InEnglish := by
  induction h with
  | nil s => exact hs
  | cons chosen reads leaves english tail ih =>
    exact ih (hs.goes (mem_of_chosen? chosen) reads english)

/-- The lines of a trace are those with roles. -/
theorem map_text_eq (h : Trace rest s ls ms s') : ms.map (·.text) = ls.map (·.text) := by
  induction h with
  | nil s => rfl
  | cons chosen reads leaves english tail ih => rw [List.map_cons, List.map_cons, ih]

/-- Two traces, one behind the other, are a trace. -/
theorem append {s'' : ParseState} (h : Trace (ls' ++ rest) s ls ms s')
    (h' : Trace rest s' ls' ms' s'') : Trace rest s (ls ++ ls') (ms ++ ms') s'' := by
  induction h with
  | nil s => exact h'
  | cons chosen reads leaves english tail ih =>
    refine .cons ?_ reads leaves english (ih h')
    rw [← List.append_assoc] at chosen
    exact chosen

/-- A trace can be cut where its roles are cut. -/
theorem append_inv {s'' : ParseState} (h : Trace rest s ls (ms ++ ms') s'') :
    ∃ ls₁ ls₂ s', ls = ls₁ ++ ls₂ ∧ Trace (ls₂ ++ rest) s ls₁ ms s'
      ∧ Trace rest s' ls₂ ms' s'' := by
  induction ms generalizing s ls with
  | nil => exact ⟨[], ls, s, rfl, .nil s, h⟩
  | cons m ms ih =>
    cases h with
    | cons chosen reads leaves english tail =>
      obtain ⟨ls₁, ls₂, s', rfl, h₁, h₂⟩ := ih tail
      refine ⟨_ :: ls₁, ls₂, s', rfl, .cons ?_ reads leaves english h₁, h₂⟩
      rw [List.append_assoc] at chosen
      exact chosen

/-- The reader chooses along a trace as the trace says. -/
theorem choose_eq (hs : s.faults = [])
    (chosen : s.reading.chosen? l rest s.place.entries = some (some e))
    (reads : s.reading.token? l e.kind = .ok (some token)) :
    s.choose l rest s.place.entries = (s, some (e, token)) :=
  (choose_eq_iff hs).mpr ⟨chosen, reads⟩

/-- A trace over all lines is the run over them, and gives them their roles. -/
theorem run_eq (h : Trace [] s ls ms s') (hs : s.faults = []) :
    s.run ls = s' ∧ s.marks ls = ms := by
  induction h with
  | nil s => exact ⟨rfl, rfl⟩
  | cons chosen reads leaves english tail ih =>
    rw [List.append_nil] at chosen
    have hchoose := choose_eq hs chosen reads
    obtain ⟨hrun, hmarks⟩ := ih hs
    rw [run_cons, marks, mark, advance_eq hchoose leaves, hrun, hmarks, hchoose]
    exact ⟨rfl, rfl⟩

end Trace

/-- Until the language is given, the dialect stays. -/
theorem dialect_goes_of_start {d : Dialect} (hstart : s.place = .start → s.reading.dialect = d)
    (he : e ∈ s.place.entries) (hreads : s.reading.token? l e.kind = .ok (some token))
    (hnext : e.next = .start) : (s.goes l e.next token).reading.dialect = d := by
  obtain ⟨hat, hkind⟩ := State.kind_of_next_start he hnext
  rw [goes, ← hstart hat]
  refine s.reading.dialect_after l ?_
  rw [Reading.kind_of_token? hreads]
  rcases hkind with hkind | hkind <;> rw [hkind] <;> decide

/-- A run without a fault that starts and ends in English is a trace. -/
theorem trace_of_run (h : (s.run ls).faults = [])
    (hstart : s.place = .start → s.reading.dialect = Dialect.english)
    (hend : (s.run ls).reading.dialect = Dialect.english) :
    Trace [] s ls (s.marks ls) (s.run ls) := by
  induction ls generalizing s with
  | nil => exact .nil s
  | cons l ls ih =>
    have hfaults : (s.advance l ls).faults = [] := faults_of_run h
    obtain ⟨e, token, hchoose, hleave, heq⟩ := exists_choose_of_faultless hfaults
    obtain ⟨chosen, reads⟩ := (choose_eq_iff (faults_of_advance hfaults)).mp hchoose
    rw [run_cons, heq] at h hend ⊢
    have hnext := dialect_goes_of_start hstart (mem_of_chosen? chosen) reads
    have henglish : (s.goes l e.next token).reading.dialect = Dialect.english := by
      by_cases hplace : e.next = .start
      · exact hnext hplace
      · rw [← dialect_of_run hplace h]
        exact hend
    have hmark : s.mark l ls = ⟨s.place.role e.kind, l.text⟩ := by
      rw [mark, hchoose]
      rfl
    rw [marks, hmark, heq]
    refine .cons ?_ reads hleave henglish (ih h hnext hend)
    rw [List.append_nil]
    exact chosen

end ParseState

/-! ### Documents -/

/-- The places in front of the title of the feature. -/
def State.heads : List State := [start, languageGiven, featureTags]

/-- Only the title of the feature leads away from the places in front of it. -/
theorem State.next_of_heads : ∀ place ∈ heads, ∀ e ∈ place.entries,
    e.next ∈ heads ∨ e.kind = .featureLine ∨ e.kind = .eof := by
  decide

namespace ParseState

/-- Behind its title there is a feature. -/
theorem heads_or_feature_of_run {d : Dialect} {ls : List Line}
    (h : ((start d).run ls).faults = []) :
    ((start d).run ls).place ∈ State.heads ∨ ((start d).run ls).document.feature.isSome := by
  refine run_induction (P := fun s => s.place ∈ State.heads ∨ s.document.feature.isSome)
    (Q := fun _ => True) ?_ (.inl List.mem_cons_self) (fun _ _ => trivial) h
  intro s l e token hs _ ht _
  have hkind : token.kind = e.kind := Reading.kind_of_token? ht.reads
  have hmap := s.document.language_take (s.reading.after l token).dialect.name l s.place e.next
    token
  have hsome : (token.kind = .featureLine ∨ s.document.feature.isSome) →
      (s.goes l e.next token).document.feature.isSome := by
    intro hor
    rw [← Option.isSome_map (f := (·.language))]
    rw [goes, hmap]
    split
    · rfl
    · next hne =>
      rw [Option.isSome_map]
      exact hor.resolve_left hne
  rcases hs with hs | hs
  · rcases State.next_of_heads s.place hs e ht.mem with hnext | hk | hk
    · exact .inl hnext
    · exact .inr (hsome (.inl (hkind.trans hk)))
    · have hreads := ht.reads
      rw [hk] at hreads
      cases hreads
  · exact .inr (hsome (.inr hs))

/-- In front of a language line, the dialect is that of the start. -/
theorem dialect_of_run_to_start {d : Dialect} {ls : List Line}
    (h : ((start d).run ls).faults = []) (hplace : ((start d).run ls).place = .start) :
    ((start d).run ls).reading.dialect = d :=
  run_induction (P := fun s => s.place = .start → s.reading.dialect = d) (Q := fun _ => True)
    (fun _ _ _ _ hs _ ht _ => dialect_goes_of_start hs ht.mem ht.reads) (fun _ => rfl)
    (fun _ _ => trivial) h hplace

end ParseState

namespace Ast.Document

variable {source : Text} {d : Document}

/-- Where a document may end, there is no feature in front of the place only before the first
line. -/
theorem mayEnd_heads :
    ∀ place ∈ State.heads, place.entries.any (·.kind = .eof) → place = .start := by
  decide

/-- A text that is read in English leads the reader on a trace to its document. -/
theorem trace_of_parse (h : parse english source = .ok d)
    (hlanguage : ∀ f ∈ d.feature, f.language = english.name) :
    ∃ s, ParseState.Trace [] (ParseState.start english) (Line.ofText source) source.marked s
      ∧ s.document = d ∧ s.leave .done = s ∧ s.place.entries.any (·.kind = .eof) := by
  obtain ⟨hfaults, rfl, hleave⟩ := run_of_parse h
  have hend : ((ParseState.start english).run (Line.ofText source)).place.entries.any
      (·.kind = .eof) := by
    obtain ⟨hread, -⟩ := parse_ok_iff.mp h
    by_contra hnot
    rw [read, ParseState.finish, if_neg hnot] at hread
    exact ParseState.note_ne_nil _ _ hread
  refine ⟨_, ParseState.trace_of_run hfaults (fun _ => rfl) ?_, rfl, hleave, hend⟩
  rcases ParseState.heads_or_feature_of_run hfaults with hplace | hfeature
  · exact ParseState.dialect_of_run_to_start hfaults (mayEnd_heads _ hplace hend)
  · obtain ⟨f, hf⟩ := Option.isSome_iff_exists.mp hfeature
    have hs := (ParseState.sound_start Dialect.english_mem).run
      (fun l hl => Line.isCut_of_mem_ofText hl) hfaults
    exact Dialect.eq_of_name_eq hs.known Dialect.english_mem
      ((hs.language f hf).symm.trans (hlanguage f hf))

/-- A trace over all lines leads to the document that is read. -/
theorem parse_of_trace {s : ParseState} {ms : List Marked}
    (h : ParseState.Trace [] (ParseState.start english) (Line.ofText source) ms s)
    (hleave : s.leave .done = s) (hend : s.place.entries.any (·.kind = .eof)) :
    parse english source = .ok s.document ∧ source.marked = ms := by
  obtain ⟨hrun, hmarks⟩ := h.run_eq rfl
  refine ⟨parse_ok_iff.mpr ?_, hmarks⟩
  rw [read, hrun, ParseState.finish, if_pos hend, hleave]
  exact ⟨(h.inEnglish ParseState.inEnglish_start).faultless, rfl⟩

end Ast.Document

end FeatureTree
