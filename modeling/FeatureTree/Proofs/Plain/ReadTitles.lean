import FeatureTree.Proofs.Plain.ReadSteps

/-!
# Titles that are read back

A titled part begins with its tags, its title line and its description, which stands behind a blank
line; further blank lines may follow. In front of a description a blank line is skipped, behind its
first line a blank line is a line of the description, and such lines at its end are dropped when the
description is put into its normal form. So it makes no difference to what is read how many blank
lines follow, and the blank line in front of an inner part is counted to the part before it.

## Main results

* `Plain.passes_title`: tags and a title line begin a part
* `Plain.passes_description`: a description is read as itself, however many blank lines follow
* `Plain.flatMap_gap`: the lines of inner parts, with each blank line behind the part before it
-/

namespace FeatureTree

open Ast (Document)

/-- Adds lines to a description. -/
def Ast.Heading.extend (ts : List Text) (h : Ast.Heading) : Ast.Heading :=
  { h with description := h.description ++ ts }

/-- A description can be extended in two steps. -/
theorem Ast.Heading.extend_extend (ts us : List Text) (h : Ast.Heading) :
    (h.extend ts).extend us = h.extend (ts ++ us) := by
  simp [extend]

namespace ParseState

/-- Whether a run of lines leads the reader to a place of some sort where it is ready for the next
part, with a given document. -/
def Leads (s : ParseState) (ls : List Line) (P : State → Prop) (document : Document) : Prop :=
  ∃ place, P place ∧ s.Passes ls (s.moved place document) ∧ (s.moved place document).Ready

/-- Lines lead on from where the lines in front of them lead. -/
theorem Leads.append {s : ParseState} {ls ls' : List Line} {P Q : State → Prop}
    {document document' : Document} (h : s.Leads ls P document)
    (h' : ∀ place, P place → (s.moved place document).Ready →
      (s.moved place document).Leads ls' Q document') : s.Leads (ls ++ ls') Q document' := by
  obtain ⟨place, hP, hrun, hready⟩ := h
  obtain ⟨place', hQ, hrun', hready'⟩ := h' place hP hready
  exact ⟨place', hQ, hrun.append hrun', hready'⟩

/-- Lines that lead to a place of some sort lead to one of a wider sort. -/
theorem Leads.mono {s : ParseState} {ls : List Line} {P Q : State → Prop} {document : Document}
    (h : s.Leads ls P document) (hPQ : ∀ place, P place → Q place) : s.Leads ls Q document := by
  obtain ⟨place, hP, hrest⟩ := h
  exact ⟨place, hPQ place hP, hrest⟩

/-- No lines lead to where the reader is. -/
theorem Ready.leads_nil {s : ParseState} (h : s.Ready) {P : State → Prop} (hP : P s.place) :
    s.Leads [] P s.document := ⟨s.place, hP, .nil s, h⟩

end ParseState

namespace Plain

variable {s : ParseState} {ls : List Line}

/-! ### Blank lines -/

/-- An empty line leaves the document alone. -/
theorem take_empty (d : Document) (language : Text) (l : Line) (here next : State) :
    d.take language l here next .empty = d := by
  cases next <;> rfl

/-- Blank lines are skipped where they can be no part of a description. -/
theorem passes_blanks (hs : s.Ready) (hplace : s.place.next? .empty = some s.place) {k : Nat}
    (hls : Line.Spell ls (List.replicate k [])) : s.Passes ls s := by
  induction k generalizing ls with
  | zero =>
    cases hls
    exact .nil s
  | succ k ih =>
    rw [List.replicate_succ] at hls
    obtain _ | @⟨l, _, ls, _, hl, hls⟩ := hls
    have honly := Reading.only_blank hs.distinct hs.fence hl
    have hrun := ParseState.passes_of_only honly (by decide) (by decide) hplace
      ParseState.leave_self
    rw [ParseState.goes_eq_moved rfl, take_empty] at hrun
    exact hrun.append (ih hls)

/-! ### Descriptions -/

/-- A description ends at the end, at free text or at what can be opened. -/
theorem describedBy_subset {kind k : TokenKind} (h : k ∈ State.describedBy kind) :
    k = .eof ∨ k = .other ∨ k ∈ TokenKind.openable := by
  revert h
  revert k
  cases kind <;> decide

/-- A line that shows a text is the text once trimmed, with or without a line feed, or empty. -/
theorem trimmed_of_shows {l : Line} {t : Text} (hl : l.Shows t) :
    (t.trimStart = [] ∧ l.trimmed = []) ∨
      t.trimStart ≠ [] ∧ (l.trimmed = t.trimStart ∨ l.trimmed = t.trimStart ++ ['\n']) := by
  obtain ⟨e, he, htext⟩ := hl.exists_lineFeed
  have hblank : ∀ c ∈ e, isBlank c = true := by rcases he with rfl | rfl <;> simp
  by_cases ht : t.trimStart = []
  · left
    rw [Line.trimmed, htext, Text.trimStart_append_of_blank (Text.trimStart_eq_nil_iff.mp ht)]
    exact ⟨ht, Text.trimStart_eq_nil_iff.mpr hblank⟩
  · right
    have : l.trimmed = t.trimStart ++ e := by
      rw [Line.trimmed, htext, Text.trimStart, List.dropWhile_append, if_neg]
      · rfl
      · simpa [Text.trimStart] using ht
    rw [this]
    rcases he with rfl | rfl
    · exact ⟨ht, .inl (List.append_nil _)⟩
    · exact ⟨ht, .inr rfl⟩

/-- A line that can stand in a description is refused as everything that could end it. -/
theorem refuses_of_free (hd : s.reading.dialect.Distinct) (hf : s.reading.fence = none)
    {kind : TokenKind} {t : Text} (hfree : Free s.reading.dialect kind t) {l : Line}
    (hl : l.Shows t) {k : TokenKind} (hk : k ∈ State.describedBy kind) (hother : k ≠ .other) :
    s.reading.token? l k = .ok none := by
  rcases describedBy_subset hk with rfl | rfl | ho
  · rfl
  · exact absurd rfl hother
  · rw [Reading.token?_eq_none_iff hf ho]
    rintro ⟨w, hw, hp⟩
    rcases trimmed_of_shows hl with ⟨-, hnil⟩ | ⟨-, heq | heq⟩
    · rw [hnil] at hp
      exact not_opens_nil hd k ⟨w, hw, hp⟩
    · rw [heq] at hp
      exact hfree k hk ⟨w, hw, hp⟩
    · rw [heq] at hp
      exact hfree k hk ⟨w, hw, Text.prefix_of_prefix_append_cons hp (hd.oneLine k w hw)⟩

/-- A line that shows a text without breaks is the text, once its end is taken away. -/
theorem withoutEnd_of_shows {l : Line} {t : Text} (hl : l.Shows t) (ht : t.NoBreak) :
    Line.withoutEnd l.text = t := by
  obtain ⟨e, he, htext⟩ := hl.exists_lineFeed
  rw [htext, Line.withoutEnd, Text.dropEndWhile_append_of_all, Text.dropEndWhile_eq_self]
  · intro c hc
    have hbreak : isLineBreak c = false := ht c (List.mem_of_mem_getLast? hc)
    have hr : c ≠ '\r' := fun h => by subst h; revert hbreak; decide
    have hn : c ≠ '\n' := fun h => by subst h; revert hbreak; decide
    simp [hr, hn]
  · rcases he with rfl | rfl <;> simp

/-- A free line becomes a line of the description, at the title or further below. -/
theorem passes_freeLine {kind : TokenKind} {place text : State}
    (hdesc : State.Describes kind place text) (hs : s.Ready)
    (hplace : s.place = place ∨ s.place = text) {t : Text}
    (hfree : Free s.reading.dialect kind t) (ht : t.NoBreak)
    (hblank : s.place = place → t.trimStart ≠ [])
    {l : Line} (hl : l.Shows t) :
    s.Passes [l] (s.moved text (s.document.onTitle place (·.extend [t]))) := by
  have hread : s.reading.token? l .other = .ok (some (.other t)) := by
    simp only [Reading.token?, hs.fence, withoutEnd_of_shows hl ht]
  have hnext : s.place.text? = some text := by
    rcases hplace with h | h <;> rw [h]
    · exact hdesc.begins
    · exact hdesc.goes_on
  have hfree' : ∀ e ∈ s.place.entries, e.kind ≠ .other →
      s.reading.token? l e.kind = .ok none := by
    intro e he ho
    have hmem : e.kind = .empty ∧ s.place = place ∨ e.kind ∈ State.describedBy kind := by
      rcases hplace with h | h <;> rw [h] at he
      · rcases hdesc.kinds_place e he with hk | hk
        · exact .inl ⟨hk, h⟩
        · exact .inr hk
      · exact .inr (hdesc.kinds_text e he)
    rcases hmem with ⟨hk, hp⟩ | hk
    · rcases trimmed_of_shows hl with ⟨hnil, -⟩ | ⟨hne, heq | heq⟩
      · exact absurd hnil (hblank hp)
      · rw [hk]
        simp [Reading.token?, heq, hne]
      · rw [hk]
        simp [Reading.token?, heq]
    · exact refuses_of_free hs.distinct hs.fence hfree hl hk ho
  have hstep : ∀ scope owner given, s.place ≠ .step scope owner given := by
    intro scope owner given
    rcases hplace with h | h <;> rw [h]
    · exact (hdesc.not_step scope owner given).1
    · exact (hdesc.not_step scope owner given).2
  have hdoc : s.document.takeText t s.place = s.document.onTitle place (·.extend [t]) := by
    rw [Document.takeText_eq_onTitle _ _ hstep]
    rcases hplace with h | h <;> rw [h]
    · rfl
    · rw [hdesc.onTitle]
      rfl
  have hrun := ParseState.passes_of_free hread hfree' hnext (hs.settled _)
  rw [ParseState.goes_eq_moved rfl] at hrun
  exact hdoc ▸ hrun

/-- The description at a place can be extended in two steps. -/
theorem onTitle_extend_extend (d : Document) (place : State) (ts us : List Text) :
    (d.onTitle place (·.extend ts)).onTitle place (·.extend us)
      = d.onTitle place (·.extend (ts ++ us)) := by
  rw [Document.onTitle_onTitle]
  simp only [Ast.Heading.extend_extend]

/-- Extending a description by nothing changes nothing. -/
theorem onTitle_extend_nil (d : Document) (place : State) :
    d.onTitle place (·.extend []) = d :=
  d.onTitle_eq_self place fun h => by simp [Ast.Heading.extend]

/-- In a description, free lines become further lines of it. -/
theorem passes_freeLines {kind : TokenKind} {place text : State}
    (hdesc : State.Describes kind place text) (hne : text ≠ place) (hs : s.Ready)
    (hplace : s.place = text) {ts : List Text} (hfree : ∀ t ∈ ts, Free s.reading.dialect kind t)
    (hts : ∀ t ∈ ts, t.NoBreak) (hls : Line.Spell ls ts) :
    s.Passes ls (s.moved text (s.document.onTitle place (·.extend ts))) := by
  induction ts generalizing s ls with
  | nil =>
    cases hls
    rw [onTitle_extend_nil, ← hplace]
    exact .nil s
  | cons t ts ih =>
    obtain _ | @⟨l, _, ls, _, hl, hls⟩ := hls
    have hrun := passes_freeLine hdesc hs (.inr hplace) (hfree t (by simp)) (hts t (by simp))
      (fun h => absurd (hplace.symm.trans h) hne) hl
    have hready : (s.moved text (s.document.onTitle place (·.extend [t]))).Ready :=
      ⟨hs.distinct, hs.fence, (Document.tags_onTitle _ _ _).trans hs.tags,
        ParseState.settled_of_not_inTable hdesc.not_inTable.2⟩
    have hrest := ih hready rfl (fun u hu => hfree u (List.mem_cons_of_mem _ hu))
      (fun u hu => hts u (List.mem_cons_of_mem _ hu)) hls
    have hdoc := onTitle_extend_extend s.document place [t] ts
    exact hdoc ▸ hrun.append hrest

/-- The lines of a description under a title: a blank line and the description, if there is one. -/
def describedLines (description : Text) : List Text :=
  if description.isEmpty then [] else [] :: description.splitLines

/-- A description is read as itself, however many blank lines follow. -/
theorem passes_description {kind : TokenKind} {place text : State}
    (hdesc : State.Describes kind place text) (hne : text ≠ place) (hs : s.Ready)
    (hplace : s.place = place) {description : Text} (hnormal : description.Normal)
    (hfree : ∀ l ∈ description.splitLines, Free s.reading.dialect kind l) {k : Nat}
    (hls : Line.Spell ls (describedLines description ++ List.replicate k [])) :
    ∃ ts, Text.joinLines (Text.dropEndWhile List.isEmpty ts) = description
      ∧ s.Leads ls (fun p => p = place ∨ p = text) (s.document.onTitle place (·.extend ts)) := by
  by_cases hempty : description = []
  · subst hempty
    refine ⟨[], rfl, ?_⟩
    rw [onTitle_extend_nil]
    have hrun := passes_blanks hs (hplace ▸ hdesc.blank) hls
    exact ⟨s.place, .inl hplace, hrun, hs⟩
  · obtain ⟨-, -, hbreak, hcons, hhead, -⟩ := hnormal.lines hempty
    rw [describedLines, if_neg (by simpa using hempty), List.cons_append] at hls
    obtain _ | @⟨l, _, ls, _, hl, hls⟩ := hls
    have hblank : s.Passes [l] s :=
      passes_blanks hs (hplace ▸ hdesc.blank) (k := 1) (.cons hl .nil)
    -- the first line of the description leads into it
    obtain ⟨t, ts, hts⟩ := List.exists_cons_of_ne_nil hcons
    rw [hts] at hls hbreak hhead hfree
    obtain _ | @⟨l', _, ls, _, hl', hls⟩ := hls
    have hfirst := passes_freeLine hdesc hs (.inl hplace) (hfree t (by simp)) (hbreak t (by simp))
      (fun _ => Text.isAllBlank_eq_false_iff.mp (hhead t (by simp))) hl'
    have hready : (s.moved text (s.document.onTitle place (·.extend [t]))).Ready :=
      ⟨hs.distinct, hs.fence, (Document.tags_onTitle _ _ _).trans hs.tags,
        ParseState.settled_of_not_inTable hdesc.not_inTable.2⟩
    have hls' : Line.Spell ls (ts ++ List.replicate k []) := hls
    have hrest := passes_freeLines hdesc hne hready rfl ?_ ?_ hls'
    · have hdoc := onTitle_extend_extend s.document place [t] (ts ++ List.replicate k [])
      refine ⟨t :: ts ++ List.replicate k [], ?_, text, .inr rfl,
        hdoc ▸ hblank.append (hfirst.append hrest), ?_⟩
      · rw [← hts]
        exact hnormal.of_blank_lines_behind hempty k
      · exact ⟨hs.distinct, hs.fence, (Document.tags_onTitle _ _ _).trans hs.tags,
          ParseState.settled_of_not_inTable hdesc.not_inTable.2⟩
    · intro u hu
      rcases List.mem_append.mp hu with hu | hu
      · exact hfree u (List.mem_cons_of_mem _ hu)
      · rw [List.eq_of_mem_replicate hu]
        exact free_nil hs.distinct kind
    · intro u hu
      rcases List.mem_append.mp hu with hu | hu
      · exact hbreak u (List.mem_cons_of_mem _ hu)
      · rw [List.eq_of_mem_replicate hu]
        simp [Text.NoBreak]

/-! ### Tags and titles -/

/-- The line of tags in front of a title, if there are any. -/
def tagLines (tags : List Text) : List Text := if tags.isEmpty then [] else [Line.tagLine tags]

/-- Behind a title lines are read as before. -/
theorem reading_after_title (r : Reading) (l : Line) (title : TitleLine) (kind : TokenKind) :
    r.after l (Token.ofTitle title kind) = r := by
  cases kind <;> rfl

/-- A title is taken as a part of its own. -/
theorem take_title (d : Document) (language : Text) (l : Line) (here next : State)
    (title : TitleLine) (kind : TokenKind) :
    d.take language l here next (Token.ofTitle title kind)
      = d.takePart language l.location next (Token.ofTitle title kind) := by
  cases kind <;> rfl

/-- Tags and a title line begin a part. -/
theorem passes_title {kind : TokenKind} (hkind : kind ∈ TokenKind.titles) (hs : s.Ready)
    {place : State} (hnext : s.place.next? kind = some place) {k name : Text}
    (hword : s.reading.dialect.TitleWord kind k) (hname : name.Trimmed) {tags : List Text}
    (htags : ∀ t ∈ tags, IsTag t)
    (hplace : tags = [] ∨ ∃ tagged, s.place.next? .tagLine (some kind) = some tagged
      ∧ tagged.next? kind = some place ∧ tagged.inTable = false)
    (hls : Line.Spell ls (tagLines tags ++ [Layout.titleLine k name])) :
    ∃ (ts : List Ast.Tag) (loc : Location), ts.map (·.name) = tags
      ∧ s.Passes ls (s.moved place ((s.document.withTags ts).takePart
        s.reading.dialect.name loc place (Token.ofTitle ⟨k, name⟩ kind))) := by
  have hother : kind ≠ .other := by rintro rfl; exact absurd hkind (by decide)
  have htag : kind ≠ .tagLine := by rintro rfl; exact absurd hkind (by decide)
  by_cases hempty : tags = []
  · subst hempty
    obtain _ | @⟨l, _, _, _, hl, hnil⟩ := hls
    cases hnil
    have honly := Reading.only_title (m := []) hs.fence hkind hword hname .nil hl
    have hrun := ParseState.passes_of_only honly hother htag hnext (hs.settled _)
    rw [ParseState.goes_eq_moved (reading_after_title _ _ _ _), take_title] at hrun
    have hdoc : { s.document with tags := [] } = s.document := by rw [← hs.tags]
    exact ⟨[], l.location, rfl, hdoc ▸ hrun⟩
  · obtain ⟨tagged, hnextTag, hnextTitle, htable⟩ := hplace.resolve_left hempty
    rw [tagLines, if_neg (by simpa using hempty), List.singleton_append] at hls
    obtain _ | @⟨l, _, _, _, hl, hls⟩ := hls
    obtain _ | @⟨l', _, _, _, hl', hnil⟩ := hls
    cases hnil
    obtain ⟨cs, honly, hcs⟩ := Reading.only_tags hs.distinct hs.fence hempty htags hl
    have honly' := Reading.only_title (m := []) hs.fence hkind hword hname .nil hl'
    let ts : List Ast.Tag := cs.map fun c => ⟨⟨l.number, c.1⟩, c.2⟩
    have hfirst : ∀ rest, s.advance l (l' :: rest)
        = s.moved tagged (s.document.withTags ts) := by
      intro rest
      rw [ParseState.advance_of_only honly (by decide) hnextTag
        (fun _ k hk => ?_) (hs.settled _), ParseState.goes_eq_moved rfl]
      · refine congrArg _ ?_
        rw [Document.take, hs.tags, List.nil_append]
        rfl
      · rw [ParseState.looksAhead_of_only honly' hkind hk]
        simp
    have hsecond := ParseState.passes_of_only
      (s := s.moved tagged (s.document.withTags ts)) honly' hother htag hnextTitle
      (ParseState.settled_of_not_inTable htable _)
    rw [ParseState.goes_eq_moved (reading_after_title _ _ _ _),
      take_title] at hsecond
    refine ⟨ts, l'.location, ?_, fun rest => ?_⟩
    · rw [← hcs, List.map_map]
      rfl
    · rw [List.cons_append, ParseState.run_cons, List.singleton_append, hfirst]
      exact hsecond rest

/-- How a part begins, with blank lines behind. -/
theorem exists_opening_eq (tags : List Text) (title description : Text) (hasBody : Bool) (j : Nat) :
    ∃ k, Layout.opening tags title description hasBody ++ List.replicate j []
      = (tagLines tags ++ [title]) ++ (describedLines description ++ List.replicate k []) := by
  have htags : (if tags.isEmpty then [] else [[' '].intercalate tags]) = tagLines tags := rfl
  rw [Layout.opening, htags]
  by_cases hempty : description = []
  · exact ⟨j, by simp [hempty, describedLines]⟩
  · cases hasBody with
    | false => exact ⟨j, by simp [hempty, describedLines]⟩
    | true => exact ⟨j + 1, by simp [hempty, describedLines, List.replicate_succ]⟩

/-- A title with its tags and its description is read as itself: what the title begins has the tags
and gets the description. -/
theorem passes_opening {kind : TokenKind} (hkind : kind ∈ TokenKind.titles) (hs : s.Ready)
    {place text : State} (hdesc : State.Describes kind place text) (hne : text ≠ place)
    (hnext : s.place.next? kind = some place) {h : Heading} (hfit : h.Fit s.reading.dialect kind)
    {tags : List Text} (htags : ∀ t ∈ tags, IsTag t)
    (hplace : tags = [] ∨ ∃ tagged, s.place.next? .tagLine (some kind) = some tagged
      ∧ tagged.next? kind = some place ∧ tagged.inTable = false)
    (hforget : ∀ (ts : List Ast.Tag) loc, ts.map (·.name) = tags →
      ((s.document.withTags ts).takePart
      s.reading.dialect.name loc place (Token.ofTitle ⟨h.keyword, h.name⟩ kind)).tags = [])
    {hasBody : Bool} {j : Nat}
    (hls : Line.Spell ls (Layout.opening tags (Layout.titleLine h.keyword h.name) h.description
      hasBody ++ List.replicate j [])) :
    ∃ (ts : List Ast.Tag) (loc : Location) (ds : List Text), ts.map (·.name) = tags
      ∧ ((Ast.Heading.ofTitle loc ⟨h.keyword, h.name⟩).extend ds).plain = h
      ∧ s.Leads ls (fun p => p = place ∨ p = text)
        (((s.document.withTags ts).takePart s.reading.dialect.name loc place
          (Token.ofTitle ⟨h.keyword, h.name⟩ kind)).onTitle place (·.extend ds)) := by
  obtain ⟨k, hlines⟩ := exists_opening_eq tags (Layout.titleLine h.keyword h.name) h.description
    hasBody j
  rw [hlines] at hls
  obtain ⟨ls, ls', rfl, htitle, hdescription⟩ := Line.Spell.append_inv hls
  obtain ⟨ts, loc, hts, hrun⟩ :=
    passes_title hkind hs hnext hfit.word hfit.name_trimmed htags hplace htitle
  have hready : (s.moved place ((s.document.withTags ts).takePart s.reading.dialect.name
      loc place (Token.ofTitle ⟨h.keyword, h.name⟩ kind))).Ready :=
    ⟨hs.distinct, hs.fence, hforget ts loc hts,
      ParseState.settled_of_not_inTable hdesc.not_inTable.1⟩
  obtain ⟨ds, hds, place', hplace', hrun', hready'⟩ :=
    passes_description hdesc hne hready rfl hfit.normal hfit.free hdescription
  refine ⟨ts, loc, ds, hts, ?_, place', hplace', hrun.append hrun', hready'⟩
  have hnormal : h.description.trimDescription = h.description := hfit.normal
  rw [Ast.Heading.plain, Ast.Heading.descriptionText, Ast.Heading.extend, Ast.Heading.ofTitle,
    List.nil_append, hds, hnormal]
  have hkeyword : Text.trim h.keyword = h.keyword := hfit.word.trimmed
  simp only [hkeyword]

/-! ### Inner parts -/

/-- The number of blank lines in front of the first of some inner parts, or behind if there are
none. -/
def gap (inner : List (List Text)) (j : Nat) : Nat := if inner.isEmpty then j else 1

/-- The lines of inner parts, each with the blank lines behind it. -/
def gapped : List (List Text) → Nat → List Text
  | [], _ => []
  | part :: inner, j => (part ++ List.replicate (gap inner j) []) ++ gapped inner j

/-- The lines of inner parts, with each blank line behind the part before it. -/
theorem flatMap_gap (inner : List (List Text)) (j : Nat) :
    inner.flatMap ([] :: ·) ++ List.replicate j []
      = List.replicate (gap inner j) [] ++ gapped inner j := by
  induction inner with
  | nil => simp [gap, gapped]
  | cons part inner ih =>
    have hgap : gap (part :: inner) j = 1 := rfl
    rw [List.flatMap_cons, List.append_assoc, ih, gapped, hgap, List.append_assoc]
    rfl

/-- The blank lines in front of some parts are those in front of the first of them. -/
theorem gap_append (xs ys : List (List Text)) (j : Nat) :
    gap (xs ++ ys) j = gap xs (gap ys j) := by
  cases xs <;> simp [gap]

/-- Inner parts in two groups are the one group in front of the other. -/
theorem gapped_append (xs ys : List (List Text)) (j : Nat) :
    gapped (xs ++ ys) j = gapped xs (gap ys j) ++ gapped ys j := by
  induction xs with
  | nil => rfl
  | cons x xs ih => simp only [List.cons_append, gapped, gap_append, ih, List.append_assoc]

/-- Inner parts are added one by one, if each of them is added wherever parts of their sort can
begin. -/
theorem leads_inner {α β γ : Type} (lines : α → List Text) (plain : β → γ) (back : α → γ)
    (P : State → Prop) (add : List β → Document → Document) (hnil : ∀ d, add [] d = d)
    (hadd : ∀ d x xs, add xs (add [x] d) = add (x :: xs) d) {ps : List α}
    (hstep : ∀ p ∈ ps, ∀ (s' : ParseState) (ls' : List Line) (j : Nat), s'.reading = s.reading →
      s'.Ready → P s'.place → Line.Spell ls' (lines p ++ List.replicate j []) →
      ∃ x, plain x = back p ∧ s'.Leads ls' P (add [x] s'.document))
    (hs : s.Ready) (hP : P s.place) {j : Nat} (hls : Line.Spell ls (gapped (ps.map lines) j)) :
    ∃ xs, xs.map plain = ps.map back ∧ s.Leads ls P (add xs s.document) := by
  have key : ∀ (s' : ParseState) (ls : List Line), s'.reading = s.reading → s'.Ready →
      P s'.place → Line.Spell ls (gapped (ps.map lines) j) →
      ∃ xs, xs.map plain = ps.map back ∧ s'.Leads ls P (add xs s'.document) := by
    clear hs hP hls
    induction ps with
    | nil =>
      intro s' ls _ hs hP hls
      cases hls
      exact ⟨[], rfl, (hnil s'.document).symm ▸ hs.leads_nil hP⟩
    | cons p ps ih =>
      intro s' ls hreading hs hP hls
      obtain ⟨ls, ls', rfl, hfirst, hrest⟩ := Line.Spell.append_inv hls
      obtain ⟨x, hx, hlead⟩ := hstep p (by simp) s' ls _ hreading hs hP hfirst
      obtain ⟨place, hplace, hrun, hready⟩ := hlead
      obtain ⟨xs, hxs, place', hplace', hrun', hready'⟩ :=
        ih (fun q hq => hstep q (List.mem_cons_of_mem _ hq)) (s'.moved place (add [x] s'.document))
          ls' hreading hready hplace hrest
      refine ⟨x :: xs, by rw [List.map_cons, List.map_cons, hx, hxs], place', hplace', ?_, ?_⟩
      · exact hadd s'.document x xs ▸ hrun.append hrun'
      · exact hadd s'.document x xs ▸ hready'
  exact key s ls rfl hs hP hls

end Plain

end FeatureTree
