import FeatureTree.Proofs.Gherkin.Faultless
import FeatureTree.Proofs.Gherkin.Laws
import FeatureTree.Proofs.Plain.Fit

/-!
# The law of a dialect

What holds of everything that is read in a dialect (`Ast.Law.ofDialect`): titles and steps have
keywords of it, names and texts are trimmed and stand on one line, tags are tags, cells have lost
their padding, and no line of a description looks like something that could follow it there. That
is so because a token is only taken by an entry of its place, behind the entries that refused its
line.

## Main results

* `State.refuses_described`: at a place where free text goes on a description, everything that could
  end the description is tried before
* `Ast.Law.keeps_of_takes`: a token that is taken keeps the law of its dialect
-/

namespace FeatureTree

open Plain (Free not_opens_nil)

/-! ### Line ends -/

/-- Whether the only line feeds of a text are at its end. -/
def Text.EndsLine (t : Text) : Prop := ∃ y e : Text, t = y ++ e ∧ y.OneLine ∧ ∀ c ∈ e, c = '\n'

namespace Text.EndsLine

variable {t : Text}

/-- Dropping characters from the start leaves line feeds at the end only. -/
theorem drop (h : t.EndsLine) (n : Nat) : EndsLine (t.drop n) := by
  obtain ⟨y, e, rfl, hy, he⟩ := h
  exact ⟨y.drop n, e.drop (n - y.length), List.drop_append, fun hm => hy (List.mem_of_mem_drop hm),
    fun c hc => he c (List.mem_of_mem_drop hc)⟩

/-- The end of a text has line feeds at its end only if the text has. -/
theorem of_suffix {s : Text} (h : t.EndsLine) (hs : s <:+ t) : EndsLine s := by
  rw [List.suffix_iff_eq_drop.mp hs]
  exact h.drop _

/-- A text with line feeds at its end only keeps them there once trimmed at its start. -/
theorem trimStart (h : t.EndsLine) : EndsLine (trimStart t) := h.of_suffix (List.dropWhile_suffix _)

/-- Dropping at the end takes the line feeds, if they are among what is dropped. -/
theorem oneLine_dropEndWhile (h : t.EndsLine) {p : Char → Bool} (hp : p '\n' = true) :
    OneLine (dropEndWhile p t) := by
  obtain ⟨y, e, rfl, hy, he⟩ := h
  rw [dropEndWhile_append_of_all fun c hc => by rw [he c hc]; exact hp]
  exact fun hm => hy ((dropEndWhile_isPrefix p y).subset hm)

/-- A text with line feeds at its end only is one line once trimmed. -/
theorem oneLine_trim (h : t.EndsLine) : OneLine (trim t) :=
  h.trimStart.oneLine_dropEndWhile isBlank_lineFeed

end Text.EndsLine

namespace Line

/-- A line of a document, as it is cut. -/
def IsCut (l : Line) : Prop := ∃ t : Text, t.OneLine ∧ l.Shows t

variable {l : Line}

/-- A line that is cut from a text has line feeds at its end only. -/
theorem IsCut.endsLine (h : l.IsCut) : l.text.EndsLine := by
  obtain ⟨t, ht, hl⟩ := h
  obtain ⟨e, hl, he⟩ := hl.exists_end
  exact ⟨t, e, hl, ht, he⟩

/-- A source line is one line with or without a line feed behind it. -/
theorem exists_oneLine_of_mem_sourceLines {t line : Text} (h : line ∈ t.sourceLines) :
    ∃ y : Text, y.OneLine ∧ (line = y ∨ line = y ++ ['\n']) := by
  induction t generalizing line with
  | nil => cases h
  | cons c t ih =>
    rw [Text.sourceLines] at h
    split at h
    · rcases List.mem_cons.mp h with rfl | h
      · exact ⟨[], by simp [Text.OneLine], .inr rfl⟩
      · exact ih h
    · next hc =>
      split at h
      · obtain rfl := List.mem_singleton.mp h
        exact ⟨[c], by simpa [Text.OneLine] using Ne.symm hc, .inl rfl⟩
      · next line' lines hs =>
        rcases List.mem_cons.mp h with rfl | h
        · have hmem : line' ∈ Text.sourceLines t := by
            rw [hs]
            exact List.mem_cons_self
          obtain ⟨y, hy, heq⟩ := ih hmem
          refine ⟨c :: y, ?_, heq.imp (congrArg (c :: ·)) (congrArg (c :: ·))⟩
          simpa [Text.OneLine] using ⟨Ne.symm hc, hy⟩
        · exact ih (by rw [hs]; simp [h])

/-- The lines of a text are cut from it. -/
theorem isCut_of_mem_ofText {source : Text} (h : l ∈ ofText source) : l.IsCut := by
  have hmem : l.text ∈ source.sourceLines := by
    rw [← map_text_numberFrom 1 source.sourceLines]
    exact List.mem_map_of_mem h
  obtain ⟨y, hy, hl⟩ := exists_oneLine_of_mem_sourceLines hmem
  exact ⟨y, hy, hl⟩

/-- What is left of a line without its end can be a line of content. -/
theorem isContentLine_withoutEnd {t : Text} (h : t.EndsLine) :
    Reading.IsContentLine (withoutEnd t) := by
  refine ⟨h.oneLine_dropEndWhile rfl, fun c hc => ?_⟩
  have := Text.getLast?_dropEndWhile c hc
  rintro rfl
  revert this
  decide

/-- So can what is left of it in a doc string. -/
theorem isContentLine_fencedText {fence : Fence} (hmark : Text.IsFence fence.mark) (h : l.IsCut) :
    Reading.IsContentLine (l.fencedText fence) := by
  have hends : (if fence.indent > l.indent then l.trimmed
      else l.text.drop fence.indent).EndsLine := by
    split
    · exact h.endsLine.trimStart
    · exact h.endsLine.drop _
  rw [fencedText]
  refine isContentLine_withoutEnd ?_
  generalize (if fence.indent > l.indent then l.trimmed else l.text.drop fence.indent) = t at hends
  obtain ⟨q, hq, hesc, -, hne, -⟩ := hmark.eq_triple
  obtain ⟨y, e, rfl, hy, he⟩ := hends
  refine ⟨Text.restore fence.mark y, e, ?_, ?_, he⟩
  · cases e with
    | nil => rw [List.append_nil, List.append_nil, Text.restore]
    | cons c e =>
      obtain rfl : c = '\n' := he c (by simp)
      have hkeep : Text.replaceAll (escapedFence fence.mark) fence.mark e = e := by
        have hother : ∀ c ∈ e, ∀ d ∈ (escapedFence fence.mark).head?, c ≠ d := by
          intro c hc d hd
          obtain rfl : '\\' = d := by simpa [hesc] using hd
          rw [he c (List.mem_cons_of_mem _ hc)]
          decide
        have hsame : Text.replaceAll (escapedFence fence.mark) fence.mark (e ++ [])
            = e ++ Text.replaceAll (escapedFence fence.mark) fence.mark [] :=
          Text.replaceAll_append_of_not_mem hother (by simp [hesc]) []
        simpa using hsame
      rw [Text.replaceAll_append_cons (by simp [hesc, Ne.symm hne]) (by simp [hesc]), hkeep,
        Text.restore]
  · have hmark : Text.OneLine fence.mark := by simpa [hq, Text.OneLine] using Ne.symm hne
    exact Text.oneLine_replaceAll hmark (by simp [hesc]) hy

end Line

/-! ### What is tried before free text -/

namespace State

/-- Free text is tried last. -/
theorem kind_ne_other (place : State) : ∀ e ∈ place.entries.dropLast, e.kind ≠ .other := by
  have key : place.entries.dropLast.all (·.kind ≠ .other) = true := by
    cases place with
    | step scope owner given => cases owner <;> cases given <;> rfl
    | title scope owner | titleText scope owner => cases owner <;> rfl
    | _ => rfl
  exact fun e he => by simpa using List.all_eq_true.mp key e he

/-- Where free text goes on a description, everything that could end the description is tried. -/
theorem exists_described {place : State} {kind : TokenKind} (h : place.titleKind? = some kind) :
    ∀ k ∈ describedBy kind,
      k = .eof ∨ k = .other ∨ ∃ e ∈ place.entries, e.kind = k ∧ e.ahead = none := by
  have key : (describedBy kind).all (fun k => k = .eof || k = .other
      || place.entries.any fun e => e.kind = k && e.ahead = none) = true := by
    cases place with
    | heading scope | headingText scope => cases scope <;> cases h <;> rfl
    | title scope owner | titleText scope owner => cases owner <;> cases h <;> rfl
    | examples scope | examplesText scope => cases h; rfl
    | _ => cases h
  intro k hk
  simpa [or_assoc] using List.all_eq_true.mp key k hk

end State

namespace ParseState

variable {s : ParseState} {l : Line}

/-- A line that is taken as free text was refused by every other entry that does not look ahead. -/
theorem Takes.refuses {e : Entry} {token : Token} (h : s.Takes l s.place.entries e token)
    (hother : e.kind = .other) {e' : Entry} (he' : e' ∈ s.place.entries) (hahead : e'.ahead = none)
    (hne : e'.kind ≠ .other) : s.reading.token? l e'.kind = .ok none := by
  obtain ⟨-, before, after, hsplit, hbefore⟩ := h
  have hafter : after = [] := by
    rcases List.eq_nil_or_concat' after with rfl | ⟨ys, y, rfl⟩
    · rfl
    · refine absurd hother (s.place.kind_ne_other e ?_)
      rw [hsplit, ← List.cons_append, ← List.append_assoc, List.dropLast_concat]
      simp
  rw [hsplit, hafter] at he'
  rcases List.mem_append.mp he' with he' | he'
  · exact hbefore e' he' hahead
  · obtain rfl := List.mem_singleton.mp he'
    exact absurd hother hne

/-- A line that goes on a description is free. -/
theorem Takes.free {e : Entry} {token : Token} (h : s.Takes l s.place.entries e token)
    (hother : e.kind = .other) (hd : s.reading.dialect.Distinct) (hf : s.reading.fence = none)
    {kind : TokenKind} (hkind : s.place.titleKind? = some kind) :
    Free s.reading.dialect kind (Line.withoutEnd l.text) := by
  intro k hk ⟨w, hw, hp⟩
  have ho := Dialect.mem_openable_of_mem_openers hw
  have hne : k ≠ .other := by rintro rfl; exact absurd ho (by decide)
  obtain ⟨e', he', rfl, hahead⟩ : ∃ e' ∈ s.place.entries, e'.kind = k ∧ e'.ahead = none := by
    rcases State.exists_described hkind k hk with rfl | rfl | h
    · exact absurd ho (by decide)
    · exact absurd rfl hne
    · exact h
  refine (Reading.token?_eq_none_iff hf ho).mp (h.refuses hother he' hahead hne) ⟨w, hw, ?_⟩
  -- what is dropped at the end of the line comes behind the opener
  obtain ⟨u, hu⟩ : ∃ u, l.text = Line.withoutEnd l.text ++ u := by
    obtain ⟨u, hu, -⟩ := Text.exists_dropEndWhile_append (fun c => c = '\r' || c = '\n') l.text
    exact ⟨u, hu⟩
  have htrim : Text.trimStart (Line.withoutEnd l.text) ≠ [] := by
    intro hnil
    rw [hnil, List.prefix_nil] at hp
    exact not_opens_nil hd e'.kind ⟨w, hw, hp ▸ List.nil_prefix⟩
  have happend : l.trimmed = Text.trimStart (Line.withoutEnd l.text) ++ u := by
    generalize Line.withoutEnd l.text = t at hu htrim
    rw [Line.trimmed, hu, Text.trimStart, List.dropWhile_append, if_neg]
    · rfl
    · simpa [Text.trimStart] using htrim
  rw [happend]
  exact hp.trans (List.prefix_append _ _)

end ParseState

/-! ### The law -/

/-- What holds of everything that is read in a dialect. -/
def Ast.Law.ofDialect (d : Dialect) : Ast.Law where
  heading kind h := h.keyword ∈ d.titleWords kind ∧ h.name.Trimmed ∧ h.name.OneLine
    ∧ ∀ t ∈ h.description, Free d kind t ∧ t.OneLine
  tag t := IsTag t.name
  step s := s.keyword ∈ d.stepKeywords ∧ s.text.Trimmed ∧ s.text.OneLine
    ∧ (∀ r ∈ s.table, ∀ v ∈ r.values, Cell.Tidy v)
    ∧ ∀ t ∈ s.docString, t.mediaType.Trimmed ∧ t.mediaType.OneLine
      ∧ ∀ line ∈ t.lines, Reading.IsContentLine line
  rows rows := ∀ r ∈ rows, ∀ v ∈ r.values, Cell.Tidy v

/-- The kind of a token. -/
def Token.kind : Token → TokenKind
  | .eof => .eof
  | .empty => .empty
  | .comment _ => .comment
  | .tagLine _ => .tagLine
  | .featureLine _ => .featureLine
  | .ruleLine _ => .ruleLine
  | .backgroundLine _ => .backgroundLine
  | .scenarioLine _ => .scenarioLine
  | .examplesLine _ => .examplesLine
  | .stepLine _ _ _ => .stepLine
  | .docStringSeparator _ _ => .docStringSeparator
  | .tableRow _ => .tableRow
  | .language _ => .language
  | .other _ => .other

namespace Reading

variable {r : Reading} {l : Line}

/-- A line is read as a token of the kind that is asked for. -/
theorem kind_of_token? {kind : TokenKind} {token : Token}
    (h : r.token? l kind = .ok (some token)) : token.kind = kind := by
  cases kind <;> simp only [token?] at h
  case tagLine =>
    cases ht : l.tags? with
    | error f => rw [ht] at h; cases h
    | ok ts =>
      rw [ht] at h
      cases ts with
      | none => cases h
      | some ts => cases h; rfl
  case language =>
    split at h
    · cases h
    · split at h
      · cases h; rfl
      · cases h
  case docStringSeparator =>
    split at h
    · rw [Except.ok.injEq, Option.map_eq_some_iff] at h
      obtain ⟨p, -, rfl⟩ := h
      rfl
    · split at h <;> cases h
      rfl
  case featureLine | ruleLine | backgroundLine | scenarioLine | examplesLine | stepLine =>
    rw [Except.ok.injEq, Option.map_eq_some_iff] at h
    obtain ⟨p, -, rfl⟩ := h
    rfl
  case empty | comment | tableRow =>
    split at h <;> cases h
    rfl
  all_goals cases h <;> rfl

/-- What is read as a title has a keyword of its kind and a trimmed name. -/
theorem title_of_token? (hl : l.IsCut) {kind : TokenKind} (hkind : kind ∈ TokenKind.titles)
    {title : TitleLine} (h : r.token? l kind = .ok (some (Token.ofTitle title kind))) :
    title.keyword ∈ r.dialect.titleWords kind ∧ title.name.Trimmed ∧ title.name.OneLine := by
  rw [token?_title hkind, Except.ok.injEq, Option.map_eq_some_iff] at h
  obtain ⟨title', h, heq⟩ := h
  have hinj : title' = title := by
    cases kind <;> first | exact absurd hkind (by decide) | (cases heq; rfl)
  subst hinj
  rw [Line.title?, Option.map_eq_some_iff] at h
  obtain ⟨k, hk, rfl⟩ := h
  exact ⟨List.mem_of_find?_eq_some hk, Text.trimmed_trim _,
    (hl.endsLine.trimStart.drop _).oneLine_trim⟩

/-- What is read as a step has a keyword of steps and a trimmed text. -/
theorem step_of_token? (hl : l.IsCut) {keyword text : Text} {role : StepRole}
    (h : r.token? l .stepLine = .ok (some (.stepLine keyword role text))) :
    keyword ∈ r.dialect.stepKeywords ∧ text.Trimmed ∧ text.OneLine := by
  rw [token?, Except.ok.injEq, Option.map_eq_some_iff] at h
  obtain ⟨k, hk, heq⟩ := h
  cases heq
  exact ⟨(Dialect.mem_of_stepKeywordOf? hk).1, Text.trimmed_trim _,
    (hl.endsLine.trimStart.drop _).oneLine_trim⟩

/-- What is read as a delimiter has a trimmed media type. -/
theorem fence_of_token? (hl : l.IsCut) {mark mediaType : Text}
    (h : r.token? l .docStringSeparator = .ok (some (.docStringSeparator mark mediaType))) :
    mediaType.Trimmed ∧ mediaType.OneLine ∧ (r.fence = none → Text.IsFence mark) := by
  cases hf : r.fence with
  | none =>
    simp only [token?, hf, Except.ok.injEq, Option.map_eq_some_iff] at h
    obtain ⟨⟨mark', mediaType'⟩, h, heq⟩ := h
    cases heq
    rw [Line.openingFence?] at h
    have key : ∀ fence : Text, (if fence.isPrefixOf l.trimmed then
        some (fence, Text.trim (l.trimmed.drop fence.length)) else none)
          = some (mark', mediaType') →
        fence = mark' ∧ mediaType'.Trimmed ∧ mediaType'.OneLine := by
      intro fence h
      split at h
      · cases h
        exact ⟨rfl, Text.trimmed_trim _, (hl.endsLine.trimStart.drop _).oneLine_trim⟩
      · cases h
    rw [Option.orElse_eq_orElse, Option.orElse_eq_or, Option.or_eq_some_iff] at h
    rcases h with h | ⟨-, h⟩
    · obtain ⟨rfl, htrimmed, hline⟩ := key _ h
      exact ⟨htrimmed, hline, fun _ => .inl rfl⟩
    · obtain ⟨rfl, htrimmed, hline⟩ := key _ h
      exact ⟨htrimmed, hline, fun _ => .inr rfl⟩
  | some fence =>
    simp only [token?, hf] at h
    split at h <;> cases h
    exact ⟨Text.trimmed_nil, by simp [Text.OneLine], fun h => by cases h⟩

/-- What is read as a row has cells without padding. -/
theorem row_of_token? {cells : List (Nat × Text)}
    (h : r.token? l .tableRow = .ok (some (.tableRow cells))) :
    ∀ v ∈ (Ast.Row.ofCells l.location cells).values, Cell.Tidy v := by
  simp only [token?] at h
  split at h
  · cases h
    intro v hv
    have hv : v ∈ (Cell.ofRow l.column l.trimmed.trim).map (·.2) := by
      simpa [Ast.Row.values, Ast.Row.ofCells] using hv
    rw [Cell.ofRow, Cell.values_withColumns] at hv
    obtain ⟨p, -, rfl⟩ := List.mem_map.mp hv
    exact Cell.tidy_trim _
  · cases h

end Reading

/-- A token that is taken keeps the law of its dialect, if no doc string is open where free text
goes on a description. -/
theorem Ast.Law.keeps_of_takes {s : ParseState} {l : Line} {e : Entry} {token : Token}
    (h : s.Takes l s.place.entries e token) (hl : l.IsCut) (hd : s.reading.dialect.Distinct)
    (hmark : ∀ fence ∈ s.reading.fence, Text.IsFence fence.mark)
    (hfence : ∀ kind, s.place.titleKind? = some kind → s.reading.fence = none) :
    (Ast.Law.ofDialect s.reading.dialect).Keeps l s.place token := by
  have hkind : token.kind = e.kind := Reading.kind_of_token? h.reads
  have hreads : s.reading.token? l token.kind = .ok (some token) := hkind ▸ h.reads
  have htext : ∀ text, token = .other text → Reading.IsContentLine text := by
    rintro text rfl
    have hread : s.reading.token? l .other = .ok (some (.other text)) := hreads
    cases hf : s.reading.fence with
    | none =>
      simp only [Reading.token?, hf, Except.ok.injEq, Option.some.injEq, Token.other.injEq] at hread
      exact hread ▸ Line.isContentLine_withoutEnd hl.endsLine
    | some fence =>
      simp only [Reading.token?, hf, Except.ok.injEq, Option.some.injEq, Token.other.injEq] at hread
      exact hread ▸ Line.isContentLine_fencedText (hmark fence hf) hl
  constructor
  case heading =>
    rintro kind hkind' title rfl
    have hsame : (Token.ofTitle title kind).kind = kind := by
      cases kind <;> first | rfl | exact absurd hkind' (by decide)
    rw [hsame] at hreads
    obtain ⟨hword, htrimmed, hline⟩ := Reading.title_of_token? hl hkind' hreads
    exact ⟨hword, htrimmed, hline, by simp [Ast.Heading.ofTitle]⟩
  case tag =>
    rintro tags rfl p hp
    have hread : s.reading.token? l .tagLine = .ok (some (.tagLine tags)) := hreads
    simp only [Reading.token?] at hread
    cases ht : l.tags? with
    | error f => rw [ht] at hread; cases hread
    | ok ts =>
      rw [ht] at hread
      cases ts with
      | none => cases hread
      | some ts =>
        cases hread
        exact Line.isTag_of_tags? ht p hp
  case noRows => exact fun _ _ => by simp [Ast.Law.ofDialect]
  case step =>
    rintro keyword role text rfl
    obtain ⟨hword, htrimmed, hline⟩ := Reading.step_of_token? hl hreads
    exact ⟨hword, htrimmed, hline, by simp, by simp⟩
  case description =>
    rintro text rfl kind hplace x ⟨hword, htrimmed, hline, hlines⟩
    have hf := hfence kind hplace
    have hread : s.reading.token? l .other = .ok (some (.other text)) := hreads
    simp only [Reading.token?, hf, Except.ok.injEq, Option.some.injEq, Token.other.injEq] at hread
    refine ⟨hword, htrimmed, hline, fun t ht => ?_⟩
    rcases List.mem_append.mp ht with ht | ht
    · exact hlines t ht
    · obtain rfl := List.mem_singleton.mp ht
      exact ⟨hread ▸ h.free hkind.symm hd hf hplace, (htext _ rfl).oneLine⟩
  case content =>
    rintro text rfl x ⟨hword, htrimmed, hline, hrows, hdoc⟩
    refine ⟨hword, htrimmed, hline, hrows, fun t ht => ?_⟩
    obtain ⟨t', ht', rfl⟩ := Option.map_eq_some_iff.mp ht
    obtain ⟨htype, htypeLine, hlines⟩ := hdoc t' ht'
    refine ⟨htype, htypeLine, fun line hmem => ?_⟩
    rcases List.mem_append.mp hmem with hmem | hmem
    · exact hlines line hmem
    · obtain rfl := List.mem_singleton.mp hmem
      exact htext line rfl
  case fence =>
    rintro mark mediaType rfl x ⟨hword, htrimmed, hline, hrows, -⟩
    obtain ⟨htype, htypeLine, -⟩ := Reading.fence_of_token? hl hreads
    refine ⟨hword, htrimmed, hline, hrows, fun t ht => ?_⟩
    obtain rfl := Option.some.inj ht
    exact ⟨htype, htypeLine, by simp⟩
  case stepRow =>
    rintro cells rfl x ⟨hword, htrimmed, hline, hrows, hdoc⟩
    refine ⟨hword, htrimmed, hline, fun r hr => ?_, hdoc⟩
    rcases List.mem_append.mp hr with hr | hr
    · exact hrows r hr
    · obtain rfl := List.mem_singleton.mp hr
      exact Reading.row_of_token? hreads
  case row =>
    rintro cells rfl rows hrows r hr
    rcases List.mem_append.mp hr with hr | hr
    · exact hrows r hr
    · obtain rfl := List.mem_singleton.mp hr
      exact Reading.row_of_token? hreads

end FeatureTree
