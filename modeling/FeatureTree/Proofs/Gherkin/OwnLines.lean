import FeatureTree.Proofs.Gherkin.Order

/-!
# The own lines of parts

Each part of a document begins on a line of the text, which says what the part is called: its title,
step, row, tag or comment, or the delimiter of a doc string (`Sign`). A part keeps the number of the
line that it was read from, so the line of that number shows the sign of the part
(`Sign.StandsAt`). That is a law of documents (`Ast.Law.onLines`): whatever a line is read as, it
shows the signs of all that it begins (`Reading.on_of_token?`).

The lines of a text are counted here between its line feeds, so the line on which a part stands is
given without its end.

## Main results

* `Line.isAt_of_mem_ofText`: the reader numbers the lines of a text from one
* `Reading.on_of_token?`: a line shows the signs of what it is read as
* `Ast.Document.onLines_of_parse`: the parts of a document that is read stand on the lines of its
  text that their numbers name
-/

namespace FeatureTree

/-! ### Signs -/

/-- What the line on which a part begins says of it. -/
inductive Sign where
  | title (kind : TokenKind) (keyword name : Value)
  | step (keyword text : Value)
  | delimiter (mediaType : Value)
  | row (values : List Value)
  | cell (value : Value)
  | tag (name : Value)
  | comment (text : Value)

namespace Sign

/-- The cells of a line that is a row. -/
def cellsOf (t : Text) : List Text := (Cell.ofRow 1 t.trim).map (·.2)

/-- The tags of a line of tags, each with its `@`. -/
def tagsOf (t : Text) : List Text :=
  ((Line.beforeComment t.trim).trim.splitAtChar '@').tail.map ('@' :: ·.trim)

/-- Whether a line shows a sign: behind its blanks it starts with a keyword of the kind, or with
the mark of rows, tags, comments or doc strings, and goes on with what the part holds. -/
def On (t : Text) : Sign → Prop
  | title kind keyword name => ∃ d ∈ Dialect.all, ∃ w ∈ d.titleWords kind, ∃ rest : Text,
    t.trimStart = w ++ ':' :: rest ∧ keyword = .text w.trim ∧ name = .text rest.trim
  | step keyword text => ∃ d ∈ Dialect.all, ∃ w ∈ d.stepKeywords, ∃ rest : Text,
    t.trimStart = w ++ rest ∧ keyword = .text w.trim ∧ text = .text rest.trim
  | delimiter mediaType => ∃ mark ∈ [quoteFence, backtickFence], ∃ rest : Text,
    t.trimStart = mark ++ rest ∧ mediaType = .text rest.trim
  | row values => t.trimStart.head? = some '|' ∧ values = (cellsOf t).map .text
  | cell value => t.trimStart.head? = some '|' ∧ value ∈ (cellsOf t).map Value.text
  | tag name => t.trimStart.head? = some '@' ∧ name ∈ (tagsOf t).map Value.text
  | comment text => t.trimStart.head? = some '#' ∧ text = .text t.trim

/-- Whether a sign stands on the line of a number, where the lines given are those from `first`
on. -/
def StandsAt (first : Nat) (texts : List Text) (line : Nat) (s : Sign) : Prop :=
  ∃ i t, line = first + i ∧ texts[i]? = some t ∧ s.On t

end Sign

/-! ### The lines of a text -/

namespace Text

/-- A source line is the line between line feeds at its place, with or without its end. -/
theorem exists_splitLines_of_sourceLines {t line : Text} {i : Nat}
    (h : (sourceLines t)[i]? = some line) :
    ∃ u, (splitLines t)[i]? = some u ∧ (line = u ∨ line = u ++ ['\n']) := by
  induction t generalizing i line with
  | nil => cases h
  | cons c t ih =>
    rw [sourceLines] at h
    rw [splitLines, splitAtChar]
    by_cases hc : c = '\n'
    · rw [if_pos hc] at h ⊢
      cases i with
      | zero =>
        cases h
        exact ⟨[], rfl, .inr rfl⟩
      | succ i => exact ih h
    · rw [if_neg hc] at h ⊢
      cases hp : splitAtChar '\n' t with
      | nil => exact absurd hp (splitAtChar_ne_nil '\n' t)
      | cons piece pieces =>
        rw [splitLines, hp] at ih
        cases hs : sourceLines t with
        | nil =>
          have ht : t = [] := by
            rw [← flatten_sourceLines t, hs]
            rfl
          subst ht
          rw [hs] at h
          cases hp
          obtain ⟨rfl, rfl⟩ : i = 0 ∧ [c] = line := by
            cases i with
            | zero => exact ⟨rfl, Option.some.inj h⟩
            | succ i => cases h
          exact ⟨[c], rfl, .inl rfl⟩
        | cons line' lines =>
          rw [hs] at h ih
          cases i with
          | zero =>
            cases h
            obtain ⟨u, hu, hline⟩ := @ih line' 0 rfl
            cases hu
            exact ⟨c :: piece, rfl, hline.imp (congrArg (c :: ·)) (congrArg (c :: ·))⟩
          | succ i => exact @ih line (i + 1) h

end Text

namespace Line

/-- Whether a line shows the line of its number, without its end. -/
def IsAt (texts : List Text) (l : Line) : Prop :=
  ∃ i t, l.number = 1 + i ∧ texts[i]? = some t ∧ l.Shows t

/-- The reader numbers the lines of a text from one. -/
theorem isAt_of_mem_ofText {source : Text} {l : Line} (h : l ∈ ofText source) :
    l.IsAt source.splitLines := by
  obtain ⟨i, hi, rfl⟩ := List.getElem_of_mem h
  have htext : source.sourceLines[i]? = some (ofText source)[i].text := by
    rw [← map_text_numberFrom 1 source.sourceLines, ← ofText, List.getElem?_map,
      List.getElem?_eq_getElem hi]
    rfl
  obtain ⟨u, hu, hshows⟩ := Text.exists_splitLines_of_sourceLines htext
  exact ⟨i, u, by rw [number_getElem_ofText, Nat.add_comm], hu, hshows⟩

variable {l : Line} {t : Text}

/-- Behind its blanks a line goes on as the text that it shows, and then it ends. -/
theorem Shows.exists_trimStart (h : l.Shows t) :
    ∃ e, l.trimmed = t.trimStart ++ e ∧ ∀ c ∈ e, c = '\n' := by
  obtain ⟨e, hl, he⟩ := h.exists_end
  have hblank : ∀ c ∈ e, isBlank c = true := blank_of_lineFeeds he
  rw [Line.trimmed, hl]
  cases ht : t.trimStart with
  | nil =>
    refine ⟨[], ?_, by simp⟩
    rw [Text.trimStart_append_of_blank (Text.trimStart_eq_nil_iff.mp ht),
      Text.trimStart_eq_nil_iff.mpr hblank]
    rfl
  | cons c r =>
    refine ⟨e, ?_, he⟩
    rw [← ht, Text.trimStart, List.dropWhile_append, if_neg]
    · rfl
    · simpa [Text.trimStart] using congrArg List.isEmpty ht

/-- A line and the text that it shows are the same once trimmed. -/
theorem Shows.trim_text (h : l.Shows t) : l.text.trim = t.trim := by
  obtain ⟨e, hl, he⟩ := h.exists_end
  rw [hl, Text.trim_append_blank t (blank_of_lineFeeds he)]

/-- What starts a line behind its blanks starts the text that it shows, and the rest is the same
apart from blanks. -/
theorem Shows.exists_rest (h : l.Shows t) {w : Text} (hw : w.OneLine) (hp : w <+: l.trimmed) :
    ∃ rest : Text, t.trimStart = w ++ rest
      ∧ Text.trim (l.trimmed.drop w.length) = rest.trim := by
  obtain ⟨e, hl, he⟩ := h.exists_trimStart
  obtain ⟨u, hu⟩ := hp
  rw [hl] at hu
  rcases List.append_eq_append_iff.mp hu with ⟨rest, ht, rfl⟩ | ⟨v, hv, rfl⟩
  · refine ⟨rest, ht, ?_⟩
    rw [hl, ht, List.append_assoc, List.drop_left, Text.trim_append_blank _ (blank_of_lineFeeds he)]
  · -- a word that goes over the end of the line has nothing there
    obtain rfl : v = [] := List.eq_nil_iff_forall_not_mem.mpr fun c hc => by
      obtain rfl := he c (List.mem_append_left _ hc)
      exact hw (hv ▸ List.mem_append_right _ hc)
    rw [List.append_nil] at hv
    refine ⟨[], by rw [hv, List.append_nil], ?_⟩
    rw [hl, hv, List.drop_left, List.nil_append]
    exact Text.trim_append_blank [] (blank_of_lineFeeds he)

/-- What a trimmed line starts with, the text that it shows starts with. -/
theorem Shows.head?_trimStart (h : l.Shows t) {c : Char} (hc : c ≠ '\n')
    (hl : l.trimmed.head? = some c) : t.trimStart.head? = some c := by
  obtain ⟨rest, hrest, -⟩ := h.exists_rest (w := [c]) (by simpa [Text.OneLine] using Ne.symm hc)
    (Reading.head?_eq_some_iff.mp hl)
  rw [hrest]
  rfl

/-- The tags of a line are its pieces with an at sign in front. -/
theorem map_tagsFrom {column : Nat} {pieces : List Text} {cs : List (Nat × Text)}
    (h : tagsFrom column pieces = .ok cs) : cs.map (·.2) = pieces.map ('@' :: ·.trim) := by
  induction pieces generalizing column cs with
  | nil =>
    cases h
    rfl
  | cons p ps ih =>
    rw [tagsFrom] at h
    split at h
    · cases h
    · cases hrest : tagsFrom (column + p.length + 1) ps with
      | error f => rw [hrest] at h; cases h
      | ok rest =>
        rw [hrest] at h
        cases h
        rw [List.map_cons, ih hrest, List.map_cons]

end Line

/-! ### What a line is read as -/

/-- The signs of all that a token begins. -/
def Token.signs : Token → List Sign
  | .featureLine x => [.title .featureLine (.text x.keyword.trim) (.text x.name)]
  | .ruleLine x => [.title .ruleLine (.text x.keyword.trim) (.text x.name)]
  | .backgroundLine x => [.title .backgroundLine (.text x.keyword.trim) (.text x.name)]
  | .scenarioLine x => [.title .scenarioLine (.text x.keyword.trim) (.text x.name)]
  | .examplesLine x => [.title .examplesLine (.text x.keyword.trim) (.text x.name)]
  | .stepLine keyword _ text => [.step (.text keyword.trim) (.text text)]
  | .docStringSeparator _ mediaType => [.delimiter (.text mediaType)]
  | .tableRow cells => .row (cells.map (.text ·.2)) :: cells.map (.cell <| .text ·.2)
  | .tagLine tags => tags.map (.tag <| .text ·.2)
  | .comment text => [.comment (.text text.trim)]
  | _ => []

namespace Reading

variable {r : Reading} {l : Line} {t : Text}

/-- A title that is read from a line is on the line that is shown. -/
theorem on_of_title (hd : r.dialect ∈ Dialect.all) (hl : l.Shows t) {kind : TokenKind}
    (hkind : kind ∈ TokenKind.titles) {x : TitleLine}
    (h : l.title? (r.dialect.titleWords kind) = some x) :
    (Sign.title kind (.text x.keyword.trim) (.text x.name)).On t := by
  rw [Line.title?, Option.map_eq_some_iff] at h
  obtain ⟨w, hw, rfl⟩ := h
  have hmem : w ∈ r.dialect.titleWords kind := List.mem_of_find?_eq_some hw
  have hp : (w ++ [':']).isPrefixOf l.trimmed = true := by simpa using List.find?_some hw
  have hopener : w ++ [':'] ∈ r.dialect.openers kind := by
    rw [openers_title hkind]
    exact List.mem_map_of_mem hmem
  obtain ⟨rest, hrest, hdrop⟩ :=
    hl.exists_rest ((Dialect.distinct_of_mem hd).oneLine kind _ hopener)
      (List.isPrefixOf_iff_prefix.mp hp)
  rw [List.length_append] at hdrop
  exact ⟨r.dialect, hd, w, hmem, rest, by simpa using hrest, rfl, congrArg Value.text hdrop⟩

/-- A step that is read from a line is on the line that is shown. -/
theorem on_of_step (hd : r.dialect ∈ Dialect.all) (hl : l.Shows t) {w : Text}
    (h : r.dialect.stepKeywordOf? l.trimmed = some w) :
    (Sign.step (.text w.trim) (.text (Text.trim (l.trimmed.drop w.length)))).On t := by
  obtain ⟨hmem, hp⟩ := Dialect.mem_of_stepKeywordOf? h
  obtain ⟨rest, hrest, hdrop⟩ :=
    hl.exists_rest ((Dialect.distinct_of_mem hd).oneLine .stepLine w hmem)
      (List.isPrefixOf_iff_prefix.mp hp)
  exact ⟨r.dialect, hd, w, hmem, rest, hrest, rfl, congrArg Value.text hdrop⟩

/-- A doc string whose fence is read from a line is on the line that is shown. -/
theorem on_of_fence (hl : l.Shows t) {mark mediaType : Text}
    (h : l.openingFence? = some (mark, mediaType)) :
    (Sign.delimiter (.text mediaType)).On t := by
  have hlines : ∀ mark ∈ [quoteFence, backtickFence], Text.OneLine mark := by
    simp [Text.OneLine, quoteFence, backtickFence]
  have key : ∀ mark' ∈ [quoteFence, backtickFence],
      (if mark'.isPrefixOf l.trimmed then some (mark', Text.trim (l.trimmed.drop mark'.length))
        else none) = some (mark, mediaType) → (Sign.delimiter (.text mediaType)).On t := by
    intro mark' hmark h
    split at h
    · next hp =>
      cases h
      obtain ⟨rest, hrest, hdrop⟩ :=
        hl.exists_rest (hlines mark hmark) (List.isPrefixOf_iff_prefix.mp hp)
      exact ⟨mark, hmark, rest, hrest, congrArg Value.text hdrop⟩
    · cases h
  rw [Line.openingFence?, Option.orElse_eq_orElse, Option.orElse_eq_or,
    Option.or_eq_some_iff] at h
  rcases h with h | ⟨-, h⟩
  · exact key quoteFence (by simp) h
  · exact key backtickFence (by simp) h

/-- A row and its cells that are read from a line are on the line that is shown. -/
theorem on_of_row (hl : l.Shows t) (h : l.trimmed.head? = some '|') :
    ∀ sign ∈ (Token.tableRow (Cell.ofRow l.column l.trimmed.trim)).signs, sign.On t := by
  have hhead : t.trimStart.head? = some '|' := hl.head?_trimStart (by decide) h
  have hcells : (Cell.ofRow l.column l.trimmed.trim).map (·.2) = Sign.cellsOf t := by
    rw [l.trim_trimmed, hl.trim_text, Cell.ofRow, Cell.values_withColumns, Sign.cellsOf,
      Cell.ofRow, Cell.values_withColumns]
  intro sign hsign
  rcases List.mem_cons.mp hsign with rfl | hsign
  · exact ⟨hhead, by rw [← hcells, List.map_map]; rfl⟩
  · obtain ⟨p, hp, rfl⟩ := List.mem_map.mp hsign
    exact ⟨hhead, List.mem_map_of_mem (hcells ▸ List.mem_map_of_mem hp)⟩

/-- Tags that are read from a line are on the line that is shown. -/
theorem on_of_tags (hl : l.Shows t) {tags : List (Nat × Text)} (h : l.tags? = .ok (some tags)) :
    ∀ sign ∈ (Token.tagLine tags).signs, sign.On t := by
  rw [Line.tags?] at h
  split at h
  case isFalse => cases h
  case isTrue hhead =>
    rw [l.trim_trimmed, hl.trim_text] at h
    cases hts : Line.tagsFrom l.column
        ((Text.trim (Line.beforeComment t.trim)).splitAtChar '@').tail with
    | error f => simp only [hts, Except.map] at h; cases h
    | ok ts =>
      simp only [hts, Except.map] at h
      cases h
      intro sign hsign
      obtain ⟨p, hp, rfl⟩ := List.mem_map.mp hsign
      refine ⟨hl.head?_trimStart (by decide) hhead, List.mem_map_of_mem ?_⟩
      rw [Sign.tagsOf, ← Line.map_tagsFrom hts]
      exact List.mem_map_of_mem hp

/-- A comment that is read from a line is on the line that is shown. -/
theorem on_of_comment (hl : l.Shows t) (h : l.trimmed.head? = some '#') :
    (Sign.comment (.text (Line.withoutEnd l.text).trim)).On t := by
  refine ⟨hl.head?_trimStart (by decide) h, congrArg Value.text ?_⟩
  obtain ⟨u, hu, hends⟩ := Text.exists_dropEndWhile_append (fun c => c = '\r' || c = '\n') l.text
  have hblank : ∀ c ∈ u, isBlank c = true := by
    intro c hc
    rcases Bool.or_eq_true_iff.mp (hends c hc) with h | h <;> rw [of_decide_eq_true h] <;> decide
  rw [← hl.trim_text]
  conv_rhs => rw [hu, Text.trim_append_blank _ hblank]
  rfl

/-- A line shows the signs of what it is read as, unless it closes a doc string. -/
theorem on_of_token? (hd : r.dialect ∈ Dialect.all) (hl : l.Shows t) {kind : TokenKind}
    (hf : kind = .docStringSeparator → r.fence = none) {token : Token}
    (h : r.token? l kind = .ok (some token)) : ∀ sign ∈ token.signs, sign.On t := by
  have htitle : ∀ kind ∈ TokenKind.titles, r.token? l kind = .ok (some token) →
      ∃ x, l.title? (r.dialect.titleWords kind) = some x ∧ Token.ofTitle x kind = token := by
    intro kind hkind h
    rwa [token?_title hkind, Except.ok.injEq, Option.map_eq_some_iff] at h
  cases kind
  case featureLine | ruleLine | backgroundLine | scenarioLine | examplesLine =>
    obtain ⟨x, hx, rfl⟩ := htitle _ (by decide) h
    simpa [Token.ofTitle, Token.signs] using on_of_title hd hl (by decide) hx
  case stepLine =>
    rw [token?, Except.ok.injEq, Option.map_eq_some_iff] at h
    obtain ⟨w, hw, rfl⟩ := h
    simpa [Token.signs] using on_of_step hd hl hw
  case docStringSeparator =>
    simp only [token?, hf rfl, Except.ok.injEq, Option.map_eq_some_iff] at h
    obtain ⟨⟨mark, mediaType⟩, hopen, rfl⟩ := h
    simpa [Token.signs] using on_of_fence hl hopen
  case tableRow =>
    simp only [token?] at h
    split at h <;> cases h
    exact on_of_row hl ‹_›
  case tagLine =>
    simp only [token?] at h
    cases htags : l.tags? with
    | error f => rw [htags] at h; cases h
    | ok tags =>
      rw [htags] at h
      cases tags with
      | none => cases h
      | some tags =>
        cases h
        exact on_of_tags hl htags
  case comment =>
    simp only [token?] at h
    split at h <;> cases h
    simpa [Token.signs] using on_of_comment hl ‹_›
  case language =>
    simp only [token?] at h
    split at h
    · cases h
    · split at h <;> cases h
      exact List.forall_mem_nil _
  case empty =>
    simp only [token?] at h
    split at h <;> cases h
    exact List.forall_mem_nil _
  case other =>
    simp only [token?] at h
    cases h
    exact List.forall_mem_nil _
  case eof => cases h

end Reading

/-! ### Documents -/

namespace Ast

open Sign (StandsAt)

def Tag.sign (t : Tag) : Sign := .tag (.text t.name)

def Cell.sign (c : Cell) : Sign := .cell (.text c.value)

def Row.sign (r : Row) : Sign := .row (r.values.map .text)

def DocString.sign (s : DocString) : Sign := .delimiter (.text s.mediaType)

def Step.sign (s : Step) : Sign := .step (.text s.keyword.trim) (.text s.text)

def Heading.sign (kind : TokenKind) (h : Heading) : Sign :=
  .title kind (.text h.keyword.trim) (.text h.name)

def Comment.sign (c : Comment) : Sign := .comment (.text c.text.trim)

/-- Whether a row stands on the line that it names, and its cells on the same line. -/
structure Row.OnLines (first : Nat) (texts : List Text) (r : Row) : Prop where
  row : r.sign.StandsAt first texts r.loc.line
  cells : ∀ c ∈ r.cells, c.loc.line = r.loc.line ∧ c.sign.StandsAt first texts c.loc.line

/-- What stands on the lines that it names. -/
def Law.onLines (first : Nat) (texts : List Text) : Law where
  heading kind h := (h.sign kind).StandsAt first texts h.loc.line
  tag t := t.sign.StandsAt first texts t.loc.line
  step s := s.sign.StandsAt first texts s.loc.line ∧ (∀ r ∈ s.table, r.OnLines first texts)
    ∧ ∀ t ∈ s.docString, t.sign.StandsAt first texts t.loc.line
  rows rows := ∀ r ∈ rows, r.OnLines first texts

variable {first : Nat} {texts : List Text} {l : Line} {here : State} {token : Token}

/-- A token whose signs stand on its line keeps the law that all stands on its line. -/
theorem Law.onLines_keeps (h : ∀ sign ∈ token.signs, sign.StandsAt first texts l.number) :
    (onLines first texts).Keeps l here token := by
  have hrow : ∀ cells, token = .tableRow cells →
      (Row.ofCells l.location cells).OnLines first texts := by
    rintro cells rfl
    refine ⟨h _ ?_, fun c hc => ?_⟩
    · simp [Row.sign, Row.values, Row.ofCells, Token.signs, Function.comp_def]
    · obtain ⟨p, hp, rfl⟩ := List.mem_map.mp hc
      exact ⟨rfl, h _ (List.mem_cons_of_mem _ (List.mem_map_of_mem hp))⟩
  have hrows : ∀ cells, token = .tableRow cells → ∀ rows, (∀ r ∈ rows, Row.OnLines first texts r) →
      ∀ r ∈ rows ++ [.ofCells l.location cells], r.OnLines first texts := by
    intro cells htoken rows hrows r hr
    rcases List.mem_append.mp hr with hr | hr
    · exact hrows r hr
    · obtain rfl := List.mem_singleton.mp hr
      exact hrow cells htoken
  constructor
  case heading =>
    rintro kind hkind title rfl
    refine h _ ?_
    cases kind <;> first | exact absurd hkind (by decide) | exact List.mem_singleton_self _
  case tag =>
    rintro tags rfl p hp
    exact h _ (List.mem_map_of_mem (f := fun p : Nat × Text => Sign.tag (.text p.2)) hp)
  case noRows => exact fun _ _ => List.forall_mem_nil _
  case step =>
    rintro keyword role text rfl
    exact ⟨h _ (List.mem_singleton_self _), List.forall_mem_nil _,
      fun t ht => absurd ht (Option.not_mem_none t)⟩
  case description => exact fun _ _ _ _ _ hx => hx
  case content =>
    rintro _ _ s ⟨hstep, hrows, hdoc⟩
    refine ⟨hstep, hrows, fun t ht => ?_⟩
    obtain ⟨t', ht', rfl⟩ := Option.map_eq_some_iff.mp ht
    exact hdoc t' ht'
  case fence =>
    rintro mark mediaType rfl s ⟨hstep, hrows, -⟩
    refine ⟨hstep, hrows, fun t ht => ?_⟩
    obtain rfl := Option.some.inj ht
    exact h _ (List.mem_singleton_self _)
  case stepRow =>
    rintro cells htoken s ⟨hstep, htable, hdoc⟩
    exact ⟨hstep, hrows cells htoken _ htable, hdoc⟩
  case row => exact hrows

/-- The line that closes a doc string adds nothing. -/
theorem Document.take_closing {d : Document} (hplace : here.inText = true)
    (hkind : token.kind = .docStringSeparator) (language : Text) (next : State) :
    d.take language l here next token = d := by
  cases token <;> cases hkind
  cases here with
  | step scope owner given => cases given <;> first | rfl | cases hplace
  | _ => rfl

/-- Whether all that was read stands on its line: the parts of the feature, the tags that wait for
their title and the comments. -/
structure Document.OnLines (texts : List Text) (d : Document) : Prop where
  parts : d.Obeys (.onLines 1 texts)
  tags : ∀ t ∈ d.tags, t.sign.StandsAt 1 texts t.loc.line
  comments : ∀ c ∈ d.comments, c.sign.StandsAt 1 texts c.loc.line

/-- A line that is taken adds what stands on it. -/
theorem Document.OnLines.take {s : ParseState} {e : Entry} (h : s.document.OnLines texts)
    (hs : s.Sound) (ht : s.Takes l s.place.entries e token) (hl : l.IsAt texts) :
    (s.goes l e.next token).document.OnLines texts := by
  have hkind : token.kind = e.kind := Reading.kind_of_token? ht.reads
  by_cases hclosing : token.kind = .docStringSeparator ∧ s.place.inText = true
  · have hsame : (s.goes l e.next token).document = s.document :=
      take_closing hclosing.2 hclosing.1 (s.reading.after l token).dialect.name e.next
    rwa [hsame]
  · have hfence : e.kind = .docStringSeparator → s.reading.fence = none := by
      intro hk
      have htext : s.place.inText = false := by
        simpa using fun hin => hclosing ⟨hkind.trans hk, hin⟩
      simpa [htext] using hs.fence
    obtain ⟨i, t, hnumber, hat, hshows⟩ := hl
    have hsigns : ∀ sign ∈ token.signs, sign.StandsAt 1 texts l.number := fun sign hsign =>
      ⟨i, t, hnumber, hat, Reading.on_of_token? hs.known hshows hfence ht.reads sign hsign⟩
    have hkeeps : (Law.onLines 1 texts).Keeps l s.place token := Law.onLines_keeps hsigns
    constructor
    case parts =>
      exact h.parts.take h.tags hkeeps
        (fun text he => State.ne_examplesTable_of_other ht.mem (by rw [← hkind, he]; rfl)) _ e.next
    case tags =>
      intro t ht'
      rcases s.document.tags_take _ l s.place e.next token ht' with ht' | ⟨tags, rfl, p, hp, rfl⟩
      · exact h.tags t ht'
      · exact hkeeps.tag tags rfl p hp
    case comments =>
      intro c hc
      have hc : c ∈ (s.document.take _ l s.place e.next token).comments := hc
      rw [comments_take] at hc
      rcases List.mem_append.mp hc with hc | hc
      · exact h.comments c hc
      · obtain ⟨rfl, hline⟩ := Token.mem_comments_iff.mp hc
        rw [hline]
        exact hsigns _ (List.mem_singleton_self _)

/-- The parts of a document that is read stand on the lines of its text that their numbers name. -/
theorem Document.onLines_of_parse {dialect : Dialect} {source : Text} {d : Document}
    (hdialect : dialect ∈ Dialect.all) (h : parse dialect source = .ok d) :
    d.OnLines source.splitLines := by
  obtain ⟨hfaults, rfl, -⟩ := run_of_parse h
  exact (ParseState.Sound.run_induction (P := fun s => s.document.OnLines source.splitLines)
    (Q := Line.IsAt source.splitLines)
    (fun s l e token hs hP hl ht => hP.take hs ht hl) (ParseState.sound_start hdialect)
    ⟨.empty, nofun, nofun⟩
    (fun l hl => ⟨Line.isCut_of_mem_ofText hl, Line.isAt_of_mem_ofText hl⟩) hfaults).2

end Ast

end FeatureTree
