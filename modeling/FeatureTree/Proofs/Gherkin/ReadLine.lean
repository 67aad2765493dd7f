import FeatureTree.Layout
import FeatureTree.Proofs.Gherkin.Tags
import FeatureTree.Proofs.Gherkin.Words
import FeatureTree.Proofs.Text.Replacement

/-!
# Lines that are read back

Each sort of line that a document is written with, behind any margin of spaces, is read as what it
was written for, and outside of doc strings it can be read in no other way: titles and steps if
their keywords are told apart in the dialect, tags, rows and delimiters in every dialect that is
`Dialect.Distinct`. Inside a doc string every line but the closing delimiter is content, and a line
that was written with the margin of the opening delimiter loses it again.

## Main results

* `Reading.only_title`, `Reading.only_tags`, `Reading.only_row`, `Reading.only_fence`,
  `Reading.only_blank`: the ways to read the lines of a document
* `Reading.only_stepStart`: a line that starts like a step is a step in every dialect
* `Reading.reads_fenced`: a line of a doc string is read as the line of content that comes back
-/

namespace FeatureTree

/-- Whether a text is a margin: spaces only. -/
def IsMargin (m : Text) : Prop := ∀ c ∈ m, c = ' '

namespace IsMargin

variable {m : Text}

/-- An empty text is a margin. -/
@[simp] theorem nil : IsMargin [] := by simp [IsMargin]

/-- A margin is blank. -/
theorem blank (h : IsMargin m) : ∀ c ∈ m, isBlank c = true := fun c hc => by
  rw [h c hc]
  exact Text.isBlank_space

/-- Two margins are a margin. -/
theorem append {m n : Text} (hm : IsMargin m) (hn : IsMargin n) : IsMargin (m ++ n) := by
  intro c hc
  rcases List.mem_append.mp hc with hc | hc
  · exact hm c hc
  · exact hn c hc

/-- A margin is one line. -/
theorem oneLine (h : IsMargin m) : m.OneLine := fun hm => by
  have := h '\n' hm
  revert this
  decide

end IsMargin

/-- A line with a margin before it, unless the line is empty. -/
def withMargin (m l : Text) : Text := if l.isEmpty then l else m ++ l

/-- A line that is not empty gets the margin. -/
theorem withMargin_of_ne_nil {m l : Text} (h : l ≠ []) : withMargin m l = m ++ l := by
  simp [withMargin, h]

/-- An empty margin changes no line. -/
theorem map_withMargin_nil (ls : List Text) : ls.map (withMargin []) = ls := by
  refine List.map_id'' (fun l => ?_) ls
  rw [withMargin]
  split <;> rfl

/-- Two margins are added as one. -/
theorem withMargin_withMargin (m n l : Text) :
    withMargin m (withMargin n l) = withMargin (m ++ n) l := by
  cases l <;> simp [withMargin]

/-- Indentation puts a margin in front of lines. -/
theorem indent_eq_map (ls : List Text) : Layout.indent ls = ls.map (withMargin Layout.indentUnit) :=
  rfl

/-- The unit of indentation is a margin. -/
theorem isMargin_indentUnit : IsMargin Layout.indentUnit := by
  intro c hc
  simpa [Layout.indentUnit] using hc

namespace Line

variable {l : Line} {m t : Text}

/-- Line feeds are blank. -/
theorem blank_of_lineFeeds {e : Text} (he : ∀ c ∈ e, c = '\n') : ∀ c ∈ e, isBlank c = true :=
  fun c hc => by
    rw [he c hc]
    exact Text.isBlank_lineFeed

/-- Trimming a line at its start and then at both ends trims it at both ends. -/
theorem trim_trimmed (l : Line) : l.trimmed.trim = l.text.trim := by
  rw [Line.trimmed, Text.trim, Text.trimStart_eq_self Text.head?_trimStart]
  rfl

/-- Behind the margin, a line starts with the text that it shows, and then it ends. -/
theorem Shows.exists_trimmed (h : l.Shows (m ++ t)) (hm : IsMargin m)
    (ht : ∀ c ∈ t.head?, isBlank c = false) (hne : t ≠ []) :
    ∃ e, (e = [] ∨ e = ['\n']) ∧ l.trimmed = t ++ e := by
  obtain ⟨e, he, hl⟩ := h.exists_lineFeed
  refine ⟨e, he, ?_⟩
  obtain ⟨c, r, rfl⟩ := List.exists_cons_of_ne_nil hne
  have hc : isBlank c = false := ht c (by simp)
  rw [Line.trimmed, hl, List.append_assoc, Text.trimStart_append_of_blank hm.blank,
    List.cons_append, Text.trimStart_cons_of_not_blank hc]

/-- A line that shows a text behind a margin is the text once trimmed, with nothing but line feeds
behind it. -/
theorem Shows.trimmed (h : l.Shows (m ++ t)) (hm : IsMargin m)
    (ht : ∀ c ∈ t.head?, isBlank c = false) (hne : t ≠ []) :
    ∃ e, l.trimmed = t ++ e ∧ ∀ c ∈ e, c = '\n' := by
  obtain ⟨e, he, hl⟩ := h.exists_trimmed hm ht hne
  refine ⟨e, hl, fun c hc => ?_⟩
  rcases he with rfl | rfl
  · cases hc
  · exact List.mem_singleton.mp hc

end Line

/-- The token of a title of a kind. -/
def Token.ofTitle (title : TitleLine) : TokenKind → Token
  | .featureLine => .featureLine title
  | .ruleLine => .ruleLine title
  | .backgroundLine => .backgroundLine title
  | .scenarioLine => .scenarioLine title
  | .examplesLine => .examplesLine title
  | _ => .empty

namespace Reading

variable {r : Reading} {l : Line} {m : Text}

/-- A line is read as a title by the keywords of its kind. -/
theorem token?_title {kind : TokenKind} (hkind : kind ∈ TokenKind.titles) :
    r.token? l kind
      = .ok ((l.title? (r.dialect.titleWords kind)).map (Token.ofTitle · kind)) := by
  cases kind <;> first | rfl | exact absurd hkind (by decide)

/-- Titles are opened by their keywords and a colon. -/
theorem openers_title {d : Dialect} {kind : TokenKind} (hkind : kind ∈ TokenKind.titles) :
    d.openers kind = (d.titleWords kind).map (· ++ [':']) := by
  cases kind <;> first | rfl | exact absurd hkind (by decide)

/-- A line that starts with a title keyword that is told apart, and a colon, has the rest of the
line as its name. -/
theorem title?_eq_some {d : Dialect} {kind : TokenKind} (hkind : kind ∈ TokenKind.titles)
    {k s : Text} (hk : d.Marks kind (k ++ [':'])) (hl : l.trimmed = k ++ ':' :: s) :
    l.title? (d.titleWords kind) = some ⟨k, Text.trim s⟩ := by
  have htrimmed : l.trimmed = (k ++ [':']) ++ s := by rw [hl]; simp
  have hprefix : k ++ [':'] <+: l.trimmed := ⟨s, htrimmed.symm⟩
  have hmem : k ∈ d.titleWords kind := by
    have hw := hk.mem
    rw [openers_title hkind] at hw
    obtain ⟨k', hk', heq⟩ := List.mem_map.mp hw
    rwa [← List.append_cancel_right heq]
  have hfind : (d.titleWords kind).find? (fun k => (k ++ [':']).isPrefixOf l.trimmed) = some k := by
    cases hfound : (d.titleWords kind).find? fun k => (k ++ [':']).isPrefixOf l.trimmed with
    | none =>
      have := List.find?_eq_none.mp hfound k hmem
      exact absurd (List.isPrefixOf_iff_prefix.mpr hprefix) this
    | some k' =>
      have hfit := List.find?_some hfound
      have hp : k' ++ [':'] <+: l.trimmed := List.isPrefixOf_iff_prefix.mp (by simpa using hfit)
      have hw : k' ++ [':'] ∈ d.openers kind := by
        rw [openers_title hkind]
        exact List.mem_map_of_mem (List.mem_of_find?_eq_some hfound)
      rw [List.append_cancel_right (hk.eq_of_isPrefix hprefix hw hp).2]
  have hdrop : l.trimmed.drop (k.length + 1) = s := by
    rw [htrimmed, show k.length + 1 = (k ++ [':']).length by simp, List.drop_left]
  rw [Line.title?, hfind, Option.map_some, hdrop]

/-- A title line is read as the title of its keyword and name. -/
theorem only_title (hf : r.fence = none) {kind : TokenKind} (hkind : kind ∈ TokenKind.titles)
    {k name : Text} (hk : r.dialect.TitleWord kind k) (hname : name.Trimmed) (hm : IsMargin m)
    (hl : l.Shows (m ++ Layout.titleLine k name)) :
    r.Only l kind (Token.ofTitle ⟨k, name⟩ kind) := by
  obtain ⟨s, hs, htrim⟩ : ∃ s, Layout.titleLine k name = (k ++ [':']) ++ s
      ∧ ∀ e : Text, (∀ c ∈ e, isBlank c = true) → Text.trim (s ++ e) = name := by
    cases hn : name.isEmpty with
    | true =>
      obtain rfl : name = [] := List.isEmpty_iff.mp hn
      refine ⟨[], by simp [Layout.titleLine], fun e he => ?_⟩
      exact Text.trim_append_of_blank Text.trimmed_nil he
    | false =>
      refine ⟨' ' :: name, by simp [Layout.titleLine, hn], fun e he => ?_⟩
      exact Text.trim_pad (w := [' ']) (by simp) hname he
  have hhead : ∀ c ∈ ((k ++ [':']) ++ s).head?, isBlank c = false := by
    obtain ⟨c, u, rfl⟩ := List.exists_cons_of_ne_nil hk.ne_nil
    exact fun d hd => hk.trimmed.head d (by simpa using hd)
  rw [hs] at hl
  obtain ⟨e, htrimmed, he⟩ := hl.trimmed hm hhead (by simp)
  have hprefix : k ++ [':'] <+: l.trimmed := ⟨s ++ e, by rw [htrimmed]; simp⟩
  refine hk.mark.only hprefix hf ?_ ?_
  · rintro rfl
    exact absurd hkind (by decide)
  · have hline : l.trimmed = k ++ ':' :: (s ++ e) := by rw [htrimmed]; simp
    rw [token?_title hkind, title?_eq_some hkind hk.mark hline, Option.map_some,
      htrim e (Line.blank_of_lineFeeds he)]

/-- A text that starts with a keyword that marks steps has this keyword. -/
theorem stepKeywordOf?_eq_some {d : Dialect} {w t : Text} (hw : d.Marks .stepLine w)
    (hp : w <+: t) : d.stepKeywordOf? t = some w := by
  cases hk : d.stepKeywordOf? t with
  | none => exact absurd hp (stepKeywordOf?_eq_none_iff.mp hk w hw.mem)
  | some v =>
    obtain ⟨hv, hvp⟩ := Dialect.mem_of_stepKeywordOf? hk
    have hmem : v ∈ d.openers .stepLine := hv
    rw [(hw.eq_of_isPrefix hp hmem (List.isPrefixOf_iff_prefix.mp hvp)).2]

/-- A line feed behind a text changes nothing of its step keyword. -/
theorem stepKeywordOf?_append_lineFeed {d : Dialect} (hd : d.Distinct) {t e : Text}
    (he : e = [] ∨ e = ['\n']) : d.stepKeywordOf? (t ++ e) = d.stepKeywordOf? t := by
  rcases he with rfl | rfl
  · rw [List.append_nil]
  · have hsame : d.stepKeywords.filter (·.isPrefixOf (t ++ ['\n']))
        = d.stepKeywords.filter (·.isPrefixOf t) := by
      refine List.filter_congr fun w hw => ?_
      rw [Bool.eq_iff_iff, List.isPrefixOf_iff_prefix, List.isPrefixOf_iff_prefix]
      exact ⟨fun h => Text.prefix_of_prefix_append_cons h (hd.oneLine .stepLine w hw),
        fun h => h.trans (List.prefix_append _ _)⟩
    rw [Dialect.stepKeywordOf?, Dialect.stepKeywordOf?, hsame]

/-- A line that starts like the line of a step is read as a step, of the longest keyword that starts
it. -/
theorem only_stepStart (hd : r.dialect.Distinct) (hf : r.fence = none) {k : Text}
    (hk : r.dialect.StepStart k) (text : Text) (hm : IsMargin m)
    (hl : l.Shows (m ++ (k ++ ' ' :: text))) :
    ∃ w, r.dialect.stepKeywordOf? (k ++ ' ' :: text) = some w
      ∧ r.Only l .stepLine (.stepLine w (r.dialect.roleOf w)
        (Text.trim ((k ++ ' ' :: text).drop w.length))) := by
  have hhead : ∀ c ∈ (k ++ ' ' :: text).head?, isBlank c = false := by
    obtain ⟨c, u, rfl⟩ := List.exists_cons_of_ne_nil hk.ne_nil
    exact fun d hd => hk.trimmed.head d (by simpa using hd)
  obtain ⟨e, he, hline⟩ := hl.exists_trimmed hm hhead (by simp)
  have hstart : k ++ [' '] <+: k ++ ' ' :: text := ⟨text, by simp⟩
  have hstart' : k ++ [' '] <+: l.trimmed := hline ▸ hstart.trans (List.prefix_append _ e)
  obtain ⟨w, hw⟩ : ∃ w, r.dialect.stepKeywordOf? (k ++ ' ' :: text) = some w := by
    obtain ⟨v, hv, hp⟩ := hk.starts
    cases hnone : r.dialect.stepKeywordOf? (k ++ ' ' :: text) with
    | none => exact absurd (hp.trans hstart) (stepKeywordOf?_eq_none_iff.mp hnone v hv)
    | some w => exact ⟨w, rfl⟩
  have hapart : ∀ kind ∈ TokenKind.openable, kind ≠ .stepLine →
      ¬r.dialect.Opens kind l.trimmed := by
    rintro kind hk' hne ⟨v, hv, hp⟩
    obtain ⟨hnot, hnot'⟩ := hk.apart kind hk' hne v hv
    exact (List.prefix_or_prefix_of_prefix hp hstart').elim hnot hnot'
  refine ⟨w, hw, .of_openers hf ?_ (fun _ => by rw [hline]; simp) (fun hp => ?_) hapart⟩
  · have hlen : w.length ≤ (k ++ ' ' :: text).length :=
      (List.isPrefixOf_iff_prefix.mp (Dialect.mem_of_stepKeywordOf? hw).2).length_le
    have hblank : ∀ c ∈ e, isBlank c = true := by rcases he with rfl | rfl <;> simp
    simp only [token?, hline, stepKeywordOf?_append_lineFeed hd he, hw, Option.map_some]
    rw [List.drop_append_of_le_length hlen, Text.trim_append_blank _ hblank]
  · exact hapart .comment (by decide) (by decide) ⟨['#'], r.dialect.mem_openers_comment, hp⟩

/-- A line of tags is read as those tags. -/
theorem only_tags (hd : r.dialect.Distinct) (hf : r.fence = none) {tags : List Text}
    (hne : tags ≠ []) (htags : ∀ t ∈ tags, IsTag t) (hl : l.Shows (Line.tagLine tags)) :
    ∃ cs, r.Only l .tagLine (.tagLine cs) ∧ cs.map (·.2) = tags := by
  obtain ⟨s, hs⟩ := Line.exists_tagLine_eq_cons hne htags
  have hhead : ∀ c ∈ (Line.tagLine tags).head?, isBlank c = false :=
    (Line.trimmed_tagLine htags).head
  have hl' : l.Shows ([] ++ Line.tagLine tags) := hl
  obtain ⟨e, htrimmed, he⟩ := hl'.trimmed .nil hhead (by rw [hs]; exact List.cons_ne_nil _ _)
  obtain ⟨cs, hcs, hmap⟩ :=
    Line.tags?_tagLine hne htags (Line.blank_of_lineFeeds he) htrimmed
  refine ⟨cs, hd.tag.only ⟨s ++ e, by rw [htrimmed, hs]; rfl⟩ hf (by decide) ?_, hmap⟩
  simp only [token?, hcs]
  rfl

/-- A table line is read as a row of the values that it was written from. -/
theorem only_row (hd : r.dialect.Distinct) (hf : r.fence = none) {widths : List Nat}
    {values : List Text} (hne : values ≠ []) (hlen : values.length ≤ widths.length)
    (htidy : ∀ v ∈ values, Cell.Tidy v) (hm : IsMargin m)
    (hl : l.Shows (m ++ Layout.tableLine widths (values.map Cell.escape))) :
    ∃ cs, r.Only l .tableRow (.tableRow cs) ∧ cs.map (·.2) = values := by
  have hhead : ∀ c ∈ (Layout.tableLine widths (values.map Cell.escape)).head?,
      isBlank c = false := by
    intro c hc
    obtain rfl : '|' = c := by simpa [Layout.tableLine] using hc
    decide
  have htrim : (Layout.tableLine widths (values.map Cell.escape)).Trimmed := by
    refine Text.trimmed_iff.mpr ⟨hhead, fun c hc => ?_⟩
    obtain rfl : '|' = c := by
      simpa [Layout.tableLine, List.getLast?_cons, List.getLast?_append] using hc
    decide
  obtain ⟨e, htrimmed, he⟩ := hl.trimmed hm hhead (by simp [Layout.tableLine])
  refine ⟨Cell.ofRow l.column (Layout.tableLine widths (values.map Cell.escape)), ?_,
    Cell.values_ofRow_tableLine hne hlen htidy _⟩
  have hpipe : ['|'] <+: l.trimmed := by
    rw [htrimmed, Layout.tableLine]
    exact ⟨_, rfl⟩
  refine hd.row.only hpipe hf (by decide) ?_
  rw [token?, if_pos (head?_eq_some_iff.mpr hpipe), htrimmed,
    Text.trim_append_of_blank htrim (Line.blank_of_lineFeeds he)]

/-- A fence marks doc strings. -/
theorem marks_fence {d : Dialect} (hd : d.Distinct) {mark : Text} (hmark : Text.IsFence mark) :
    d.Marks .docStringSeparator mark := by
  rcases hmark with rfl | rfl
  · exact hd.quotes
  · exact hd.backticks

/-- A line that starts with a fence opens a doc string. -/
theorem openingFence?_eq_some {d : Dialect} (hd : d.Distinct) {mark : Text}
    (hmark : Text.IsFence mark)
    {s : Text} (hl : l.trimmed = mark ++ s) : l.openingFence? = some (mark, Text.trim s) := by
  have hp : mark <+: l.trimmed := ⟨s, hl.symm⟩
  have hother : ∀ v, Text.IsFence v → v <+: l.trimmed → v = mark := by
    intro v hv hvp
    exact ((marks_fence hd hmark).eq_of_isPrefix hp (marks_fence hd hv).mem hvp).2
  have hself : mark.isPrefixOf l.trimmed = true := List.isPrefixOf_iff_prefix.mpr hp
  have hdrop : l.trimmed.drop mark.length = s := by rw [hl, List.drop_left]
  rcases hmark with rfl | rfl
  · simp only [Line.openingFence?, if_pos hself, hdrop]
    rfl
  · have hquotes : ¬quoteFence.isPrefixOf l.trimmed = true := by
      rw [List.isPrefixOf_iff_prefix]
      intro hq
      exact absurd (hother _ (.inl rfl) hq) (by decide)
    simp only [Line.openingFence?, if_neg hquotes, if_pos hself, hdrop]
    rfl

/-- The first line of a doc string is read as its delimiter and the type of its content. -/
theorem only_fence (hd : r.dialect.Distinct) (hf : r.fence = none) {mark contentType : Text}
    (hmark : Text.IsFence mark) (htype : contentType.Trimmed) (hm : IsMargin m)
    (hl : l.Shows (m ++ (mark ++ contentType))) :
    r.Only l .docStringSeparator (.docStringSeparator mark contentType) := by
  obtain ⟨q, hq, -, -, -, hblank⟩ := hmark.eq_triple
  have hhead : ∀ c ∈ (mark ++ contentType).head?, isBlank c = false := by
    intro c hc
    obtain rfl : q = c := by simpa [hq] using hc
    exact hblank
  obtain ⟨e, htrimmed, he⟩ := hl.trimmed hm hhead (by simp [hq])
  rw [List.append_assoc] at htrimmed
  refine (marks_fence hd hmark).only ⟨_, htrimmed.symm⟩ hf (by decide) ?_
  simp only [token?, hf, openingFence?_eq_some hd hmark htrimmed, Option.map_some]
  rw [Text.trim_append_of_blank htype (Line.blank_of_lineFeeds he)]

/-- A line of blanks is read as a blank line. -/
theorem only_empty (hd : r.dialect.Distinct) (hf : r.fence = none) (hl : l.trimmed = []) :
    r.Only l .empty .empty := by
  have hnot : ∀ kind, ¬r.dialect.Opens kind l.trimmed := by
    rintro kind ⟨w, hw, hp⟩
    rw [hl, List.prefix_nil] at hp
    subst hp
    exact absurd (hd.tag.eq_of_isPrefix (List.prefix_refl _) hw (List.nil_prefix)).2 (by simp)
  refine .of_openers hf (by simp [token?, hl]) (fun h => absurd rfl h) ?_ fun kind _ _ =>
    hnot kind
  exact fun hp => hnot .comment ⟨['#'], r.dialect.mem_openers_comment, hp⟩

/-- An empty line is read as a blank line. -/
theorem only_blank (hd : r.dialect.Distinct) (hf : r.fence = none) (hl : l.Shows []) :
    r.Only l .empty .empty := by
  obtain ⟨e, htext, he⟩ := hl.exists_end
  refine only_empty hd hf ?_
  rw [Line.trimmed, htext]
  exact Text.trimStart_eq_nil_iff.mpr (Line.blank_of_lineFeeds he)

/-! ### Doc strings -/

/-- The line that closes a doc string. -/
theorem reads_closing {fence : Fence} (hf : r.fence = some fence) (hmark : Text.IsFence fence.mark)
    (hm : IsMargin m) (hl : l.Shows (m ++ fence.mark)) :
    r.token? l .docStringSeparator = .ok (some (.docStringSeparator fence.mark [])) := by
  obtain ⟨q, hq, -, -, -, hblank⟩ := hmark.eq_triple
  have hhead : ∀ c ∈ fence.mark.head?, isBlank c = false := by
    intro c hc
    obtain rfl : q = c := by simpa [hq] using hc
    exact hblank
  obtain ⟨e, htrimmed, -⟩ := hl.trimmed hm hhead (by simp [hq])
  have hp : fence.mark.isPrefixOf l.trimmed = true :=
    List.isPrefixOf_iff_prefix.mpr ⟨e, htrimmed.symm⟩
  simp only [token?, hf, if_pos hp]

/-- Whether a text can be a line of the content of a doc string. -/
structure IsContentLine (t : Text) : Prop where
  oneLine : t.OneLine
  no_return : ∀ c ∈ t.getLast?, c ≠ '\r'

/-- A line of a doc string as it is written. -/
def fencedLine (m mark t : Text) : Text := withMargin m (Text.protect mark t)

/-- A line of a doc string is protected behind its margin, or empty. -/
theorem exists_fencedLine_eq (m mark t : Text) :
    ∃ w, (w = [] ∧ Text.protect mark t = [] ∨ w = m)
      ∧ fencedLine m mark t = w ++ Text.protect mark t := by
  by_cases hw : Text.protect mark t = []
  · exact ⟨[], .inl ⟨rfl, hw⟩, by simp [fencedLine, withMargin, hw]⟩
  · exact ⟨m, .inr rfl, by simp [fencedLine, withMargin, hw]⟩

/-- A line of a doc string without its margin is the written form of the content, up to the line
feed that ends it. -/
theorem exists_margin_dropped {mark t : Text} (hm : IsMargin m)
    (hl : l.Shows (fencedLine m mark t)) : ∃ e, (e = [] ∨ e = ['\n']) ∧
      (if m.length > l.indent then l.trimmed else l.text.drop m.length)
        = Text.protect mark t ++ e := by
  obtain ⟨e, he, htext⟩ := hl.exists_lineFeed
  obtain ⟨w, hw, hline⟩ := exists_fencedLine_eq m mark t
  rw [hline, List.append_assoc] at htext
  rcases hw with ⟨rfl, hnil⟩ | rfl
  · rw [hnil] at htext ⊢
    split
    · refine ⟨[], .inl rfl, ?_⟩
      rw [Line.trimmed, htext]
      rcases he with rfl | rfl <;> rfl
    · rw [htext]
      cases hlen : m.length with
      | zero => exact ⟨e, he, rfl⟩
      | succ n => exact ⟨[], .inl rfl, by rcases he with rfl | rfl <;> simp⟩
  · refine ⟨e, he, ?_⟩
    have hindent : w.length ≤ l.indent := by
      rw [Line.indent, Text.indentOf, htext, Text.trimStart_append_of_blank hm.blank,
        List.length_append]
      have := (List.dropWhile_suffix (l := Text.protect mark t ++ e) isBlank).length_le
      rw [← Text.trimStart] at this
      omega
    rw [if_neg (by omega), htext, List.drop_left]

/-- No line of a doc string starts with the delimiter. -/
theorem not_prefix_trimmed_fenced {mark t : Text} (hmark : Text.IsFence mark) (hm : IsMargin m)
    (hl : l.Shows (fencedLine m mark t)) : ¬mark <+: l.trimmed := by
  obtain ⟨q, hq, -, -, hqn, -⟩ := hmark.eq_triple
  obtain ⟨e, he, htext⟩ := hl.exists_lineFeed
  obtain ⟨w, hw, hline⟩ := exists_fencedLine_eq m mark t
  have hwm : IsMargin w := by
    rcases hw with ⟨rfl, -⟩ | rfl
    · exact .nil
    · exact hm
  have hprot := Text.not_isPrefixOf_trimStart_protect hmark t
  rw [← Bool.not_eq_true, List.isPrefixOf_iff_prefix] at hprot
  rw [Line.trimmed, htext, hline, List.append_assoc, Text.trimStart_append_of_blank hwm.blank,
    Text.trimStart, List.dropWhile_append]
  intro hp
  split at hp
  · -- a line of blanks
    have : e.dropWhile isBlank = [] := by rcases he with rfl | rfl <;> rfl
    rw [this, List.prefix_nil, hq] at hp
    cases hp
  · refine hprot ?_
    rcases he with rfl | rfl
    · simpa [Text.trimStart] using hp
    · exact Text.prefix_of_prefix_append_cons hp (by simp [hq, hqn.symm])

/-- A line feed behind a text is kept when fences are restored. -/
theorem restore_append_lineFeed {mark : Text} (hmark : Text.IsFence mark) {t e : Text}
    (he : e = [] ∨ e = ['\n']) : Text.restore mark (t ++ e) = Text.restore mark t ++ e := by
  obtain ⟨q, rfl, hesc, -, hq, -⟩ := hmark.eq_triple
  rcases he with rfl | rfl
  · simp
  · rw [Text.restore, hesc]
    exact Text.replaceAll_append_cons (by simp [hq.symm]) (by simp) t []

/-- A line of content as it comes back from between delimiters. -/
def rereadLine (mark t : Text) : Text := Line.withoutEnd (Text.restore mark (Text.protect mark t))

/-- A line comes back as itself, if it does not hold the written form of the delimiter. -/
theorem rereadLine_eq_self {mark t : Text} (hmark : Text.IsFence mark) (ht : IsContentLine t)
    (hpart : Text.hasPart (escapedFence mark) t = false) : rereadLine mark t = t := by
  rw [rereadLine, Text.restore_protect hmark hpart, Line.withoutEnd, Text.dropEndWhile_eq_self]
  intro c hc
  have hcn : c ≠ '\n' := fun h => ht.oneLine (h ▸ List.mem_of_mem_getLast? hc)
  simp [ht.no_return c hc, hcn]

/-- A line of a doc string is no delimiter, and it is read as the line of content that comes
back. -/
theorem reads_fenced {fence : Fence} (hf : r.fence = some fence) (hmark : Text.IsFence fence.mark)
    (hm : IsMargin m) (hindent : fence.indent = m.length) {t : Text}
    (hl : l.Shows (fencedLine m fence.mark t)) :
    r.token? l .docStringSeparator = .ok none
      ∧ r.token? l .other = .ok (some (.other (rereadLine fence.mark t))) := by
  constructor
  · have hnot : ¬fence.mark.isPrefixOf l.trimmed = true := by
      rw [List.isPrefixOf_iff_prefix]
      exact not_prefix_trimmed_fenced hmark hm hl
    simp only [token?, hf, if_neg hnot]
  · obtain ⟨e, he, hdrop⟩ := exists_margin_dropped hm hl
    have hend : ∀ c ∈ e, (c = '\r' || c = '\n') = true := by rcases he with rfl | rfl <;> simp
    have htext : l.fencedText fence = rereadLine fence.mark t := by
      rw [Line.fencedText, hindent]
      simp only [hdrop]
      rw [← Text.restore, restore_append_lineFeed hmark he, rereadLine, Line.withoutEnd,
        Text.dropEndWhile_append_of_all hend, Line.withoutEnd]
    simp only [token?, hf, htext]

end Reading

end FeatureTree
