import FeatureTree.Proofs.Plain.ReadFragments
import FeatureTree.Proofs.Schema.OwnLines

/-!
# The lines of parts that stand alone

A part that stands alone is read in a document around it, of which some lines stand in front of the
text of the part (`Fragment.frontLines`). Nothing takes these lines off the line numbers again: a
node of the part that stands on the first line of the text has the number of the line behind those
in front. So a step by itself begins on line 3, and only where nothing stands in front, for
features, files, tags and comments, are the numbers those of the text.

What is picked out of the document is below the lines in front, because each title and step that it
is inside of takes at least one line; and no line in front can be taken for a tag or a row.

## Main results

* `Fragment.splitLines_wrap`: the lines of the document around a part
* `Record.Stands.behind`: what is below the lines in front stands on the lines behind them
* `Node.stands_of_read`: a node that is read from text stands, with everything inside it, on the
  lines of that text, counted from the first line behind those in front
-/

namespace FeatureTree

open Plain (frameTitle frameStep)

/-- How many lines stand in front of a part of a kind in the document around it. -/
def Kind.linesInFront : Kind → Nat
  | .background | .scenario | .outline | .rule => 1
  | .step => 2
  | .cell | .row | .table | .docString | .example => 3
  | .tag | .comment | .feature | .featureFile | .directory => 0

/-- Cutting at a line feed cuts both sides apart. -/
theorem Text.splitLines_append_cons (s t : Text) :
    splitLines (s ++ '\n' :: t) = splitLines s ++ splitLines t := by
  induction s with
  | nil => rfl
  | cons c s ih =>
    rw [splitLines, splitLines, splitLines] at ih
    rw [splitLines, splitLines, List.cons_append, splitAtChar, splitAtChar, ih]
    split
    · rfl
    · cases hs : splitAtChar '\n' s with
      | nil => exact absurd hs (splitAtChar_ne_nil '\n' s)
      | cons piece pieces => rfl

namespace Fragment

variable {d : Dialect}

/-- The lines in front of a part of a kind in the document around it. -/
def frontLines (d : Dialect) : Kind → List Text
  | .background | .scenario | .outline | .rule => [frameTitle d]
  | .step => [frameTitle d, Layout.titleLine d.primaryKeywords.scenario []]
  | .cell | .row | .table | .docString =>
    [frameTitle d, Layout.titleLine d.primaryKeywords.scenario [], frameStep]
  | .example => [frameTitle d, Layout.titleLine d.primaryKeywords.outline [], frameStep]
  | .tag | .comment | .feature | .featureFile | .directory => []

/-- The lines behind it. -/
def behindLines (d : Dialect) : Kind → List Text
  | .tag | .comment => [frameTitle d, []]
  | _ => []

/-- The text of a part as it stands in the document around it: a cell stands between bars. -/
def given (source : Text) : Kind → Text
  | .cell => "| ".toList ++ source ++ " |".toList
  | _ => source

/-- There are as many lines in front of a fragment as its kind needs. -/
theorem length_frontLines (d : Dialect) (kind : Kind) :
    (frontLines d kind).length = kind.linesInFront := by
  cases kind <;> rfl

/-- A title starts with its keyword, which is told apart from rows, tags and comments. -/
theorem not_mark_of_titleWord {kind : TokenKind} {k : Text} (hk : d.TitleWord kind k)
    (hkind : kind ∈ TokenKind.titles) (name : Text) :
    ∀ c ∈ (Layout.titleLine k name).trimStart.head?, c ∉ ['|', '@', '#'] := by
  have hstart : k ++ [':'] <+: Layout.titleLine k name := by
    rw [Layout.titleLine]
    split <;> simp
  have htrim : (Layout.titleLine k name).trimStart = Layout.titleLine k name := by
    refine Text.trimStart_eq_self fun c hc => hk.trimmed.head c ?_
    obtain ⟨s, hs⟩ := hstart
    obtain ⟨c', k', rfl⟩ := List.exists_cons_of_ne_nil hk.ne_nil
    rwa [← hs] at hc
  rw [htrim]
  intro c hc hmark
  obtain ⟨kind', hne, hopener⟩ : ∃ kind', kind' ≠ kind ∧ [c] ∈ d.openers kind' := by
    simp only [List.mem_cons, List.not_mem_nil, or_false] at hmark
    rcases hmark with rfl | rfl | rfl
    · exact ⟨.tableRow, by rintro rfl; exact absurd hkind (by decide), List.mem_singleton_self _⟩
    · exact ⟨.tagLine, by rintro rfl; exact absurd hkind (by decide), d.mem_openers_tagLine⟩
    · exact ⟨.comment, by rintro rfl; exact absurd hkind (by decide), d.mem_openers_comment⟩
  exact hk.mark.not_opens hstart hne ⟨[c], hopener, Reading.head?_eq_some_iff.mp hc⟩

/-- No line around a part starts as a row, a tag or a comment does. -/
theorem not_mark_of_frame (hd : d ∈ Dialect.all) (kind : Kind) :
    ∀ t ∈ frontLines d kind ++ behindLines d kind,
      ∀ c ∈ t.trimStart.head?, c ∉ ['|', '@', '#'] := by
  have htitle := not_mark_of_titleWord (Plain.titleWord_frame hd) (by decide) Plain.frameName
  have hscenario := not_mark_of_titleWord (Plain.titleWord_frameScenario hd) (by decide) []
  have houtline := not_mark_of_titleWord (Plain.titleWord_frameOutline hd) (by decide) []
  have hhead : frameStep.trimStart.head? = some '*' := by decide
  have hstep : ∀ c ∈ frameStep.trimStart.head?, c ∉ ['|', '@', '#'] := by
    intro c hc
    obtain rfl : '*' = c := by simpa [hhead] using hc
    decide
  have hempty : ∀ c ∈ (Text.trimStart []).head?, c ∉ ['|', '@', '#'] := nofun
  intro t ht
  cases kind <;> simp only [frontLines, behindLines, List.nil_append, List.append_nil,
    List.mem_cons, List.not_mem_nil, or_false] at ht <;>
    rcases ht with rfl | rfl | rfl <;> assumption

/-- A title without a name in front of a text. -/
theorem splitLines_title {k : Text} (hk : k.OneLine) (t : Text) :
    Text.splitLines (k ++ ":\n".toList ++ t) = Layout.titleLine k [] :: t.splitLines := by
  have hcolon : ":\n".toList = [':', '\n'] := by decide
  have hsplit : k ++ ":\n".toList ++ t = Layout.titleLine k [] ++ '\n' :: t := by
    simp [Layout.titleLine, hcolon]
  have hname : Text.OneLine [] := by simp [Text.OneLine]
  rw [hsplit, Text.splitLines_append_lineFeed (Plain.oneLine_titleLine hk hname)]

/-- The line of a step in front of a text is a line of its own. -/
theorem splitLines_fakeStep (t : Text) :
    Text.splitLines ("* fake step\n".toList ++ t) = frameStep :: t.splitLines := by
  have hstep : "* fake step\n".toList = frameStep ++ ['\n'] := by decide
  have hline : '\n' ∉ frameStep := by decide
  rw [hstep, List.append_assoc, List.singleton_append, Text.splitLines_append_lineFeed hline]

section

variable (hd : d ∈ Dialect.all)

include hd

/-- The title of a feature in front of a text is a line of its own. -/
theorem splitLines_inFeature (t : Text) :
    (inFeature d.primaryKeywords t).splitLines = frameTitle d :: t.splitLines := by
  have hname : ": Fake feature to parse\n".toList = ':' :: ' ' :: Plain.frameName ++ ['\n'] := by
    decide
  have hsplit : inFeature d.primaryKeywords t = frameTitle d ++ '\n' :: t := by
    rw [inFeature, frameTitle, Layout.titleLine, if_neg (by decide), hname]
    simp
  rw [hsplit, Text.splitLines_append_lineFeed (Plain.oneLine_frameTitle hd)]

/-- The lines of the document around a part. -/
theorem splitLines_wrap (source : Text) (kind : Kind) :
    (wrap d.primaryKeywords source kind).splitLines
      = frontLines d kind ++ (given source kind).splitLines ++ behindLines d kind := by
  have hscenario : ∀ t, (inScenario d.primaryKeywords t).splitLines
      = frontLines d .step ++ t.splitLines := fun t => by
    rw [inScenario, splitLines_inFeature hd,
      splitLines_title (Plain.titleWord_frameScenario hd).oneLine]
    rfl
  have hstep : ∀ t, (inStep d.primaryKeywords t).splitLines = frontLines d .row ++ t.splitLines :=
    fun t => by
      rw [inStep, hscenario, splitLines_fakeStep]
      rfl
  cases kind with
  | tag | comment =>
    rw [wrap, Text.splitLines_append_cons, splitLines_inFeature hd]
    rfl
  | feature | featureFile | directory => exact (List.append_nil _).symm
  | background | scenario | outline | rule =>
    rw [wrap, splitLines_inFeature hd]
    exact (List.append_nil _).symm
  | step =>
    rw [wrap, hscenario]
    exact (List.append_nil _).symm
  | row | table | docString | cell =>
    rw [wrap, hstep]
    exact (List.append_nil _).symm
  | «example» =>
    have hlines : ":\n* fake step\n".toList = ":\n".toList ++ "* fake step\n".toList := by decide
    rw [wrap, inOutline, splitLines_inFeature hd, hlines, List.append_assoc, List.append_assoc,
      ← List.append_assoc, splitLines_title (Plain.titleWord_frameOutline hd).oneLine,
      splitLines_fakeStep]
    exact (List.append_nil _).symm

end

end Fragment

/-! ### Below the lines in front -/

namespace Record

variable {first k : Nat} {front texts back : List Text} {r x : Record}

/-- Whether the line of a record is below the first `k` lines. -/
def IsBelowLine (k : Nat) (r : Record) : Prop := ∃ i : Nat, r.line = .int i ∧ k < i

/-- The line of a record that stands in a text is counted from one. -/
theorem Stands.isBelowLine (h : r.Stands 1 texts) : r.IsBelowLine 0 := by
  cases h with
  | mk place _ own _ _ _ =>
    obtain ⟨i, -, rfl, -⟩ := own
    exact ⟨_, place, by omega⟩

/-- A record has one line. -/
theorem line_unique {i j : Nat} (hi : r.line = .int i) (hj : r.line = .int j) : i = j :=
  Int.ofNat_inj.mp (Value.int.inj (hi.symm.trans hj))

/-- What is inside of a record is below one more line, but the rows of a table begin where the table
begins. -/
theorem Stands.isBelowLine_part (h : r.Stands first texts) (hr : r.IsBelowLine k) (hx : x ∈ r.parts)
    (hshares : x.kind.sharesLine = false) :
    x.IsBelowLine (if r.kind = .table then k else k + 1) := by
  cases h with
  | mk place _ _ placed _ _ =>
    obtain ⟨i, hi, hlt⟩ := hr
    obtain rfl := line_unique place hi
    obtain ⟨j, hj, hplaced⟩ := placed x hx
    have hbelow := hplaced.below hshares
    exact ⟨j, hj, by split at hbelow <;> split <;> omega⟩

/-- The line of a cell, tag or comment starts with its mark. -/
theorem head?_of_on {t : Text} {sign : Sign} (hsign : r.sign? = some sign) (hon : sign.On t)
    (hkind : r.kind ∈ [Kind.cell, .tag, .comment]) :
    ∃ c ∈ t.trimStart.head?, c ∈ ['|', '@', '#'] := by
  simp only [List.mem_cons, List.not_mem_nil, or_false] at hkind
  rcases hkind with hkind | hkind | hkind <;>
    (rw [sign?, hkind] at hsign; cases hsign; exact ⟨_, hon.1, by decide⟩)

/-- What is below the lines in front, or may share a line and can be on none of those, stands on the
lines behind them. -/
theorem Stands.behind (hfront : ∀ t ∈ front, ∀ c ∈ t.trimStart.head?, c ∉ ['|', '@', '#'])
    (h : r.Stands 1 (front ++ texts))
    (hr : r.kind.sharesLine = true ∨ r.IsBelowLine front.length) :
    r.Stands (front.length + 1) texts := by
  induction h with
  | @mk r line sign place named own placed order _ ih =>
    obtain ⟨i, t, hline, hat, hon⟩ := own
    have hlt : front.length ≤ i := by
      rcases hr with hshares | ⟨j, hj, hlt⟩
      · by_contra hi
        rw [List.getElem?_append_left (by omega)] at hat
        have hkind : r.kind ∈ [Kind.cell, .tag, .comment] := by
          cases hk : r.kind <;> rw [hk] at hshares <;> first | decide | cases hshares
        obtain ⟨c, hc, hmark⟩ := head?_of_on named hon hkind
        exact hfront t (List.mem_of_getElem? hat) c hc hmark
      · obtain rfl := line_unique place hj
        omega
    rw [List.getElem?_append_right hlt] at hat
    refine .mk place named ⟨_, t, by omega, hat, hon⟩ placed order fun x hx => ih x hx ?_
    by_cases hshares : x.kind.sharesLine = true
    · exact .inl hshares
    · obtain ⟨j, hj, hplaced⟩ := placed x hx
      have hbelow := hplaced.below (by simpa using hshares)
      exact .inr ⟨j, hj, by split at hbelow <;> omega⟩

/-- A tag or comment by itself stands in front of the lines that no tag or comment can be on. -/
theorem Stands.inFrontOf (hback : ∀ t ∈ back, ∀ c ∈ t.trimStart.head?, c ∉ ['|', '@', '#'])
    (h : r.Stands first (texts ++ back)) (hparts : r.parts = [])
    (hkind : r.kind ∈ [Kind.tag, .comment]) : r.Stands first texts := by
  cases h with
  | mk place named own _ _ _ =>
    obtain ⟨i, t, hline, hat, hon⟩ := own
    refine .leaf place named ⟨i, t, hline, ?_, hon⟩ hparts
    rwa [List.getElem?_append_left] at hat
    by_contra hi
    rw [List.getElem?_append_right (by omega)] at hat
    obtain ⟨c, hc, hmark⟩ := head?_of_on named hon (List.mem_cons_of_mem _ hkind)
    exact hback t (List.mem_of_getElem? hat) c hc hmark

/-- Whether a record stands on the lines of a text and below the first `k` of them. -/
structure Reached (texts : List Text) (k : Nat) (r : Record) : Prop where
  stands : r.Stands 1 texts
  written : r.IsWritten
  below : r.IsBelowLine k

/-- A part with a line of its own is reached by going one line down, or none below a table. -/
theorem Reached.part (h : r.Reached texts k) (hx : x ∈ r.parts)
    (hshares : x.kind.sharesLine = false) :
    x.Reached texts (if r.kind = .table then k else k + 1) :=
  ⟨h.stands.parts x hx, h.written.parts x hx, h.stands.isBelowLine_part h.below hx hshares⟩

/-- A part of anything but a table is reached by going one line down. -/
theorem Reached.part_of_ne (h : r.Reached texts k) (htable : r.kind ≠ .table) (hx : x ∈ r.parts)
    (hshares : x.kind.sharesLine = false) : x.Reached texts (k + 1) := by
  simpa [htable] using h.part hx hshares

/-- A record that is reached has only parts its kind has a place for. -/
theorem Reached.places (h : r.Reached texts k) : r.Places := by
  cases h.written
  assumption

end Record

namespace Fragment

open Record (Reached)

variable {texts : List Text} {document : DocumentRecord} {r x : Record}

/-- The first section is below the title of the feature. -/
theorem reached_of_firstSection? (hfeature : ∀ r ∈ document.feature, r.Stands 1 texts)
    (hw : document.IsWritten) (h : firstSection? document = some r) :
    r.Reached texts 1 ∧ r.kind ≠ .table := by
  obtain ⟨f, hf, hhead⟩ := Option.bind_eq_some_iff.mp h
  have hmem : r ∈ f.children := List.mem_of_head? hhead
  obtain ⟨hkind, hwritten⟩ := hw.feature f hf
  have hreached : f.Reached texts 0 := ⟨hfeature f hf, hwritten, (hfeature f hf).isBelowLine⟩
  have hsection : r.kind.sharesLine = false ∧ r.kind ≠ .table := by
    rcases hreached.places.children r hmem with hk | hk | hk | ⟨hk, -⟩ | ⟨hk, -⟩ <;> rw [hk] <;>
      decide
  refine ⟨hreached.part_of_ne ?_ (by simp [Record.parts, hmem]) hsection.1, hsection.2⟩
  rw [hkind]
  decide

/-- The first step of the first section is below the title of that section. -/
theorem reached_of_firstStep? (hfeature : ∀ r ∈ document.feature, r.Stands 1 texts)
    (hw : document.IsWritten) {s : Record} (hs : firstSection? document = some s)
    (hx : s.steps.head? = some x) : x.Reached texts 2 ∧ x.kind = .step := by
  obtain ⟨hsection, htable⟩ := reached_of_firstSection? hfeature hw hs
  have hmem : x ∈ s.steps := List.mem_of_head? hx
  have hstep : x.kind = .step := hsection.places.steps x hmem
  refine ⟨hsection.part_of_ne htable (by simp [Record.parts, hmem]) ?_, hstep⟩
  rw [hstep]
  rfl

/-- The argument of the first step is below that step. -/
theorem reached_of_firstBlock? (hfeature : ∀ r ∈ document.feature, r.Stands 1 texts)
    (hw : document.IsWritten) (h : firstBlock? document = some r) : r.Reached texts 3 := by
  obtain ⟨s, hs, h⟩ := Option.bind_eq_some_iff.mp h
  obtain ⟨x, hx, hblock⟩ := Option.bind_eq_some_iff.mp h
  have hblock : x.block = some r := hblock
  obtain ⟨hreached, hstep⟩ := reached_of_firstStep? hfeature hw hs hx
  refine hreached.part_of_ne ?_ (by simp [Record.parts, hblock]) ?_
  · rw [hstep]
    decide
  · rcases hreached.places.block r hblock with hk | hk <;> rw [hk] <;> rfl

/-- The title of examples does not stand on the step in front of them. -/
theorem isBelowLine_of_example {a b : Text} (h : r.Reached ([a, b, frameStep] ++ texts) 2)
    (hkind : r.kind = .example) : r.IsBelowLine 3 := by
  obtain ⟨line, hline, hlt⟩ := h.below
  refine ⟨line, hline, Nat.lt_of_le_of_ne hlt fun heq => ?_⟩
  cases h.stands with
  | mk place named own _ _ _ =>
    obtain rfl := Record.line_unique place hline
    obtain ⟨i, t, hi, hat, hon⟩ := own
    obtain rfl : i = 2 := by omega
    obtain rfl : frameStep = t := by simpa using hat
    rw [Record.sign?, hkind] at named
    cases named
    obtain ⟨_, -, w, -, rest, hrest, -⟩ := hon
    have hcolon : ':' ∈ frameStep.trimStart := by rw [hrest]; simp
    exact absurd hcolon (by decide)

/-- Tags and comments have nothing inside. -/
theorem parts_of_leaf {default dialect : Value} {file source : Text} {kind : Kind}
    (hparse : DocumentRecord.parse default dialect file source = .ok document)
    (hr : select? document kind = some r) (hkind : kind ∈ [Kind.tag, .comment]) :
    r.parts = [] := by
  obtain ⟨_, -, d, -, hbare⟩ := DocumentRecord.exists_of_parse hparse
  have hselect : select? d.record kind = some r.bare := by
    rw [← hbare, ← select?_bare, hr, Option.map_some]
  have hparts : r.bare.parts = [] := by
    simp only [List.mem_cons, List.not_mem_nil, or_false] at hkind
    rcases hkind with rfl | rfl
    · obtain ⟨f, hf, hhead⟩ := Option.bind_eq_some_iff.mp hselect
      obtain ⟨f, -, rfl⟩ := Option.map_eq_some_iff.mp hf
      obtain ⟨t, -, heq⟩ := List.mem_map.mp (List.mem_of_head? hhead)
      rw [← heq]
      rfl
    · obtain ⟨c, -, heq⟩ := List.mem_map.mp (List.mem_of_head? hselect)
      rw [← heq]
      rfl
  rw [Record.parts_bare] at hparts
  exact List.map_eq_nil_iff.mp hparts

/-- What is picked out of the document around a text stands on the lines of that text, counted from
the first line behind those in front. -/
theorem stands_of_select? {d : Dialect} (hd : d ∈ Dialect.all) {default dialect : Value}
    {file source : Text} {kind : Kind}
    (hparse : DocumentRecord.parse default dialect file (wrap d.primaryKeywords source kind)
      = .ok document)
    (hr : select? document kind = some r) (hkind : r.kind = kind) :
    r.Stands (kind.linesInFront + 1) (given source kind).splitLines := by
  have hw : document.IsWritten := DocumentRecord.isWritten_of_parse hparse
  have hmarks := not_mark_of_frame hd kind
  obtain ⟨hfeature, hcomments⟩ := DocumentRecord.stands_of_parse hparse
  rw [splitLines_wrap hd] at hfeature hcomments
  have hstands := of_select? (fun _ => Record.Stands.parts) hfeature hcomments hr
  have hbehind : behindLines d kind = [] →
      r.kind.sharesLine = true ∨ r.IsBelowLine kind.linesInFront →
      r.Stands (kind.linesInFront + 1) (given source kind).splitLines := by
    intro hnone hbelow
    rw [hnone, List.append_nil] at hstands hmarks
    rw [← length_frontLines d] at hbelow ⊢
    exact hstands.behind hmarks hbelow
  have hblock : ∀ b, firstBlock? document = some b → b.Reached _ 3 := fun b hb =>
    reached_of_firstBlock? hfeature hw hb
  cases kind with
  | featureFile | directory => cases hr
  | feature => exact hbehind rfl (.inr hstands.isBelowLine)
  | background | scenario | outline | rule =>
    exact hbehind rfl (.inr (reached_of_firstSection? hfeature hw hr).1.below)
  | step =>
    obtain ⟨s, hs, hx⟩ := Option.bind_eq_some_iff.mp hr
    exact hbehind rfl (.inr (reached_of_firstStep? hfeature hw hs hx).1.below)
  | table | docString => exact hbehind rfl (.inr (hblock r hr).below)
  | row =>
    obtain ⟨b, hb, hx⟩ := Option.bind_eq_some_iff.mp hr
    have hmem : r ∈ b.parts := by simp [Record.parts, List.mem_of_head? hx]
    have hshares : r.kind.sharesLine = false := by rw [hkind]; rfl
    obtain ⟨i, hi, hlt⟩ := ((hblock b hb).part hmem hshares).below
    exact hbehind rfl (.inr ⟨i, hi, by simp only [Kind.linesInFront]; split at hlt <;> omega⟩)
  | cell => exact hbehind rfl (.inl (by rw [hkind]; rfl))
  | «example» =>
    obtain ⟨s, hs, hx⟩ := Option.bind_eq_some_iff.mp hr
    have hmem : r ∈ s.parts := by simp [Record.parts, List.mem_of_head? hx]
    have hshares : r.kind.sharesLine = false := by rw [hkind]; rfl
    obtain ⟨hsection, htable⟩ := reached_of_firstSection? hfeature hw hs
    have hreached := hsection.part_of_ne htable hmem hshares
    have hnone : behindLines d .example = [] := rfl
    rw [hnone, List.append_nil] at hreached
    exact hbehind rfl (.inr (isBelowLine_of_example hreached hkind))
  | tag | comment =>
    exact Record.Stands.inFrontOf hmarks hstands
      (parts_of_leaf hparse hr (by decide)) (by rw [hkind]; decide)

end Fragment

/-! ### Nodes -/

/-- The keywords that are found for a name are those of a dialect of the table. -/
theorem Dialect.exists_of_keywordsFor {default name : Value} {keywords : PrimaryKeywords}
    (h : keywordsFor default name = .ok keywords) : ∃ d ∈ all, keywords = d.primaryKeywords := by
  obtain ⟨found, hfound, h⟩ := bind_ok h
  cases found with
  | none => cases h
  | some d =>
    cases h
    refine ⟨d, ?_, rfl⟩
    cases hname : nameOr default name <;> rw [hname] at hfound <;> simp only [ofValue?] at hfound
    case text t => exact List.mem_of_find?_eq_some (Except.ok.inj hfound)
    all_goals split at hfound <;> cases hfound

namespace Node

variable {default dialect : Value} {path source : Text} {kind : Kind} {n : Node}

/-- A node that is read from text stands, with everything inside it, on the lines of that text,
counted from the first line behind those that the document around it has in front, and in the order
of these lines. -/
theorem stands_of_read (h : read default dialect path source kind = .ok n) :
    n.Stands (kind.linesInFront + 1) (Fragment.given source kind).splitLines ∧ n.InOrder := by
  rw [read] at h
  split at h
  case isTrue hkind =>
    subst hkind
    obtain ⟨_, d, hd, hn⟩ := exists_of_readFile h
    obtain ⟨hfeature, hcomments⟩ := DocumentRecord.stands_of_parse hd
    have hw := DocumentRecord.isWritten_of_parse hd
    refine ⟨?_, (inOrder_of_readFile h).2⟩
    rw [hn, ofDocument]
    refine .file (List.forall_mem_append.mpr
      ⟨fun x hx => ?_, List.forall_mem_map.mpr fun r hr => ?_⟩)
    · obtain ⟨r, hr, rfl⟩ := Option.map_eq_some_iff.mp (Option.mem_toList.mp hx)
      exact stands_ofRecord (hfeature r hr) (hw.feature r hr).2 none
    · exact stands_ofRecord (hcomments r hr) (hw.comments r hr) none
  case isFalse =>
    obtain ⟨keywords, _, d, r, hkeywords, hd, hr, hkind, rfl⟩ := exists_of_readPart h
    obtain ⟨D, hD, rfl⟩ := Dialect.exists_of_keywordsFor hkeywords
    have hw := Fragment.isWritten_of_select? (DocumentRecord.isWritten_of_parse hd) hr
    have hstands := Fragment.stands_of_select? hD hd hr hkind
    exact ⟨stands_ofRecord hstands hw none, inOrder_ofRecord hstands.order hw none⟩

/-- A step with a table, which stands on lines 3 and 4 and not on lines 1 and 2. -/
theorem stands_of_read_step : ∃ n,
    read .null (.text Dialect.english.name) [] "Given a\n| b |".toList .step = .ok n
      ∧ n.Stands 3 ["Given a".toList, "| b |".toList] ∧ n.InOrder := by
  have hok : (read .null (.text Dialect.english.name) [] "Given a\n| b |".toList .step).isOk
      = true := by decide +kernel
  cases h : read .null (.text Dialect.english.name) [] "Given a\n| b |".toList .step with
  | error fault =>
    rw [h] at hok
    cases hok
  | ok n => exact ⟨n, rfl, stands_of_read h⟩

end Node

end FeatureTree
