import FeatureTree.Proofs.Node.Read
import FeatureTree.Proofs.Plain.Lawful
import FeatureTree.Proofs.Plain.ReadFile
import FeatureTree.Proofs.Plain.Rendered

/-!
# Languages that survive writing

A document can be read in one dialect and name another one in its first lines, so the language of
what was read and the dialect of the reader are two things. A file is written behind a line that
names its language, except for English, and a feature never is. What is written without such a line
is in the dialect in which it is read again. So the language survives, in every dialect, exactly if
it is the dialect of the reader or a line was written that names it.

## Main results

* `Plain.Feature.Legible.language_eq`: the lines of a feature alone are read in no other language
  than that of the reader
* `Plain.exists_parse_iff`: when the lines of a file or feature are read in its language
* `Node.language_survives_iff`: when the language of a node survives writing
-/

namespace FeatureTree

open Ast (Document)
open Dialect (english)

namespace Plain

variable {d given : Dialect} {f : Feature}

/-! ### Lines without a language -/

/-- The first line of a feature is no language line, and no comment or blank line. -/
theorem Feature.Legible.exists_first (hd : d ∈ Dialect.all) (hf : f.Legible d) :
    ∃ t ts, f.lines = t :: ts ∧ ∀ (l : Line), l.Shows t → ∀ (r : Reading),
      ∀ kind ∈ [TokenKind.language, .comment, .empty], r.token? l kind = .ok none := by
  -- these kinds are told apart in the same way by every reading
  have hreading : ∀ {l : Line} {kind : TokenKind} {token : Token},
      (⟨d, none⟩ : Reading).Only l kind token → kind ∉ [TokenKind.language, .comment, .empty] →
      ∀ (r : Reading), ∀ kind' ∈ [TokenKind.language, .comment, .empty],
        r.token? l kind' = .ok none := by
    intro l kind token honly hkind r kind' hkind'
    have hrefuse := honly.refuses kind' (by rintro rfl; exact hkind hkind')
      (by rintro rfl; simp at hkind')
    simp only [List.mem_cons, List.not_mem_nil, or_false] at hkind'
    rcases hkind' with rfl | rfl | rfl <;> exact hrefuse
  obtain ⟨k, hlines⟩ := exists_opening_eq f.tags (Layout.titleLine f.heading.keyword f.heading.name)
    f.heading.description false 0
  have hpart : f.lines = (tagLines f.tags
      ++ [Layout.titleLine f.heading.keyword f.heading.name])
      ++ (describedLines f.heading.description ++ List.replicate k []
        ++ (f.body.parts ++ f.rules.map Rule.lines).flatMap ([] :: ·)) := by
    rw [← List.append_assoc, ← hlines]
    simp [Feature.lines, Heading.part, Layout.part]
  rw [hpart, tagLines]
  split
  · refine ⟨_, _, rfl, fun l hl => ?_⟩
    have honly := Reading.only_title (r := ⟨d, none⟩) rfl (by decide) hf.heading.word
      hf.heading.name_trimmed .nil hl
    exact hreading honly (by decide)
  · next hne =>
    refine ⟨_, _, rfl, fun l hl => ?_⟩
    obtain ⟨cs, honly, -⟩ := Reading.only_tags (r := ⟨d, none⟩) (Dialect.distinct_of_mem hd) rfl
      (by simpa using hne) hf.tags hl
    exact hreading honly (by decide)

/-- The lines of a feature are read in no other language than that of the reader. -/
theorem Feature.Legible.language_eq (hd : d ∈ Dialect.all) (hf : f.Legible d)
    (hgiven : given ∈ Dialect.all) {document : Document}
    (h : Document.parse given (Text.joinLines f.lines) = .ok document) :
    ∀ x ∈ document.feature, x.language = given.name := by
  obtain ⟨t, ts, hlines, hfirst⟩ := hf.exists_first hd
  have hspell := (Feature.Legible.joinable hf).1.spell
  rw [hlines] at h hspell
  cases hsource : Line.ofText (Text.joinLines (t :: ts)) with
  | nil =>
    rw [hsource] at hspell
    cases hspell
  | cons l ls =>
    rw [hsource] at hspell
    exact Document.language_of_parse hgiven h hsource
      (hfirst l (List.forall₂_cons.mp hspell).1 _)

/-! ### Lines of a file or feature -/

/-- The lines of a feature, alone or in a file. -/
def linesIn (asFile : Bool) (f : Feature) : List Text :=
  if asFile then fileLines (some f) else f.lines

/-- Whether a text is read as a feature with a language and a keyword. -/
def IsReadIn (given : Dialect) (source language keyword : Text) : Prop :=
  ∃ document x, Document.parse given source = .ok document ∧ document.feature = some x
    ∧ x.language = language ∧ x.plain.heading.keyword = keyword

/-- What is written of a feature is read in its language, with its keyword, exactly if the reader
starts in the dialect of that language or comes upon a line that names it. -/
theorem exists_parse_iff (hgiven : given ∈ Dialect.all) (hd : d ∈ Dialect.all) (hf : f.Legible d)
    (asFile : Bool) :
    IsReadIn given (Text.joinLines (linesIn asFile f)) f.language f.heading.keyword
      ↔ d = given ∨ asFile = true ∧ d ≠ english := by
  have hlanguage : f.language = d.name := hf.language
  -- what comes back of a feature has its language and its keyword
  have hback : ∀ {x : Ast.Feature}, x.plain = f.reread d →
      x.language = f.language ∧ x.plain.heading.keyword = f.heading.keyword := by
    intro x hx
    exact ⟨congrArg Feature.language hx, congrArg (·.heading.keyword) hx⟩
  have hbare : IsReadIn given (Text.joinLines f.lines) f.language f.heading.keyword
      ↔ d = given := by
    constructor
    · rintro ⟨document, x, hparse, hx, hname, -⟩
      have hgivenName := hf.language_eq hd hgiven hparse x hx
      rw [hname, hlanguage] at hgivenName
      exact Dialect.eq_of_name_eq hd hgiven hgivenName
    · rintro rfl
      obtain ⟨x, hx, hparse⟩ := parse_legible hd hf
      exact ⟨_, x, hparse, rfl, hback hx⟩
  cases asFile with
  | false => simpa [linesIn] using hbare
  | true =>
    by_cases hen : d = english
    · have hlines : linesIn true f = f.lines := by
        rw [linesIn, if_pos rfl, fileLines, hlanguage, hen, languageLines_english, List.nil_append]
      rw [hlines, hbare]
      simp [hen]
    · have hnamed : d ≠ english ∨ given = d := .inl hen
      obtain ⟨x, hx, hparse⟩ := parse_legible_file hnamed hd hf
      exact iff_of_true ⟨_, x, hparse, rfl, hback hx⟩ (.inr ⟨rfl, hen⟩)

end Plain

namespace Node

/-! ### Nodes -/

/-- The feature that a node is or holds. -/
def feature? (n : Node) : Option Node :=
  match n.shape with
  | .featureFile _ held _ => held
  | .feature _ _ _ _ _ _ => some n
  | _ => none

/-- Whether a node is or holds a feature with a language and a keyword. -/
def Speaks (n : Node) (language keyword : Text) : Prop :=
  ∃ f, n.feature? = some f ∧ f.shape.ask .language = .ok (.text language)
    ∧ f.shape.ask .keyword = .ok (.text keyword)

variable {n : Node} {language keyword : Text}

/-- A node that holds a feature speaks the language of the feature, with its keyword. -/
theorem speaks_iff_of_feature {p : Plain.Feature} (h : n.bare = p.node) :
    n.Speaks language keyword ↔ p.language = language ∧ p.heading.keyword = keyword := by
  obtain ⟨tags, setup, tests, rules, hs, -⟩ := Plain.Feature.shape_of_bare h
  have hself : n.feature? = some n := by rw [feature?, hs]
  have hasks : n.shape.ask .language = .ok (.text p.language)
      ∧ n.shape.ask .keyword = .ok (.text p.heading.keyword) := by
    rw [hs]
    exact ⟨rfl, rfl⟩
  simp [Speaks, hself, hasks.1, hasks.2]

/-- A node that holds a file speaks the language of its feature, with its keyword. -/
theorem speaks_iff_of_file {path : Text} {p : Option Plain.Feature}
    (h : n.bare = Plain.fileNode path p) :
    n.Speaks language keyword
      ↔ ∃ x, p = some x ∧ x.language = language ∧ x.heading.keyword = keyword := by
  obtain ⟨held, comments, hs, hheld⟩ := Plain.shape_of_bare_file h
  have hself : n.feature? = held := by rw [feature?, hs]
  cases p with
  | none =>
    obtain rfl := Option.map_eq_none_iff.mp hheld
    simp [Speaks, hself]
  | some x =>
    obtain ⟨m, rfl, hm⟩ := Option.map_eq_some_iff.mp hheld
    have hspeaks : m.Speaks language keyword ↔ _ := speaks_iff_of_feature hm
    have hfeature : m.feature? = some m := by
      obtain ⟨tags, setup, tests, rules, hshape, -⟩ := Plain.Feature.shape_of_bare hm
      rw [feature?, hshape]
    rw [Speaks, hfeature] at hspeaks
    rw [Speaks, hself, hspeaks]
    simp

/-- What a file or feature speaks is what its text says. -/
theorem speaks_iff_of_bare {kind : Kind} {path : Text} {p : Plain.Feature}
    (h : n.bare = if kind = .featureFile then Plain.fileNode path (some p) else p.node) :
    n.Speaks language keyword ↔ p.language = language ∧ p.heading.keyword = keyword := by
  split at h
  · simpa using speaks_iff_of_file h
  · exact speaks_iff_of_feature h

/-- The lines of a file or feature. -/
theorem lines_of_bare {d : Dialect} (fallback : Value) {kind : Kind} {path : Text}
    {p : Plain.Feature} (hp : p.Legible d)
    (h : n.bare = if kind = .featureFile then Plain.fileNode path (some p) else p.node) :
    n.lines fallback = .ok ((Plain.linesIn (kind = .featureFile) p).map .text) := by
  by_cases hk : kind = .featureFile
  · rw [if_pos hk] at h
    rw [Plain.linesIn, if_pos (by simpa using hk)]
    exact Plain.lines_of_legible_file fallback (by simpa using hp) h
  · rw [if_neg hk] at h
    rw [Plain.linesIn, if_neg (by simpa using hk)]
    exact p.shows_of_bare fallback hp h

section

variable {given : Dialect} (hgiven : given ∈ Dialect.all) {default : Value} {path source : Text}
  {kind : Kind} {document : Document} {f : Ast.Feature}

include hgiven

/-- A file or feature is read as what its text says. -/
theorem exists_read_of_parse (default : Value) (path : Text)
    (hkind : kind = .feature ∨ kind = .featureFile)
    (hparse : Document.parse given source = .ok document) (hf : document.feature = some f) :
    ∃ n, read default (.text given.name) path source kind = .ok n
      ∧ n.bare = if kind = .featureFile then Plain.fileNode path (some f.plain)
        else f.plain.node := by
  rcases hkind with rfl | rfl
  · have hselect : Fragment.select? document.record .feature = some f.record := by
      simp [Fragment.select?, Document.record, hf]
    have hwrap : Document.parse given (Fragment.wrap given.primaryKeywords source .feature)
        = .ok document := hparse
    exact readPart_of_parse_in hgiven default hwrap hselect f.isSound_record (f.bare_ofRecord none)
      rfl
  · obtain ⟨n, hn, hbare⟩ := readFile_of_parse_in hgiven default path hparse
    rw [hf, Option.map_some] at hbare
    exact ⟨n, hn, hbare⟩

/-- What is read and speaks a language was read by the parser, with a feature. -/
theorem exists_feature_of_read (hkind : kind = .feature ∨ kind = .featureFile) {n : Node}
    (h : read default (.text given.name) path source kind = .ok n)
    (hspeaks : n.Speaks language keyword) :
    ∃ document f, Document.parse given source = .ok document ∧ document.feature = some f := by
  rcases hkind with rfl | rfl
  · obtain ⟨document, r, hparse, hselect, -⟩ := exists_parse_of_readPart_in hgiven h
    obtain ⟨f, hf, -⟩ := Option.map_eq_some_iff.mp hselect
    exact ⟨document, f, hparse, hf⟩
  · obtain ⟨document, hparse, hbare⟩ := exists_parse_of_readFile_in hgiven h
    obtain ⟨p, hp, -⟩ := (speaks_iff_of_file hbare).mp hspeaks
    obtain ⟨f, hf, -⟩ := Option.map_eq_some_iff.mp hp
    exact ⟨document, f, hparse, hf⟩

/-- A text is read as a file or feature of a language exactly if the parser reads it so. -/
theorem exists_read_iff (hkind : kind = .feature ∨ kind = .featureFile) :
    (∃ n, read default (.text given.name) path source kind = .ok n ∧ n.Speaks language keyword)
      ↔ Plain.IsReadIn given source language keyword := by
  constructor
  · rintro ⟨n, hn, hspeaks⟩
    obtain ⟨document, f, hparse, hf⟩ := exists_feature_of_read hgiven hkind hn hspeaks
    obtain ⟨n', hn', hbare⟩ := exists_read_of_parse hgiven default path hkind hparse hf
    obtain rfl : n = n' := Except.ok.inj (hn.symm.trans hn')
    exact ⟨document, f, hparse, hf, (speaks_iff_of_bare hbare).mp hspeaks⟩
  · rintro ⟨document, f, hparse, hf, hsays⟩
    obtain ⟨n, hn, hbare⟩ := exists_read_of_parse hgiven default path hkind hparse hf
    exact ⟨n, hn, (speaks_iff_of_bare hbare).mpr hsays⟩

/-- The language and the keyword of what was read survive writing exactly if the language is that of
the dialect that it is read in, or if it is a file in another language than English. -/
theorem language_survives_iff (hkind : kind = .feature ∨ kind = .featureFile) {n : Node}
    (hread : read default (.text given.name) path source kind = .ok n)
    (hparse : Document.parse given source = .ok document) (hf : document.feature = some f)
    (hfree : ∀ d ∈ Dialect.ofName? f.language, document.Obeys (Ast.Law.free d))
    (hrules : f.rules = [] ∨ f.language ≠ "en-tx".toList) (fallback : Value) :
    n.Speaks f.language f.plain.heading.keyword
      ∧ ∃ t, n.text fallback = .ok t
        ∧ ((∃ m, read default (.text given.name) path t kind = .ok m
            ∧ m.Speaks f.language f.plain.heading.keyword)
          ↔ f.language = given.name ∨ kind = .featureFile ∧ f.language ≠ english.name) := by
  obtain ⟨d, hd, hname, hlegible⟩ := Document.legible_of_parse hgiven hparse hf
  have hlegible : f.plain.Legible d := by
    refine hlegible (hfree d ?_) (hname ▸ hrules)
    rw [hname, Dialect.ofName?_name hd]
    rfl
  obtain ⟨n', hn', hbare⟩ := exists_read_of_parse hgiven default path hkind hparse hf
  obtain rfl : n = n' := Except.ok.inj (hread.symm.trans hn')
  refine ⟨(speaks_iff_of_bare hbare).mpr ⟨rfl, rfl⟩, _,
    text_of_lines (lines_of_bare fallback hlegible hbare), ?_⟩
  have hlanguage : f.plain.language = f.language := rfl
  rw [exists_read_iff hgiven hkind, ← hlanguage, Plain.exists_parse_iff hgiven hd hlegible,
    hlanguage, hname, decide_eq_true_eq]
  have hiff : ∀ d' ∈ Dialect.all, d = d' ↔ d.name = d'.name := fun d' hd' =>
    ⟨congrArg Dialect.name, Dialect.eq_of_name_eq hd hd'⟩
  rw [hiff given hgiven, Ne, hiff english Dialect.english_mem]

end

/-- A text in French that names its language. -/
def frenchText : Text := "# language: fr\nFonctionnalité: a".toList

/-- The feature of the text in French. -/
def frenchTitle : Ast.Feature where
  heading := ⟨⟨2, 1⟩, "Fonctionnalité".toList, ['a'], []⟩
  tags := []
  language := ['f', 'r']
  body := ⟨none, []⟩
  rules := []

/-- A text in French says so and is parsed in French. -/
theorem parse_frenchText :
    Document.parse english frenchText = .ok (Document.empty.withFeature frenchTitle) := by
  decide

/-- A French feature without description is free of what dialects would read into it. -/
theorem free_frenchTitle (d : Dialect) (hd : d ∈ Dialect.all) :
    (Document.empty.withFeature frenchTitle).Obeys (Ast.Law.free d) := by
  rintro f ⟨⟩
  refine ⟨fun l hl => ?_, nofun, ⟨nofun, nofun⟩, nofun⟩
  have hnil : frenchTitle.heading.plain.description.splitLines = [[]] := by decide
  rw [hnil, List.mem_singleton] at hl
  exact hl ▸ Plain.free_nil (Dialect.distinct_of_mem hd) _

/-- Read in English, the text loses its language as a feature and keeps it as a file. -/
theorem language_survives_iff_french :
    (∃ n t, read .null (.text english.name) [] frenchText .feature = .ok n
      ∧ n.Speaks ['f', 'r'] "Fonctionnalité".toList ∧ n.text .null = .ok t
      ∧ ¬∃ m, read .null (.text english.name) [] t .feature = .ok m
        ∧ m.Speaks ['f', 'r'] "Fonctionnalité".toList)
    ∧ ∃ n t, read .null (.text english.name) [] frenchText .featureFile = .ok n
      ∧ n.Speaks ['f', 'r'] "Fonctionnalité".toList ∧ n.text .null = .ok t
      ∧ ∃ m, read .null (.text english.name) [] t .featureFile = .ok m
        ∧ m.Speaks ['f', 'r'] "Fonctionnalité".toList := by
  have hfree : ∀ d ∈ Dialect.ofName? frenchTitle.language,
      (Document.empty.withFeature frenchTitle).Obeys (Ast.Law.free d) := fun d hd =>
    free_frenchTitle d (List.mem_of_find?_eq_some hd)
  have hkeyword : frenchTitle.plain.heading.keyword = "Fonctionnalité".toList := by decide
  rw [← hkeyword]
  constructor
  · obtain ⟨n, hn, -⟩ := exists_read_of_parse Dialect.english_mem .null [] (.inl rfl)
      parse_frenchText rfl
    obtain ⟨hspeaks, t, ht, hiff⟩ := language_survives_iff Dialect.english_mem (.inl rfl) hn
      parse_frenchText rfl hfree (.inl rfl) .null
    exact ⟨n, t, hn, hspeaks, ht, fun h => absurd (hiff.mp h) (by decide)⟩
  · obtain ⟨n, hn, -⟩ := exists_read_of_parse Dialect.english_mem .null [] (.inr rfl)
      parse_frenchText rfl
    obtain ⟨hspeaks, t, ht, hiff⟩ := language_survives_iff Dialect.english_mem (.inr rfl) hn
      parse_frenchText rfl hfree (.inl rfl) .null
    exact ⟨n, t, hn, hspeaks, ht, hiff.mpr (.inr (by decide))⟩

end Node

end FeatureTree
