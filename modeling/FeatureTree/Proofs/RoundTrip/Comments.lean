import FeatureTree.Proofs.RoundTrip.Part
import FeatureTree.Proofs.RoundTrip.Tables

/-!
# Comments that are read on their own

A comment of a document is a line that starts with the sign of comments, without the blanks around
it. On its own it is read as the first line of a small document, and there a line that has the form
of a language line is read as that. Behind a title it is a comment like any other. So a comment of a
document is read on its own, as the same comment, exactly if it does not have that form.

## Main results

* `ParseState.comments_of_run`: where the comments of a document come from
* `Ast.Document.parse_comment`, `Ast.Document.comments_of_parse_language`: what is read of a comment
  in front of a feature
* `Node.comment_alone_iff`: when a comment of a document is read on its own
-/

namespace FeatureTree

open Ast (Document)
open Dialect (english)

/-! ### The comments of a document -/

/-- Whether a text is that of a comment. -/
structure IsComment (t : Text) : Prop where
  sign : ['#'] <+: t
  trimmed : t.Trimmed
  oneLine : t.OneLine

/-- A comment is not empty. -/
theorem IsComment.ne_nil {t : Text} (h : IsComment t) : t ≠ [] := by
  rintro rfl
  exact absurd h.sign (by simp)

namespace ParseState

variable {s : ParseState}

/-- A comment of a document was there before or comes from a line that starts with the sign of
comments. -/
theorem comments_of_run {ls : List Line} (h : (s.run ls).faults = []) :
    ∀ c ∈ (s.run ls).document.comments, c ∈ s.document.comments
      ∨ ∃ l ∈ ls, ['#'] <+: l.trimmed ∧ c.text = Line.withoutEnd l.text := by
  refine run_induction (Q := (· ∈ ls)) (P := fun t => ∀ c ∈ t.document.comments,
    c ∈ s.document.comments ∨ ∃ l ∈ ls, ['#'] <+: l.trimmed ∧ c.text = Line.withoutEnd l.text)
    ?_ (fun c hc => .inl hc) (fun l hl => hl) h
  intro t l e token ht hl htakes hleave c hc
  rcases List.mem_append.mp (t.document.comments_take _ l t.place e.next token ▸ hc) with hc | hc
  · exact ht c hc
  · obtain ⟨rfl, -⟩ := Token.mem_comments_iff.mp hc
    have hkind : Token.kind (.comment c.text) = e.kind := Reading.kind_of_token? htakes.reads
    have hreads := htakes.reads
    rw [← hkind] at hreads
    simp only [Token.kind, Reading.token?, Except.ok.injEq] at hreads
    split at hreads
    · next hsign =>
      simp only [Option.some.injEq, Token.comment.injEq] at hreads
      exact .inr ⟨l, hl, Reading.head?_eq_some_iff.mp hsign, hreads.symm⟩
    · cases hreads

end ParseState

namespace Line

variable {l : Line} {t : Text}

/-- Trimming a line takes its end away. -/
theorem trim_withoutEnd (t : Text) : Text.trim (withoutEnd t) = Text.trim t := by
  obtain ⟨u, hu, hends⟩ := Text.exists_dropEndWhile_append (fun c => c = '\r' || c = '\n') t
  have hblank : ∀ c ∈ u, isBlank c = true := by
    intro c hc
    rcases Bool.or_eq_true _ _ |>.mp (hends c hc) with hc | hc
    · rw [of_decide_eq_true hc]; rfl
    · rw [of_decide_eq_true hc]; rfl
  conv_rhs => rw [hu]
  exact (Text.trim_append_blank _ hblank).symm

/-- A line that starts with the sign of comments gives a comment. -/
theorem IsCut.isComment (h : l.IsCut) (hsign : ['#'] <+: l.trimmed) :
    IsComment (Text.trim (withoutEnd l.text)) := by
  rw [trim_withoutEnd]
  refine ⟨?_, Text.trimmed_trim _, h.endsLine.oneLine_trim⟩
  obtain ⟨r, hr⟩ := hsign
  have htrim : Text.trim l.text = '#' :: Text.trimEnd r := by
    have hstart : Text.trimStart l.text = '#' :: r := hr.symm
    rw [Text.trim, hstart]
    exact Text.dropEndWhile_cons_of_neg (by decide)
  rw [htrim]
  exact ⟨_, rfl⟩

/-- Whether a line names a language depends on what it shows. -/
theorem Shows.language?_eq (h : l.Shows t) : l.language? = (Line.mk 1 t).language? := by
  obtain ⟨e, hl, he⟩ := h.exists_end
  have htrim : Text.trim l.text = Text.trim t := by
    rw [hl]
    exact Text.trim_append_blank t (blank_of_lineFeeds he)
  rw [language?, language?, htrim]

/-- A line that shows a comment starts with its sign. -/
theorem Shows.sign (h : l.Shows t) (ht : IsComment t) : ['#'] <+: l.trimmed := by
  obtain ⟨e, htrimmed, -⟩ := Shows.trimmed (m := []) h .nil ht.trimmed.head ht.ne_nil
  rw [htrimmed]
  exact ht.sign.trans (List.prefix_append _ _)

end Line

/-- The comments of a document that is parsed are comments. -/
theorem Ast.Document.isComment_of_parse {d : Dialect} {source : Text} {document : Document}
    (h : parse d source = .ok document) : ∀ c ∈ document.comments, IsComment c.text.trim := by
  obtain ⟨hfaults, rfl, -⟩ := run_of_parse h
  intro c hc
  rcases ParseState.comments_of_run hfaults c hc with hc | ⟨l, hl, hsign, htext⟩
  · cases hc
  · rw [htext]
    exact (Line.isCut_of_mem_ofText hl).isComment hsign

/-! ### A comment in front of a feature -/

/-- What starts with the sign of comments is nothing else, where all openers are marks. -/
theorem Dialect.not_opens_of_sign {d : Dialect} {kind : TokenKind} (hkind : kind ≠ .comment)
    (hmarks : ∀ w ∈ d.openers kind, d.Marks kind w) {t : Text} (hsign : ['#'] <+: t) :
    ¬d.Opens kind t := by
  rintro ⟨w, hw, hp⟩
  exact hkind ((hmarks w hw).eq_of_isPrefix hp d.mem_openers_comment hsign).1.symm

namespace ParseState

variable {s : ParseState} {l : Line}

/-- At the start of a document, a line with the sign of comments is a comment if it is no language
line. -/
theorem passes_comment (hd : s.reading.dialect ∈ Dialect.all) (hplace : s.place = .start)
    (hfence : s.reading.fence = none) (hsign : ['#'] <+: l.trimmed) (hnone : l.language? = none) :
    s.Passes [l] (s.goes l .start (.comment (Line.withoutEnd l.text))) := by
  have hhead : l.trimmed.head? = some '#' := Reading.head?_eq_some_iff.mpr hsign
  have heof : s.tryKind l .eof = (s, none) := rfl
  have hlanguage : s.tryKind l .language = (s, none) :=
    tryKind_of_refuses (by simp [Reading.token?, hnone])
  have htag : s.tryKind l .tagLine = (s, none) := by
    refine tryKind_of_refuses ((Reading.token?_eq_none_iff hfence (by decide)).mpr ?_)
    refine Dialect.not_opens_of_sign (by decide) (fun w hw => ?_) hsign
    rw [List.mem_singleton.mp hw]
    exact (Dialect.distinct_of_mem hd).tag
  have hfeature : s.tryKind l .featureLine = (s, none) := by
    refine tryKind_of_refuses ((Reading.token?_eq_none_iff hfence (by decide)).mpr ?_)
    refine Dialect.not_opens_of_sign (by decide) (fun w hw => ?_) hsign
    obtain ⟨k, hk, rfl⟩ := List.mem_map.mp hw
    exact (Dialect.titleWord_of_mem hd (by decide) hk (.inl (by decide))).mark
  have hcomment : s.tryKind l .comment = (s, some (.comment (Line.withoutEnd l.text))) :=
    tryKind_of_reads (by simp [Reading.token?, hhead])
  have hentries : s.place.entries = State.start.entries := by rw [hplace]
  refine .single fun rest => ?_
  refine advance_eq (e := ⟨.comment, none, .start⟩) ?_
    (settled_of_not_inTable (by rw [hplace]; rfl) _)
  rw [hentries]
  simp only [State.entries, State.on, choose, heof, hlanguage, htag, hfeature, hcomment]

/-- A language line is tried before everything else that it could be at the start. -/
theorem exists_language_of_takes {d : Dialect} {e : Entry} {token : Token}
    (h : (start d).Takes l State.start.entries e token) (hlanguage : l.language? ≠ none) :
    ∃ name, token = .language name := by
  have hnot : (start d).reading.token? l .language ≠ .ok none := by
    obtain ⟨name, hname⟩ := Option.ne_none_iff_exists'.mp hlanguage
    simp only [Reading.token?, hname]
    split <;> simp
  obtain ⟨hreads, before, after, hsplit, hbefore⟩ := h
  have hkind : e.kind = .language := by
    rcases before with _ | ⟨b, _ | ⟨b', bs⟩⟩ <;>
      simp only [State.entries, State.on, List.nil_append, List.cons_append, List.cons.injEq]
        at hsplit
    · obtain ⟨rfl, -⟩ := hsplit
      cases hreads
    · rw [← hsplit.2.1]
    · obtain ⟨-, rfl, -⟩ := hsplit
      exact absurd (hbefore (State.on .language .languageGiven) (by simp [State.on]) rfl) hnot
  have htoken := Reading.kind_of_token? hreads
  rw [hkind] at htoken
  cases token <;> first | exact ⟨_, rfl⟩ | cases htoken

end ParseState

/-- The title of the feature around a part has no sign of comments. -/
theorem Line.Shows.not_sign_frameTitle {d : Dialect} (hd : d ∈ Dialect.all) {l : Line}
    (h : l.Shows (Plain.frameTitle d)) : ¬['#'] <+: l.trimmed := by
  have hname : Text.trim Plain.frameName = Plain.frameName := by decide
  have honly : (ParseState.start d).reading.Only l .featureLine
      (.featureLine ⟨d.primaryKeywords.feature, Plain.frameName⟩) :=
    Reading.only_title rfl (by decide) (Plain.titleWord_frame hd) hname .nil h
  have hrefuse := honly.refuses .comment (by decide) (by decide)
  intro hsign
  exact (Reading.token?_eq_none_iff rfl (by decide)).mp hrefuse
    ⟨['#'], d.mem_openers_comment, hsign⟩

namespace Ast.Document

variable {d : Dialect} {t : Text}

/-- The document that is put around a comment. -/
theorem wrap_comment (d : Dialect) (t : Text) : Fragment.wrap d.primaryKeywords t .comment
    = t ++ '\n' :: Fragment.inFeature d.primaryKeywords [] := rfl

/-- A comment in front of a feature is read as the only comment of its document, if it is no
language line. -/
theorem parse_comment (hd : d ∈ Dialect.all) (ht : IsComment t)
    (hnone : (Line.mk 1 t).language? = none) :
    ∃ document c, parse d (Fragment.wrap d.primaryKeywords t .comment) = .ok document
      ∧ document.comments = [c] ∧ c.text.trim = t := by
  have hspell := Plain.spell_inFront hd ht.oneLine
  rw [wrap_comment]
  generalize hlines : Line.ofText (t ++ '\n' :: Fragment.inFeature d.primaryKeywords []) = ls
    at hspell
  obtain _ | @⟨l, _, ls, _, hl, hls⟩ := hspell
  have hfirst := ParseState.passes_comment (s := ParseState.start d) hd rfl rfl (hl.sign ht)
    (hl.language?_eq.trans hnone)
  rw [ParseState.goes_eq_moved rfl] at hfirst
  have hready : ((ParseState.start d).moved .start ((ParseState.start d).document.take d.name l
      .start .start (.comment (Line.withoutEnd l.text)))).Ready :=
    ⟨Dialect.distinct_of_mem hd, rfl, rfl, ParseState.settled_of_not_inTable rfl⟩
  have hname : Text.trim Plain.frameName = Plain.frameName := by decide
  have htitle : Line.Spell ls (Plain.tagLines [] ++ [Plain.frameTitle d]) := hls
  have hnext : State.start.next? .featureLine = some (.heading .feature) := rfl
  obtain ⟨ts, loc, hts, hsecond⟩ := Plain.passes_title (by decide) hready hnext
    (Plain.titleWord_frame hd) hname (by simp) (.inl rfl) htitle
  have hrun := hfirst.append hsecond
  rw [List.singleton_append, ← hlines] at hrun
  have hparse := Plain.parse_of_passes hrun (ParseState.settled_of_not_inTable rfl)
    (Plain.mayEnd_of_isBehindTitle ⟨.feature, rfl⟩) rfl
  refine ⟨_, ⟨⟨l.number, 1⟩, Line.withoutEnd l.text⟩, hparse, rfl, ?_⟩
  obtain ⟨e, htext, he⟩ := hl.exists_end
  rw [Line.trim_withoutEnd, htext]
  exact Text.trim_append_of_blank ht.trimmed (Line.blank_of_lineFeeds he)

/-- A language line in front of a feature leaves no comments. -/
theorem comments_of_parse_language (hd : d ∈ Dialect.all) (ht : IsComment t)
    (hlanguage : (Line.mk 1 t).language? ≠ none) {document : Document}
    (h : parse d (Fragment.wrap d.primaryKeywords t .comment) = .ok document) :
    document.comments = [] := by
  have hspell := Plain.spell_inFront hd ht.oneLine
  obtain ⟨hfaults, rfl, -⟩ := run_of_parse h
  rw [wrap_comment] at hfaults ⊢
  generalize Line.ofText (t ++ '\n' :: Fragment.inFeature d.primaryKeywords []) = ls
    at hspell hfaults ⊢
  obtain _ | @⟨l, _, ls, _, hl, hls⟩ := hspell
  obtain _ | @⟨l', _, _, _, hl', hnil⟩ := hls
  cases hnil
  rw [ParseState.run_cons] at hfaults ⊢
  obtain ⟨e, token, htakes, -, heq⟩ :=
    ParseState.advance_of_faultless (ParseState.faults_of_run hfaults)
  rw [heq] at hfaults ⊢
  obtain ⟨name, rfl⟩ :=
    ParseState.exists_language_of_takes htakes (hl.language?_eq.trans_ne hlanguage)
  refine List.eq_nil_iff_forall_not_mem.mpr fun c hc => ?_
  rcases ParseState.comments_of_run hfaults c hc with hc | ⟨l'', hl'', hsign, -⟩
  · cases hc
  · obtain rfl := List.mem_singleton.mp hl''
    exact hl'.not_sign_frameTitle hd hsign

end Ast.Document

/-! ### Comments that stand alone -/

namespace Plain

/-- The node of a comment. -/
def commentNode (t : Text) : Node := .mk {} (.comment (.text t))

/-- A node that holds a comment has its text. -/
theorem shape_of_bare_comment {n : Node} {t : Text} (h : n.bare = commentNode t) :
    n.shape = .comment (.text t) := by
  have hs := Node.shape_of_bare h
  cases hn : n.shape <;> rw [hn] at hs <;> cases hs
  rfl

/-- A comment is rendered as its text. -/
theorem lines_of_bare_comment {n : Node} {t : Text} (h : n.bare = commentNode t)
    (default : Value) : n.lines default = .ok ([t].map .text) := by
  rw [Node.lines_eq, shape_of_bare_comment h]
  rfl

/-- Comments are the same if their nodes are. -/
theorem commentNode_inj {t t' : Text} : commentNode t = commentNode t' ↔ t = t' := by
  simp [commentNode]

end Plain

/-- The node of a comment holds its trimmed text. -/
theorem Ast.Comment.bare_ofRecord (c : Ast.Comment) :
    (Node.ofRecord none c.record).bare = Plain.commentNode c.text.trim := rfl

namespace Node

variable {d : Dialect} {n : Node} {path source : Text} {comments : List Node}

section

variable (hd : d ∈ Dialect.all) {default dialect : Value}
  (hdialect : Dialect.nameOr default dialect = .text d.name)

include hd hdialect

/-- The comments of a file that is read are those of its document. -/
theorem exists_comments_of_read (h : read default dialect path source .featureFile = .ok n)
    (hcomments : n.shape.list? .comments = some comments) :
    ∃ document, Document.parse d source = .ok document
      ∧ comments.map bare = document.comments.map fun c => Plain.commentNode c.text.trim := by
  rw [← read_nameOr, hdialect, read_featureFile] at h
  obtain ⟨document, hparse, -⟩ := exists_parse_of_readFile_in hd h
  obtain ⟨_, r, hr, rfl⟩ := exists_of_readFile h
  obtain ⟨r', hr', hbare⟩ := DocumentRecord.parse_of_parse_in hd default _ hparse
  obtain rfl : r = r' := Except.ok.inj (hr.symm.trans hr')
  obtain rfl : r.comments.map (ofRecord none) = comments := Option.some.inj hcomments
  refine ⟨document, hparse, ?_⟩
  have hrecords : r.comments.map Record.bare = document.comments.map Ast.Comment.record :=
    congrArg DocumentRecord.comments hbare
  have hmap : bare ∘ ofRecord none = (fun x => (ofRecord none x).bare) ∘ Record.bare :=
    funext fun x => bare_ofRecord none none x
  rw [List.map_map, hmap, ← List.map_map, hrecords, List.map_map]
  rfl

/-- A text is read as a comment on its own if it is no language line. -/
theorem exists_read_comment {t : Text} (ht : IsComment t) (hnone : (Line.mk 1 t).language? = none)
    (path : Text) :
    ∃ m, read default dialect path t .comment = .ok m ∧ m.bare = Plain.commentNode t := by
  obtain ⟨document, c, hparse, hcomments, htext⟩ := Document.parse_comment hd ht hnone
  have hselect : Fragment.select? document.record .comment = some c.record := by
    rw [Fragment.select?, Document.record, hcomments]
    rfl
  obtain ⟨m, hm, hbare⟩ := readPart_of_parse_in hd default hparse hselect
    (Record.isSound_of_kind (.inr (.inr (.inr rfl)))) c.bare_ofRecord rfl
  refine ⟨m, ?_, htext ▸ hbare⟩
  rw [← read_nameOr, hdialect, read, if_neg (by decide)]
  exact hm

/-- A comment that says a language is not read as a comment alone. -/
theorem not_read_language {t : Text} (ht : IsComment t) (hlanguage : (Line.mk 1 t).language? ≠ none)
    (path : Text) (m : Node) : read default dialect path t .comment ≠ .ok m := by
  intro h
  rw [← read_nameOr, hdialect] at h
  obtain ⟨document, r, hparse, hselect, -⟩ := exists_parse_of_readPart_in hd h
  have hnil := Document.comments_of_parse_language hd ht hlanguage hparse
  rw [Fragment.select?, Document.record, hnil] at hselect
  cases hselect

/-- A comment of a file that was read is read from its text on its own, as the same comment, exactly
if it does not have the form of a language line. -/
theorem comment_alone_iff (hread : read default dialect path source .featureFile = .ok n)
    (hcomments : n.shape.list? .comments = some comments) {c : Node} (hc : c ∈ comments)
    (path' : Text) (fallback : Value) :
    ∃ t, c.bare = Plain.commentNode t ∧ c.text fallback = .ok t
      ∧ ((∃ m, read default dialect path' t .comment = .ok m) ↔ (Line.mk 1 t).language? = none)
      ∧ ∀ m, read default dialect path' t .comment = .ok m → m.bare = c.bare := by
  obtain ⟨document, hparse, hbare⟩ := exists_comments_of_read hd hdialect hread hcomments
  obtain ⟨x, hx, hxbare⟩ := List.mem_map.mp (hbare ▸ List.mem_map_of_mem hc)
  have ht := Document.isComment_of_parse hparse x hx
  have htext := text_of_lines (Plain.lines_of_bare_comment hxbare.symm fallback)
  rw [Text.joinLines_singleton] at htext
  refine ⟨_, hxbare.symm, htext, ?_⟩
  by_cases hlanguage : (Line.mk 1 x.text.trim).language? = none
  · obtain ⟨m, hm, hmbare⟩ := exists_read_comment hd hdialect ht hlanguage path'
    refine ⟨iff_of_true ⟨m, hm⟩ hlanguage, fun m' hm' => ?_⟩
    obtain rfl : m' = m := Except.ok.inj (hm'.symm.trans hm)
    exact hmbare.trans hxbare
  · have hnot := not_read_language hd hdialect ht hlanguage path'
    exact ⟨iff_of_false (fun ⟨m, hm⟩ => hnot m hm) hlanguage, fun m hm => absurd hm (hnot m)⟩

end

/-- A document with a comment and a language line that stands too late. -/
def lateLanguage : Text := "Feature: a\n  # b\n# language: fr".toList

/-- Where the line of a language stands behind the feature it is a comment. -/
theorem parse_lateLanguage : Document.parse english lateLanguage = .ok
    ⟨some ⟨.ofTitle ⟨1, 1⟩ ⟨"Feature".toList, ['a']⟩, [], english.name, .empty, []⟩,
      [⟨⟨2, 1⟩, "  # b".toList⟩, ⟨⟨3, 1⟩, "# language: fr".toList⟩], []⟩ := by
  decide

/-- The first comment of the document is read on its own, and the second one is not. -/
theorem comment_alone_iff_lateLanguage :
    ∃ (n c c' m : Node), read .null (.text english.name) [] lateLanguage .featureFile = .ok n
      ∧ n.shape.list? .comments = some [c, c'] ∧ c.text .null = .ok "# b".toList
      ∧ read .null (.text english.name) [] "# b".toList .comment = .ok m ∧ m.bare = c.bare
      ∧ c'.text .null = .ok "# language: fr".toList
      ∧ ¬∃ m', read .null (.text english.name) [] "# language: fr".toList .comment = .ok m' := by
  have hdialect : Dialect.nameOr .null (.text english.name) = .text english.name := rfl
  obtain ⟨n, hn, hfile⟩ := readFile_of_parse .null [] parse_lateLanguage
  have hread : read .null (.text english.name) [] lateLanguage .featureFile = .ok n := hn
  obtain ⟨held, comments, hshape, -⟩ := Plain.shape_of_bare_file hfile
  have hcomments : n.shape.list? .comments = some comments := by rw [hshape]; rfl
  obtain ⟨document, hparse, hbare⟩ :=
    exists_comments_of_read Dialect.english_mem hdialect hread hcomments
  obtain rfl := Except.ok.inj (hparse.symm.trans parse_lateLanguage)
  obtain ⟨c, cs, rfl, hc, hcs⟩ := List.map_eq_cons_iff.mp hbare
  obtain ⟨c', rfl, hc'⟩ := List.map_eq_singleton_iff.mp hcs
  have halone := fun x hx => comment_alone_iff (c := x) Dialect.english_mem hdialect hread hcomments
    hx [] .null
  obtain ⟨t, ht, htext, hiff, hsame⟩ := halone c (by simp)
  obtain rfl := Plain.commentNode_inj.mp (ht.symm.trans hc)
  obtain ⟨t', ht', htext', hiff', -⟩ := halone c' (by simp)
  obtain rfl := Plain.commentNode_inj.mp (ht'.symm.trans hc')
  obtain ⟨m, hm⟩ := hiff.mpr (by decide)
  exact ⟨n, c, c', m, hread, hcomments, htext, hm, hsame m hm, htext',
    fun h => absurd (hiff'.mp h) (by decide)⟩

end Node

end FeatureTree
