import FeatureTree.Proofs.Node.Read
import FeatureTree.Proofs.Plain.Equal
import FeatureTree.Proofs.Schema.LegacyTree
import FeatureTree.Proofs.Schema.Parsed
import FeatureTree.Proofs.Schema.Rendered
import FeatureTree.Proofs.Schema.TypedTree

/-!
# The schemas agree

A feature with comments can be given as legacy output, as a typed tree or as a tree of the current
schema. Each is told apart, decoded into the same records, and built into equal nodes with the same
text. Legacy output has no language, which makes no difference for English.

## Main results

* `DocumentRecord.exists_buildAs`: the node of a record of a document with some language
* `Ast.Feature.schemas_agree`: an English feature is the same in all three schemas
-/

namespace FeatureTree

open Schema

open Dialect (english keywordsFor)

/-! ### What is built -/

/-- Whether a record can be built does not depend on its language. -/
theorem Record.isSound_withLanguage (r : Record) (language : Value) :
    ({ r with language } : Record).isSound = r.isSound := by
  cases r
  rfl

/-- What every heading keeps is kept by a feature. -/
theorem Ast.Feature.obeys_worded {default language : Value} {k : PrimaryKeywords}
    (h : keywordsFor default language = .ok k) (f : Ast.Feature) :
    f.Obeys (.worded default language k) := by
  have hbody : ∀ b : Ast.Body, b.Obeys (.worded default language k) := fun b =>
    ⟨fun x _ => ⟨fun _ => h, fun _ _ => trivial⟩,
      fun s _ => ⟨fun _ => h, fun _ _ => trivial, fun _ _ => trivial,
        fun e _ => ⟨fun _ => h, fun _ _ => trivial, trivial⟩⟩⟩
  exact ⟨fun _ => h, fun _ _ => trivial, hbody f.body,
    fun r _ => ⟨fun _ => h, fun _ _ => trivial, hbody r.body⟩⟩

namespace DocumentRecord

/-- What a document says as a file or as its feature, where the language can be any. -/
def builtNode (asFile : Bool) (f : Plain.Feature) : Node :=
  if asFile then Plain.fileNode [] (some f) else f.node

/-- A document is built, as a file or as its feature, into a node with the lines of the feature. A
language that needs no line makes no difference. -/
theorem exists_buildAs {default : Value} {k : PrimaryKeywords} {r : DocumentRecord}
    {f : Ast.Feature} {comments : List Ast.Comment} {language : Text}
    (h : r.bare = (Ast.Document.record ⟨some f, comments, []⟩).withLanguage (.text language))
    (hworded : f.Obeys (.worded default (.text language) k))
    (hplain : Plain.languageLines language = []) (asFile : Bool) :
    ∃ n, Node.buildAs asFile r = .ok (some n)
      ∧ n.bare = builtNode asFile { f.plain with language }
      ∧ n.text default = .ok (Text.joinLines (f.plain.withKeywords k).lines) := by
  obtain ⟨x, hx, hbare⟩ : ∃ x, r.feature = some x
      ∧ x.bare = { f.record with language := .text language } :=
    Option.map_eq_some_iff.mp (congrArg DocumentRecord.feature h)
  have hcomments : r.comments.map Record.bare = comments.map Ast.Comment.record :=
    congrArg DocumentRecord.comments h
  have hsound : x.isSound = true := by
    rw [← Record.isSound_bare, hbare, Record.isSound_withLanguage]
    exact f.isSound_record
  have hnode : (Node.ofRecord none x).bare
      = ({ f.plain with language } : Plain.Feature).node := by
    rw [Node.bare_ofRecord none none, hbare, Ast.Feature.bare_ofRecord_withLanguage]
  have hshows : ((Node.ofRecord none x).seen default).Shows (f.plain.withKeywords k).lines := by
    rw [Node.seen_ofRecord, hbare]
    exact Ast.Feature.shows_ofRecord hworded
  cases asFile with
  | false =>
    refine ⟨Node.ofRecord none x, ?_, hnode, Node.text_of_lines hshows⟩
    simp only [Node.buildAs, hx, Node.build, hsound, if_true, Bool.false_eq_true, if_false]
    rfl
  | true =>
    have hall : Record.areSound (fun _ => true) (r.feature.toList ++ r.comments) = true := by
      rw [Ast.areSound_append, hx, Node.areSound_of_bare
        (fun _ => Record.isSound_of_kind (.inr (.inr (.inr rfl)))) hcomments]
      simp [Record.areSound, hsound]
    refine ⟨Node.ofDocument [] r, ?_, ?_, Node.text_of_lines ?_⟩
    · simp only [Node.buildAs, if_true, Node.buildFile, hall]
      rfl
    · rw [Node.ofDocument, Node.bare_mk, hx]
      simp only [Shape.map, Shape.withoutComments, Option.map_some, hnode]
      rfl
    · have hlanguage : ((Node.ofRecord none x).seen default).field .language
          = .ok (.text language) := by
        obtain ⟨tags, setup, tests, rules, hs, -⟩ := Plain.Feature.shape_of_bare hnode
        rw [Node.seen, Node.facet, hs]
        rfl
      have hlines : Shape.fileLines Value.written
          (some ((Node.ofRecord none x).seen default))
          = .ok ((Plain.languageLines language ++ (f.plain.withKeywords k).lines).map .text) :=
        Facet.fileLines_of_shows (fun _ => rfl) hlanguage hshows
      rw [hplain, List.nil_append] at hlines
      rw [Node.ofDocument, Node.lines_eq, hx]
      exact hlines

end DocumentRecord

/-! ### Agreement -/

namespace Ast

variable {f : Feature} {comments own : List Comment} {inner : List (List Comment)}

/-- The old encoding has one element for each background and each scenario. -/
theorem Body.length_legacyTrees (words : List Text) (b : Body) :
    (b.legacyTrees words).length = b.background.toList.length + b.scenarios.length := by
  rw [legacyTrees, List.length_append, Option.length_toList, List.length_map, Option.isSome_map,
    Option.length_toList]

/-- Nodes that hold the same feature in two languages are equal. -/
theorem builtNode_equals {asFile : Bool} {p : Plain.Feature} {l l' : Text} {n m : Node}
    (hn : n.bare = DocumentRecord.builtNode asFile { p with language := l })
    (hm : m.bare = DocumentRecord.builtNode asFile { p with language := l' }) :
    n.equals m = .ok true := by
  cases asFile with
  | false => exact Plain.Feature.equals_of_bare hn hm
  | true => exact Plain.equals_of_bare_file hn hm

/-- An English feature without rules, given in each of the three schemas, is told apart, decoded
into the same records but for the language that legacy output lacks, and built, as a file or as a
feature, into equal nodes with the same text. The comments of legacy output may be spread in any
way. A part may be without a keyword if the default dialect is English. -/
theorem Feature.schemas_agree {default : Value} (hlanguage : f.language = english.name)
    (hrules : f.rules = []) (haligned : f.Obeys Law.aligned)
    (hworded : f.Obeys (.worded default .null english.primaryKeywords))
    (horder : comments.Pairwise (·.loc.line < ·.loc.line))
    (hlength : inner.length = f.body.background.toList.length + f.body.scenarios.length)
    (hspread : (own ++ inner.flatten).Perm comments) (asFile : Bool) :
    detect (f.legacyTree own inner) = .ok .legacyJson
      ∧ detect (Document.typedTree ⟨some f, comments, []⟩) = .ok .typedAst
      ∧ detect (Document.toTree ⟨some f, comments, []⟩) = .ok .currentAst
      ∧ ∃ legacy typed current, Schema.normalize (f.legacyTree own inner) = .ok legacy
        ∧ Schema.normalize (Document.typedTree ⟨some f, comments, []⟩) = .ok typed
        ∧ Schema.normalize (Document.toTree ⟨some f, comments, []⟩) = .ok current
        ∧ typed.bare = current.bare ∧ legacy.bare = current.bare.withLanguage (.text [])
        ∧ ∃ nodes : List Node, [legacy, typed, current].mapM (Node.buildAs asFile)
            = .ok (nodes.map some)
          ∧ (∀ n ∈ nodes, ∀ m ∈ nodes, n.equals m = .ok true)
          ∧ ∃ t, ∀ n ∈ nodes, n.text default = .ok t := by
  obtain ⟨hdetectLegacy, legacy, hlegacy, hlegacyBare⟩ := Feature.normalize_legacyTree hrules
    haligned horder (by rw [hlength, Body.length_legacyTrees]) hspread
  obtain ⟨hdetectTyped, typed, htyped, htypedBare⟩ :=
    Document.normalize_typedTree (d := ⟨some f, comments, []⟩) (by rintro _ ⟨⟩; exact hrules)
  obtain ⟨hdetectCurrent, current, hcurrent, hcurrentBare⟩ :=
    Document.normalize_toTree ⟨some f, comments, []⟩
  have hsame : Document.record ⟨some f, comments, []⟩
      = (Document.record ⟨some f, comments, []⟩).withLanguage (.text english.name) := by
    rw [← hlanguage]
    rfl
  have henglish : f.Obeys (.worded default (.text english.name) english.primaryKeywords) :=
    f.obeys_worded (Dialect.keywordsFor_english default)
  obtain ⟨n₁, hn₁, hbare₁, htext₁⟩ := DocumentRecord.exists_buildAs hlegacyBare hworded rfl asFile
  obtain ⟨n₂, hn₂, hbare₂, htext₂⟩ :=
    DocumentRecord.exists_buildAs (htypedBare.trans hsame) henglish rfl asFile
  obtain ⟨n₃, hn₃, hbare₃, htext₃⟩ :=
    DocumentRecord.exists_buildAs (hcurrentBare.trans hsame) henglish rfl asFile
  refine ⟨hdetectLegacy, hdetectTyped, hdetectCurrent, legacy, typed, current, hlegacy, htyped,
    hcurrent, htypedBare.trans hcurrentBare.symm, ?_, [n₁, n₂, n₃], ?_, ?_,
    Text.joinLines (f.plain.withKeywords english.primaryKeywords).lines, ?_⟩
  · rw [hlegacyBare, hcurrentBare]
  · simp [hn₁, hn₂, hn₃, bind, Except.bind, pure, Except.pure]
  · have hall : ∀ n ∈ [n₁, n₂, n₃], ∃ l,
        n.bare = DocumentRecord.builtNode asFile { f.plain with language := l } := by
      simp only [List.mem_cons, List.not_mem_nil, or_false]
      rintro n (rfl | rfl | rfl)
      · exact ⟨_, hbare₁⟩
      · exact ⟨_, hbare₂⟩
      · exact ⟨_, hbare₃⟩
    intro n hn m hm
    obtain ⟨l, hl⟩ := hall n hn
    obtain ⟨l', hl'⟩ := hall m hm
    exact builtNode_equals hl hl'
  · simp only [List.mem_cons, List.not_mem_nil, or_false]
    rintro n (rfl | rfl | rfl)
    · exact htext₁
    · exact htext₂
    · exact htext₃

/-- A small feature with a background, a step table and an outline. -/
def Feature.small : Feature where
  heading := ⟨⟨1, 1⟩, "Feature".toList, ['a'], []⟩
  tags := []
  language := english.name
  body := {
    background := some {
      heading := ⟨⟨3, 3⟩, "Background".toList, [], []⟩
      steps := [⟨⟨4, 5⟩, ['*', ' '], .unknown, ['b'], [⟨⟨5, 7⟩, [⟨⟨5, 9⟩, ['c']⟩]⟩], none⟩] }
    scenarios := [{
      heading := ⟨⟨6, 3⟩, "Scenario Outline".toList, ['d'], []⟩
      tags := []
      steps := []
      examples := [⟨⟨⟨7, 5⟩, "Examples".toList, [], []⟩, [], [⟨⟨8, 7⟩, [⟨⟨8, 9⟩, ['e']⟩]⟩]⟩] }] }
  rules := []

/-- The comments around the small feature. -/
def Comment.first : Comment := ⟨⟨2, 1⟩, ['#', 'x']⟩

def Comment.last : Comment := ⟨⟨9, 1⟩, ['#', 'y']⟩

/-- The small feature with its comments, the first of which legacy output gives to the
background. -/
theorem Feature.schemas_agree_small :
    ∃ legacy typed current,
      Schema.normalize (small.legacyTree [.last] [[.first], []]) = .ok legacy
        ∧ Schema.normalize (Document.typedTree ⟨some small, [.first, .last], []⟩) = .ok typed
        ∧ Schema.normalize (Document.toTree ⟨some small, [.first, .last], []⟩) = .ok current
        ∧ typed.bare = current.bare ∧ legacy.bare = current.bare.withLanguage (.text [])
        ∧ ∃ nodes : List Node, [legacy, typed, current].mapM (Node.buildAs true)
            = .ok (nodes.map some)
          ∧ (∀ n ∈ nodes, ∀ m ∈ nodes, n.equals m = .ok true)
          ∧ ∃ t, ∀ n ∈ nodes, n.text (.text english.name) = .ok t := by
  have haligned : small.Obeys Law.aligned := by
    have hstep : ∀ s ∈ [(⟨⟨4, 5⟩, ['*', ' '], .unknown, ['b'], [⟨⟨5, 7⟩, [⟨⟨5, 9⟩, ['c']⟩]⟩], none⟩
        : Step)], Law.aligned.step s := by
      simp [Law.aligned]
    have hrows : Law.aligned.rows [⟨⟨8, 7⟩, [⟨⟨8, 9⟩, ['e']⟩]⟩] := by
      simp [Law.aligned]
    refine ⟨trivial, by simp [small], ⟨?_, ?_⟩, by simp [small]⟩
    · rintro b ⟨⟩
      exact ⟨trivial, hstep⟩
    · intro s hs
      obtain rfl := List.mem_singleton.mp hs
      refine ⟨trivial, by simp, by simp, fun e he => ?_⟩
      obtain rfl := List.mem_singleton.mp he
      exact ⟨trivial, by simp, hrows⟩
  have hworded : small.Obeys (.worded (.text english.name) .null english.primaryKeywords) :=
    small.obeys_worded (Dialect.keywordsFor_english .null)
  have horder : [Comment.first, Comment.last].Pairwise (·.loc.line < ·.loc.line) := by
    simp [Comment.first, Comment.last]
  have hlength : [[Comment.first], []].length
      = small.body.background.toList.length + small.body.scenarios.length := rfl
  have hspread : ([Comment.last] ++ [[Comment.first], []].flatten).Perm
      [Comment.first, Comment.last] := List.Perm.swap _ _ _
  obtain ⟨-, -, -, h⟩ :=
    Feature.schemas_agree rfl rfl haligned hworded horder hlength hspread true
  exact h

end Ast

end FeatureTree
