import FeatureTree.Proofs.Node.Read
import FeatureTree.Proofs.Plain.Lawful
import FeatureTree.Proofs.Plain.ReadFile
import FeatureTree.Proofs.Plain.Rendered

/-!
# Files that are written and read back

What is read as an English file is written as a text that is read as the same file again, and
written as the same text from then on. The three exceptions are those of `Ast.Law.writable`.

## Main results

* `Node.readFile_fileLines`: the lines of a file that is fit are read as the file
* `Node.readFile_roundTrip`: a file that was read is read back from its text
-/

namespace FeatureTree

namespace Node

open Dialect (english)

/-- The lines of a file that is fit for a dialect are read, in English, as the file. -/
theorem readFile_fileLines (default : Value) (path : Text) {dialect : Dialect}
    (hd : dialect ∈ Dialect.all) {f : Option Plain.Feature} (hf : ∀ p ∈ f, p.Fit dialect) :
    ∃ m, readFile default (.text english.name) path (Text.joinLines (Plain.fileLines f)) = .ok m
      ∧ m.bare = Plain.fileNode path f := by
  cases f with
  | none => exact readFile_of_parse default path (Plain.parse_nil english)
  | some p =>
    obtain ⟨x, rfl, hparse⟩ := Plain.parse_file hd (hf p rfl)
    exact readFile_of_parse default path hparse

/-- A file that was read in English holds what some file says that is fit, if it can be written. -/
theorem exists_fit_of_readFile {default : Value} {path source : Text} {n : Node} {d : Ast.Document}
    (hread : readFile default (.text english.name) path source = .ok n)
    (hparse : Ast.Document.parse english source = .ok d)
    (hlanguage : ∀ f ∈ d.feature, f.language = english.name)
    (hwritable : d.Obeys Ast.Law.writable) :
    ∃ f : Option Plain.Feature, n.bare = Plain.fileNode path f ∧ ∀ p ∈ f, p.Fit english := by
  obtain ⟨d', hd', hbare⟩ := exists_parse_of_readFile hread
  obtain rfl : d = d' := Except.ok.inj (hparse.symm.trans hd')
  refine ⟨_, hbare, fun p hp => ?_⟩
  obtain ⟨f, hf, rfl⟩ := Option.map_eq_some_iff.mp hp
  exact Ast.Document.fit_of_parse Dialect.english_mem hparse hlanguage hwritable f hf

/-- A file that was read is read back from its text, as the same tree but for where its parts stand
and what they were made from, and has the same text again. -/
theorem readFile_roundTrip {default : Value} {path source : Text} {n : Node} {d : Ast.Document}
    (hread : readFile default (.text english.name) path source = .ok n)
    (hparse : Ast.Document.parse english source = .ok d)
    (hlanguage : ∀ f ∈ d.feature, f.language = english.name)
    (hwritable : d.Obeys Ast.Law.writable) (fallback : Value) :
    ∃ t m, n.text fallback = .ok t ∧ readFile default (.text english.name) path t = .ok m
      ∧ m.bare = n.bare ∧ m.text fallback = .ok t := by
  obtain ⟨f, hbare, hfit⟩ := exists_fit_of_readFile hread hparse hlanguage hwritable
  obtain ⟨m, hm, hmbare⟩ := readFile_fileLines default path Dialect.english_mem hfit
  refine ⟨_, m, ?_, hm, hmbare.trans hbare.symm, ?_⟩
  · exact text_of_lines (Plain.lines_of_bare_file fallback hfit hbare)
  · exact text_of_lines (Plain.lines_of_bare_file fallback hfit hmbare)

/-- A small file with a tag, a description, a step and a table, which can be written. -/
theorem exists_parse_small : ∃ d, Ast.Document.parse english
      "@a\nFeature: b\n\n  c\n\n  Scenario: d\n    * e\n      | f |\n".toList = .ok d
    ∧ (∀ f ∈ d.feature, f.language = english.name) ∧ d.Obeys Ast.Law.writable
    ∧ d.feature ≠ none := by
  refine ⟨⟨some ⟨⟨⟨2, 1⟩, "Feature".toList, ['b'], ["  c".toList, []]⟩, [⟨⟨1, 1⟩, ['@', 'a']⟩],
    ['e', 'n'], ⟨none, [⟨⟨⟨6, 3⟩, "Scenario".toList, ['d'], []⟩, [],
      [⟨⟨7, 5⟩, ['*', ' '], .unknown, ['e'], [⟨⟨8, 7⟩, [⟨⟨8, 9⟩, ['f']⟩]⟩], none⟩], []⟩]⟩, []⟩,
    [], []⟩, by decide, ?_, ?_, by simp⟩
  · rintro f ⟨⟩
    rfl
  · rintro f ⟨⟩
    have hdescription : ∀ c ∈ "  c".toList, isLineBreak c = true → c = '\n' := by
      simp [isLineBreak]
    have hnone : ∀ c ∈ ([] : Text), isLineBreak c = true → c = '\n' := by simp
    have hrow : ∀ r ∈ [(⟨⟨8, 7⟩, [⟨⟨8, 9⟩, ['f']⟩]⟩ : Ast.Row)], r.cells ≠ [] := by decide
    refine ⟨hdescription, by simp [Ast.Law.writable], ⟨by simp, fun s hs => ?_⟩, by simp⟩
    obtain rfl := List.mem_singleton.mp hs
    refine ⟨hnone, by simp, fun t ht => ?_, by simp⟩
    obtain rfl := List.mem_singleton.mp ht
    exact ⟨by simp, fun _ => hrow⟩

/-- The small file is read back from its text. -/
theorem readFile_roundTrip_small :
    ∃ n t m, readFile .null (.text english.name) []
        "@a\nFeature: b\n\n  c\n\n  Scenario: d\n    * e\n      | f |\n".toList = .ok n
      ∧ n.text .null = .ok t ∧ readFile .null (.text english.name) [] t = .ok m
      ∧ m.bare = n.bare ∧ m.text .null = .ok t := by
  obtain ⟨d, hparse, hlanguage, hwritable, -⟩ := exists_parse_small
  obtain ⟨n, hread, -⟩ := readFile_of_parse .null [] hparse
  obtain ⟨t, m, h⟩ := readFile_roundTrip hread hparse hlanguage hwritable .null
  exact ⟨n, t, m, hread, h⟩

end Node

end FeatureTree
