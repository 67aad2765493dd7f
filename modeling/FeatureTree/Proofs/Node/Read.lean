import FeatureTree.Proofs.Gherkin.Words
import FeatureTree.Proofs.Schema.Parsed
import FeatureTree.Reading

/-!
# What is read from text

A text that the parser reads as a document is read as the node of what the document says. What the
parser refuses is refused. Both hold in every dialect of the table; the facts about English have
names of their own.

## Main results

* `Node.readFile_of_parse_in`: the node of a file that is read
* `Node.exists_parse_of_readFile_in`: a file that is read was read by the parser
* `Node.readPart_of_parse_in`: the node of a part that is picked out of a document around it
* `Node.exists_parse_of_readPart_in`: a part that is read is picked out of such a document
-/

namespace FeatureTree

open Dialect (english)

/-! ### Documents -/

section

variable {dialect : Dialect} (hdialect : dialect ∈ Dialect.all) (default : Value)

include hdialect

/-- The name of a dialect chooses it. -/
theorem Dialect.nameOr_name : nameOr default (.text dialect.name) = .text dialect.name := by
  have key : ∀ d ∈ Dialect.all, (Value.text d.name).isPresent = true := by decide
  rw [nameOr, if_pos (key dialect hdialect)]

/-- The name of a dialect chooses its primary keywords. -/
theorem Dialect.keywordsFor_name :
    keywordsFor default (.text dialect.name) = .ok dialect.primaryKeywords := by
  rw [keywordsFor, nameOr_name hdialect, ofValue?, ofName?_name hdialect]
  rfl

/-- A document that the parser reads is decoded into its record. -/
theorem DocumentRecord.parse_of_parse_in (file : Text) {source : Text} {d : Ast.Document}
    (h : Ast.Document.parse dialect source = .ok d) :
    ∃ r, DocumentRecord.parse default (.text dialect.name) file source = .ok r
      ∧ r.bare = d.record := by
  obtain ⟨-, r, hr, hbare⟩ := d.normalize_toTree
  refine ⟨r, ?_, hbare⟩
  simp only [DocumentRecord.parse, Dialect.nameOr_name hdialect, Value.text?_text,
    Option.bind_some, Dialect.ofName?_name hdialect, h, hr]

/-- What the parser refuses has no record. -/
theorem DocumentRecord.exists_parse_in (file : Text) {source : Text} {r : DocumentRecord}
    (h : DocumentRecord.parse default (.text dialect.name) file source = .ok r) :
    ∃ d, Ast.Document.parse dialect source = .ok d := by
  simp only [DocumentRecord.parse, Dialect.nameOr_name hdialect, Value.text?_text,
    Option.bind_some, Dialect.ofName?_name hdialect] at h
  cases hd : Ast.Document.parse dialect source with
  | error faults =>
    rw [hd] at h
    cases h
  | ok d => exact ⟨d, rfl⟩

end

/-- English chooses the primary keywords of English. -/
theorem Dialect.keywordsFor_english (default : Value) :
    keywordsFor default (.text english.name) = .ok english.primaryKeywords :=
  keywordsFor_name english_mem default

/-- What is picked out of a document does not depend on the data that it was made from. -/
theorem Fragment.select?_bare (r : DocumentRecord) (kind : Kind) :
    (select? r kind).map Record.bare = select? r.bare kind := by
  -- a part that is picked out of a part is the same in what is left of both
  have hbind : ∀ {o : Option Record} {g : Record → Option Record},
      (∀ x, (g x).map Record.bare = g x.bare) →
      (o.bind g).map Record.bare = (o.map Record.bare).bind g := by
    intro o g hg
    cases o with
    | none => rfl
    | some x => exact hg x
  have hsection : (firstSection? r).map Record.bare = firstSection? r.bare :=
    hbind fun x => by simp [Record.bare_eq x]
  have hstep : ((firstSection? r).bind (·.steps.head?)).map Record.bare
      = (firstSection? r.bare).bind (·.steps.head?) := by
    rw [← hsection]
    exact hbind fun x => by simp [Record.bare_eq x]
  have hblock : (firstBlock? r).map Record.bare = firstBlock? r.bare := by
    have hassoc : ∀ d, firstBlock? d = ((firstSection? d).bind (·.steps.head?)).bind (·.block) := by
      intro d
      rw [Option.bind_assoc]
      rfl
    rw [hassoc, hassoc, ← hstep]
    exact hbind fun x => by simp [Record.bare_eq x]
  have hrow : ((firstBlock? r).bind (·.rows.head?)).map Record.bare
      = (firstBlock? r.bare).bind (·.rows.head?) := by
    rw [← hblock]
    exact hbind fun x => by simp [Record.bare_eq x]
  cases kind with
  | cell =>
    have hassoc : ∀ d, select? d .cell
        = ((firstBlock? d).bind (·.rows.head?)).bind (·.cells.head?) := by
      intro d
      rw [Option.bind_assoc]
      rfl
    rw [hassoc, hassoc, ← hrow]
    exact hbind fun x => by simp [Record.bare_eq x]
  | row => exact hrow
  | table | docString => exact hblock
  | step => exact hstep
  | background | scenario | outline | rule => exact hsection
  | «example» =>
    rw [select?, select?, ← hsection]
    exact hbind fun x => by simp [Record.bare_eq x]
  | tag => exact hbind fun x => by simp [Record.bare_eq x]
  | comment => simp [select?, DocumentRecord.bare]
  | feature | featureFile | directory => rfl

namespace Node

/-! ### Nodes -/

/-- A record is built as the node of what it holds. -/
theorem build_of_bare {r x : Record} (hbare : r.bare = x) (hsound : x.isSound = true) :
    ∃ n, build r = .ok n ∧ n.bare = (ofRecord none x).bare := by
  refine ⟨ofRecord none r, ?_, ?_⟩
  · rw [build, if_pos]
    rw [← Record.isSound_bare, hbare, hsound]
  · rw [bare_ofRecord none none, hbare]

/-- What is built of a record holds what the record holds. -/
theorem bare_of_build {r : Record} {n : Node} (h : build r = .ok n) :
    n.bare = (ofRecord none r.bare).bare := by
  rw [build] at h
  split at h
  · obtain rfl := Except.ok.inj h
    exact bare_ofRecord none none r
  · cases h

/-- Records that hold what sound ones hold are sound. -/
theorem areSound_of_bare {α : Type} {f : α → Record} (hf : ∀ x, (f x).isSound = true)
    {rs : List Record} {xs : List α} (h : rs.map Record.bare = xs.map f) (counts : Kind → Bool) :
    Record.areSound counts rs = true := by
  rw [← Record.areSound_bare, Record.bareList_eq_map, h]
  exact Ast.areSound_map hf counts xs

/-- The record of a document is built as the node of the file. -/
theorem buildFile_of_bare (path : Text) {r : DocumentRecord} {d : Ast.Document}
    (h : r.bare = d.record) :
    ∃ n, buildFile path r = .ok n
      ∧ n.bare = Plain.fileNode path (d.feature.map Ast.Feature.plain) := by
  have hfeature : r.feature.map Record.bare = d.feature.map Ast.Feature.record :=
    congrArg DocumentRecord.feature h
  have hcomments : r.comments.map Record.bare = d.comments.map Ast.Comment.record :=
    congrArg DocumentRecord.comments h
  have hsound : Record.areSound (fun _ => true) (r.feature.toList ++ r.comments) = true := by
    have hf : Record.areSound (fun _ => true) r.feature.toList = true := by
      have hrecords : r.feature.toList.map Record.bare
          = d.feature.toList.map Ast.Feature.record := by
        rw [← Option.toList_map, hfeature, Option.toList_map]
      exact areSound_of_bare Ast.Feature.isSound_record hrecords _
    have hc : Record.areSound (fun _ => true) r.comments = true :=
      areSound_of_bare (fun _ => Record.isSound_of_kind (.inr (.inr (.inr rfl)))) hcomments _
    rw [Ast.areSound_append, hf, hc]
    rfl
  refine ⟨ofDocument path r, by rw [buildFile, if_pos hsound], ?_⟩
  have hheld : (r.feature.map (ofRecord none)).map bare
      = (d.feature.map Ast.Feature.plain).map Plain.Feature.node := by
    cases hr : r.feature with
    | none =>
      rw [hr] at hfeature
      rw [Option.map_eq_none_iff.mp hfeature.symm]
      rfl
    | some x =>
      rw [hr] at hfeature
      obtain ⟨f, hf, hx⟩ := Option.map_eq_some_iff.mp hfeature.symm
      rw [hf]
      simp only [Option.map_some]
      rw [bare_ofRecord none none, ← hx, Ast.Feature.bare_ofRecord]
  simp only [ofDocument, bare_mk, Shape.map, Shape.withoutComments, hheld]
  rfl

/-! ### What is read is built -/

section

variable {default dialect : Value} {path source : Text} {kind : Kind} {n : Node}

/-- What is built from a record is its tree. -/
theorem eq_of_build {r : Record} (h : build r = .ok n) : n = ofRecord none r := by
  rw [build] at h
  split at h
  · exact (Except.ok.inj h).symm
  · cases h

/-- What is built from a document is its file. -/
theorem eq_of_buildFile {d : DocumentRecord} (h : buildFile path d = .ok n) :
    n = ofDocument path d := by
  rw [buildFile] at h
  split at h
  · exact (Except.ok.inj h).symm
  · cases h

/-- A file that is read is the tree of the record of a document. -/
theorem exists_of_readFile (h : readFile default dialect path source = .ok n) :
    ∃ file d, DocumentRecord.parse default dialect file source = .ok d ∧ n = ofDocument path d := by
  obtain ⟨d, hd, h⟩ := bind_ok h
  exact ⟨_, d, hd, eq_of_buildFile h⟩

/-- A part that is read is the tree of the record that is picked out of the document around it. -/
theorem exists_of_readPart (h : readPart default dialect source kind = .ok n) :
    ∃ keywords file d r, Dialect.keywordsFor default dialect = .ok keywords
      ∧ DocumentRecord.parse default dialect file (Fragment.wrap keywords source kind) = .ok d
      ∧ Fragment.select? d kind = some r ∧ r.kind = kind ∧ n = ofRecord none r := by
  obtain ⟨keywords, hkeywords, h⟩ := bind_ok h
  obtain ⟨d, hd, h⟩ := bind_ok h
  cases hr : Fragment.select? d kind with
  | none =>
    simp only [hr] at h
    cases h
  | some r =>
    simp only [hr] at h
    split at h
    case isTrue hkind => exact ⟨keywords, _, d, r, hkeywords, hd, hr, hkind, eq_of_build h⟩
    case isFalse => cases h

/-- What is read is the tree of the record of a document, or of a record that is picked out of
one. -/
theorem exists_of_read (h : read default dialect path source kind = .ok n) :
    ∃ file text d, DocumentRecord.parse default dialect file text = .ok d
      ∧ (kind = .featureFile ∧ n = ofDocument path d
        ∨ ∃ r, Fragment.select? d kind = some r ∧ r.kind = kind ∧ n = ofRecord none r) := by
  rw [read] at h
  split at h
  case isTrue hkind =>
    obtain ⟨file, d, hd, hn⟩ := exists_of_readFile h
    exact ⟨file, source, d, hd, .inl ⟨hkind, hn⟩⟩
  case isFalse =>
    obtain ⟨_, file, d, r, -, hd, hr⟩ := exists_of_readPart h
    exact ⟨file, _, d, hd, .inr ⟨r, hr⟩⟩

end

section

variable {dialect : Dialect} (hdialect : dialect ∈ Dialect.all)

include hdialect

/-- A file that the parser reads becomes the node of what it says. -/
theorem readFile_of_parse_in (default : Value) (path : Text) {source : Text} {d : Ast.Document}
    (h : Ast.Document.parse dialect source = .ok d) :
    ∃ n, readFile default (.text dialect.name) path source = .ok n
      ∧ n.bare = Plain.fileNode path (d.feature.map Ast.Feature.plain) := by
  obtain ⟨r, hr, hrecord⟩ := DocumentRecord.parse_of_parse_in hdialect default
    (if path.isEmpty then Fragment.fileName Kind.featureFile.name.toList else path) h
  obtain ⟨n, hn, hbare⟩ := buildFile_of_bare path hrecord
  refine ⟨n, ?_, hbare⟩
  simp only [readFile, hr, bind, Except.bind]
  exact hn

/-- A file that is read was read by the parser. -/
theorem exists_parse_of_readFile_in {default : Value} {path source : Text} {n : Node}
    (h : readFile default (.text dialect.name) path source = .ok n) :
    ∃ d, Ast.Document.parse dialect source = .ok d
      ∧ n.bare = Plain.fileNode path (d.feature.map Ast.Feature.plain) := by
  obtain ⟨_, r, hr, -⟩ := exists_of_readFile h
  obtain ⟨d, hd⟩ := DocumentRecord.exists_parse_in hdialect default _ hr
  obtain ⟨m, hm, hbare⟩ := readFile_of_parse_in hdialect default path hd
  obtain rfl : n = m := Except.ok.inj (h.symm.trans hm)
  exact ⟨d, hd, hbare⟩

/-- A part is picked out of the document around it and becomes the node of what its record holds. -/
theorem readPart_of_parse_in (default : Value) {kind : Kind} {source : Text} {d : Ast.Document}
    (h : Ast.Document.parse dialect (Fragment.wrap dialect.primaryKeywords source kind) = .ok d)
    {x : Record} (hselect : Fragment.select? d.record kind = some x) (hsound : x.isSound = true)
    {p : Node} (hnode : (ofRecord none x).bare = p) (hkind : p.kind = kind) :
    ∃ n, readPart default (.text dialect.name) source kind = .ok n ∧ n.bare = p := by
  obtain ⟨r, hr, hrecord⟩ := DocumentRecord.parse_of_parse_in hdialect default
    (Fragment.fileName kind.name.toList) h
  rw [← hrecord, ← Fragment.select?_bare] at hselect
  obtain ⟨x', hx', hbare⟩ := Option.map_eq_some_iff.mp hselect
  obtain ⟨n, hn, hnbare⟩ := build_of_bare hbare hsound
  refine ⟨n, ?_, hnbare.trans hnode⟩
  have hk : x'.kind = kind := by
    rw [← Record.kind_bare, hbare, ← kind_ofRecord none, ← kind_bare, hnode, hkind]
  simp only [readPart, Dialect.keywordsFor_name hdialect, hr, hx', hk, if_true, bind, Except.bind]
  exact hn

/-- A part that is read is picked out of the document around it. -/
theorem exists_parse_of_readPart_in {default : Value} {source : Text} {kind : Kind} {n : Node}
    (h : readPart default (.text dialect.name) source kind = .ok n) :
    ∃ d r,
      Ast.Document.parse dialect (Fragment.wrap dialect.primaryKeywords source kind) = .ok d
      ∧ Fragment.select? d.record kind = some r.bare ∧ build r = .ok n := by
  simp only [readPart, Dialect.keywordsFor_name hdialect, bind, Except.bind] at h
  cases hdocument : DocumentRecord.parse default (.text dialect.name)
      (Fragment.fileName kind.name.toList)
      (Fragment.wrap dialect.primaryKeywords source kind) with
  | error f =>
    rw [hdocument] at h
    cases h
  | ok document =>
    obtain ⟨d, hd⟩ := DocumentRecord.exists_parse_in hdialect default _ hdocument
    obtain ⟨document', hdocument', hbare⟩ := DocumentRecord.parse_of_parse_in hdialect default
      (Fragment.fileName kind.name.toList) hd
    obtain rfl : document = document' := Except.ok.inj (hdocument.symm.trans hdocument')
    simp only [hdocument] at h
    cases hr : Fragment.select? document kind with
    | none =>
      rw [hr] at h
      cases h
    | some r =>
      simp only [hr] at h
      split at h
      · refine ⟨d, r, hd, ?_, h⟩
        rw [← hbare, ← Fragment.select?_bare, hr, Option.map_some]
      · cases h

end

/-- A document that the parser reads in English is read as its file. -/
theorem readFile_of_parse (default : Value) (path : Text) {source : Text} {d : Ast.Document}
    (h : Ast.Document.parse english source = .ok d) :
    ∃ n, readFile default (.text english.name) path source = .ok n
      ∧ n.bare = Plain.fileNode path (d.feature.map Ast.Feature.plain) :=
  readFile_of_parse_in Dialect.english_mem default path h

/-- A file that is read in English was read by the parser. -/
theorem exists_parse_of_readFile {default : Value} {path source : Text} {n : Node}
    (h : readFile default (.text english.name) path source = .ok n) :
    ∃ d, Ast.Document.parse english source = .ok d
      ∧ n.bare = Plain.fileNode path (d.feature.map Ast.Feature.plain) :=
  exists_parse_of_readFile_in Dialect.english_mem h

/-- A part that is read in English is picked out of a document that the parser reads. -/
theorem exists_parse_of_readPart {default : Value} {source : Text} {kind : Kind} {n : Node}
    (h : readPart default (.text english.name) source kind = .ok n) :
    ∃ d r, Ast.Document.parse english (Fragment.wrap english.primaryKeywords source kind) = .ok d
      ∧ Fragment.select? d.record kind = some r.bare ∧ build r = .ok n :=
  exists_parse_of_readPart_in Dialect.english_mem h

end Node

end FeatureTree
