import FeatureTree.Proofs.Schema.Written

/-!
# What reading comes to

A text is read as a node of the kind asked for or it is rejected, with the name of its file, as long
as the dialect is known. A dialect that is not known is noticed by the look-up of its keywords
before a part is put into a document around it. A whole document has no need of keywords, so there
it is the parser that does not find the dialect, and the fault is another one.

## Main results

* `Record.IsWritten.isSound`: what was read from a text can be built
* `Node.read_outcome`: what reading comes to, for every text and dialect
-/

namespace FeatureTree

/-- What holds texts where a record of a text does can be built. -/
theorem Record.IsWritten.isSound {r : Record} (h : r.IsWritten) : r.isSound = true := by
  induction h with
  | mk _ description _ _ _ ih => exact isSound_of_parts description ih

namespace DocumentRecord

variable {default dialect : Value} {name : Text}

/-- A document is decoded, or the parser does not accept its text. -/
theorem parse_of_known {d : Dialect} (hname : Dialect.nameOr default dialect = .text name)
    (hd : Dialect.ofName? name = some d) (file source : Text) :
    (∃ r, parse default dialect file source = .ok r ∧ r.IsWritten)
      ∨ ∃ detail, parse default dialect file source = .error (.rejected file detail) := by
  cases hr : parse default dialect file source with
  | ok r => exact .inl ⟨r, rfl, isWritten_of_parse hr⟩
  | error fault =>
    refine .inr ?_
    simp only [parse, hname, Value.text?_text, Option.bind_some, hd] at hr
    cases hdocument : Ast.Document.parse d source with
    | error faults =>
      rw [hdocument] at hr
      exact ⟨_, congrArg Except.error (Except.error.inj hr).symm⟩
    | ok document =>
      obtain ⟨-, r, hdecoded, -⟩ := document.normalize_toTree
      simp only [hdocument, hdecoded] at hr
      cases hr

/-- Nothing is parsed in a dialect that is not in the table. -/
theorem parse_of_unknown (hname : Dialect.nameOr default dialect = .text name)
    (hd : Dialect.ofName? name = none) (file source : Text) :
    parse default dialect file source = .error (.unreadableDialect (.text name)) := by
  simp only [parse, hname, Value.text?_text, Option.bind_some, hd]

end DocumentRecord

namespace Node

variable {default dialect : Value} {name : Text}

/-- The file that is named in the fault of a text. Only a whole document can have a path. -/
def sourceName (path : Text) (kind : Kind) : Text :=
  if kind = .featureFile ∧ path ≠ [] then path else Fragment.fileName kind.name.toList

/-- In a dialect that is known, a text is read as a node of the kind asked for or it is rejected. -/
theorem read_of_known {d : Dialect} (hname : Dialect.nameOr default dialect = .text name)
    (hd : Dialect.ofName? name = some d) (path source : Text) (kind : Kind) :
    (∃ n, read default dialect path source kind = .ok n ∧ n.kind = kind)
      ∨ ∃ detail, read default dialect path source kind
        = .error (.rejected (sourceName path kind) detail) := by
  -- the kind of what is read is known, so nothing has to be said of it here
  suffices h : (∃ n, read default dialect path source kind = .ok n) ∨ ∃ detail,
      read default dialect path source kind = .error (.rejected (sourceName path kind) detail) from
    h.imp_left fun ⟨n, hn⟩ => ⟨n, hn, (isWritten_of_read hn).2⟩
  rw [read]
  split
  case isTrue hkind =>
    subst hkind
    have hfile : (if path.isEmpty then Fragment.fileName Kind.featureFile.name.toList else path)
        = sourceName path .featureFile := by
      cases path <;> rfl
    rw [readFile, hfile]
    rcases DocumentRecord.parse_of_known hname hd (sourceName path .featureFile) source with
      ⟨r, hr, hwritten⟩ | ⟨detail, hr⟩
    · refine .inl ⟨ofDocument path r, ?_⟩
      have hsound : Record.areSound (fun _ => true) (r.feature.toList ++ r.comments) = true :=
        Record.areSound_of_forall _ fun x hx => by
          rcases List.mem_append.mp hx with hx | hx
          · exact (hwritten.feature x (Option.mem_toList.mp hx)).2.isSound
          · exact (hwritten.comments x hx).isSound
      simp only [hr, bind, Except.bind, buildFile, hsound, if_true]
    · exact .inr ⟨detail, by simp only [hr, bind, Except.bind]⟩
  case isFalse hkind =>
    have hfile : Fragment.fileName kind.name.toList = sourceName path kind := by
      rw [sourceName, if_neg fun h => hkind h.1]
    have hkeywords : Dialect.keywordsFor default dialect = .ok d.primaryKeywords := by
      simp only [Dialect.keywordsFor, hname, Dialect.ofValue?, hd, bind, Except.bind]
      rfl
    rw [readPart, hfile]
    rcases DocumentRecord.parse_of_known hname hd (sourceName path kind)
      (Fragment.wrap d.primaryKeywords source kind) with ⟨r, hr, hwritten⟩ | ⟨detail, hr⟩
    · simp only [hkeywords, hr, bind, Except.bind]
      cases hselect : Fragment.select? r kind with
      | none => exact .inr ⟨_, rfl⟩
      | some x =>
        have hsound := (Fragment.isWritten_of_select? hwritten hselect).isSound
        by_cases hk : x.kind = kind
        · exact .inl ⟨ofRecord none x, by simp only [hk, if_true, build, hsound]⟩
        · exact .inr ⟨_, by simp only [if_neg hk]; rfl⟩
    · exact .inr ⟨detail, by simp only [hkeywords, hr, bind, Except.bind]⟩

/-- A dialect that is not known is noticed where keywords are looked up, and by the parser where
they are not. -/
theorem read_of_unknown (hname : Dialect.nameOr default dialect = .text name)
    (hd : Dialect.ofName? name = none) (path source : Text) (kind : Kind) :
    read default dialect path source kind
      = .error (if kind = .featureFile then .unreadableDialect (.text name)
        else .unknownDialect (.text name)) := by
  rw [read]
  split
  · simp only [readFile, DocumentRecord.parse_of_unknown hname hd, bind, Except.bind]
  · simp only [readPart, Dialect.keywordsFor, hname, Dialect.ofValue?, hd, bind, Except.bind]
    rfl

/-- The parser's own fault comes up for a whole document in a dialect that is not known, where a
part has the fault of the look-up. -/
example : read .null (.text "nope".toList) [] "Feature: a".toList .featureFile
    = .error (.unreadableDialect (.text "nope".toList)) :=
  read_of_unknown rfl (by decide) _ _ _

/-- Reading gives a node of the kind asked for, rejects the text, or finds the dialect unknown.
Where that is not known, all parts have the fault of the look-up of its keywords, and whole
documents have the other one. -/
theorem read_outcome (default dialect path source : Text) (kind : Kind) :
    let name := if dialect.isEmpty then default else dialect
    let result := read (.text default) (.text dialect) path source kind
    ((∃ n, result = .ok n ∧ n.kind = kind)
        ∨ (∃ detail, result = .error (.rejected (sourceName path kind) detail))
        ∨ result = .error (.unknownDialect (.text name))
        ∨ result = .error (.unreadableDialect (.text name)))
      ∧ (result = .error (.unknownDialect (.text name))
        ↔ Dialect.ofName? name = none ∧ kind ≠ .featureFile)
      ∧ (result = .error (.unreadableDialect (.text name))
        ↔ Dialect.ofName? name = none ∧ kind = .featureFile) := by
  intro name result
  have hname : Dialect.nameOr (.text default) (.text dialect) = .text name := by
    simp only [Dialect.nameOr, Value.isPresent_text, Bool.not_eq_true', name]
    cases dialect <;> rfl
  cases hd : Dialect.ofName? name with
  | some d =>
    rcases read_of_known hname hd path source kind with ⟨n, hn, hk⟩ | ⟨detail, hr⟩
    · have hresult : result = .ok n := hn
      simp [hresult, hk]
    · have hresult : result = .error (.rejected (sourceName path kind) detail) := hr
      simp [hresult]
  | none =>
    have hresult : result = .error (if kind = .featureFile then .unreadableDialect (.text name)
        else .unknownDialect (.text name)) := read_of_unknown hname hd path source kind
    by_cases hk : kind = .featureFile
    · simp [hresult, hk]
    · simp [hresult, hk]

end Node

end FeatureTree
