import FeatureTree.Proofs.Schema.SameRecords
import FeatureTree.Schema.Basic

/-!
# Absent fields make no difference

Trees of the two younger schemas that differ in nothing but absent fields are decoded to records
that hold the same, or fail in the same way, and no text in a record is null.

What counts is whether a part is there at all. Leaving out the only field of a part that stands in a
field of its own leaves an empty table, and that one is absent
(`Schema.normalize_notices_empty`).

## Main results

* `Schema.normalize_ignores_absent`: left out, null and empty are the same, and no text is null
* `Schema.normalize_notices_empty`: a part without fields is absent, one with a null field is not
-/

namespace FeatureTree

namespace DocumentRecord

/-- No text in a document is null. -/
structure IsTextual (d : DocumentRecord) : Prop where
  feature : ∀ r ∈ d.feature, r.IsTextual
  comments : ∀ r ∈ d.comments, r.IsTextual

/-- Two documents are equal but for their data, and hold texts where texts are meant. -/
structure Same (d e : DocumentRecord) : Prop where
  bare : d.bare = e.bare
  textual : d.IsTextual

/-- Documents whose features and whose comments are the same are the same. -/
theorem Same.of_parts {d e : DocumentRecord} (feature : Option.Rel Record.Same d.feature e.feature)
    (comments : List.Forall₂ Record.Same d.comments e.comments) : d.Same e := by
  refine ⟨?_, fun r hr => ?_, Record.isTextual_of_forall₂ comments⟩
  · rw [DocumentRecord.bare, DocumentRecord.bare, Record.bare_of_rel feature,
      Record.bare_of_forall₂ comments]
  · exact Record.isTextual_of_rel feature r (Option.mem_toList.mpr hr)

end DocumentRecord

namespace Schema

open Record (Same)
open Value (lookup fieldOf)

variable {schema : SchemaVersion} {role : Role} {raw raw' : Value}

/-- The comments of a tree are read once its feature is. -/
theorem commented_same {x y : Except Fault (Option Record)} (hs : schema ≠ .legacyJson)
    (h : Alike schema (.part role) raw raw')
    (hcomments : role.optional? schema "comments" = some (.list (.part .comment)))
    (hfeature : Agree (Option.Rel Same) x y) :
    Agree DocumentRecord.Same (do
        let feature ← x
        let comments ← decodeAll (comment schema) (← raw.getMembers "comments")
        return ⟨feature, comments, ⟨schema, raw⟩⟩)
      (do
        let feature ← y
        let comments ← decodeAll (comment schema) (← raw'.getMembers "comments")
        return ⟨feature, comments, ⟨schema, raw'⟩⟩) := by
  refine hfeature.bind fun a b hfeature => ?_
  refine (h.getMembers "comments" hcomments).bind fun vs ws hall => ?_
  refine (Agree.mapM (hall.imp fun _ _ h => comment_same hs h)).bind fun rs ss hsame => ?_
  exact DocumentRecord.Same.of_parts hfeature hsame

/-- A tree in the current encoding gives the same document when fields with nothing in them are left
out or put in. -/
theorem Current.document_same (h : Alike .currentAst (.part .document) raw raw') :
    Agree DocumentRecord.Same (Current.document raw) (Current.document raw') := by
  refine (h.getPresent? "feature" rfl).bind fun a b hab => ?_
  cases hab with
  | none => exact commented_same (by simp) h rfl Option.Rel.none
  | some hab =>
    exact commented_same (by simp) h rfl <|
      (Current.feature_same hab.2).map fun _ _ h => Option.Rel.some h

/-- The type of a root is not among the fields that may be left out. -/
theorem optional?_type_rootRole (hs : schema ≠ .legacyJson) :
    (rootRole schema raw).optional? schema "type" = none := by
  cases schema with
  | legacyJson => exact absurd rfl hs
  | typedAst =>
    rw [rootRole]
    split <;> rfl
  | currentAst => rfl

/-- What a typed tree is read for: a document or, when its type says nothing of one, a feature. -/
theorem Typed.featureOf_same (hpresent : raw.isPresent = raw'.isPresent)
    (h : Alike .typedAst (.part (rootRole .typedAst raw)) raw raw') :
    Agree (fun v w => ∃ role : Role, (∃ rest, role.fields .typedAst
        = Role.featured .typedAst ++ rest) ∧ AlikeOrAbsent .typedAst (.part role) v w)
      (Typed.featureOf raw) (Typed.featureOf raw') := by
  cases raw with
  | table fields =>
    obtain ⟨fields', rfl⟩ : ∃ fields', raw' = .table fields' := by cases h <;> exact ⟨_, rfl⟩
    have htype := h.get_eq "type" (optional?_type_rootRole (by simp))
    have hiff : ((Value.table fields).field? "type").bind Value.text?
          = some "GherkinDocument".toList
        ↔ ((Value.table fields').field? "type").bind Value.text?
          = some "GherkinDocument".toList := by
      rw [← Value.get_eq_text_iff, ← Value.get_eq_text_iff, htype]
    rw [Typed.featureOf_table, Typed.featureOf_table]
    by_cases hdocument : ((Value.table fields).field? "type").bind Value.text?
        = some "GherkinDocument".toList
    · rw [rootRole, if_pos hdocument] at h
      rw [if_pos hdocument, if_pos (hiff.mp hdocument)]
      exact ⟨.feature, ⟨[], rfl⟩, h.get "feature" rfl⟩
    · rw [rootRole, if_neg hdocument] at h
      rw [if_neg hdocument, if_neg (hiff.not.mp hdocument)]
      exact ⟨.bareFeature, ⟨_, rfl⟩, hpresent, fun _ => h⟩
  | _ =>
    cases h
    exact .error _

/-- A tree of typed nodes gives the same document when fields with nothing in them are left out or
put in. -/
theorem Typed.document_same (hpresent : raw.isPresent = raw'.isPresent)
    (h : Alike .typedAst (.part (rootRole .typedAst raw)) raw raw') :
    Agree DocumentRecord.Same (Typed.document raw) (Typed.document raw') := by
  have hcomments : (rootRole .typedAst raw).optional? .typedAst "comments"
      = some (.list (.part .comment)) := by
    rw [rootRole]
    split <;> rfl
  refine (Typed.featureOf_same hpresent h).bind fun v w ⟨role, hrole, hvw⟩ => ?_
  cases hv : v.isPresent with
  | false =>
    simp only [← hvw.1, hv, Bool.false_eq_true, if_false]
    exact commented_same (by simp) h hcomments Option.Rel.none
  | true =>
    simp only [← hvw.1, hv, if_true]
    refine (Typed.feature_same (hvw.2 hv) hrole).bind fun a b hsame => ?_
    exact commented_same (by simp) h hcomments (hsame.map fun _ _ h => Option.Rel.some h)

/-- What is recognised as a tree of typed nodes has something in it. -/
theorem isPresent_of_detect (h : detect raw = .ok .typedAst) : raw.isPresent = true := by
  cases raw with
  | table fields =>
    cases fields with
    | nil => cases h
    | cons => rfl
  | _ => cases h

/-- Trees that are alike follow the same schema. -/
theorem detect_alike (hdetect : detect raw = .ok schema) (hs : schema ≠ .legacyJson)
    (h : Alike schema (.part (rootRole schema raw)) raw raw') : detect raw' = .ok schema := by
  cases raw with
  | table fields =>
    cases h with
    | refl => exact hdetect
    | @part _ _ fields' kept _ _ =>
      have htype : isTypedRoot fields' = isTypedRoot fields := by
        rw [isTypedRoot, isTypedRoot, kept "type" (optional?_type_rootRole hs)]
      cases schema with
      | legacyJson => exact absurd rfl hs
      | typedAst =>
        have htyped : isTypedRoot fields = true := by
          by_contra hnot
          rw [detect, if_neg hnot] at hdetect
          split at hdetect <;> cases hdetect
        rw [detect, htype, if_pos htyped]
      | currentAst =>
        have hfield : ∀ key, Role.document.optional? .currentAst key = none →
            hasField fields' key = hasField fields key := fun key hkey => by
          rw [hasField, hasField, kept key hkey]
        rw [← hdetect, detect, detect, htype, hfield "elements" rfl, hfield "line" rfl,
          hfield "location" rfl]
  | _ =>
    cases h
    exact hdetect

/-- In both encodings with locations, fields with nothing in them make no difference. -/
theorem normalize_same (hdetect : detect raw = .ok schema) (hs : schema ≠ .legacyJson)
    (h : Alike schema (.part (rootRole schema raw)) raw raw') :
    Agree DocumentRecord.Same (normalize raw) (normalize raw') := by
  have hdetect' := detect_alike hdetect hs h
  simp only [normalize, hdetect, hdetect', bind, Except.bind]
  cases schema with
  | legacyJson => exact absurd rfl hs
  | typedAst =>
    have hpresent := (isPresent_of_detect hdetect).trans (isPresent_of_detect hdetect').symm
    exact Typed.document_same hpresent h
  | currentAst => exact Current.document_same h

/-- A field of a part that is left out, null or empty is the same. Trees that differ in such fields,
at any places, are decoded to the same records up to their data, or not at all for the same reason,
and no text in a record is null. -/
theorem normalize_ignores_absent (hdetect : detect raw = .ok schema) (hs : schema ≠ .legacyJson) :
    (∀ (role : Role) (key : String) (form : Form) (fields : List (String × Value)) (v : Value),
        role.optional? schema key = some form → v.isPresent = false →
        Alike schema (.part role) (.table (Value.put key v fields))
          (.table (fields.filter (·.1 != key))))
      ∧ (∀ raw', Alike schema (.part (rootRole schema raw)) raw raw' →
        (normalize raw).map DocumentRecord.bare = (normalize raw').map DocumentRecord.bare)
      ∧ ∀ d, normalize raw = .ok d → d.IsTextual := by
  refine ⟨fun role key form fields v hkey hv => alike_erase key fields hkey hv,
    fun raw' h => (normalize_same hdetect hs h).eq_of fun _ _ h => h.bare, fun d hd => ?_⟩
  have hsame := normalize_same hdetect hs (.refl raw)
  rw [hd] at hsame
  exact hsame.textual

/-- A feature with a scenario in a rule. -/
def ruleTree (scenario : List (String × Value)) : Value :=
  .table [("feature", .table [("children", .list [.table [("rule",
    .table [("children", .list [.table [("scenario", .table scenario)]])])]])])]

/-- A rule whose keyword has nothing in it is read like a rule without one. -/
theorem normalize_ignores_absent_keyword :
    (normalize (ruleTree [("name", .text "a".toList), ("keyword", .null)])).map
        DocumentRecord.bare
      = (normalize (ruleTree [("name", .text "a".toList)])).map DocumentRecord.bare := by
  have hscenario : Alike .currentAst (.part .sectionPart)
      (.table [("name", .text "a".toList), ("keyword", .null)])
      (.table [("name", .text "a".toList)]) :=
    alike_erase "keyword" [("name", .text "a".toList)] rfl rfl
  have hrule : Alike .currentAst (.part .rule) _ _ :=
    alike_put "children" [] rfl ⟨by rfl, fun _ => .singleton (.wrap "scenario" rfl hscenario)⟩
  have hfeature : Alike .currentAst (.part .feature) _ _ :=
    alike_put "children" [] rfl ⟨by rfl, fun _ => .singleton (.wrap "rule" rfl hrule)⟩
  have htree : Alike .currentAst (.part .document) _ _ :=
    alike_put "feature" [] rfl ⟨by rfl, fun _ => hfeature⟩
  exact (normalize_ignores_absent rfl (by simp)).2.1 _ htree

/-- A feature with a step that has a doc string. -/
def quotedTree (docString : List (String × Value)) : Value :=
  .table [("feature", .table [("children", .list [.table [("scenario",
    .table [("steps", .list [.table [("docString", .table docString)]])])]])])]

/-- Where the one field of a part is left out and not null, the part itself is absent. -/
theorem normalize_notices_empty :
    detect (quotedTree [("content", .null)]) = .ok .currentAst
      ∧ Role.docString.optional? .currentAst "content" = some .text
      ∧ (normalize (quotedTree [("content", .null)])).map DocumentRecord.bare
        ≠ (normalize (quotedTree [])).map DocumentRecord.bare := by
  refine ⟨rfl, rfl, fun h => ?_⟩
  have hblocks := congrArg (fun x : Except Fault DocumentRecord => x.toOption.map fun d =>
    d.feature.toList.flatMap fun f => f.children.flatMap fun s => s.steps.map (·.block.isSome)) h
  revert hblocks
  decide

end Schema

end FeatureTree
