import FeatureTree.Files.Load
import FeatureTree.Proofs.Plain.Sound
import FeatureTree.Proofs.Schema.Written
import FeatureTree.Proofs.Store.Printing

/-!
# Keywords of what is read

No word of a dialect is blank, and a title or step is only read from a line that starts with such a
word. So the records of a document that is read from text have keywords wherever their kinds have
them, and so have the nodes that are built from these records or from a part of the document, and
those of files that are loaded.

## Main results

* `Ast.Document.isWorded_record`: the record of a lawful document has keywords
* `Node.isWorded_of_read`: so has a node that is read from text, in all its parts
* `Load.isWorded_directory`: and a directory that is loaded
-/

namespace FeatureTree

/-! ### Words of dialects -/

namespace Dialect

variable {d : Dialect} {w : Text}

/-- No title keyword of a dialect is blank. -/
theorem trim_ne_nil_of_mem_titleWords (hd : d ∈ all) {kind : TokenKind}
    (hkind : kind ∈ TokenKind.titles) (h : w ∈ d.titleWords kind) : w.trim ≠ [] :=
  ((fits_of_mem hd).2.2.1 kind hkind w h).1

end Dialect

/-! ### Records -/

namespace Record

/-- A record of which all is texts, and which has a keyword if its kind has one. -/
inductive IsWorded : Record → Prop
  | mk {r : Record} (keyword : ∀ v, r.shape.field? .keyword = some v → v.isPresent = true)
    (texts : ∀ v ∈ r.shape.values, ∃ t, v = .text t) (parts : ∀ x ∈ r.parts, IsWorded x) :
    IsWorded r

variable {r x : Record}

/-- The parts of a worded record are worded. -/
theorem IsWorded.parts (h : r.IsWorded) : ∀ x ∈ r.parts, x.IsWorded := by
  cases h
  assumption

/-- The children of a bare record are the bare children. -/
theorem childrenOf_bare (r : Record) (kinds : List Kind) :
    r.bare.childrenOf kinds = (r.childrenOf kinds).map bare := by
  rw [bare_eq]
  simp [childrenOf, List.filter_map, Function.comp_def]

/-- Without its data a record has the same shape, with records without their data inside. -/
theorem shape_bare (r : Record) : r.bare.shape = r.shape.map bare := by
  have hlists : ∀ field, r.bare.lists field = (r.lists field).map bare := by
    intro field
    cases field <;> simp only [lists, childrenOf_bare] <;> first | rw [bare_eq] | rfl
  have hsingles : ∀ field, r.bare.singles field = (r.singles field).map bare := by
    intro field
    cases field <;> simp only [singles, childrenOf_bare, List.getLast?_map, List.head?_map]
    rw [bare_eq]
  cases hk : r.kind <;> simp only [shape, kind_bare, hk, Shape.map, hlists, hsingles] <;>
    first | rw [bare_eq] | rfl

/-- What the node of a record has as parts are records inside the record. -/
theorem mem_parts_of_mem_shape (h : x ∈ r.shape.parts) : x ∈ r.parts := by
  have hchildren : ∀ {kinds}, x ∈ r.childrenOf kinds → x ∈ r.children := fun hx =>
    (mem_childrenOf hx).1
  have hsetup : x ∈ (r.singles .background).toList → x ∈ r.children := fun hx =>
    hchildren (List.mem_of_getLast? (Option.mem_toList.mp hx))
  have hheld : x ∈ (r.singles .feature).toList → x ∈ r.children := fun hx =>
    hchildren (List.mem_of_head? (Option.mem_toList.mp hx))
  have htests : x ∈ r.lists .tests → x ∈ r.children := hchildren
  have hrules : x ∈ r.lists .rules → x ∈ r.children := hchildren
  cases hk : r.kind <;>
    simp only [shape, hk, Shape.parts, Shape.children, List.mem_append, List.append_nil,
      List.not_mem_nil] at h <;>
    simp only [parts, List.mem_append]
  all_goals grind

/-- Nothing of it depends on the data that a record was made from. -/
theorem IsWorded.of_bare (h : r.bare.IsWorded) : r.IsWorded := by
  generalize hx : r.bare = x at h
  induction h generalizing r with
  | mk keyword texts _ ih =>
    subst hx
    rw [shape_bare, Shape.values_map] at texts
    rw [shape_bare] at keyword
    refine .mk (fun v hv => keyword v (by rwa [Shape.field?_map])) texts fun y hy => ?_
    exact ih y.bare (by rw [parts_bare]; exact List.mem_map_of_mem hy) rfl

end Record

/-! ### Records of documents -/

namespace Ast

variable {d : Dialect}

/-- The record of a tag is worded. -/
theorem Tag.isWorded_record (t : Tag) : t.record.IsWorded :=
  .mk nofun (by simp [record, Record.shape, Shape.values]) (by simp [record, Record.parts])

/-- The record of a cell is worded. -/
theorem Cell.isWorded_record (c : Cell) : c.record.IsWorded :=
  .mk nofun (by simp [record, Record.shape, Shape.values]) (by simp [record, Record.parts])

/-- The record of a row is worded. -/
theorem Row.isWorded_record (r : Row) : r.record.IsWorded :=
  .mk nofun (by simp [record, Record.shape, Shape.values])
    (by simp [record, Record.parts, Cell.isWorded_record])

/-- The record of some rows is worded. -/
theorem isWorded_tableRecord {rows : List Row} {x : Record} (h : tableRecord rows = some x) :
    x.IsWorded := by
  obtain ⟨first, -, rfl⟩ := Option.map_eq_some_iff.mp h
  exact .mk nofun (by simp [Record.shape, Shape.values])
    (by simp [Record.parts, Row.isWorded_record])

/-- The record of a doc string is worded. -/
theorem DocString.isWorded_record (s : DocString) : s.record.IsWorded :=
  .mk nofun (by simp [record, Record.shape, Shape.values]) (by simp [record, Record.parts])

/-- The record of a comment is worded. -/
theorem Comment.isWorded_record (c : Comment) : c.record.IsWorded :=
  .mk nofun (by simp [record, Record.shape, Shape.values]) (by simp [record, Record.parts])

variable (hd : d ∈ Dialect.all)

include hd

/-- The record of a step with a keyword of a dialect is worded. -/
theorem Step.isWorded_record {s : Step} (h : (Law.ofDialect d).step s) : s.record.IsWorded := by
  have hword : s.keyword.trim ≠ [] := (Dialect.stepStart_of_mem hd h.1).ne_nil
  refine .mk ?_ (by simp [record, Record.shape, Shape.values]) fun x hx => ?_
  · simpa [record, Record.shape, Shape.field?] using hword
  · have hx : ((s.docString.map DocString.record).or (tableRecord s.table)) = some x := by
      simpa [record, Record.parts] using hx
    rcases Option.or_eq_some_iff.mp hx with hx | ⟨-, hx⟩
    · obtain ⟨t, -, rfl⟩ := Option.map_eq_some_iff.mp hx
      exact t.isWorded_record
    · exact isWorded_tableRecord hx

/-- The record of a titled part, with any parts, has a keyword. -/
theorem Heading.isWorded_record {kind : TokenKind} {h : Heading}
    (hlaw : (Law.ofDialect d).heading kind h) (htitle : kind ∈ TokenKind.titles) {r : Record}
    (hkeyword : r.keyword = h.keyword.trim) (hname : r.name = .text h.name)
    (hdescription : r.description = .text h.descriptionText)
    (hkind : r.shape.title?.isSome) (hlanguage : ∃ t, r.language = .text t)
    (hparts : ∀ x ∈ r.parts, x.IsWorded) : r.IsWorded := by
  have hword : h.keyword.trim ≠ [] := Dialect.trim_ne_nil_of_mem_titleWords hd htitle hlaw.1
  obtain ⟨language, hlanguage⟩ := hlanguage
  refine .mk (fun v hv => ?_) (fun v hv => ?_) hparts
  · cases hk : r.kind <;> simp only [Record.shape, hk] at hkind hv <;> cases hkind <;> cases hv <;>
      simpa [hkeyword] using hword
  · have hvalue : v ∈ r.language :: (Title.mk (.text r.keyword) r.name
        (Node.normalDescription r.description)).values := by
      cases hk : r.kind <;> simp only [Record.shape, hk] at hkind hv <;> cases hkind <;>
        first | exact hv | exact List.mem_cons_of_mem _ hv
    simp only [Title.values, hname, hdescription, hlanguage, Node.normalDescription,
      List.mem_cons, List.not_mem_nil, or_false] at hvalue
    rcases hvalue with rfl | rfl | rfl | rfl <;> exact ⟨_, rfl⟩

/-- The record of a background with keywords of a dialect is worded. -/
theorem Background.isWorded_record {b : Background} (h : b.Obeys (.ofDialect d)) :
    b.record.IsWorded :=
  Heading.isWorded_record hd h.heading (by decide) rfl rfl rfl rfl ⟨_, rfl⟩ <| by
    simpa [record, Heading.record, Record.parts] using fun s hs =>
      Step.isWorded_record hd (h.steps s hs)

/-- The record of a table of examples with keywords of a dialect is worded. -/
theorem Examples.isWorded_record {e : Examples} (h : e.Obeys (.ofDialect d)) :
    e.record.IsWorded :=
  Heading.isWorded_record hd h.heading (by decide) rfl rfl rfl rfl ⟨_, rfl⟩ <| by
    simp [record, Heading.record, Record.parts, or_imp, forall_and, Tag.isWorded_record,
      Row.isWorded_record]

/-- The record of a scenario with keywords of a dialect is worded. -/
theorem Scenario.isWorded_record (words : List Text) {s : Scenario} (h : s.Obeys (.ofDialect d)) :
    (s.record words).IsWorded := by
  refine Heading.isWorded_record hd h.heading (by decide) rfl rfl rfl ?_ ⟨_, rfl⟩ ?_
  · simp only [record, Heading.record, Record.shape, kind]
    cases s.isOutline words <;> rfl
  · simpa [record, Heading.record, Record.parts, or_imp, forall_and, Tag.isWorded_record] using
      ⟨fun t ht => Step.isWorded_record hd (h.steps t ht),
        fun e he => Examples.isWorded_record hd (h.examples e he)⟩

/-- The records of sections with keywords of a dialect are worded. -/
theorem Body.isWorded_records (words : List Text) {b : Body} (h : b.Obeys (.ofDialect d)) :
    ∀ x ∈ b.records words, x.IsWorded := by
  simp only [records, List.forall_mem_append, Option.mem_toList, List.forall_mem_map,
    Option.map_eq_some_iff]
  refine ⟨?_, fun s hs => Scenario.isWorded_record hd words (h.scenarios s hs)⟩
  rintro _ ⟨x, hx, rfl⟩
  exact Background.isWorded_record hd (h.background x hx)

/-- The record of a rule with keywords of a dialect is worded. -/
theorem Rule.isWorded_record (words : List Text) {r : Rule} (h : r.Obeys (.ofDialect d)) :
    (r.record words).IsWorded :=
  Heading.isWorded_record hd h.heading (by decide) rfl rfl rfl rfl ⟨_, rfl⟩ <| by
    simpa [record, Heading.record, Record.parts, or_imp, forall_and, Tag.isWorded_record] using
      fun x hx => Body.isWorded_records hd words h.body x hx

/-- The record of a feature with keywords of a dialect is worded. -/
theorem Feature.isWorded_record {f : Feature} (h : f.Obeys (.ofDialect d)) :
    f.record.IsWorded :=
  Heading.isWorded_record hd h.heading (by decide) rfl rfl rfl rfl ⟨_, rfl⟩ <| by
    simpa [record, Heading.record, Record.parts, or_imp, forall_and, Tag.isWorded_record] using
      ⟨fun x hx => Body.isWorded_records hd f.outlineWords h.body x hx,
        fun r hr => Rule.isWorded_record hd f.outlineWords (h.rules r hr)⟩

omit hd

/-- The records of a document that obeys the law of a dialect have keywords. -/
theorem Document.isWorded_record (hd : d ∈ Dialect.all) {document : Document}
    (h : document.Obeys (.ofDialect d)) :
    (∀ r ∈ document.record.feature, r.IsWorded) ∧ ∀ r ∈ document.record.comments, r.IsWorded := by
  refine ⟨fun r hr => ?_, fun r hr => ?_⟩
  · obtain ⟨f, hf, rfl⟩ := Option.map_eq_some_iff.mp hr
    exact Feature.isWorded_record hd (h f hf)
  · obtain ⟨c, -, rfl⟩ := List.mem_map.mp hr
    exact c.isWorded_record

end Ast

/-- What the parser reads is decoded into records that have keywords. -/
theorem DocumentRecord.isWorded_of_parse {default dialect : Value} {file source : Text}
    {r : DocumentRecord} (h : DocumentRecord.parse default dialect file source = .ok r) :
    (∀ x ∈ r.feature, x.IsWorded) ∧ ∀ x ∈ r.comments, x.IsWorded := by
  obtain ⟨d, hd, document, hparse, hbare⟩ := exists_of_parse h
  obtain ⟨d', hd', -, hlaw, -⟩ := Ast.Document.sound_of_parse hd hparse
  obtain ⟨hfeature, hcomments⟩ := Ast.Document.isWorded_record hd' hlaw
  rw [← hbare] at hfeature hcomments
  exact ⟨fun x hx => (hfeature x.bare (Option.mem_map_of_mem _ hx)).of_bare,
    fun x hx => (hcomments x.bare (List.mem_map_of_mem hx)).of_bare⟩

/-! ### Nodes -/

namespace Node

/-- A worded record builds a worded node. -/
theorem isWorded_ofRecord {r : Record} (h : r.IsWorded) (language : Option Value) :
    (ofRecord language r).IsWorded := by
  induction h generalizing language with
  | @mk r keyword texts _ ih =>
    obtain ⟨inner, heq⟩ := ofRecord_eq language r
    rw [heq]
    refine .mk (fun v hv => keyword v (by rwa [Shape.field?_map] at hv)) ?_ ?_
    · rwa [Shape.values_map]
    · rw [Shape.parts_map, List.forall_mem_map]
      exact fun x hx => ih x (Record.mem_parts_of_mem_shape hx) inner

/-- Every file that is read is worded. -/
theorem isWorded_of_readFile {default dialect : Value} {path source : Text} {n : Node}
    (h : readFile default dialect path source = .ok n) : n.IsWorded := by
  obtain ⟨_, d, hd, rfl⟩ := exists_of_readFile h
  obtain ⟨hfeature, hcomments⟩ := DocumentRecord.isWorded_of_parse hd
  refine .mk (fun _ hv => by cases hv) (by simp [Shape.values]) ?_
  simp only [Shape.parts, List.forall_mem_append, Option.mem_toList, Option.map_eq_some_iff,
    List.forall_mem_map]
  refine ⟨?_, fun x hx => isWorded_ofRecord (hcomments x hx) none⟩
  rintro _ ⟨x, hx, rfl⟩
  exact isWorded_ofRecord (hfeature x hx) none

/-- A node that is read from text has a keyword if its kind has one, and so have all its parts. -/
theorem isWorded_of_read {default dialect : Value} {path source : Text} {kind : Kind} {n : Node}
    (h : read default dialect path source kind = .ok n) : n.IsWorded := by
  obtain ⟨_, _, d, hd, ⟨rfl, -⟩ | ⟨r, hr, -, rfl⟩⟩ := exists_of_read h
  · exact isWorded_of_readFile h
  · obtain ⟨hfeature, hcomments⟩ := DocumentRecord.isWorded_of_parse hd
    have hworded : r.IsWorded := Fragment.of_select? (fun _ => Record.IsWorded.parts)
      hfeature hcomments hr
    exact isWorded_ofRecord hworded none

end Node

/-! ### Files -/

/-- What holds of a file tree if it holds of its entries holds of every file tree. -/
theorem FileTree.induction {motive : FileTree → Prop} (file : ∀ bytes, motive (.file bytes))
    (directory : ∀ entries, (∀ e ∈ entries, motive e.2) → motive (.directory entries)) :
    (t : FileTree) → motive t
  | .file bytes => file bytes
  | .directory entries => directory entries fun e he =>
    have hpair : sizeOf e.2 < sizeOf e := by
      cases e
      simp only [Prod.mk.sizeOf_spec]
      omega
    have : sizeOf e.2 < sizeOf entries := Nat.lt_trans hpair (List.sizeOf_lt_of_mem he)
    induction file directory e.2
termination_by t => sizeOf t
decreasing_by
  simp only [FileTree.directory.sizeOf_spec]
  omega

namespace Load

/-- Every document that is loaded is worded. -/
theorem isWorded_document {w : Workspace} {default : Value} {path : Text}
    {dialect config : Option Value} {n : Node}
    (h : document w default path dialect config = .ok n) : n.IsWorded := by
  obtain ⟨_, -, h⟩ := bind_ok h
  obtain ⟨_, -, h⟩ := bind_ok h
  exact Node.isWorded_of_readFile h

/-- What is loaded of the entries of a directory has keywords, if what they are loaded as has. -/
theorem isWorded_entries (plan : Plan) (default : Value)
    {es : List (Text × FileTree × (Text → Except Fault Node))}
    (h : ∀ e ∈ es, ∀ path, Gives Node.IsWorded (e.2.2 path)) (path : Text) :
    Gives Node.IsWorded (entries plan default es path) := by
  have hsorted : ∀ e ∈ FileTree.sorted es, ∀ path, Gives Node.IsWorded (e.2.2 path) :=
    fun e he => h e (FileTree.mem_sorted.mp he)
  have hread : ∀ e ∈ FileTree.sorted es,
      Gives (fun file : Option Node => ∀ n ∈ file, n.IsWorded) (do
        let text? ← plan.scanner.source? e.1 e.2.1
        text?.mapM (Node.readFile default plan.dialect (Path.join path e.1))) := by
    refine fun e _ => (Gives.any _).bind fun text? _ => ?_
    cases text? with
    | none => exact .ok (by simp)
    | some text => exact Gives.map (fun n hn => Node.isWorded_of_readFile hn) (by simp)
  refine (Gives.mapM hread).bind fun files hfiles => ?_
  have hend : ∀ inner : List (Text × FileTree × (Text → Except Fault Node)),
      (∀ e ∈ inner, ∀ path, Gives Node.IsWorded (e.2.2 path)) →
      Gives Node.IsWorded (do
        let directories ← inner.mapM fun e => e.2.2 (Path.join path e.1)
        return .mk {} (.directory (.text path) (files.filterMap id) directories)) := by
    refine fun inner hinner => (Gives.mapM fun e he => hinner e he _).bind
      fun directories hdirectories => .ok (.mk nofun (by simp [Shape.values]) ?_)
    simp only [Shape.parts, Shape.children, List.forall_mem_append]
    refine ⟨fun n hn => ?_, hdirectories⟩
    obtain ⟨file, hfile, rfl⟩ := List.mem_filterMap.mp hn
    exact hfiles _ hfile n rfl
  split
  · exact (Gives.filterM hsorted).bind fun inner hinner => hend inner hinner
  · exact hend [] (by simp)

/-- A directory that is loaded has keywords in all its parts, since all of them are read from
text. -/
theorem isWorded_directory (plan : Plan) (default : Value) (t : FileTree) (path : Text) :
    Gives Node.IsWorded (directory plan default t path) := by
  induction t using FileTree.induction generalizing path with
  | file bytes => exact .error _
  | directory entries ih =>
    rw [directory, FileTree.fold_directory]
    refine isWorded_entries plan default (fun e he => ?_) path
    obtain ⟨e, hmem, rfl⟩ := List.mem_map.mp he
    exact ih e hmem

end Load

end FeatureTree
