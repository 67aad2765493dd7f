import FeatureTree.Proofs.Equality.Nodes
import FeatureTree.Proofs.Node.Read
import FeatureTree.Proofs.Schema.Fitting
import FeatureTree.Proofs.Schema.Parsed
import FeatureTree.Reading

/-!
# Records of what is written

The records of a document that is read from text hold texts, and the records inside them are of the
kinds that their places are for. The same holds of the nodes that are built from them, so they can
be compared, and of parts that are picked out of a document around them.

## Main results

* `Ast.Document.isWritten_record`: the record of what the parser reads is written
* `Node.isWritten_of_read`: so is a node that is read from text, which is of the kind asked for
-/

namespace FeatureTree

/-! ### Records -/

/-- What is compared of a record is texts, and the records inside it stand in their places. -/
inductive Record.IsWritten : Record → Prop where
  | mk {r : Record} (name : ∃ t, r.name = .text t) (description : ∃ t, r.description = .text t)
      (text : ∃ t, r.text = .text t) (places : r.Places) (parts : ∀ x ∈ r.parts, IsWritten x) :
      IsWritten r

/-- What is compared of a document is texts, and its records stand in their places. -/
structure DocumentRecord.IsWritten (d : DocumentRecord) : Prop where
  feature : ∀ r ∈ d.feature, r.kind = .feature ∧ r.IsWritten
  comments : ∀ r ∈ d.comments, r.IsWritten

namespace Record

variable {r x : Record}

/-- The parts of a written record are written. -/
theorem IsWritten.parts (h : r.IsWritten) : ∀ x ∈ r.parts, x.IsWritten := by
  cases h
  assumption

/-- The parts of a bare record are the bare parts. -/
theorem parts_bare (r : Record) : r.bare.parts = r.parts.map bare := by
  rw [bare_eq]
  simp [Record.parts, Option.toList_map]

/-- A record has its parts in place if the bare record does. -/
theorem Places.of_bare (h : r.bare.Places) : r.Places := by
  have hlist : ∀ (p : Kind → Prop) {xs : List Record}, (∀ x ∈ xs.map bare, p x.kind) →
      ∀ x ∈ xs, p x.kind := fun p xs h x hx => kind_bare x ▸ h x.bare (List.mem_map_of_mem hx)
  obtain ⟨tags, children, steps, examples, rows, cells, block, background, comments, feature⟩ := h
  rw [bare_eq] at tags children steps examples rows cells block background comments feature
  refine ⟨hlist (· = .tag) tags, fun x hx => ?_, hlist (· = .step) steps,
    hlist (· = .example) examples, hlist (· = .row) rows, hlist (· = .cell) cells, ?_, ?_,
    hlist (· = .comment) comments, ?_⟩
  · rw [← kind_bare x]
    exact children x.bare (List.mem_map_of_mem hx)
  · intro x hx
    rw [← kind_bare x]
    exact block x.bare (Option.mem_map_of_mem bare hx)
  · simpa [childrenOf, List.filter_map, Function.comp_def] using background
  · simpa using feature

/-- Nothing of it depends on the data that a record was made from. -/
theorem IsWritten.of_bare (h : r.bare.IsWritten) : r.IsWritten := by
  generalize hx : r.bare = x at h
  induction h generalizing r with
  | @mk x name description text places _ ih =>
    subst hx
    rw [bare_eq] at name description text
    refine .mk name description text places.of_bare fun y hy => ?_
    exact ih y.bare (by rw [parts_bare]; exact List.mem_map_of_mem hy) rfl

end Record

/-! ### Records of documents -/

namespace Ast

/-- The record of a tag is written. -/
theorem Tag.isWritten_record (t : Tag) : t.record.IsWritten := by
  refine .mk ⟨_, rfl⟩ ⟨_, rfl⟩ ⟨_, rfl⟩ ?_ ?_
  · constructor <;> simp [record, Record.childrenOf]
  · simp [record, Record.parts]

/-- The record of a cell is written. -/
theorem Cell.isWritten_record (c : Cell) : c.record.IsWritten := by
  refine .mk ⟨_, rfl⟩ ⟨_, rfl⟩ ⟨_, rfl⟩ ?_ ?_
  · constructor <;> simp [record, Record.childrenOf]
  · simp [record, Record.parts]

/-- The record of a row is written. -/
theorem Row.isWritten_record (r : Row) : r.record.IsWritten := by
  refine .mk ⟨_, rfl⟩ ⟨_, rfl⟩ ⟨_, rfl⟩ ?_ ?_
  · constructor <;> simp [record, Record.childrenOf, Cell.record]
  · simpa [record, Record.parts] using fun c _ => Cell.isWritten_record c

/-- The record of some rows is a written table. -/
theorem isWritten_tableRecord {rows : List Row} {r : Record} (h : tableRecord rows = some r) :
    r.kind = .table ∧ r.IsWritten := by
  obtain ⟨first, -, rfl⟩ := Option.map_eq_some_iff.mp h
  refine ⟨rfl, .mk ⟨_, rfl⟩ ⟨_, rfl⟩ ⟨_, rfl⟩ ?_ ?_⟩
  · constructor <;> simp [Record.childrenOf, Row.record]
  · simpa [Record.parts] using fun r _ => Row.isWritten_record r

/-- The record of a doc string is written. -/
theorem DocString.isWritten_record (s : DocString) : s.record.IsWritten := by
  refine .mk ⟨_, rfl⟩ ⟨_, rfl⟩ ⟨_, rfl⟩ ?_ ?_
  · constructor <;> simp [record, Record.childrenOf]
  · simp [record, Record.parts]

/-- The record of a step is written. -/
theorem Step.isWritten_record (s : Step) : s.record.IsWritten := by
  have hblock : ∀ x ∈ s.record.block, (x.kind = .table ∨ x.kind = .docString) ∧ x.IsWritten := by
    intro x hx
    have hx : ((s.docString.map DocString.record).or (tableRecord s.table)) = some x := by
      simpa [record] using hx
    rcases Option.or_eq_some_iff.mp hx with hx | ⟨-, hx⟩
    · obtain ⟨t, -, rfl⟩ := Option.map_eq_some_iff.mp hx
      exact ⟨.inr rfl, t.isWritten_record⟩
    · exact ⟨.inl (isWritten_tableRecord hx).1, (isWritten_tableRecord hx).2⟩
  refine .mk ⟨_, rfl⟩ ⟨_, rfl⟩ ⟨_, rfl⟩
    ⟨?_, ?_, ?_, ?_, ?_, ?_, fun x hx => (hblock x hx).1, ?_, ?_, ?_⟩ fun x hx => (hblock x ?_).2
  case refine_10 => simpa [record, Record.parts] using hx
  all_goals simp [record, Record.childrenOf]

/-- The record of a background is written. -/
theorem Background.isWritten_record (b : Background) : b.record.IsWritten := by
  refine .mk ⟨_, rfl⟩ ⟨_, rfl⟩ ⟨_, rfl⟩ ?_ ?_
  · constructor <;> simp [record, Heading.record, Record.childrenOf, Step.record]
  · simpa [record, Heading.record, Record.parts] using fun s _ => Step.isWritten_record s

/-- The record of a table of examples is written. -/
theorem Examples.isWritten_record (e : Examples) : e.record.IsWritten := by
  refine .mk ⟨_, rfl⟩ ⟨_, rfl⟩ ⟨_, rfl⟩ ?_ ?_
  · constructor <;> simp [record, Heading.record, Record.childrenOf, Tag.record, Row.record]
  · simp [record, Heading.record, Record.parts, or_imp, forall_and, Tag.isWritten_record,
      Row.isWritten_record]

/-- The record of a scenario is written. -/
theorem Scenario.isWritten_record (words : List Text) (s : Scenario) :
    (s.record words).IsWritten := by
  refine .mk ⟨_, rfl⟩ ⟨_, rfl⟩ ⟨_, rfl⟩ ?_ ?_
  · constructor <;>
      simp [record, Heading.record, Record.childrenOf, Tag.record, Step.record, Examples.record]
  · simp [record, Heading.record, Record.parts, or_imp, forall_and, Tag.isWritten_record,
      Step.isWritten_record, Examples.isWritten_record]

/-- The records of the sections of a body are written backgrounds, scenarios and outlines. -/
theorem Body.isWritten_records (words : List Text) (b : Body) :
    ∀ x ∈ b.records words, x.IsWritten
      ∧ (x.kind = .background ∨ x.kind = .scenario ∨ x.kind = .outline) := by
  have hkind : ∀ s : Scenario, s.kind words = .scenario ∨ s.kind words = .outline := by
    intro s
    rw [Scenario.kind]
    split
    · exact .inr rfl
    · exact .inl rfl
  simp only [records, List.forall_mem_append, Option.mem_toList, List.forall_mem_map,
    Option.map_eq_some_iff]
  refine ⟨?_, fun s _ => ⟨s.isWritten_record words, .inr (hkind s)⟩⟩
  rintro _ ⟨x, -, rfl⟩
  exact ⟨x.isWritten_record, .inl rfl⟩

/-- There is one background at most among the sections and rules. -/
theorem Body.length_backgrounds (words : List Text) (b : Body) (rules : List Rule) :
    ((b.records words ++ rules.map (Rule.record words)).filter
      fun x => [Kind.background].contains x.kind).length ≤ 1 := by
  rw [(b.filter_records words rules).1]
  cases b.background <;> simp

/-- The record of a rule is written. -/
theorem Rule.isWritten_record (words : List Text) (r : Rule) : (r.record words).IsWritten := by
  have hbody := r.body.isWritten_records words
  refine .mk ⟨_, rfl⟩ ⟨_, rfl⟩ ⟨_, rfl⟩ ⟨?_, fun x hx => ?_, ?_, ?_, ?_, ?_, ?_, ?_, ?_, ?_⟩ ?_
  case refine_2 => rcases (hbody x hx).2 with h | h | h <;> simp [h]
  case refine_8 => simpa [Record.childrenOf, record] using r.body.length_backgrounds words []
  case refine_11 =>
    simp only [record, Heading.record, Record.parts]
    simpa [or_imp, forall_and, Tag.isWritten_record] using fun x hx => (hbody x hx).1
  all_goals simp [record, Heading.record, Tag.record]

/-- The record of a feature is written. -/
theorem Feature.isWritten_record (f : Feature) : f.record.IsWritten := by
  have hbody := f.body.isWritten_records f.outlineWords
  refine .mk ⟨_, rfl⟩ ⟨_, rfl⟩ ⟨_, rfl⟩ ⟨?_, fun x hx => ?_, ?_, ?_, ?_, ?_, ?_, ?_, ?_, ?_⟩ ?_
  case refine_2 =>
    rcases List.mem_append.mp hx with hx | hx
    · rcases (hbody x hx).2 with h | h | h <;> simp [h]
    · obtain ⟨r, -, rfl⟩ := List.mem_map.mp hx
      exact .inr (.inr (.inr (.inl ⟨rfl, rfl⟩)))
  case refine_8 => exact f.body.length_backgrounds _ f.rules
  case refine_11 =>
    simp only [record, Heading.record, Record.parts]
    simpa [or_imp, forall_and, Tag.isWritten_record, Rule.isWritten_record]
      using fun x hx => (hbody x hx).1
  all_goals simp [record, Heading.record, Tag.record]

/-- The record of a comment is written. -/
theorem Comment.isWritten_record (c : Comment) : c.record.IsWritten := by
  refine .mk ⟨_, rfl⟩ ⟨_, rfl⟩ ⟨_, rfl⟩ ?_ ?_
  · constructor <;> simp [record, Record.childrenOf]
  · simp [record, Record.parts]

/-- The record of what the parser reads is written. -/
theorem Document.isWritten_record (d : Document) : d.record.IsWritten := by
  refine ⟨?_, ?_⟩
  · intro r hr
    obtain ⟨f, -, rfl⟩ := Option.map_eq_some_iff.mp hr
    exact ⟨rfl, f.isWritten_record⟩
  · intro r hr
    obtain ⟨c, -, rfl⟩ := List.mem_map.mp hr
    exact c.isWritten_record

end Ast

/-- A text that is parsed is read by the parser in a dialect of the table, and decoded into the
record of what is read. -/
theorem DocumentRecord.exists_of_parse {default dialect : Value} {file source : Text}
    {r : DocumentRecord} (h : DocumentRecord.parse default dialect file source = .ok r) :
    ∃ d ∈ Dialect.all, ∃ document, Ast.Document.parse d source = .ok document
      ∧ r.bare = document.record := by
  simp only [DocumentRecord.parse] at h
  split at h
  · cases h
  · next d hname =>
    split at h
    · cases h
    · next document hparse =>
      obtain ⟨name, -, hd⟩ := Option.bind_eq_some_iff.mp hname
      obtain ⟨-, r', hr', hbare⟩ := document.normalize_toTree
      obtain rfl : r = r' := Except.ok.inj (h.symm.trans hr')
      exact ⟨d, List.mem_of_find?_eq_some hd, document, hparse, hbare⟩

/-- What the parser reads is decoded into a record that is written. -/
theorem DocumentRecord.isWritten_of_parse {default dialect : Value} {file source : Text}
    {r : DocumentRecord} (h : DocumentRecord.parse default dialect file source = .ok r) :
    r.IsWritten := by
  obtain ⟨_, -, document, -, hbare⟩ := exists_of_parse h
  have hwritten : r.bare.IsWritten := hbare ▸ document.isWritten_record
  refine ⟨fun x hx => ?_, fun x hx => ?_⟩
  · obtain ⟨hkind, hx⟩ := hwritten.feature x.bare (Option.mem_map_of_mem _ hx)
    exact ⟨(Record.kind_bare x).symm.trans hkind, hx.of_bare⟩
  · exact (hwritten.comments x.bare (List.mem_map_of_mem hx)).of_bare

/-- What is picked out of a document is written if the document is. -/
theorem Fragment.isWritten_of_select? {d : DocumentRecord} {kind : Kind} {r : Record}
    (hd : d.IsWritten) (h : select? d kind = some r) : r.IsWritten :=
  of_select? (fun _ => Record.IsWritten.parts) (fun r hr => (hd.feature r hr).2) hd.comments h

/-! ### Nodes -/

/-- The kinds of the parts that nodes of a kind are compared by. -/
def Kind.inner : Kind → List Kind
  | .row => [.cell]
  | .table => [.row]
  | .step => [.table, .docString]
  | .background => [.step]
  | .scenario | .outline => [.tag, .step]
  | .example => [.tag, .row]
  | .rule | .feature => [.tag, .background, .scenario, .outline, .rule]
  | .featureFile => [.feature]
  | .directory => [.featureFile, .directory]
  | .cell | .tag | .docString | .comment => []

/-- What is compared of a node is texts, and its parts stand in their places. -/
inductive Node.IsWritten : Node → Prop where
  | mk {o : Origin} {s : Shape Node} (values : ∀ v ∈ s.core.values, v = .null ∨ ∃ t, v = .text t)
      (tags : ∀ tags, s.list? .tags = some tags → ∀ t ∈ tags, t.kind = .tag)
      (kinds : ∀ n ∈ s.core.parts, n.kind ∈ s.kind.inner)
      (parts : ∀ n ∈ s.core.parts, IsWritten n) : IsWritten (.mk o s)

namespace Node

/-- Written nodes can be compared. -/
theorem IsWritten.isComparable {n : Node} (h : n.IsWritten) : n.IsComparable := by
  induction h with
  | mk values tags _ _ ih =>
    refine .mk (fun v hv => ?_) tags ih
    rcases values v hv with rfl | ⟨t, rfl⟩
    · exact .null
    · exact .text t

end Node

namespace Record

variable {r x : Record}

/-- The tags of a shape are those of its record. -/
theorem list?_tags_shape {tags : List Record} (h : r.shape.list? .tags = some tags) :
    tags = r.tags := by
  cases hk : r.kind <;> simp only [shape, hk] at h <;> cases h <;> rfl

/-- Children that are chosen by kind are children, and have one of the kinds. -/
theorem mem_childrenOf {kinds : List Kind} (h : x ∈ r.childrenOf kinds) :
    x ∈ r.children ∧ x.kind ∈ kinds := by
  simpa [childrenOf] using h

/-- The parts by which the node of a record is compared are inside the record, and of the kinds that
stand there. -/
theorem Places.of_mem_core (h : r.Places) (hx : x ∈ r.shape.core.parts) :
    x ∈ r.parts ∧ x.kind ∈ r.kind.inner := by
  have hin : ∀ {k : Kind}, x.kind = k → k ∈ r.kind.inner → x.kind ∈ r.kind.inner := by
    rintro _ rfl hk
    exact hk
  have htag : x ∈ r.tags → .tag ∈ r.kind.inner → x ∈ r.parts ∧ x.kind ∈ r.kind.inner :=
    fun hx hk => ⟨by simp [parts, hx], hin (h.tags x hx) hk⟩
  have hstep : x ∈ r.steps → .step ∈ r.kind.inner → x ∈ r.parts ∧ x.kind ∈ r.kind.inner :=
    fun hx hk => ⟨by simp [parts, hx], hin (h.steps x hx) hk⟩
  have hrow : x ∈ r.rows → .row ∈ r.kind.inner → x ∈ r.parts ∧ x.kind ∈ r.kind.inner :=
    fun hx hk => ⟨by simp [parts, hx], hin (h.rows x hx) hk⟩
  have hchild : ∀ {kinds}, x ∈ r.childrenOf kinds → (∀ k ∈ kinds, k ∈ r.kind.inner) →
      x ∈ r.parts ∧ x.kind ∈ r.kind.inner :=
    fun hx hk => ⟨by simp [parts, (mem_childrenOf hx).1], hk _ (mem_childrenOf hx).2⟩
  cases hk : r.kind <;> rw [hk] at htag hstep hrow hchild <;>
    simp only [shape, hk, Shape.core, Shape.parts, Shape.children, List.mem_append,
      List.append_nil, List.not_mem_nil, Option.mem_toList] at hx
  case row => exact ⟨by simp [parts, hx], by simp [Kind.inner, h.cells x hx]⟩
  case table => exact hrow hx (by decide)
  case step =>
    refine ⟨by simp [parts, hx], ?_⟩
    rcases h.block x hx with hx | hx <;> simp [Kind.inner, hx]
  case background => exact hstep hx (by decide)
  case scenario | outline =>
    rcases hx with hx | hx
    · exact htag hx (by decide)
    · exact hstep hx (by decide)
  case «example» =>
    rcases hx with hx | hx
    · exact htag hx (by decide)
    · exact hrow hx (by decide)
  case rule =>
    rcases hx with (hx | hx) | hx
    · exact htag hx (by decide)
    · exact hchild (List.mem_of_getLast? hx) (by decide)
    · exact hchild hx (by decide)
  case feature =>
    rcases hx with ((hx | hx) | hx) | hx
    · exact htag hx (by decide)
    · exact hchild (List.mem_of_getLast? hx) (by decide)
    · exact hchild hx (by decide)
    · exact hchild hx (by decide)
  case featureFile => exact hchild (List.mem_of_head? hx) (by decide)

end Record

namespace Node

/-- The parts by which the node of a record is compared are the nodes of records inside it, and of
the kinds that stand there. -/
theorem exists_of_mem_core {r : Record} (places : r.Places) (language : Option Value) :
    ∀ n ∈ (ofRecord language r).shape.core.parts,
      n.kind ∈ r.kind.inner ∧ ∃ x ∈ r.parts, ∃ inner, n = ofRecord inner x := by
  obtain ⟨inner, heq⟩ := ofRecord_eq language r
  rw [heq, shape, Shape.core_map, Shape.parts_map, List.forall_mem_map]
  intro x hx
  obtain ⟨hmem, hkind⟩ := places.of_mem_core hx
  exact ⟨(kind_ofRecord inner x).symm ▸ hkind, x, hmem, inner, rfl⟩

/-- A written record builds a written node. -/
theorem isWritten_ofRecord {r : Record} (h : r.IsWritten) (language : Option Value) :
    (ofRecord language r).IsWritten := by
  induction h generalizing language with
  | @mk r hname hdescription htext places _ ih =>
    obtain ⟨name, hname⟩ := hname
    obtain ⟨description, hdescription⟩ := hdescription
    obtain ⟨text, htext⟩ := htext
    have hcore := exists_of_mem_core places language
    obtain ⟨inner, heq⟩ := ofRecord_eq language r
    rw [heq] at hcore ⊢
    refine .mk ?_ ?_ (fun n hn => ?_) fun n hn => ?_
    · rw [Shape.core_map, Shape.values_map]
      cases hk : r.kind <;> simp [Record.shape, hk, Shape.core, Shape.values, Title.core,
        Title.values, hname, hdescription, htext, normalDescription]
    · intro _ htags t ht
      rw [Shape.list?_map] at htags
      obtain ⟨tags, hshape, rfl⟩ := Option.map_eq_some_iff.mp htags
      obtain ⟨x, hx, rfl⟩ := List.mem_map.mp ht
      rw [kind_ofRecord]
      exact places.tags x (Record.list?_tags_shape hshape ▸ hx)
    · rw [Shape.kind_map, r.kind_shape]
      exact (hcore n hn).1
    · obtain ⟨-, x, hx, inner, rfl⟩ := hcore n hn
      exact ih x hx inner

/-- A written document builds a written file. -/
theorem isWritten_ofDocument {d : DocumentRecord} (h : d.IsWritten) (path : Text) :
    (ofDocument path d).IsWritten := by
  refine .mk (by simp [Shape.core, Shape.values]) (fun _ h => by cases h) ?_ ?_
  · simp only [Shape.core, Shape.parts, List.append_nil, Option.mem_toList,
      Option.map_eq_some_iff]
    rintro _ ⟨r, hr, rfl⟩
    rw [kind_ofRecord, (h.feature r hr).1]
    exact List.mem_singleton_self _
  · simp only [Shape.core, Shape.parts, List.append_nil, Option.mem_toList,
      Option.map_eq_some_iff]
    rintro _ ⟨r, hr, rfl⟩
    exact isWritten_ofRecord (h.feature r hr).2 none

/-- A node that is read from text holds texts, its parts stand in their places, and it is of the
kind asked for. -/
theorem isWritten_of_read {default dialect : Value} {path source : Text} {kind : Kind} {n : Node}
    (h : read default dialect path source kind = .ok n) : n.IsWritten ∧ n.kind = kind := by
  obtain ⟨_, _, d, hd, ⟨rfl, rfl⟩ | ⟨r, hr, hkind, rfl⟩⟩ := exists_of_read h
  · exact ⟨isWritten_ofDocument (DocumentRecord.isWritten_of_parse hd) path, rfl⟩
  · have hwritten := Fragment.isWritten_of_select? (DocumentRecord.isWritten_of_parse hd) hr
    exact ⟨isWritten_ofRecord hwritten none, (kind_ofRecord ..).trans hkind⟩

end Node

end FeatureTree
