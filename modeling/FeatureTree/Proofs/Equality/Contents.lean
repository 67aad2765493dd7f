import FeatureTree.Proofs.Equality.Transitivity

/-!
# Equality by content

Nodes are compared by what they can do, whatever they are. For two nodes of one kind this comes down
to what is written in them: names, descriptions, the names of tags, the texts of steps with what is
attached to them, and the values of cells, each in its place and as many of them. Between features,
rules, files and directories it does not, because sections of different kinds can stand in one place
there.

## Main results

* `Node.Differs.not_sameContent`: a difference in one place, however deep, is one in content
* `Node.sameContent_iff_sameIn`: content is what the capabilities of a kind ask for
* `Node.IsMadeOf.equals_iff`: two trees of one kind are equal exactly if they have the same content
* `Store.equals_iff_sameContent`: so are two nodes that were built from records of one kind, and a
  difference in one place makes them unequal
-/

namespace FeatureTree

open List (Forall₂)

/-! ### Content -/

namespace Node

/-- Two nodes of one kind have the same content, where values are compared in a given way. Of two
steps, none has a block, or both have tables or doc strings of the same content. Keywords, content
types, origins and the examples of outlines are no content. -/
inductive SameContent (same : Value → Value → Prop) : Node → Node → Prop where
  | cell {o o' : Origin} {v w : Value} (value : same v w) :
      SameContent same (.mk o (.cell v)) (.mk o' (.cell w))
  | row {o o' : Origin} {xs ys : List Node} (cells : Forall₂ (SameContent same) xs ys) :
      SameContent same (.mk o (.row xs)) (.mk o' (.row ys))
  | tag {o o' : Origin} {v w : Value} (name : same v w) :
      SameContent same (.mk o (.tag v)) (.mk o' (.tag w))
  | table {o o' : Origin} {xs ys : List Node} (rows : Forall₂ (SameContent same) xs ys) :
      SameContent same (.mk o (.table xs)) (.mk o' (.table ys))
  | docString {o o' : Origin} {v w contentType contentType' : Value} (content : same v w) :
      SameContent same (.mk o (.docString v contentType)) (.mk o' (.docString w contentType'))
  | step {o o' : Origin} {keyword keyword' v w : Value} {x y : Option Node} (text : same v w)
      (block : Option.Rel (SameContent same) x y) :
      SameContent same (.mk o (.step keyword v x)) (.mk o' (.step keyword' w y))
  | background {o o' : Origin} {t u : Title} {xs ys : List Node} (name : same t.name u.name)
      (description : same t.description u.description)
      (steps : Forall₂ (SameContent same) xs ys) :
      SameContent same (.mk o (.background t xs)) (.mk o' (.background u ys))
  | scenario {o o' : Origin} {t u : Title} {ts us xs ys : List Node} (name : same t.name u.name)
      (description : same t.description u.description) (tags : Forall₂ (SameContent same) ts us)
      (steps : Forall₂ (SameContent same) xs ys) :
      SameContent same (.mk o (.scenario t ts xs)) (.mk o' (.scenario u us ys))
  | outline {o o' : Origin} {t u : Title} {ts us xs ys examples examples' : List Node}
      (name : same t.name u.name) (description : same t.description u.description)
      (tags : Forall₂ (SameContent same) ts us) (steps : Forall₂ (SameContent same) xs ys) :
      SameContent same (.mk o (.outline t ts xs examples)) (.mk o' (.outline u us ys examples'))
  | example {o o' : Origin} {t u : Title} {ts us xs ys : List Node} (name : same t.name u.name)
      (description : same t.description u.description) (tags : Forall₂ (SameContent same) ts us)
      (rows : Forall₂ (SameContent same) xs ys) :
      SameContent same (.mk o (.example t ts xs)) (.mk o' (.example u us ys))
  | comment {o o' : Origin} {v w : Value} (text : same v w) :
      SameContent same (.mk o (.comment v)) (.mk o' (.comment w))

/-- Two nodes differ in some place, whatever else they have in common or not: in a name, a
description, the text of a step, the value of a cell, the content of a doc string, or in the number
of tags, steps, rows or cells, at the top or in parts that stand in the same place. -/
inductive Differs : Node → Node → Prop where
  | value {a b : Node} {v w : Value} (field : TextField)
      (content : field ∈ [TextField.name, .description, .text, .value, .content])
      (left : a.shape.field? field = some v) (right : b.shape.field? field = some w)
      (differ : v.agrees w = false) : Differs a b
  | number {a b : Node} {xs ys : List Node} (field : ListField)
      (content : field ∈ [ListField.tags, .steps, .rows, .cells])
      (left : a.shape.list? field = some xs) (right : b.shape.list? field = some ys)
      (differ : xs.length ≠ ys.length) : Differs a b
  | part {a b x y : Node} {xs ys : List Node} (field : ListField)
      (content : field ∈ [ListField.tags, .steps, .rows, .cells])
      (left : a.shape.list? field = some xs) (right : b.shape.list? field = some ys) (i : Nat)
      (hx : xs[i]? = some x) (hy : ys[i]? = some y) (differ : Differs x y) : Differs a b
  | block {a b x y : Node} (left : a.shape.part? .block = some (some x))
      (right : b.shape.part? .block = some (some y)) (differ : Differs x y) : Differs a b

section

variable {same : Value → Value → Prop} {a b : Node}

/-- Nodes with the same content are of one kind. -/
theorem SameContent.kind_eq (h : a.SameContent same b) : a.kind = b.kind := by cases h <;> rfl

/-- Nodes with the same content have the same in each field that is content. -/
theorem SameContent.value {v w : Value} {field : TextField} (h : a.SameContent same b)
    (content : field ∈ [TextField.name, .description, .text, .value, .content])
    (left : a.shape.field? field = some v) (right : b.shape.field? field = some w) : same v w := by
  simp only [List.mem_cons, List.not_mem_nil, or_false] at content
  rcases content with rfl | rfl | rfl | rfl | rfl <;> cases h <;> cases left <;> cases right <;>
    assumption

/-- Nodes with the same content have the same, one by one, in each list that is content. -/
theorem SameContent.members {xs ys : List Node} {field : ListField} (h : a.SameContent same b)
    (content : field ∈ [ListField.tags, .steps, .rows, .cells])
    (left : a.shape.list? field = some xs) (right : b.shape.list? field = some ys) :
    Forall₂ (SameContent same) xs ys := by
  simp only [List.mem_cons, List.not_mem_nil, or_false] at content
  rcases content with rfl | rfl | rfl | rfl <;> cases h <;> cases left <;> cases right <;>
    assumption

/-- Steps with the same content have the same in their blocks. -/
theorem SameContent.block {x y : Node} (h : a.SameContent same b)
    (left : a.shape.part? .block = some (some x)) (right : b.shape.part? .block = some (some y)) :
    x.SameContent same y := by
  cases h with
  | step _ block =>
    cases left
    cases right
    cases block with
    | some hxy => exact hxy
  | _ => cases left

/-- A difference in one place, however deep, is a difference in content. -/
theorem Differs.not_sameContent (h : a.Differs b) :
    ¬ a.SameContent (fun v w => v.agrees w = true) b := by
  induction h with
  | value field content left right differ =>
    intro hsame
    rw [hsame.value content left right] at differ
    cases differ
  | number field content left right differ =>
    exact fun hsame => differ (hsame.members content left right).length_eq
  | part field content left right i hx hy _ ih =>
    exact fun hsame => ih (rel_of_forall₂ (hsame.members content left right) hx hy)
  | block left right _ ih => exact fun hsame => ih (hsame.block left right)

end

/-! ### Equality by capabilities -/

section

variable {a b : Node} {c : Capability} {v w : Value} {xs ys : List Node}

/-- Two nodes of one kind are equal exactly if they agree in everything that the kind can do. -/
theorem equals_iff_of_kind_eq (h : a.kind = b.kind) : a.equals b = .ok true
    ↔ ∀ c ∈ Capability.ofKind a.kind, a.agreesIn b c = .ok true := by
  rw [equals_eq_true_iff, ← h]
  simp only [Capability.mem_shared, and_self, ne_eq, Capability.shared_self_ne_nil,
    not_false_eq_true, true_and]

/-- Tags are equal if their names agree. -/
theorem equals_tag_iff {o o' : Origin} :
    (Node.mk o (.tag v)).equals (.mk o' (.tag w)) = .ok true ↔ v.agrees w = true := by
  rw [equals_iff_of_kind_eq (by rfl)]
  simp [kind, shape, Shape.kind, Capability.ofKind, agreesIn, Compared.agreeIn, compared,
    Shape.compared, Shape.ask, Shape.nameOf, Shape.field?, bind, Except.bind]

/-- Where tags are tags, their names are compared. -/
theorem exists_tagNames (hxs : a.shape.list? .tags = some xs) (htags : ∀ t ∈ xs, t.kind = .tag) :
    ∃ names, Forall₂ (fun t name => t.shape = .tag name) xs names
      ∧ a.compared.tagNames = .ok (.list names) := by
  obtain ⟨names, hnames⟩ : ∃ names, Forall₂ (fun t name => t.shape = .tag name) xs names := by
    refine exists_forall₂ fun t ht => ?_
    have hkind := htags t ht
    obtain ⟨o, s⟩ := t
    cases s <;> cases hkind
    exact ⟨_, rfl⟩
  have hmap : xs.mapM nameOf = .ok names := mapM_of_forall₂ (hnames.imp fun t name ht => by
    rw [nameOf, ht]
    rfl)
  refine ⟨names, hnames, ?_⟩
  simp [compared, Shape.compared, hxs, hmap, Fault.ofOption, bind, Except.bind, pure, Except.pure]

/-- Where tags are tags, two nodes agree in them if the tags are equal one by one. -/
theorem agreesIn_tagged_iff (hxs : a.shape.list? .tags = some xs)
    (hys : b.shape.list? .tags = some ys) (htags : ∀ t ∈ xs, t.kind = .tag)
    (htags' : ∀ t ∈ ys, t.kind = .tag) :
    a.agreesIn b .tagged = .ok true ↔ Forall₂ (fun x y => x.equals y = .ok true) xs ys := by
  obtain ⟨names, hleft, hnames⟩ := exists_tagNames hxs htags
  obtain ⟨names', hright, hnames'⟩ := exists_tagNames hys htags'
  have hagree : a.agreesIn b .tagged = .ok true
      ↔ (Value.list names).agrees (.list names') = true := by
    simp [agreesIn, Compared.agreeIn, hnames, hnames', bind, Except.bind]
  rw [hagree, Value.agrees_of_items rfl rfl]
  refine (forall₂_iff_of_forall₂ hleft hright fun x v y w hx hy => ?_).symm
  obtain ⟨o, _⟩ := x
  obtain ⟨o', _⟩ := y
  cases hx
  cases hy
  exact equals_tag_iff

end

/-! ### Content by capabilities -/

section

variable {same : Value → Value → Prop} {a b : Node} {c : Capability}

/-- What the content of two nodes has to have in common in one capability. -/
def SameIn (same : Value → Value → Prop) (a b : Node) (c : Capability) : Prop :=
  match c with
  | .named | .textual | .described =>
    ∃ v w, a.compared.value c = .ok v ∧ b.compared.value c = .ok w ∧ same v w
  | .tagged =>
    ∃ xs ys, a.shape.list? .tags = some xs ∧ b.shape.list? .tags = some ys
      ∧ Forall₂ (SameContent same) xs ys
  | .stepped | .tableHolder | .containing =>
    ∃ xs ys, a.compared.parts c = .ok xs ∧ b.compared.parts c = .ok ys
      ∧ Forall₂ (SameContent same) xs ys

/-- Two nodes of one kind have the same content exactly if they have it in everything that the kind
can do. -/
theorem sameContent_iff_sameIn (hkind : a.kind = b.kind)
    (hheld : a.kind ∉ [Kind.feature, .rule, .featureFile, .directory]) :
    a.SameContent same b ↔ ∀ c ∈ Capability.ofKind a.kind, SameIn same a b c := by
  obtain ⟨o, s⟩ := a
  obtain ⟨o', t⟩ := b
  have hkind : s.kind = t.kind := hkind
  have hblock : ∀ x y : Option Node, Forall₂ (SameContent same) x.toList y.toList
      ↔ Option.Rel (SameContent same) x y := by
    rintro (_ | x) (_ | y) <;> simp
  -- for each kind, what its capabilities ask for is what its content is made of
  cases s <;> cases t <;> cases hkind <;>
    simp only [Node.kind, shape, Shape.kind, Capability.ofKind, List.forall_mem_cons,
      List.not_mem_nil, IsEmpty.forall_iff, implies_true, and_true, SameIn, compared,
      Compared.value, Compared.parts, Shape.compared, Shape.ask, Shape.nameOf, Shape.field?,
      Shape.title?, Shape.list?, Shape.textValue?, Shape.textField?, Shape.children,
      Fault.ofOption, Option.bind_some, Option.map_some, Except.ok.injEq, Option.some.injEq,
      exists_and_left, exists_eq_left', hblock]
  case cell => exact ⟨fun h => by cases h with | cell value => exact value, .cell⟩
  case row => exact ⟨fun h => by cases h with | row cells => exact cells, .row⟩
  case tag => exact ⟨fun h => by cases h with | tag name => exact name, .tag⟩
  case table => exact ⟨fun h => by cases h with | table rows => exact rows, .table⟩
  case docString =>
    exact ⟨fun h => by cases h with | docString content => exact content, .docString⟩
  case comment => exact ⟨fun h => by cases h with | comment text => exact text, .comment⟩
  case step =>
    exact ⟨fun h => by cases h with | step text block => exact ⟨text, block⟩,
      fun h => .step h.1 h.2⟩
  case background =>
    exact ⟨fun h => by cases h with | background name text steps => exact ⟨name, text, steps⟩,
      fun h => .background h.1 h.2.1 h.2.2⟩
  case scenario =>
    exact ⟨fun h => by
        cases h with | scenario name text tags steps => exact ⟨name, text, tags, steps⟩,
      fun h => .scenario h.1 h.2.1 h.2.2.1 h.2.2.2⟩
  case outline =>
    exact ⟨fun h => by
        cases h with | outline name text tags steps => exact ⟨name, text, tags, steps⟩,
      fun h => .outline h.1 h.2.1 h.2.2.1 h.2.2.2⟩
  case «example» =>
    exact ⟨fun h => by
        cases h with | «example» name text tags rows => exact ⟨name, text, tags, rows⟩,
      fun h => .example h.1 h.2.1 h.2.2.1 h.2.2.2⟩
  case rule | feature | featureFile | directory => simp [kind, shape, Shape.kind] at hheld

/-- A node that is compared by its tags has a list of tags. -/
theorem exists_tags (hc : .tagged ∈ Capability.ofKind a.kind) :
    ∃ xs, a.shape.list? .tags = some xs := by
  obtain ⟨o, s⟩ := a
  cases s <;> simp [kind, shape, Shape.kind, Capability.ofKind] at hc <;> exact ⟨_, rfl⟩

/-- Parts are compared as their content is, if that holds of all parts that are compared. -/
theorem equal_parts_iff (hc : c ∈ Capability.ofKind a.kind) (hc' : c ∈ Capability.ofKind b.kind)
    (hpart : ∀ x ∈ a.shape.core.parts, ∀ y ∈ b.shape.core.parts,
      (x.equals y = .ok true ↔ x.SameContent same y)) :
    (∃ xs ys, a.compared.parts c = .ok xs ∧ b.compared.parts c = .ok ys
        ∧ Forall₂ (fun x y => x.equals y = .ok true) xs ys)
      ↔ ∃ xs ys, a.compared.parts c = .ok xs ∧ b.compared.parts c = .ok ys
        ∧ Forall₂ (SameContent same) xs ys := by
  refine exists₂_congr fun xs ys => and_congr_right fun hxs => and_congr_right fun hys => ?_
  exact forall₂_congr_of_mem fun x hx y hy =>
    hpart x (mem_core_of_compared hc hxs hx) y (mem_core_of_compared hc' hys hy)

/-- Where the values and parts of two nodes are equal exactly if they have the same content, the
nodes agree in a capability exactly if they have the same content in it. -/
theorem agreesIn_iff_sameIn (hc : c ∈ Capability.ofKind a.kind) (hc' : c ∈ Capability.ofKind b.kind)
    (hvalue : ∀ v ∈ a.shape.core.values, ∀ w ∈ b.shape.core.values, (v.agrees w = true ↔ same v w))
    (htags : ∀ xs, a.shape.list? .tags = some xs → ∀ x ∈ xs, x.kind = .tag)
    (htags' : ∀ ys, b.shape.list? .tags = some ys → ∀ y ∈ ys, y.kind = .tag)
    (hpart : ∀ x ∈ a.shape.core.parts, ∀ y ∈ b.shape.core.parts,
      (x.equals y = .ok true ↔ x.SameContent same y)) :
    a.agreesIn b c = .ok true ↔ SameIn same a b c := by
  have hleft := Shape.mem_values_of_compared nameOf hc
  have hright := Shape.mem_values_of_compared nameOf hc'
  have hvalues : (∀ v, a.compared.value c = .ok v → v ∈ a.shape.core.values) →
      (∀ w, b.compared.value c = .ok w → w ∈ b.shape.core.values) →
      ((∃ v w, a.compared.value c = .ok v ∧ b.compared.value c = .ok w ∧ v.agrees w = true)
        ↔ ∃ v w, a.compared.value c = .ok v ∧ b.compared.value c = .ok w ∧ same v w) := by
    refine fun hv hw => exists₂_congr fun v w => ?_
    exact and_congr_right fun h => and_congr_right fun h' => hvalue v (hv v h) w (hw w h')
  have hnull : Value.null.agrees .null = true := rfl
  cases c with
  | named =>
    rw [agreesIn, Compared.agreeIn_eq_true_iff, hvalues (hleft.1 rfl) (hright.1 rfl)]
    simp [SameIn, Compared.parts]
  | textual =>
    rw [agreesIn, Compared.agreeIn_eq_true_iff, hvalues (hleft.2.1 rfl) (hright.2.1 rfl)]
    simp [SameIn, Compared.parts]
  | described =>
    rw [agreesIn, Compared.agreeIn_eq_true_iff, hvalues (hleft.2.2 rfl) (hright.2.2 rfl)]
    simp [SameIn, Compared.parts]
  | tagged =>
    obtain ⟨xs, hxs⟩ := exists_tags hc
    obtain ⟨ys, hys⟩ := exists_tags hc'
    have hmem : ∀ {n : Node} {ts : List Node}, n.shape.list? .tags = some ts →
        ∀ t ∈ ts, t ∈ n.shape.core.parts := fun {n} _ hts _ ht =>
      Shape.mem_parts_of_list? ((Shape.list?_core_tags n.shape).trans hts) ht
    rw [agreesIn_tagged_iff hxs hys (htags xs hxs) (htags' ys hys),
      forall₂_congr_of_mem fun x hx y hy => hpart x (hmem hxs x hx) y (hmem hys y hy)]
    simp [SameIn, hxs, hys]
  | stepped | tableHolder | containing =>
    rw [agreesIn, Compared.agreeIn_eq_true_iff, equal_parts_iff hc hc' hpart]
    simp [SameIn, Compared.value, hnull]

end

/-! ### Trees -/

/-- What is compared of a node are values of some sort, its tags are tags, and its parts stand in
their places. -/
inductive IsMadeOf (p : Value → Prop) : Node → Prop where
  | mk {o : Origin} {s : Shape Node} (values : ∀ v ∈ s.core.values, p v)
      (tags : ∀ tags, s.list? .tags = some tags → ∀ t ∈ tags, t.kind = .tag)
      (kinds : ∀ n ∈ s.core.parts, n.kind ∈ s.kind.inner)
      (parts : ∀ n ∈ s.core.parts, IsMadeOf p n) : IsMadeOf p (.mk o s)

/-- Two trees of one kind, which are no features, rules, files or directories, are equal exactly if
they have the same content. -/
theorem IsMadeOf.equals_iff {p : Value → Prop} {same : Value → Value → Prop} {a b : Node}
    (hsame : ∀ v w, p v → p w → (v.agrees w = true ↔ same v w)) (ha : a.IsMadeOf p)
    (hb : b.IsMadeOf p) (hkind : a.kind = b.kind)
    (hheld : a.kind ∉ [Kind.feature, .rule, .featureFile, .directory]) :
    a.equals b = .ok true ↔ a.SameContent same b := by
  induction ha generalizing b with
  | @mk o s values tags kinds _ ih =>
    obtain ⟨values', tags', kinds', parts'⟩ := hb
    rename_i o' t
    have hpart : ∀ x ∈ s.core.parts, ∀ y ∈ t.core.parts,
        (x.equals y = .ok true ↔ x.SameContent same y) := by
      intro x hx y hy
      by_cases hshared : Capability.shared x.kind y.kind = []
      -- parts that share no capability are not equal, and of different kinds
      · refine iff_of_false (fun h => (equals_eq_true_iff.mp h).1 hshared) fun h => ?_
        exact Capability.shared_self_ne_nil _ (h.kind_eq ▸ hshared)
      · have hy' := kinds' y hy
        rw [show t.kind = s.kind from hkind.symm] at hy'
        obtain ⟨heq, hheld⟩ := eq_of_inner hheld (kinds x hx) hy' hshared
        exact ih x hx (parts' y hy) heq hheld
    rw [equals_iff_of_kind_eq hkind, sameContent_iff_sameIn hkind hheld]
    refine forall₂_congr fun c hc => agreesIn_iff_sameIn hc (hkind ▸ hc) ?_ tags tags' hpart
    exact fun v hv w hw => hsame v w (values v hv) (values' w hw)

/-- A node of what is written is made of texts, and of nulls where there is no text. -/
theorem IsWritten.isMadeOf {n : Node} (h : n.IsWritten) :
    n.IsMadeOf fun v => v = .null ∨ ∃ t, v = .text t := by
  induction h with
  | mk values tags kinds _ ih => exact .mk values tags kinds ih

end Node

/-! ### Records -/

/-- The records inside a record stand in the places that are for their kinds, at all depths. -/
inductive Record.IsPlaced : Record → Prop where
  | mk {r : Record} (places : r.Places) (parts : ∀ x ∈ r.parts, IsPlaced x) : IsPlaced r

namespace Record

variable {r : Record}

/-- The records inside a record that can be compared can be compared. -/
theorem IsComparable.parts (h : r.IsComparable) : ∀ x ∈ r.parts, x.IsComparable := by
  cases h
  assumption

/-- In a record of what is written the records inside stand in their places. -/
theorem IsWritten.isPlaced (h : r.IsWritten) : r.IsPlaced := by
  induction h with
  | mk _ _ _ places _ ih => exact .mk places ih

/-- A record of what is written can be compared. -/
theorem IsWritten.isComparable (h : r.IsWritten) : r.IsComparable := by
  have htext : ∀ {v : Value}, (∃ t, v = .text t) → v.IsData := by
    rintro _ ⟨t, rfl⟩
    exact .text t
  induction h with
  | mk name description text places _ ih =>
    exact .mk (htext name) (htext description) (htext text) places.tags ih

end Record

/-- The tree of a record of data whose records are in their places. -/
theorem Node.isMadeOf_ofRecord {r : Record} (h : r.IsComparable) (placed : r.IsPlaced)
    (language : Option Value) : (ofRecord language r).IsMadeOf Value.IsData := by
  induction placed generalizing language with
  | @mk r places _ ih =>
    have hcomparable := isComparable_ofRecord h language
    have hcore := exists_of_mem_core places language
    obtain ⟨inner, heq⟩ := ofRecord_eq language r
    rw [heq] at hcomparable hcore ⊢
    refine .mk hcomparable.values (fun tags => hcomparable.tags) (fun n hn => ?_) fun n hn => ?_
    · rw [Shape.kind_map, r.kind_shape]
      exact (hcore n hn).1
    · obtain ⟨-, x, hx, inner, rfl⟩ := hcore n hn
      exact ih x hx (h.parts x hx) inner

namespace Store

/-! ### Main statement -/

/-- Two nodes of one kind, which are no features, rules, files or directories, were built from
records of data that stand in their places, alone or inside of others. Comparing them gives an
answer: they are equal exactly if they have the same content, which for texts is to say the very
same texts, and if they differ in one place, however deep, they are unequal. -/
theorem equals_iff_sameContent {s : Store} {i j : NodeId} {r r' : Record}
    {language language' : Option Value} (hr : r.IsComparable) (hr' : r'.IsComparable)
    (placed : r.IsPlaced) (placed' : r'.IsPlaced) (hkind : r.kind = r'.kind)
    (hheld : r.kind ∉ [Kind.feature, .rule, .featureFile, .directory])
    (hi : s.Unfolds i (Node.ofRecord language r))
    (hj : s.Unfolds j (Node.ofRecord language' r')) :
    ∃ answer, s.equals i j = .ok answer
      ∧ (answer = true ↔ (Node.ofRecord language r).SameContent (fun v w => v.agrees w = true)
        (Node.ofRecord language' r'))
      ∧ (r.IsWritten → r'.IsWritten →
        (answer = true ↔ (Node.ofRecord language r).SameContent Eq (Node.ofRecord language' r')))
      ∧ ((Node.ofRecord language r).Differs (Node.ofRecord language' r') → answer = false) := by
  have ha := Node.isMadeOf_ofRecord hr placed language
  have hb := Node.isMadeOf_ofRecord hr' placed' language'
  have hkind' : (Node.ofRecord language r).kind = (Node.ofRecord language' r').kind := by
    rw [Node.kind_ofRecord, Node.kind_ofRecord, hkind]
  have hheld' : (Node.ofRecord language r).kind
      ∉ [Kind.feature, .rule, .featureFile, .directory] := by
    rwa [Node.kind_ofRecord]
  have hcomparable := Node.isComparable_ofRecord hr language
  have hcomparable' := Node.isComparable_ofRecord hr' language'
  obtain ⟨answer, hanswer⟩ := hcomparable.exists_equals hcomparable'
  have hiff : ∀ same : Value → Value → Prop,
      ((Node.ofRecord language r).equals (Node.ofRecord language' r') = .ok true
        ↔ (Node.ofRecord language r).SameContent same (Node.ofRecord language' r')) →
      (answer = true
        ↔ (Node.ofRecord language r).SameContent same (Node.ofRecord language' r')) := by
    intro same h
    rw [← h, hanswer, Except.ok.injEq]
  have hsame := hiff _ (ha.equals_iff (fun _ _ _ _ => .rfl) hb hkind' hheld')
  refine ⟨answer, (equals_of_unfolds hi hj hcomparable hcomparable').trans hanswer, hsame,
    fun hw hw' => hiff Eq ?_, fun hdiffers => ?_⟩
  · have hplain : ∀ v : Value, (v = .null ∨ ∃ t, v = .text t) → v.IsPlain := by
      rintro v (rfl | ⟨t, rfl⟩)
      · exact .null
      · exact .text t
    exact (Node.isWritten_ofRecord hw language).isMadeOf.equals_iff
      (fun v w hv hw => (hplain v hv).agrees_iff (hplain w hw))
      (Node.isWritten_ofRecord hw' language').isMadeOf hkind' hheld'
  · exact Bool.eq_false_iff.mpr fun h => hdiffers.not_sameContent (hsame.mp h)

/-- Two backgrounds that were written down with a step under which a table stands, where the only
cell of the table is different. -/
theorem equals_iff_sameContent_cell :
    let background (c : Char) : Ast.Background :=
      { heading := ⟨default, "Background".toList, [], []⟩
        steps := [⟨default, ['*'], .unknown, ['x'], [⟨default, [⟨default, [c]⟩]⟩], none⟩] }
    let first := ({} : Store).plant (Node.ofRecord none (background 'a').record)
    let second := first.2.plant (Node.ofRecord none (background 'b').record)
    second.2.equals first.1 second.1 = .ok false := by
  intro background first second
  have hwritten : ∀ c, (background c).record.IsWritten := fun c => (background c).isWritten_record
  obtain ⟨answer, hanswer, -, -, hdiffers⟩ := equals_iff_sameContent (hwritten 'a').isComparable
    (hwritten 'b').isComparable (hwritten 'a').isPlaced (hwritten 'b').isPlaced rfl (by decide)
    ((represents_plant _ {}).of_grown (grown_plant (Node.within_any _) first.2)).unfolds
    (represents_plant _ first.2).unfolds
  rw [hanswer, hdiffers]
  -- down to the cell: the first step, its table, the first row and the first cell in it
  refine .part .steps (by decide) rfl rfl 0 rfl rfl (.block rfl rfl ?_)
  refine .part .rows (by decide) rfl rfl 0 rfl rfl (.part .cells (by decide) rfl rfl 0 rfl rfl ?_)
  exact .value .value (by decide) rfl rfl (by decide)

end Store

end FeatureTree
