import FeatureTree.Proofs.Equality.Values
import FeatureTree.Proofs.Plain.Equal
import FeatureTree.Proofs.Store.Printing

/-!
# What equality goes by

Equality looks at a part of what a node holds only. Keywords, content types, languages, paths,
comments and the examples of outlines play no part in it, and neither does where a node comes from:
what is left without them is the core of a node, and two nodes are equal exactly when their cores
are. As long as what is left is data and tags are tags, two nodes can be compared, and every node
equals itself.

## Main results

* `Node.equals_core`: equality goes by the cores of nodes
* `Node.IsComparable.exists_equals`: nodes of data whose tags are tags can be compared
* `Node.IsComparable.equals_self`: a node of data whose tags are tags equals itself
-/

namespace FeatureTree

/-- A title without its keyword. -/
def Title.core (t : Title) : Title := { t with keyword := .null }

namespace Shape

variable {α β : Type}

/-- What is left of a shape without that which plays no part in equality: its keyword, content
type, language or path, its comments, and the examples of an outline. -/
def core : Shape α → Shape α
  | .docString content _ => .docString content .null
  | .step _ text block => .step .null text block
  | .background title steps => .background title.core steps
  | .scenario title tags steps => .scenario title.core tags steps
  | .outline title tags steps _ => .outline title.core tags steps []
  | .example title tags rows => .example title.core tags rows
  | .rule title tags setup tests => .rule title.core tags setup tests
  | .feature title _ tags setup tests rules => .feature title.core .null tags setup tests rules
  | .featureFile _ held _ => .featureFile .null held []
  | .directory _ featureFiles directories => .directory .null featureFiles directories
  | shape => shape

/-- What is compared of a shape is of its kind. -/
@[simp] theorem kind_core (s : Shape α) : s.core.kind = s.kind := by cases s <;> rfl

/-- What is compared of a shape with changed parts is what is compared of it, with changed parts. -/
theorem core_map (f : α → β) (s : Shape α) : (s.map f).core = s.core.map f := by
  cases s <;> rfl

/-- The parts that are compared are parts. -/
theorem mem_parts_of_mem_parts_core {s : Shape α} {a : α} (h : a ∈ s.core.parts) :
    a ∈ s.parts := by
  cases s <;> simp_all only [core, parts, children, List.mem_append, List.append_nil, true_or]

/-- All tags are compared. -/
theorem list?_core_tags (s : Shape α) : s.core.list? .tags = s.list? .tags := by cases s <;> rfl

end Shape

namespace Compared

variable {α β γ δ : Type} {equal : Value → Value → Except Fault Bool}

/-- Replaces the parts that are compared. -/
def map (f : α → β) (a : Compared α) : Compared β where
  name := a.name
  text := a.text
  description := a.description
  tagNames := a.tagNames
  steps := List.map f <$> a.steps
  rows := List.map f <$> a.rows
  children := List.map f <$> a.children

/-- Lists with changed members agree as the lists do under a relation of the changed members. -/
theorem agree_map (same : β → δ → Except Fault Bool) (f : α → β) (g : γ → δ) (as : List α)
    (bs : List γ) :
    agree same (as.map f) (bs.map g) = agree (fun a b => same (f a) (g b)) as bs := by
  have heach : ∀ (as : List α) (bs : List γ), agreeEach same (as.map f) (bs.map g)
      = agreeEach (fun a b => same (f a) (g b)) as bs := by
    intro as
    induction as with
    | nil => intro bs; cases bs <;> rfl
    | cons a as ih =>
      rintro (_ | ⟨b, bs⟩)
      · rfl
      · simp only [List.map_cons, agreeEach, ih]
  simp only [agree, List.length_map, heach]

/-- Parts can be replaced before they are compared or while they are. -/
theorem agreeIn_map (same : β → δ → Except Fault Bool) (f : α → β) (g : γ → δ) (a : Compared α)
    (b : Compared γ) (c : Capability) :
    agreeIn equal same (a.map f) (b.map g) c
      = agreeIn equal (fun x y => same (f x) (g y)) a b c := by
  have hlists : ∀ (x : Except Fault (List α)) (y : Except Fault (List γ)),
      (do agree same (← List.map f <$> x) (← List.map g <$> y))
        = (do
          agree (fun x y => same (f x) (g y)) (← x) (← y)) := by
    rintro (_ | as) (_ | bs) <;> first
      | rfl
      | exact agree_map same f g as bs
  cases c <;> first
    | rfl
    | exact hlists _ _

/-- Lists agree in the same way under relations that say the same of their members. -/
theorem agree_congr {same same' : α → β → Except Fault Bool} {as : List α} {bs : List β}
    (h : ∀ a ∈ as, ∀ b ∈ bs, same a b = same' a b) : agree same as bs = agree same' as bs := by
  have heach : agreeEach same as bs = agreeEach same' as bs := by
    induction as generalizing bs with
    | nil => cases bs <;> rfl
    | cons a as ih =>
      cases bs with
      | nil => rfl
      | cons b bs =>
        rw [agreeEach, agreeEach, h a (by simp) b (by simp),
          ih fun a' ha b' hb => h a' (by simp [ha]) b' (by simp [hb])]
  simp only [agree, heach]

/-- Two things agree in all capabilities in the same way if they do in each. -/
theorem agreeInAll_congr {equal' : Value → Value → Except Fault Bool}
    {same : α → β → Except Fault Bool} {same' : γ → δ → Except Fault Bool} {a : Compared α}
    {b : Compared β} {a' : Compared γ} {b' : Compared δ} {cs : List Capability}
    (h : ∀ c ∈ cs, agreeIn equal same a b c = agreeIn equal' same' a' b' c) :
    agreeInAll equal same a b cs = agreeInAll equal' same' a' b' cs := by
  have hall : ∀ cs : List Capability,
      (∀ c ∈ cs, agreeIn equal same a b c = agreeIn equal' same' a' b' c) →
      cs.allM (agreeIn equal same a b) = cs.allM (agreeIn equal' same' a' b') := by
    intro cs
    induction cs with
    | nil => exact fun _ => rfl
    | cons c cs ih =>
      intro h
      rw [List.forall_mem_cons] at h
      rw [List.allM, List.allM, h.1, ih h.2]
  cases cs with
  | nil => rfl
  | cons c cs => exact hall (c :: cs) h

/-- Nodes of one kind agree if they agree in all that the kind has. -/
theorem agreeInAll_of_agreeIn {same : α → β → Except Fault Bool} {a : Compared α} {b : Compared β}
    {k : Kind} (h : ∀ c ∈ Capability.ofKind k, agreeIn equal same a b c = .ok true) :
    agreeInAll equal same a b (Capability.shared k k) = .ok true := by
  have hshared : Capability.shared k k = Capability.ofKind k := by cases k <;> rfl
  have hall : ∀ cs : List Capability, (∀ c ∈ cs, agreeIn equal same a b c = .ok true) →
      cs.allM (agreeIn equal same a b) = .ok true := by
    intro cs
    induction cs with
    | nil => exact fun _ => rfl
    | cons c cs ih =>
      intro h
      rw [List.forall_mem_cons] at h
      rw [List.allM, h.1]
      exact ih h.2
  rw [hshared]
  cases hcs : Capability.ofKind k with
  | nil => exact absurd (hshared.trans hcs) (Capability.shared_self_ne_nil k)
  | cons c cs => exact hall (c :: cs) (hcs ▸ h)

/-- Two lists can be compared if their members can. -/
theorem exists_agree {same : α → β → Except Fault Bool} {as : List α} {bs : List β}
    (h : ∀ a ∈ as, ∀ b ∈ bs, ∃ answer, same a b = .ok answer) :
    ∃ answer, agree same as bs = .ok answer := by
  have heach : ∃ answer, agreeEach same as bs = .ok answer := by
    induction as generalizing bs with
    | nil => cases bs <;> exact ⟨_, rfl⟩
    | cons a as ih =>
      cases bs with
      | nil => exact ⟨_, rfl⟩
      | cons b bs =>
        obtain ⟨answer, hanswer⟩ := h a (by simp) b (by simp)
        rw [agreeEach, hanswer]
        cases answer with
        | false => exact ⟨_, rfl⟩
        | true => exact ih fun a ha b hb => h a (by simp [ha]) b (by simp [hb])
  rw [agree]
  split
  · exact heach
  · exact ⟨_, rfl⟩

/-- Two things can be compared in all capabilities if they can in each. -/
theorem exists_agreeInAll {same : α → β → Except Fault Bool} {a : Compared α} {b : Compared β}
    {cs : List Capability} (h : ∀ c ∈ cs, ∃ answer, agreeIn equal same a b c = .ok answer) :
    ∃ answer, agreeInAll equal same a b cs = .ok answer := by
  have hall : ∀ cs : List Capability, (∀ c ∈ cs, ∃ answer, agreeIn equal same a b c = .ok answer) →
      ∃ answer, cs.allM (agreeIn equal same a b) = .ok answer := by
    intro cs
    induction cs with
    | nil => exact fun _ => ⟨_, rfl⟩
    | cons c cs ih =>
      intro h
      rw [List.forall_mem_cons] at h
      obtain ⟨⟨answer, hanswer⟩, h⟩ := h
      rw [List.allM, hanswer]
      cases answer with
      | false => exact ⟨_, rfl⟩
      | true => exact ih h
  cases cs with
  | nil => exact ⟨_, rfl⟩
  | cons c cs => exact hall (c :: cs) h

end Compared

namespace Shape

variable {α β : Type}

/-- Changing the parts of a shape leaves its text alone. -/
theorem textValue?_map (f : α → β) (s : Shape α) : (s.map f).textValue? = s.textValue? := by
  cases s <;> rfl

/-- What is compared of a shape after its parts were replaced. -/
theorem compared_map (nameOf : β → Except Fault Value) (f : α → β) (s : Shape α) :
    (s.map f).compared nameOf = (s.compared fun a => nameOf (f a)).map f := by
  have hlist : ∀ field, Fault.ofOption ((s.map f).list? field)
      = List.map f <$> Fault.ofOption (s.list? field) := by
    intro field
    rw [list?_map]
    cases s.list? field <;> rfl
  simp only [compared, Compared.map, ask_map, textValue?_map, hlist, children_map]
  congr 1
  cases s.list? .tags with
  | none => rfl
  | some tags =>
    simp only [Fault.ofOption, bind, Except.bind, Functor.map, Except.map]
    rw [List.mapM_map]
    rfl

/-- No parts are compared but those of the shapes. -/
theorem agreeIn_congr {equal : Value → Value → Except Fault Bool}
    {same same' : α → β → Except Fault Bool} {nameOf : α → Except Fault Value}
    {nameOf' : β → Except Fault Value} {s : Shape α} {t : Shape β}
    (h : ∀ a ∈ s.parts, ∀ b ∈ t.parts, same a b = same' a b) (c : Capability) :
    Compared.agreeIn equal same (s.compared nameOf) (t.compared nameOf') c
      = Compared.agreeIn equal same' (s.compared nameOf) (t.compared nameOf') c := by
  have hlist : ∀ field,
      (do
        let as ← Fault.ofOption (s.list? field)
        let bs ← Fault.ofOption (t.list? field)
        Compared.agree same as bs)
      = (do
        let as ← Fault.ofOption (s.list? field)
        let bs ← Fault.ofOption (t.list? field)
        Compared.agree same' as bs) := by
    intro field
    cases hs : s.list? field with
    | none => rfl
    | some as =>
      cases ht : t.list? field with
      | none => rfl
      | some bs =>
        exact Compared.agree_congr fun a ha b hb =>
          h a (mem_parts_of_list? hs ha) b (mem_parts_of_list? ht hb)
  cases c with
  | stepped | tableHolder => exact hlist _
  | containing =>
    exact Compared.agree_congr fun a ha b hb =>
      h a (mem_parts_of_mem_children ha) b (mem_parts_of_mem_children hb)
  | _ => rfl

/-- Of what is asked of parts, only the names of tags are compared. -/
theorem compared_congr {nameOf nameOf' : α → Except Fault Value} {s : Shape α}
    (h : ∀ tags, s.list? .tags = some tags → ∀ t ∈ tags, nameOf t = nameOf' t) :
    s.compared nameOf = s.compared nameOf' := by
  simp only [compared]
  congr 1
  cases ht : s.list? .tags with
  | none => rfl
  | some tags => simp only [Fault.ofOption, bind, Except.bind, mapM_congr (h tags ht)]

/-- Of a shape nothing is compared but its core. -/
theorem agreeIn_core {equal : Value → Value → Except Fault Bool} {same : α → β → Except Fault Bool}
    {nameOf : α → Except Fault Value} {nameOf' : β → Except Fault Value} {s : Shape α}
    {t : Shape β} {c : Capability} (hc : c ∈ Capability.shared s.kind t.kind) :
    Compared.agreeIn equal same (s.core.compared nameOf) (t.core.compared nameOf') c
      = Compared.agreeIn equal same (s.compared nameOf) (t.compared nameOf') c := by
  simp only [Capability.shared, List.mem_filter, Bool.and_eq_true, List.contains_iff_mem] at hc
  obtain ⟨-, hs, ht⟩ := hc
  have hleft : ∀ b : Compared β, Compared.agreeIn equal same (s.core.compared nameOf) b c
      = Compared.agreeIn equal same (s.compared nameOf) b c := by
    intro b
    cases s <;> cases c <;> first
      | rfl
      | simp [kind, Capability.ofKind] at hs
  have hright : ∀ a : Compared α, Compared.agreeIn equal same a (t.core.compared nameOf') c
      = Compared.agreeIn equal same a (t.compared nameOf') c := by
    intro a
    cases t <;> cases c <;> first
      | rfl
      | simp [kind, Capability.ofKind] at ht
  rw [hleft, hright]

/-- The values in which a kind can be compared are there, and belong to the core. -/
theorem exists_value (nameOf : α → Except Fault Value) {s : Shape α} {c : Capability}
    (hc : c ∈ Capability.ofKind s.kind) :
    (c = .named → ∃ v ∈ s.core.values, (s.compared nameOf).name = .ok v)
      ∧ (c = .textual → ∃ v ∈ s.core.values, (s.compared nameOf).text = .ok v)
      ∧ (c = .described → ∃ v ∈ s.core.values, (s.compared nameOf).description = .ok v) := by
  refine ⟨?_, ?_, ?_⟩ <;> rintro rfl <;> cases s <;> simp [kind, Capability.ofKind] at hc <;>
    exact ⟨_, by simp [core, Shape.values, Title.core, Title.values], rfl⟩

/-- The parts in which a kind can be compared are there, and belong to the core. -/
theorem exists_parts (nameOf : α → Except Fault Value) {s : Shape α} {c : Capability}
    (hc : c ∈ Capability.ofKind s.kind) :
    (c = .stepped → ∃ as, (∀ a ∈ as, a ∈ s.core.parts) ∧ (s.compared nameOf).steps = .ok as)
      ∧ (c = .tableHolder → ∃ as, (∀ a ∈ as, a ∈ s.core.parts)
        ∧ (s.compared nameOf).rows = .ok as)
      ∧ (c = .containing → ∃ as, (∀ a ∈ as, a ∈ s.core.parts)
        ∧ (s.compared nameOf).children = .ok as) := by
  refine ⟨?_, ?_, ?_⟩ <;> rintro rfl <;> cases s <;> simp [kind, Capability.ofKind] at hc <;>
    exact ⟨_, fun a ha => by simp_all [core, Shape.parts, children], rfl⟩

/-- What can be compared by its tags has tags. -/
theorem exists_tagNames {nameOf : α → Except Fault Value} {s : Shape α}
    (names : ∀ tags, s.list? .tags = some tags → ∃ names, tags.mapM nameOf = .ok names
      ∧ ∀ v ∈ names, v.IsData) (hc : .tagged ∈ Capability.ofKind s.kind) :
    ∃ names, (∀ v ∈ names, v.IsData) ∧ (s.compared nameOf).tagNames = .ok (.list names) := by
  obtain ⟨tags, ht⟩ : ∃ tags, s.list? .tags = some tags := by
    cases s <;> simp [kind, Capability.ofKind] at hc <;> exact ⟨_, rfl⟩
  obtain ⟨ns, hns, hdata⟩ := names tags ht
  refine ⟨ns, hdata, ?_⟩
  simp only [compared, ht, Fault.ofOption, bind, Except.bind, hns]
  rfl

/-- A shape agrees with itself in all that it can be compared in. -/
theorem agreeIn_self {same : α → α → Except Fault Bool} {nameOf : α → Except Fault Value}
    {s : Shape α} (values : ∀ v ∈ s.core.values, v.IsData)
    (names : ∀ tags, s.list? .tags = some tags → ∃ names, tags.mapM nameOf = .ok names
      ∧ ∀ v ∈ names, v.IsData)
    (parts : ∀ a ∈ s.core.parts, same a a = .ok true) {c : Capability}
    (hc : c ∈ Capability.ofKind s.kind) :
    Compared.agreeIn (fun v w => .ok (v.agrees w)) same (s.compared nameOf) (s.compared nameOf) c
      = .ok true := by
  have hvalue : ∀ x : Except Fault Value, (∃ v ∈ s.core.values, x = .ok v) →
      (do
        let v ← x
        let w ← x
        (.ok (v.agrees w) : Except Fault Bool)) = .ok true := by
    rintro _ ⟨v, hv, rfl⟩
    simp [bind, Except.bind, (values v hv).agrees_self]
  have hlist : ∀ x : Except Fault (List α), (∃ as, (∀ a ∈ as, a ∈ s.core.parts) ∧ x = .ok as) →
      (do
        let as ← x
        let bs ← x
        Compared.agree same as bs) = .ok true := by
    rintro _ ⟨as, has, rfl⟩
    exact Compared.agree_of_forall₂ (List.forall₂_same.mpr fun a ha => parts a (has a ha))
  have hvalues := exists_value nameOf hc
  have hparts := exists_parts nameOf hc
  cases c with
  | named => exact hvalue _ (hvalues.1 rfl)
  | textual => exact hvalue _ (hvalues.2.1 rfl)
  | described => exact hvalue _ (hvalues.2.2 rfl)
  | tagged =>
    obtain ⟨ns, hdata, hns⟩ := exists_tagNames names hc
    simp only [Compared.agreeIn, hns, bind, Except.bind, (Value.IsData.list hdata).agrees_self]
  | stepped => exact hlist _ (hparts.1 rfl)
  | tableHolder => exact hlist _ (hparts.2.1 rfl)
  | containing => exact hlist _ (hparts.2.2 rfl)

/-- Two shapes can be compared in all that they share if their parts can be compared. -/
theorem exists_agreeIn {same : α → β → Except Fault Bool} {nameOf : α → Except Fault Value}
    {nameOf' : β → Except Fault Value} {s : Shape α} {t : Shape β}
    (names : ∀ tags, s.list? .tags = some tags → ∃ names, tags.mapM nameOf = .ok names
      ∧ ∀ v ∈ names, v.IsData)
    (names' : ∀ tags, t.list? .tags = some tags → ∃ names, tags.mapM nameOf' = .ok names
      ∧ ∀ v ∈ names, v.IsData)
    (parts : ∀ a ∈ s.core.parts, ∀ b ∈ t.core.parts, ∃ answer, same a b = .ok answer)
    {c : Capability} (hc : c ∈ Capability.shared s.kind t.kind) :
    ∃ answer, Compared.agreeIn (fun v w => .ok (v.agrees w)) same (s.compared nameOf)
      (t.compared nameOf') c = .ok answer := by
  simp only [Capability.shared, List.mem_filter, Bool.and_eq_true, List.contains_iff_mem] at hc
  obtain ⟨-, hs, ht⟩ := hc
  have hvalue : ∀ x y : Except Fault Value, (∃ v ∈ s.core.values, x = .ok v) →
      (∃ w ∈ t.core.values, y = .ok w) → ∃ answer, (do
        let v ← x
        let w ← y
        (.ok (v.agrees w) : Except Fault Bool)) = .ok answer := by
    rintro _ _ ⟨v, -, rfl⟩ ⟨w, -, rfl⟩
    exact ⟨_, rfl⟩
  have hlist : ∀ (x : Except Fault (List α)) (y : Except Fault (List β)),
      (∃ as, (∀ a ∈ as, a ∈ s.core.parts) ∧ x = .ok as) →
      (∃ bs, (∀ b ∈ bs, b ∈ t.core.parts) ∧ y = .ok bs) → ∃ answer, (do
        let as ← x
        let bs ← y
        Compared.agree same as bs) = .ok answer := by
    rintro _ _ ⟨as, has, rfl⟩ ⟨bs, hbs, rfl⟩
    exact Compared.exists_agree fun a ha b hb => parts a (has a ha) b (hbs b hb)
  have hvalues := exists_value nameOf hs
  have hvalues' := exists_value nameOf' ht
  have hparts := exists_parts nameOf hs
  have hparts' := exists_parts nameOf' ht
  cases c with
  | named => exact hvalue _ _ (hvalues.1 rfl) (hvalues'.1 rfl)
  | textual => exact hvalue _ _ (hvalues.2.1 rfl) (hvalues'.2.1 rfl)
  | described => exact hvalue _ _ (hvalues.2.2 rfl) (hvalues'.2.2 rfl)
  | tagged =>
    obtain ⟨ns, -, hns⟩ := exists_tagNames names hs
    obtain ⟨ms, -, hms⟩ := exists_tagNames names' ht
    simp only [Compared.agreeIn, hns, hms, bind, Except.bind]
    exact ⟨_, rfl⟩
  | stepped => exact hlist _ _ (hparts.1 rfl) (hparts'.1 rfl)
  | tableHolder => exact hlist _ _ (hparts.2.1 rfl) (hparts'.2.1 rfl)
  | containing => exact hlist _ _ (hparts.2.2 rfl) (hparts'.2.2 rfl)

end Shape

namespace Node

/-- Equality of two nodes in terms of the equality of their parts, read off both in the same way. -/
theorem equals_def (n m : Node) :
    n.equals m = Compared.agreeInAll (fun v w => .ok (v.agrees w)) equals
      (n.shape.compared nameOf) (m.shape.compared nameOf) (Capability.shared n.kind m.kind) := by
  rw [equals_eq, agreesWith, Shape.kind_map, Shape.compared_map, ← Node.kind]
  refine Compared.agreeInAll_congr fun c _ => ?_
  have hid : (m.shape.compared nameOf).map id = m.shape.compared nameOf := by
    simp [Compared.map]
  rw [← hid, Compared.agreeIn_map, hid]
  rfl

/-- A node without that which plays no part in equality, at all depths. -/
def core : Node → Node := fold fun _ shape => .mk {} (shape.core.map (·.2))

/-- What is compared of a node is what is compared of its shape and its parts, without the
origin. -/
theorem core_mk (o : Origin) (s : Shape Node) : (Node.mk o s).core = .mk {} (s.core.map core) := by
  rw [core, fold_mk, Shape.core_map, Shape.map_map]

/-- The shape of what is compared of a node is that of the node, without what is not compared. -/
theorem shape_core (n : Node) : n.core.shape = n.shape.core.map core := by
  obtain ⟨o, s⟩ := n
  rw [core_mk]
  rfl

/-- What is compared of a node is of its kind. -/
theorem kind_core (n : Node) : n.core.kind = n.kind := by
  rw [Node.kind, shape_core, Shape.kind_map, Shape.kind_core, Node.kind]

/-- What is compared of a node is data, and the tags that are compared are tags. -/
inductive IsComparable : Node → Prop where
  | mk {o : Origin} {s : Shape Node} (values : ∀ v ∈ s.core.values, v.IsData)
      (tags : ∀ tags, s.list? .tags = some tags → ∀ t ∈ tags, t.kind = .tag)
      (parts : ∀ n ∈ s.core.parts, IsComparable n) : IsComparable (.mk o s)

namespace IsComparable

variable {n : Node}

/-- The values that are compared are data. -/
theorem values (h : n.IsComparable) : ∀ v ∈ n.shape.core.values, v.IsData := by
  cases h
  assumption

/-- The tags of a node that can be compared are tags. -/
theorem tags (h : n.IsComparable) {tags : List Node} (ht : n.shape.list? .tags = some tags) :
    ∀ t ∈ tags, t.kind = .tag := by
  cases h with
  | mk _ htags _ => exact htags tags ht

/-- The parts that are compared can be compared. -/
theorem parts (h : n.IsComparable) : ∀ m ∈ n.shape.core.parts, m.IsComparable := by
  cases h
  assumption

end IsComparable

/-- Whether a node can be compared depends on its core only. -/
theorem IsComparable.of_core_eq {n m : Node} (hn : n.IsComparable) (h : m.core = n.core) :
    m.IsComparable := by
  induction hn generalizing m with
  | @mk o s values tags parts ih =>
    obtain ⟨o', t⟩ := m
    have hshape : t.core.map core = s.core.map core := by
      rw [core_mk, core_mk] at h
      exact (Node.mk.inj h).2
    refine .mk ?_ (fun ts ht x hx => ?_) fun x hx => ?_
    · rw [← Shape.values_map (f := core), hshape, Shape.values_map]
      exact values
    · have htags : (s.core.list? .tags).map (List.map core) = some (ts.map core) := by
        rw [← Shape.list?_map, ← hshape, Shape.list?_map, Shape.list?_core_tags, ht]
        rfl
      obtain ⟨us, hus, heq⟩ := Option.map_eq_some_iff.mp htags
      obtain ⟨u, hu, hux⟩ := List.mem_map.mp (heq ▸ List.mem_map_of_mem hx : x.core ∈ us.map core)
      rw [← kind_core x, ← hux, kind_core]
      exact tags us (Shape.list?_core_tags s ▸ hus) u hu
    · have hmem : x.core ∈ (s.core.map core).parts := by
        rw [← hshape, Shape.parts_map]
        exact List.mem_map_of_mem hx
      rw [Shape.parts_map] at hmem
      obtain ⟨y, hy, hyx⟩ := List.mem_map.mp hmem
      exact ih y hy hyx.symm

/-- A tag is compared by its name. -/
theorem nameOf_core {n : Node} (h : n.kind = .tag) : n.core.nameOf = n.nameOf := by
  obtain ⟨o, s⟩ := n
  rw [nameOf, shape_core]
  cases s <;> first
    | rfl
    | cases h

/-- Equality goes by the cores of nodes. -/
theorem equals_core {n m : Node} (hn : n.IsComparable) (hm : m.IsComparable) :
    n.core.equals m.core = n.equals m := by
  induction hn generalizing m with
  | @mk o s _ htags _ ih =>
    obtain ⟨o', t⟩ := m
    rw [equals_def, equals_def, kind_core, kind_core, shape_core, shape_core]
    refine Compared.agreeInAll_congr fun c hc => ?_
    have hnames : ∀ {s : Shape Node},
        (∀ tags, s.list? .tags = some tags → ∀ t ∈ tags, t.kind = .tag) →
        s.core.compared (fun n => n.core.nameOf) = s.core.compared nameOf := fun h =>
      Shape.compared_congr fun tags ht t hmem =>
        nameOf_core (h tags (Shape.list?_core_tags _ ▸ ht) t hmem)
    rw [Shape.compared_map, Shape.compared_map, Compared.agreeIn_map, ← Shape.agreeIn_core hc]
    exact (hnames htags) ▸ (hnames fun tags => hm.tags) ▸
      Shape.agreeIn_congr (fun a ha b hb => ih a ha (hm.parts b hb)) c

/-- Tags have names, which are data. -/
theorem IsComparable.exists_tagNames {ts : List Node}
    (h : ∀ t ∈ ts, t.kind = .tag ∧ t.IsComparable) :
    ∃ names, ts.mapM nameOf = .ok names ∧ ∀ v ∈ names, v.IsData := by
  induction ts with
  | nil => exact ⟨[], rfl, by simp⟩
  | cons t ts ih =>
    rw [List.forall_mem_cons] at h
    obtain ⟨names, hnames, hdata⟩ := ih h.2
    obtain ⟨⟨hkind, hcomparable⟩, -⟩ := h
    obtain ⟨name, hname⟩ : ∃ name, t.shape = .tag name := by
      obtain ⟨o, s⟩ := t
      cases s <;> first
        | exact ⟨_, rfl⟩
        | cases hkind
    have hvalues := hcomparable.values
    rw [hname] at hvalues
    refine ⟨name :: names, ?_, List.forall_mem_cons.mpr ⟨hvalues name (by simp [Shape.core,
      Shape.values]), hdata⟩⟩
    rw [List.mapM_cons, hnames, nameOf, hname]
    rfl

/-- The tags of a node that can be compared have names, which are data. -/
theorem IsComparable.names {n : Node} (h : n.IsComparable) (tags : List Node)
    (ht : n.shape.list? .tags = some tags) :
    ∃ names, tags.mapM nameOf = .ok names ∧ ∀ v ∈ names, v.IsData :=
  exists_tagNames fun t hmem => ⟨h.tags ht t hmem,
    h.parts t (Shape.mem_parts_of_list? ((Shape.list?_core_tags n.shape).trans ht) hmem)⟩

/-- Nodes of data whose tags are tags can be compared. -/
theorem IsComparable.exists_equals {n m : Node} (hn : n.IsComparable) (hm : m.IsComparable) :
    ∃ answer, n.equals m = .ok answer := by
  have hnames := hn.names
  induction hn generalizing m with
  | @mk o s values tags parts ih =>
    rw [equals_def]
    exact Compared.exists_agreeInAll fun c hc => Shape.exists_agreeIn hnames hm.names
      (fun a ha b hb => ih a ha (hm.parts b hb) (parts a ha).names) hc

/-- A node of data whose tags are tags equals itself. -/
theorem IsComparable.equals_self {n : Node} (hn : n.IsComparable) : n.equals n = .ok true := by
  have hnames := hn.names
  induction hn with
  | @mk o s values tags parts ih =>
    rw [equals_def]
    exact Compared.agreeInAll_of_agreeIn fun c hc =>
      Shape.agreeIn_self values hnames (fun a ha => ih a ha (parts a ha).names) hc

end Node

end FeatureTree
