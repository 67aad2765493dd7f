import FeatureTree.Proofs.Equality.Symmetry
import FeatureTree.Proofs.Schema.Bare

/-!
# Equality of trees

Nodes of a store that unfold to trees are equal exactly when the trees are, as long as what is
compared is data and tags are tags: a node that is compared with itself counts as equal at once, and
its tree is equal to itself anyway. So what holds of the equality of trees holds of nodes that
programs have in hand, which share parts, are attached here or there, and come from anywhere.

## Main results

* `Store.equals_of_unfolds`: nodes are compared as their trees are
* `Node.isComparable_ofRecord`: the tree of a record of data can be compared
* `Store.equals_symmetric_reflexive`: equality is symmetric, and nodes that were built from one
  record are equal
* `Store.equals_of_core_eq`: what is not in the core of a node plays no part in equality
-/

namespace FeatureTree

namespace Shape

variable {α β : Type} {equal equal' : Value → Value → Except Fault Bool}
  {same : α → β → Except Fault Bool} {nameOf : α → Except Fault Value} {s : Shape α}

/-- Of a shape that holds data, nothing but data and parts is compared. -/
theorem agreeIn_congr_data (hequal : ∀ v w : Value, v.IsData → equal v w = equal' v w)
    (hs : ∀ v ∈ s.core.values, v.IsData)
    (hnames : ∀ tags, s.list? .tags = some tags → ∀ a ∈ tags, ∀ v, nameOf a = .ok v → v.IsData)
    (b : Compared β) {c : Capability} (hc : c ∈ Capability.ofKind s.kind) :
    Compared.agreeIn equal same (s.compared nameOf) b c
      = Compared.agreeIn equal' same (s.compared nameOf) b c := by
  have hbind : ∀ {x y : Except Fault Value}, (∀ v, x = .ok v → v.IsData) →
      (do
        let v ← x
        let w ← y
        equal v w)
      = (do
        let v ← x
        let w ← y
        equal' v w) := by
    rintro (_ | v) (_ | w) h <;> first
      | rfl
      | exact hequal v w (h v rfl)
  have hvalues := mem_values_of_compared nameOf hc
  cases c with
  | named => exact hbind fun v hv => hs v (hvalues.1 rfl v hv)
  | textual => exact hbind fun v hv => hs v (hvalues.2.1 rfl v hv)
  | described => exact hbind fun v hv => hs v (hvalues.2.2 rfl v hv)
  | tagged => exact hbind fun v hv => isData_of_tagNames hnames hv
  | stepped | tableHolder | containing => rfl

end Shape

namespace Store

variable {s t : Store} {i j : NodeId} {a b : Node}

/-- All trees to which a node unfolds have the same core. -/
theorem Unfolds.core_eq (h : s.Unfolds i a) (h' : s.Unfolds i b) : a.core = b.core := by
  induction h generalizing b with
  | @mk i e o pairs entry plain shape parts ih =>
    cases h' with
    | @mk _ e' o' pairs' entry' plain' shape' parts' =>
      obtain rfl := Option.some.inj (entry.symm.trans entry')
      obtain ⟨coreOf, hcore⟩ : ∃ coreOf : NodeId → Node, ∀ x ∈ pairs.parts, ∀ m,
          s.Unfolds x.1 m → m.core = coreOf x.1 := by
        classical
        refine ⟨fun c => if h : ∃ m, s.Unfolds c m then h.choose.core else .mk {} (.row []),
          fun x hx m hm => ?_⟩
        have hex : ∃ m, s.Unfolds x.1 m := ⟨m, hm⟩
        simp only [dif_pos hex, ← ih x hx hm, ih x hx hex.choose_spec]
      have hleft : pairs.core.map (fun x => x.2.core) = e.shape.core.map coreOf := by
        rw [shape, Shape.core_map, Shape.map_map]
        refine Shape.map_congr fun x hx => ?_
        have hx := Shape.mem_parts_of_mem_parts_core hx
        exact hcore x hx _ (parts x hx)
      have hright : pairs'.core.map (fun x => x.2.core) = e.shape.core.map coreOf := by
        rw [shape', Shape.core_map, Shape.map_map]
        refine Shape.map_congr fun y hy => ?_
        have hy := Shape.mem_parts_of_mem_parts_core hy
        have hlisted : y.1 ∈ (pairs.map Prod.fst).parts := by
          rw [← shape, shape', Shape.parts_map]
          exact List.mem_map_of_mem hy
        rw [Shape.parts_map] at hlisted
        obtain ⟨x, hx, hxy⟩ := List.mem_map.mp hlisted
        rw [← hxy]
        exact hcore x hx _ (hxy ▸ parts' y hy)
      rw [Node.core_mk, Node.core_mk, Shape.core_map, Shape.core_map, Shape.map_map, Shape.map_map,
        hleft, hright]

/-- On a budget of as many levels as a tree has, nodes are compared as their trees are. -/
theorem equalsWithin_of_unfolds (n : Nat) (hn : a.height ≤ n) (hi : s.Unfolds i a)
    (hj : s.Unfolds j b) (ha : a.IsComparable) (hb : b.IsComparable) :
    s.equalsWithin n i j = a.equals b := by
  induction n generalizing i j a b with
  | zero =>
    have := a.height_pos
    omega
  | succ n ih =>
    by_cases hij : i = j
    · subst hij
      have hself : a.equals b = .ok true := by
        rw [← Node.equals_core ha hb, ← hi.core_eq hj, Node.equals_core ha ha, ha.equals_self]
      rw [hself, equalsWithin, if_pos rfl]
      rfl
    · obtain ⟨-, -, -, hvalues, hparts⟩ := hi.exists_entry ha.holdsData
      cases hi with
      | @mk _ e o pairs entry plain shape parts =>
      cases hj with
      | @mk _ f o' pairs' entry' plain' shape' parts' =>
      have hsnd : ∀ {o : Origin} {pairs : Shape (NodeId × Node)},
          (Node.mk o (pairs.map Prod.snd)).IsComparable →
          ∀ x ∈ pairs.core.parts, x.2.IsComparable := by
        intro o pairs h x hx
        refine h.parts x.2 ?_
        rw [Node.shape, Shape.core_map, Shape.parts_map]
        exact List.mem_map_of_mem hx
      have hnames : ∀ {pairs : Shape (NodeId × Node)}, (∀ x ∈ pairs.parts, s.Unfolds x.1 x.2) →
          pairs.compared (fun x => s.ask (.node x.1) (.text .name))
            = pairs.compared fun x => x.2.nameOf := fun h =>
        Shape.compared_congr fun tags ht x hx => (h x (Shape.mem_parts_of_list? ht hx)).ask_name
      have hsame : ∀ x ∈ pairs.core.parts, ∀ y ∈ pairs'.core.parts,
          s.equalsWithin n x.1 y.1 = x.2.equals y.2 := by
        intro x hx y hy
        have hmem := Shape.mem_parts_of_mem_parts_core hx
        refine ih ?_ (parts x hmem) (parts' y (Shape.mem_parts_of_mem_parts_core hy))
          (hsnd ha x hx) (hsnd hb y hy)
        have hlt := Node.height_lt (n := .mk o (pairs.map Prod.snd)) (m := x.2) (by
          rw [Node.shape, Shape.parts_map]
          exact List.mem_map_of_mem hmem)
        omega
      have hdata : ∀ v ∈ pairs.core.values, v.IsData := by
        have := ha.values
        rwa [Node.shape, Shape.core_map, Shape.values_map] at this
      have htags : ∀ tags, pairs.list? .tags = some tags → ∀ x ∈ tags, ∀ v,
          x.2.nameOf = .ok v → v.IsData := by
        intro tags ht x hx v hv
        refine (hsnd ha x ?_).holdsData.isData_nameOf hv
        exact Shape.mem_parts_of_list? ((Shape.list?_core_tags pairs).trans ht) hx
      rw [equalsWithin_of_plain entry plain entry' plain' hij, Node.equals_def, shape, shape',
        Node.kind, Node.kind, Node.shape, Node.shape, Shape.kind_map, Shape.kind_map,
        Shape.kind_map, Shape.kind_map, Shape.compared_map, Shape.compared_map,
        Shape.compared_map, Shape.compared_map, hnames parts, hnames parts']
      refine Compared.agreeInAll_congr fun c hc => ?_
      have hown : c ∈ Capability.ofKind pairs.kind := by
        simp only [Capability.shared, List.mem_filter, Bool.and_eq_true,
          List.contains_iff_mem] at hc
        exact hc.2.1
      rw [Compared.agreeIn_map, Compared.agreeIn_map,
        Shape.agreeIn_congr_data (fun v w hv => hv.agreesBy_eq w) hdata htags _ hown,
        ← Shape.agreeIn_core hc, ← Shape.agreeIn_core hc, Shape.agreeIn_congr hsame]
      rfl

/-- Nodes are compared as their trees are. -/
theorem equals_of_unfolds (hi : s.Unfolds i a) (hj : s.Unfolds j b) (ha : a.IsComparable)
    (hb : b.IsComparable) : s.equals i j = a.equals b := by
  refine equalsWithin_of_unfolds _ ?_ hi hj ha hb
  have hheight := hi.spans.height_le
  have hsize := Nat.le_mul_self s.size
  omega

end Store

/-! ### Records -/

/-- What can be compared of a record is data, and its tags are tags. So it is where all fields hold
texts, as they are meant to, and also numbers, lists and tables of them; what is left out are
numbers that do not equal themselves, and nodes in the place of data. -/
inductive Record.IsComparable : Record → Prop where
  | mk {r : Record} (name : r.name.IsData) (description : r.description.IsData)
      (text : r.text.IsData) (tags : ∀ t ∈ r.tags, t.kind = .tag)
      (parts : ∀ x ∈ r.parts, IsComparable x) : IsComparable r

/-- What can be compared of the record of a document is data, and its tags are tags. -/
def DocumentRecord.IsComparable (d : DocumentRecord) : Prop := ∀ r ∈ d.feature, r.IsComparable

namespace Node

/-- The normal form of a description is data if the description is. -/
theorem isData_normalDescription {v : Value} (h : v.IsData) : (normalDescription v).IsData := by
  cases v with
  | text t => exact .text _
  | _ => exact h

/-- The values of a record's node are data if those of the record are. -/
theorem isData_values_ofRecord {r : Record} (name : r.name.IsData)
    (description : r.description.IsData) (text : r.text.IsData) (language : Option Value) :
    ∀ v ∈ (ofRecord language r).shape.core.values, v.IsData := by
  have hnormal := isData_normalDescription description
  have hnull := Value.IsData.null
  cases r with
  | mk kind =>
    simp only at name description text hnormal
    cases kind <;>
      simp only [ofRecord, shape, Shape.core, Shape.values, Title.core, Title.values,
        List.forall_mem_cons, List.not_mem_nil, *, and_true, IsEmpty.forall_iff, implies_true]

/-- The tree of a record that can be compared can be compared. -/
theorem isComparable_ofRecord {r : Record} (h : r.IsComparable) (language : Option Value) :
    (ofRecord language r).IsComparable := by
  induction h generalizing language with
  | @mk r hname hdescription htext htags _ ih =>
    obtain ⟨kind, line, keyword, name, description, text, contentType, own, tags, children, steps,
      examples, rows, cells, block, comments, capsule⟩ := r
    have hvalues := isData_values_ofRecord hname hdescription htext language
    simp only [Record.parts, List.mem_append, Option.mem_toList] at ih
    -- the trees of each list of records, attached under whatever language
    have hrecords : ∀ l (rs : List Record), (∀ x ∈ rs, ∀ l, (ofRecord l x).IsComparable) →
        ∀ n ∈ ofRecords l rs, n.IsComparable := by
      intro l rs hrs n hn
      rw [ofRecords_eq_map] at hn
      obtain ⟨x, hx, rfl⟩ := List.mem_map.mp hn
      exact hrs x hx l
    have hkind : ∀ l, ∀ n ∈ ofRecords l tags, n.kind = .tag := by
      intro l n hn
      rw [ofRecords_eq_map] at hn
      obtain ⟨x, hx, rfl⟩ := List.mem_map.mp hn
      rw [kind_ofRecord, htags x hx]
    have htagged := fun l => hrecords l tags fun x hx => ih x (by simp [hx])
    have hchildren := fun l => hrecords l children fun x hx => ih x (by simp [hx])
    have hsteps := fun l => hrecords l steps fun x hx => ih x (by simp [hx])
    have hrows := fun l => hrecords l rows fun x hx => ih x (by simp [hx])
    have hcells := fun l => hrecords l cells fun x hx => ih x (by simp [hx])
    have hblock : ∀ l, ∀ n ∈ (ofBlock l block).toList, n.IsComparable := by
      intro l n hn
      cases block with
      | none => simp [ofBlock] at hn
      | some x =>
        obtain rfl : n = ofRecord l x := by simpa [ofBlock] using hn
        exact ih x (by simp) l
    have hkinds : ∀ l kinds, ∀ n ∈ ofKinds kinds (ofRecords l children), n.IsComparable :=
      fun l kinds n hn => hchildren l n (mem_of_mem_ofKinds hn)
    have hlast : ∀ l kinds, ∀ n ∈ (ofKinds kinds (ofRecords l children)).getLast?.toList,
        n.IsComparable :=
      fun l kinds n hn => hkinds l kinds n (List.mem_of_getLast? (Option.mem_toList.mp hn))
    have hhead : ∀ l kinds, ∀ n ∈ (ofKinds kinds (ofRecords l children)).head?.toList,
        n.IsComparable :=
      fun l kinds n hn => hkinds l kinds n (List.mem_of_head? (Option.mem_toList.mp hn))
    refine .mk hvalues
      (fun ts hts t ht => hkind (if kind = .feature then some own else language) t ?_) ?_
    · cases kind <;> simp only [Shape.list?, Option.some.injEq, reduceCtorEq] at hts <;>
        exact hts ▸ ht
    · cases kind <;>
        simp only [Shape.core, Shape.parts, Shape.children, List.forall_mem_append, List.append_nil]
      case row => exact hcells _
      case table => exact hrows _
      case step => exact hblock _
      case background => exact hsteps _
      case scenario | outline => exact ⟨htagged _, hsteps _⟩
      case «example» => exact ⟨htagged _, hrows _⟩
      case rule => exact ⟨⟨htagged _, hlast _ _⟩, hkinds _ _⟩
      case feature => exact ⟨⟨⟨htagged _, hlast _ _⟩, hkinds _ _⟩, hkinds _ _⟩
      case featureFile => exact hhead _ _
      all_goals simp

/-- What is built from a record that can be compared can be compared. -/
theorem isComparable_build {r : Record} (h : r.IsComparable) {n : Node} (hn : build r = .ok n) :
    n.IsComparable := by
  rw [build] at hn
  split at hn
  · cases hn
    exact isComparable_ofRecord h none
  · cases hn

/-- What is built from a document that can be compared can be compared. -/
theorem isComparable_buildFile {d : DocumentRecord} (h : d.IsComparable) {path : Text} {n : Node}
    (hn : buildFile path d = .ok n) : n.IsComparable := by
  rw [buildFile] at hn
  split at hn
  · cases hn
    refine .mk (by simp [Shape.core, Shape.values, Value.IsData.null]) (fun _ h => by cases h)
      fun m hm => ?_
    simp only [Shape.core, Shape.parts, List.append_nil, Option.mem_toList,
      Option.map_eq_some_iff] at hm
    obtain ⟨r, hr, rfl⟩ := hm
    exact isComparable_ofRecord (h r hr) none
  · cases hn

end Node

namespace Store

/-! ### Main statements -/

/-- What is not in the core of a node plays no part in equality: a node can be replaced by any
other, of any store, whose tree has the same core. The trees may differ in keywords, content types,
languages, paths and comments, in where their nodes come from and are attached, and in all examples
of outlines, at any depth. -/
theorem equals_of_core_eq {s t : Store} {i j i' j' : NodeId} {a b a' : Node}
    (hi : s.Unfolds i a) (hj : s.Unfolds j b) (hi' : t.Unfolds i' a') (hj' : t.Unfolds j' b)
    (ha : a.IsComparable) (hb : b.IsComparable) (hcore : a'.core = a.core) :
    (∃ answer, s.equals i j = .ok answer ∧ t.equals i' j' = .ok answer)
      ∧ ∃ answer, s.equals j i = .ok answer ∧ t.equals j' i' = .ok answer := by
  have ha' := ha.of_core_eq hcore
  have hequal : a'.equals b = a.equals b := by
    rw [← Node.equals_core ha' hb, hcore, Node.equals_core ha hb]
  have hequal' : b.equals a' = b.equals a := by
    rw [← Node.equals_core hb ha', hcore, Node.equals_core hb ha]
  obtain ⟨answer, hanswer⟩ := ha.exists_equals hb
  obtain ⟨answer', hanswer'⟩ := hb.exists_equals ha
  refine ⟨⟨answer, ?_, ?_⟩, answer', ?_, ?_⟩
  · rw [equals_of_unfolds hi hj ha hb, hanswer]
  · rw [equals_of_unfolds hi' hj' ha' hb, hequal, hanswer]
  · rw [equals_of_unfolds hj hi hb ha, hanswer']
  · rw [equals_of_unfolds hj' hi' hb ha', hequal', hanswer']

/-- An outline with examples, and the same outline under another keyword, from another line and
without examples, are compared with a scenario. -/
theorem equals_of_core_eq_outline :
    let title : Title := ⟨.text ['K'], .text ['a'], .text []⟩
    let a := Node.mk { line := .int 3 } (.outline title [] [] [.mk {} (.example title [] [])])
    let a' := Node.mk {} (.outline ⟨.null, .text ['a'], .text []⟩ [] [] [])
    let b := Node.mk {} (.scenario title [] [])
    let first := ({} : Store).plant a
    let second := first.2.plant b
    let first' := ({} : Store).plant a'
    let second' := first'.2.plant b
    ∃ answer, second.2.equals first.1 second.1 = .ok answer
      ∧ second'.2.equals first'.1 second'.1 = .ok answer := by
  intro title a a' b first second first' second'
  have hcomparable : ∀ n : Node, n.shape.core.values = [.null, .text ['a'], .text []] →
      n.shape.list? .tags = some [] → n.shape.core.parts = [] → n.IsComparable := by
    rintro ⟨o, s⟩ hvalues htags hparts
    simp only [Node.shape] at hvalues htags hparts
    refine .mk ?_ (by simp [htags]) (by simp [hparts])
    simp [hvalues, Value.IsData.null, Value.IsData.text]
  have hunfolds : ∀ n : Node, (((({} : Store).plant n).2.plant b).2.Unfolds
      (({} : Store).plant n).1 n) := fun n =>
    ((represents_plant n {}).of_grown (grown_plant b.within_any _)).unfolds
  exact (equals_of_core_eq (hunfolds a) (represents_plant b first.2).unfolds (hunfolds a')
    (represents_plant b first'.2).unfolds (hcomparable a rfl rfl rfl) (hcomparable b rfl rfl rfl)
    (by simp [a, a', title, Node.core_mk, Shape.core, Title.core, Shape.map])).1

end Store

end FeatureTree
