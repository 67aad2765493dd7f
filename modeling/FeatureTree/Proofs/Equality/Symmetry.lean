import FeatureTree.Proofs.Equality.Nodes
import FeatureTree.Store.Equality

/-!
# Equality in a store is symmetric

Two nodes of a store are compared in the same order in either direction, so as far as both hold data
an answer in one direction is the answer in the other. That needs neither that parts are where they
belong nor that a comparison comes to an end: what has no answer in one direction has none in the
other.

## Main results

* `Store.compared_of_plain`: what is compared of a node that was given nothing
* `Store.toOption_equalsWithin_comm`: on any budget, nodes of data are compared symmetrically
-/

namespace FeatureTree

/-! ### Answers -/

/-- Two computations that cannot change each other can be run in either order, but for the fault. -/
theorem toOption_bind_comm {α β γ : Type} {x : Except Fault α} {y : Except Fault β}
    {f : α → β → Except Fault γ} {g : β → α → Except Fault γ}
    (h : ∀ a b, x = .ok a → y = .ok b → (f a b).toOption = (g b a).toOption) :
    (do
      let a ← x
      let b ← y
      f a b).toOption
    = (do
      let b ← y
      let a ← x
      g b a).toOption := by
  cases x with
  | error _ => cases y <;> rfl
  | ok a =>
    cases y with
    | error _ => rfl
    | ok b => exact h a b rfl rfl

namespace Compared

variable {α β : Type} {equal equal' : Value → Value → Except Fault Bool}
  {same : α → β → Except Fault Bool} {same' : β → α → Except Fault Bool}

/-- Lists are compared symmetrically if their members are. -/
theorem toOption_agree_comm {as : List α} {bs : List β}
    (h : ∀ a ∈ as, ∀ b ∈ bs, (same a b).toOption = (same' b a).toOption) :
    (agree same as bs).toOption = (agree same' bs as).toOption := by
  have heach : (agreeEach same as bs).toOption = (agreeEach same' bs as).toOption := by
    induction as generalizing bs with
    | nil => cases bs <;> rfl
    | cons a as ih =>
      cases bs with
      | nil => rfl
      | cons b bs =>
        have hfirst := h a (by simp) b (by simp)
        have hrest := @ih bs fun a' ha b' hb => h a' (by simp [ha]) b' (by simp [hb])
        rw [agreeEach, agreeEach]
        cases hab : same a b <;> cases hba : same' b a <;> rw [hab, hba] at hfirst <;>
          simp only [Except.toOption, Option.some.injEq, reduceCtorEq] at hfirst
        · rfl
        · subst hfirst
          cases ‹Bool›
          · rfl
          · exact hrest
  by_cases hlength : as.length = bs.length
  · rw [agree, agree, if_pos hlength, if_pos hlength.symm, heach]
  · rw [agree, agree, if_neg hlength, if_neg (Ne.symm hlength)]

/-- Agreement in all capabilities can be asked in either direction if that in each can. -/
theorem toOption_agreeInAll_comm {a : Compared α} {b : Compared β} {cs : List Capability}
    (h : ∀ c ∈ cs, (agreeIn equal same a b c).toOption = (agreeIn equal' same' b a c).toOption) :
    (agreeInAll equal same a b cs).toOption = (agreeInAll equal' same' b a cs).toOption := by
  have hall : ∀ cs : List Capability,
      (∀ c ∈ cs, (agreeIn equal same a b c).toOption = (agreeIn equal' same' b a c).toOption) →
      (cs.allM (agreeIn equal same a b)).toOption
        = (cs.allM (agreeIn equal' same' b a)).toOption := by
    intro cs
    induction cs with
    | nil => exact fun _ => rfl
    | cons c cs ih =>
      intro h
      rw [List.forall_mem_cons] at h
      obtain ⟨hfirst, h⟩ := h
      rw [List.allM, List.allM]
      cases hab : agreeIn equal same a b c <;> cases hba : agreeIn equal' same' b a c <;>
        rw [hab, hba] at hfirst <;>
        simp only [Except.toOption, Option.some.injEq, reduceCtorEq] at hfirst
      · rfl
      · subst hfirst
        cases ‹Bool›
        · rfl
        · exact ih h
  cases cs with
  | nil => rfl
  | cons c cs => exact hall (c :: cs) h

end Compared

/-! ### Shapes -/

namespace Shape

variable {α β : Type} {equal equal' : Value → Value → Except Fault Bool}
  {same : α → β → Except Fault Bool} {same' : β → α → Except Fault Bool}
  {nameOf : α → Except Fault Value} {nameOf' : β → Except Fault Value} {s : Shape α} {t : Shape β}

/-- What is compared of a node of some kind besides its parts belongs to its core. -/
theorem mem_values_of_compared (nameOf : α → Except Fault Value) {c : Capability}
    (hc : c ∈ Capability.ofKind s.kind) :
    (c = .named → ∀ v, (s.compared nameOf).name = .ok v → v ∈ s.core.values)
      ∧ (c = .textual → ∀ v, (s.compared nameOf).text = .ok v → v ∈ s.core.values)
      ∧ (c = .described → ∀ v, (s.compared nameOf).description = .ok v → v ∈ s.core.values) := by
  have hmem : ∀ {x : Except Fault Value}, (∃ v ∈ s.core.values, x = .ok v) →
      ∀ v, x = .ok v → v ∈ s.core.values := by
    rintro _ ⟨v, hv, rfl⟩ w hw
    cases hw
    exact hv
  have hvalues := exists_value nameOf hc
  exact ⟨fun h => hmem (hvalues.1 h), fun h => hmem (hvalues.2.1 h), fun h => hmem (hvalues.2.2 h)⟩

/-- The names of tags are data if each of them is. -/
theorem isData_of_tagNames
    (h : ∀ tags, s.list? .tags = some tags → ∀ a ∈ tags, ∀ v, nameOf a = .ok v → v.IsData)
    {v : Value} (hv : (s.compared nameOf).tagNames = .ok v) : v.IsData := by
  obtain ⟨tags, htags, hv⟩ := bind_ok hv
  obtain ⟨names, hnames, hv⟩ := bind_ok hv
  cases hv
  cases ht : s.list? .tags with
  | none => rw [ht] at htags; cases htags
  | some ts =>
    obtain rfl : ts = tags := by
      rw [ht] at htags
      exact Except.ok.inj htags
    exact .list (Gives.mapM (h ts ht) names hnames)

/-- The members of a list of parts are parts. -/
theorem mem_parts_of_ofOption {field : ListField} {as : List α}
    (h : Fault.ofOption (s.list? field) = .ok as) {a : α} (ha : a ∈ as) : a ∈ s.parts := by
  cases hl : s.list? field with
  | none => rw [hl] at h; cases h
  | some xs =>
    rw [hl] at h
    cases h
    exact mem_parts_of_list? hl ha

/-- Shapes that hold data are compared symmetrically if values and their parts are. -/
theorem toOption_agreeIn_comm
    (hequal : ∀ v w : Value, v.IsData → w.IsData → (equal v w).toOption = (equal' w v).toOption)
    (hs : ∀ v ∈ s.core.values, v.IsData) (ht : ∀ v ∈ t.core.values, v.IsData)
    (hsnames : ∀ tags, s.list? .tags = some tags → ∀ a ∈ tags, ∀ v, nameOf a = .ok v → v.IsData)
    (htnames : ∀ tags, t.list? .tags = some tags → ∀ b ∈ tags, ∀ v, nameOf' b = .ok v → v.IsData)
    (hsame : ∀ a ∈ s.core.parts, ∀ b ∈ t.core.parts, (same a b).toOption = (same' b a).toOption)
    {c : Capability} (hc : c ∈ Capability.shared s.kind t.kind) :
    (Compared.agreeIn equal same (s.compared nameOf) (t.compared nameOf') c).toOption
      = (Compared.agreeIn equal' same' (t.compared nameOf') (s.compared nameOf) c).toOption := by
  have hcore := hc
  rw [Capability.shared_comm] at hcore
  simp only [Capability.shared, List.mem_filter, Bool.and_eq_true, List.contains_iff_mem] at hc
  obtain ⟨-, hsc, htc⟩ := hc
  have hsvalues := mem_values_of_compared nameOf hsc
  have htvalues := mem_values_of_compared nameOf' htc
  cases c with
  | named =>
    exact toOption_bind_comm fun v w hv hw =>
      hequal v w (hs v (hsvalues.1 rfl v hv)) (ht w (htvalues.1 rfl w hw))
  | textual =>
    exact toOption_bind_comm fun v w hv hw =>
      hequal v w (hs v (hsvalues.2.1 rfl v hv)) (ht w (htvalues.2.1 rfl w hw))
  | described =>
    exact toOption_bind_comm fun v w hv hw =>
      hequal v w (hs v (hsvalues.2.2 rfl v hv)) (ht w (htvalues.2.2 rfl w hw))
  | tagged =>
    exact toOption_bind_comm fun v w hv hw =>
      hequal v w (isData_of_tagNames hsnames hv) (isData_of_tagNames htnames hw)
  | stepped | tableHolder =>
    rw [← agreeIn_core hcore, ← agreeIn_core (by rwa [Capability.shared_comm])]
    refine toOption_bind_comm fun as bs has hbs => Compared.toOption_agree_comm fun a ha b hb => ?_
    exact hsame a (mem_parts_of_ofOption has ha) b (mem_parts_of_ofOption hbs hb)
  | containing =>
    rw [← agreeIn_core hcore, ← agreeIn_core (by rwa [Capability.shared_comm])]
    exact Compared.toOption_agree_comm fun a ha b hb =>
      hsame a (mem_parts_of_mem_children ha) b (mem_parts_of_mem_children hb)

end Shape

namespace Store

variable {s : Store} {i j : NodeId} {e f : Entry}

/-! ### Nodes that were given nothing -/

/-- The text of a node to which nothing was given is that of its shape. -/
theorem textValue_of_plain (he : s.get? i = some e) (hg : e.given = []) :
    s.textValue i = Fault.ofOption e.shape.textValue? := by
  have hget : s.get i = .ok e := by rw [get, he]
  rw [textValue, valueOf, stored_of_plain he hg (by simp), Entry.own, Shape.textValue?]
  cases hfield : e.shape.textField? with
  | none => rfl
  | some field =>
    have hvalue : Content.asValue <$> s.stored i (Attribute.text field).name = e.shape.ask field :=
      valueOf_text_of_plain he hg field
    have hnot : Attribute.following? e.shape.kind (Attribute.text field).name = none
        ∧ e.shape.ask field = Fault.ofOption (e.shape.field? field) := by
      rw [Attribute.following?, Attribute.ofName?_name]
      cases hs : e.shape <;> rw [hs] at hfield <;> cases hfield <;> exact ⟨rfl, rfl⟩
    simp only [Option.map_some, Fault.ofOption, Functor.map, Except.map, Content.asValue, bind,
      Except.bind, hget, String.ofList_toList, hnot.1, Option.bind_some]
    exact hvalue.trans hnot.2

/-- What is compared of a node that was given nothing is what is compared of what it holds. -/
theorem compared_of_plain (he : s.get? i = some e) (hg : e.given = []) :
    s.compared i = (e.shape.compared fun c => s.ask (.node c) (.text .name)).map .node := by
  rw [← Shape.compared_map (fun v => s.ask v (.text .name))]
  simp only [compared, Shape.compared, valueOf_text_of_plain he hg, textValue_of_plain he hg,
    listed_of_plain he hg, children_of_plain he hg, tagNames, Shape.ask_map, Shape.list?_map,
    Shape.textValue?_map, Shape.children_map]
  congr 1 <;> cases e.shape.list? _ <;> rfl

/-- Two different nodes that were given nothing are compared by what they hold. -/
theorem equalsWithin_of_plain (he : s.get? i = some e) (hg : e.given = []) (hf : s.get? j = some f)
    (hg' : f.given = []) (hne : i ≠ j) (n : Nat) :
    s.equalsWithin (n + 1) i j = Compared.agreeInAll (Value.agreesBy (s.equalsWithin n))
      (s.equalsWithin n) (e.shape.compared fun c => s.ask (.node c) (.text .name))
      (f.shape.compared fun c => s.ask (.node c) (.text .name))
      (Capability.shared e.shape.kind f.shape.kind) := by
  have hi : s.get i = .ok e := by rw [get, he]
  have hj : s.get j = .ok f := by rw [get, hf]
  simp only [equalsWithin, if_neg hne, hi, hj, bind, Except.bind, compared_of_plain he hg,
    compared_of_plain hf hg']
  exact Compared.agreeInAll_congr fun c _ => Compared.agreeIn_map _ _ _ _ _ c

/-! ### Trees -/

/-- A node of a store unfolds to a tree: it was given nothing, it holds what the top of the tree
holds, and the nodes that it lists unfold to the parts. Whether they are attached to it makes no
difference, and one node can be listed in several places. -/
inductive Unfolds (s : Store) : NodeId → Node → Prop
  | mk {i : NodeId} {e : Entry} {o : Origin} (pairs : Shape (NodeId × Node))
    (entry : s.get? i = some e) (plain : e.given = []) (shape : e.shape = pairs.map Prod.fst)
    (parts : ∀ x ∈ pairs.parts, Unfolds s x.1 x.2) : Unfolds s i (.mk o (pairs.map Prod.snd))

/-- What a node stands for can be unfolded from it. -/
theorem Represents.unfolds {a : Node} (h : s.Represents i a) : s.Unfolds i a := by
  induction h with
  | mk pairs entry plain shape _ _ ih => exact .mk pairs entry plain shape ih

/-- What can be unfolded from a node spans it. -/
theorem Unfolds.spans {a : Node} (h : s.Unfolds i a) : s.Spans i a := by
  induction h with
  | mk pairs entry _ shape _ ih =>
    exact .mk pairs.parts entry (by rw [shape, Shape.parts_map]) (Shape.parts_map _ _) ih

/-- A node is asked for what the top of its tree has. -/
theorem Unfolds.ask_text {a : Node} (h : s.Unfolds i a) (field : TextField) :
    s.ask (.node i) (.text field) = a.shape.ask field := by
  cases h with
  | @mk _ _ o pairs entry plain shape _ =>
    have hvalue := valueOf_text_of_plain entry plain field
    rw [shape, Shape.ask_map] at hvalue
    exact hvalue.trans (congrFun (Shape.ask_map Prod.snd pairs) field).symm

/-- The name of a node is that of the tree that is unfolded from it. -/
theorem Unfolds.ask_name {a : Node} (h : s.Unfolds i a) :
    s.ask (.node i) (.text .name) = a.nameOf :=
  h.ask_text .name

end Store

namespace Node

/-- What is compared of a node is data. -/
inductive HoldsData : Node → Prop where
  | mk {o : Origin} {s : Shape Node} (values : ∀ v ∈ s.core.values, v.IsData)
      (parts : ∀ n ∈ s.core.parts, HoldsData n) : HoldsData (.mk o s)

/-- A tree that can be compared holds data. -/
theorem IsComparable.holdsData {n : Node} (h : n.IsComparable) : n.HoldsData := by
  induction h with
  | mk values _ _ ih => exact .mk values ih

/-- The name of a node that holds data is data. -/
theorem HoldsData.isData_nameOf {n : Node} (h : n.HoldsData) {v : Value} (hv : n.nameOf = .ok v) :
    v.IsData := by
  cases h with
  | @mk o s values _ =>
    have hpath : ∀ path, Shape.pathName path = .ok v → v.IsData := by
      intro path hp
      unfold Shape.pathName at hp
      split at hp
      · cases hp
        exact .text _
      · split at hp
        · cases hp
        · cases hp
          exact .text _
    cases s <;> first
      | exact hpath _ hv
      | (cases hv; done)
      | (cases hv; exact values _ (by simp [Shape.core, Shape.values, Title.core, Title.values]))

end Node

namespace Store

variable {s : Store}

/-- What is compared of a node that unfolds to a tree of data. -/
theorem Unfolds.exists_entry {i : NodeId} {a : Node} (h : s.Unfolds i a) (ha : a.HoldsData) :
    ∃ e, s.get? i = some e ∧ e.given = [] ∧ (∀ v ∈ e.shape.core.values, v.IsData)
      ∧ ∀ c ∈ e.shape.core.parts, ∃ m, s.Unfolds c m ∧ m.HoldsData := by
  cases h with
  | mk pairs entry plain shape parts =>
    cases ha with
    | mk values hparts =>
      rw [Shape.core_map, Shape.values_map] at values
      rw [Shape.core_map, Shape.parts_map] at hparts
      refine ⟨_, entry, plain, ?_, fun c hc => ?_⟩
      · rwa [shape, Shape.core_map, Shape.values_map]
      · rw [shape, Shape.core_map, Shape.parts_map] at hc
        obtain ⟨x, hx, rfl⟩ := List.mem_map.mp hc
        exact ⟨x.2, parts x (Shape.mem_parts_of_mem_parts_core hx),
          hparts x.2 (List.mem_map_of_mem hx)⟩

/-- On any budget, nodes of data are compared symmetrically. -/
theorem toOption_equalsWithin_comm (n : Nat) {i j : NodeId} {a b : Node} (hi : s.Unfolds i a)
    (hj : s.Unfolds j b) (ha : a.HoldsData) (hb : b.HoldsData) :
    (s.equalsWithin n i j).toOption = (s.equalsWithin n j i).toOption := by
  induction n generalizing i j a b with
  | zero => rfl
  | succ n ih =>
    by_cases hij : i = j
    · rw [hij]
    · obtain ⟨e, he, hg, hvalues, hparts⟩ := hi.exists_entry ha
      obtain ⟨f, hf, hg', hvalues', hparts'⟩ := hj.exists_entry hb
      rw [equalsWithin_of_plain he hg hf hg' hij, equalsWithin_of_plain hf hg' he hg (Ne.symm hij),
        Capability.shared_comm f.shape.kind]
      have hnames : ∀ {e : Entry}, (∀ c ∈ e.shape.core.parts, ∃ m, s.Unfolds c m ∧ m.HoldsData) →
          ∀ tags, e.shape.list? .tags = some tags → ∀ c ∈ tags, ∀ v,
            s.ask (.node c) (.text .name) = .ok v → v.IsData := by
        intro e h tags ht c hc v hv
        obtain ⟨m, hm, hdata⟩ :=
          h c (Shape.mem_parts_of_list? ((Shape.list?_core_tags e.shape).trans ht) hc)
        exact hdata.isData_nameOf (hm.ask_name.symm.trans hv)
      refine Compared.toOption_agreeInAll_comm fun c hc => Shape.toOption_agreeIn_comm ?_ hvalues
        hvalues' (hnames hparts) (hnames hparts') (fun x hx y hy => ?_) hc
      · intro v w hv hw
        rw [hv.agreesBy_eq, hw.agreesBy_eq, hv.agrees_comm hw]
      · obtain ⟨_, hx, hxdata⟩ := hparts x hx
        obtain ⟨_, hy, hydata⟩ := hparts' y hy
        exact ih hx hy hxdata hydata

end Store

end FeatureTree
