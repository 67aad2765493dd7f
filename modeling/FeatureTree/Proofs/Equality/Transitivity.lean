import FeatureTree.Proofs.Equality.Trees
import FeatureTree.Proofs.Schema.Written

/-!
# Equality through a third node

Two nodes that both equal a third need not equal each other: they are compared with it in what they
share with it, so it hides from them what it cannot do itself. A background, which has no tags,
stands between scenarios with different tags. On nodes that were read from text this is all that can
go wrong, and it takes a place where nodes of different kinds can stand: among the children of a
feature or rule.

## Main results

* `Node.IsWritten.equals_iff_of_equals`: nodes that equal a third one are equal exactly when they
  agree in what it hides
* `Store.equals_iff_agreesBehind`: so are nodes of one kind that were read from text, and of most
  kinds they always are
* `Store.exists_not_equals`: three features, of which the one in the middle hides a tag
-/

namespace FeatureTree

open Dialect (english)

/-! ### Plain values -/

/-- Nothing, texts, and lists of those. -/
inductive Value.IsPlain : Value → Prop where
  | null : IsPlain .null
  | text (t : Text) : IsPlain (.text t)
  | list {items : List Value} (members : ∀ v ∈ items, IsPlain v) : IsPlain (.list items)

/-- Plain values are equal only to themselves. -/
theorem Value.IsPlain.agrees_iff {v w : Value} (hv : v.IsPlain) (hw : w.IsPlain) :
    v.agrees w = true ↔ v = w := by
  induction hv generalizing w with
  | null =>
    rw [agrees_of_isKey rfl]
    cases hw <;> simp [sameKey, sameKey.number?]
  | text t =>
    rw [agrees_of_isKey rfl]
    cases hw <;> simp [sameKey, sameKey.number?]
  | @list items _ ih =>
    cases hw with
    | @list others members =>
      rw [agrees_of_items rfl rfl, list.injEq]
      refine ⟨fun h => ?_, fun h => ?_⟩
      · refine List.forall₂_eq_eq_eq ▸ List.forall₂_iff_zip.mpr
          ⟨h.length_eq, fun {a b} hab => ?_⟩
        have hmem := List.of_mem_zip hab
        exact (ih a hmem.1 (members b hmem.2)).mp ((List.forall₂_iff_zip.mp h).2 hab)
      · subst h
        exact List.forall₂_same.mpr fun a ha => (ih a ha (members a ha)).mpr rfl
    | _ => simp [agrees, agreesBy, items?]

/-! ### What is compared in a capability -/

namespace Compared

variable {α β : Type} {same : α → β → Except Fault Bool}

/-- The value that is compared in a capability, which is null where parts are compared. -/
def value (a : Compared α) : Capability → Except Fault Value
  | .named => a.name
  | .textual => a.text
  | .described => a.description
  | .tagged => a.tagNames
  | .stepped | .tableHolder | .containing => .ok .null

/-- The parts that are compared in a capability. -/
def parts (a : Compared α) : Capability → Except Fault (List α)
  | .stepped => a.steps
  | .tableHolder => a.rows
  | .containing => a.children
  | .named | .textual | .described | .tagged => .ok []

/-- Two lists agree if their members do, one by one. -/
theorem agree_eq_true_iff {as : List α} {bs : List β} :
    agree same as bs = .ok true ↔ List.Forall₂ (fun a b => same a b = .ok true) as bs := by
  refine ⟨fun h => ?_, agree_of_forall₂⟩
  by_cases hlength : as.length = bs.length
  case neg =>
    rw [agree, if_neg hlength] at h
    cases h
  case pos =>
    rw [agree, if_pos hlength] at h
    induction as generalizing bs with
    | nil =>
      obtain rfl := List.length_eq_zero_iff.mp hlength.symm
      exact .nil
    | cons a as ih =>
      cases bs with
      | nil => cases hlength
      | cons b bs =>
        rw [agreeEach] at h
        obtain ⟨answer, hanswer, h⟩ := bind_ok h
        cases answer with
        | false => cases h
        | true => exact .cons hanswer (ih h (Nat.succ.inj hlength))

/-- Two nodes agree in a capability if the value and the parts that are compared do. -/
theorem agreeIn_eq_true_iff {a : Compared α} {b : Compared β} {c : Capability} :
    agreeIn (fun v w => .ok (v.agrees w)) same a b c = .ok true
      ↔ (∃ v w, a.value c = .ok v ∧ b.value c = .ok w ∧ v.agrees w = true)
        ∧ ∃ as bs, a.parts c = .ok as ∧ b.parts c = .ok bs
          ∧ List.Forall₂ (fun x y => same x y = .ok true) as bs := by
  have hvalue : ∀ x y : Except Fault Value, (do
        let v ← x
        let w ← y
        (.ok (v.agrees w) : Except Fault Bool)) = .ok true
      ↔ ∃ v w, x = .ok v ∧ y = .ok w ∧ v.agrees w = true := by
    rintro (_ | v) (_ | w) <;> simp [bind, Except.bind]
  have hparts : ∀ (x : Except Fault (List α)) (y : Except Fault (List β)), (do
        let as ← x
        let bs ← y
        agree same as bs) = .ok true
      ↔ ∃ as bs, x = .ok as ∧ y = .ok bs
        ∧ List.Forall₂ (fun x y => same x y = .ok true) as bs := by
    rintro (_ | as) (_ | bs) <;> simp [bind, Except.bind, agree_eq_true_iff]
  have hnull : Value.null.agrees .null = true := rfl
  cases c <;> simp [agreeIn, value, parts, hvalue, hparts, hnull]

/-- Two things agree in all capabilities if there is one and they agree in each. -/
theorem agreeInAll_eq_true_iff {equal : Value → Value → Except Fault Bool} {a : Compared α}
    {b : Compared β} {cs : List Capability} :
    agreeInAll equal same a b cs = .ok true
      ↔ cs ≠ [] ∧ ∀ c ∈ cs, agreeIn equal same a b c = .ok true := by
  have hall : ∀ cs : List Capability, cs.allM (agreeIn equal same a b) = .ok true
      ↔ ∀ c ∈ cs, agreeIn equal same a b c = .ok true := by
    intro cs
    induction cs with
    | nil => simp [List.allM, pure, Except.pure]
    | cons c cs ih =>
      rw [List.allM, List.forall_mem_cons, ← ih]
      rcases agreeIn equal same a b c with _ | _ | _ <;> simp [bind, Except.bind, pure, Except.pure]
  cases cs with
  | nil => simp [agreeInAll]
  | cons c cs => simpa [agreeInAll] using hall (c :: cs)

end Compared

namespace Node

/-- What is compared of a node. -/
def compared (n : Node) : Compared Node := n.shape.compared nameOf

/-- Whether two nodes agree in a capability. -/
def agreesIn (n m : Node) (c : Capability) : Except Fault Bool :=
  Compared.agreeIn (fun v w => .ok (v.agrees w)) equals n.compared m.compared c

/-- Two nodes are equal if they share a capability and agree in each that they share. -/
theorem equals_eq_true_iff {n m : Node} : n.equals m = .ok true
    ↔ Capability.shared n.kind m.kind ≠ []
      ∧ ∀ c ∈ Capability.shared n.kind m.kind, n.agreesIn m c = .ok true := by
  rw [equals_def]
  exact Compared.agreeInAll_eq_true_iff

/-- The first of three nodes agrees with the last behind the one in the middle: they share a
capability, they agree in every one that the middle one lacks, and where it does not lack one, what
is compared there agrees behind what the middle one has in the same place. -/
inductive AgreesBehind : Node → Node → Node → Prop where
  | mk {a b c : Node} (shares : Capability.shared a.kind c.kind ≠ [])
      (hidden : ∀ cap ∈ Capability.shared a.kind c.kind, cap ∉ Capability.ofKind b.kind →
        a.agreesIn c cap = .ok true)
      (seen : ∀ cap ∈ Capability.shared a.kind c.kind, cap ∈ Capability.ofKind b.kind →
        ∀ xs ys zs, a.compared.parts cap = .ok xs → b.compared.parts cap = .ok ys →
          c.compared.parts cap = .ok zs → ∀ (i : Nat) (x y z : Node), xs[i]? = some x →
          ys[i]? = some y → zs[i]? = some z → AgreesBehind x y z) : AgreesBehind a b c

end Node

namespace Capability

/-- A capability is shared if both kinds have it. -/
theorem mem_shared {c : Capability} {k l : Kind} :
    c ∈ shared k l ↔ c ∈ ofKind k ∧ c ∈ ofKind l := by
  have hall : c ∈ all := by cases c <;> decide
  simp [shared, hall]

end Capability

namespace Node

variable {a b c : Node} {cap : Capability}

namespace IsWritten

/-- The values that are compared of what is written are texts or nothing. -/
theorem values (h : a.IsWritten) : ∀ v ∈ a.shape.core.values, v = .null ∨ ∃ t, v = .text t := by
  cases h
  assumption

/-- The parts of what is written are of the kinds that belong there. -/
theorem kinds (h : a.IsWritten) : ∀ x ∈ a.shape.core.parts, x.kind ∈ a.kind.inner := by
  cases h
  assumption

/-- The parts of what is written are written. -/
theorem parts (h : a.IsWritten) : ∀ x ∈ a.shape.core.parts, x.IsWritten := by
  cases h
  assumption

/-- The values that are compared of what is written are plain. -/
theorem isPlain_of_mem (h : a.IsWritten) {v : Value} (hv : v ∈ a.shape.core.values) :
    v.IsPlain := by
  rcases h.values v hv with rfl | ⟨t, rfl⟩
  · exact .null
  · exact .text t

/-- The name of a tag is plain. -/
theorem isPlain_nameOf (h : a.IsWritten) (hkind : a.kind = .tag) {v : Value}
    (hv : a.nameOf = .ok v) : v.IsPlain := by
  have hvalues := h.isPlain_of_mem (v := v)
  obtain ⟨o, s⟩ := a
  cases s <;> cases hkind
  cases hv
  exact hvalues (by simp [shape, Shape.core, Shape.values])

/-- What is compared of a node that was read is plain. -/
theorem isPlain_value (h : a.IsWritten) (hcap : cap ∈ Capability.ofKind a.kind) {v : Value}
    (hv : a.compared.value cap = .ok v) : v.IsPlain := by
  have hvalues := Shape.mem_values_of_compared nameOf (s := a.shape) hcap
  cases cap with
  | named => exact h.isPlain_of_mem (hvalues.1 rfl v hv)
  | textual => exact h.isPlain_of_mem (hvalues.2.1 rfl v hv)
  | described => exact h.isPlain_of_mem (hvalues.2.2 rfl v hv)
  | tagged =>
    obtain ⟨tags, htags, hv⟩ := bind_ok hv
    obtain ⟨names, hnames, hv⟩ := bind_ok hv
    cases hv
    refine .list fun v hv => ?_
    obtain ⟨t, ht, hname⟩ := exists_left_of_forall₂ (forall₂_of_mapM hnames) hv
    have hlist : a.shape.list? .tags = some tags := Fault.ofOption_eq_ok_iff.mp htags
    have hmem : t ∈ a.shape.core.parts :=
      Shape.mem_parts_of_list? ((Shape.list?_core_tags a.shape).trans hlist) ht
    exact (h.parts t hmem).isPlain_nameOf (h.isComparable.tags hlist t ht) hname
  | stepped | tableHolder | containing =>
    cases hv
    exact .null

end IsWritten

/-- The parts that are compared in a capability of a node belong to its core. -/
theorem mem_core_of_compared (hcap : cap ∈ Capability.ofKind a.kind) {xs : List Node}
    (hxs : a.compared.parts cap = .ok xs) {x : Node} (hx : x ∈ xs) : x ∈ a.shape.core.parts := by
  have hparts := Shape.exists_parts nameOf (s := a.shape) hcap
  have hmem : ∀ {y : Except Fault (List Node)},
      (∃ as, (∀ a' ∈ as, a' ∈ a.shape.core.parts) ∧ y = .ok as) → y = .ok xs →
      x ∈ a.shape.core.parts := by
    rintro _ ⟨as, has, rfl⟩ h
    cases h
    exact has x hx
  cases cap with
  | stepped => exact hmem (hparts.1 rfl) hxs
  | tableHolder => exact hmem (hparts.2.1 rfl) hxs
  | containing => exact hmem (hparts.2.2 rfl) hxs
  | named | textual | described | tagged =>
    cases hxs
    cases hx

/-- Two nodes that both agree in a capability with a third one agree in it if the parts that stand
in the same places do. -/
theorem agreesIn_iff_parts (ha : a.IsWritten) (hb : b.IsWritten)
    (hcap : cap ∈ Capability.shared a.kind c.kind) (hmiddle : cap ∈ Capability.ofKind b.kind)
    (hab : a.agreesIn b cap = .ok true) (hbc : b.agreesIn c cap = .ok true) :
    ∃ xs ys zs, a.compared.parts cap = .ok xs ∧ b.compared.parts cap = .ok ys
      ∧ c.compared.parts cap = .ok zs
      ∧ List.Forall₂ (fun x y => x.equals y = .ok true) xs ys
      ∧ List.Forall₂ (fun y z => y.equals z = .ok true) ys zs
      ∧ (a.agreesIn c cap = .ok true ↔ List.Forall₂ (fun x z => x.equals z = .ok true) xs zs) := by
  obtain ⟨hcapa, hcapc⟩ := Capability.mem_shared.mp hcap
  obtain ⟨⟨v, w, hv, hw, hvw⟩, xs, ys, hxs, hys, hxy⟩ := Compared.agreeIn_eq_true_iff.mp hab
  obtain ⟨⟨w', u, hw', hu, hwu⟩, ys', zs, hys', hzs, hyz⟩ := Compared.agreeIn_eq_true_iff.mp hbc
  obtain rfl : w = w' := Except.ok.inj (hw.symm.trans hw')
  obtain rfl : ys = ys' := Except.ok.inj (hys.symm.trans hys')
  have hplain := hb.isPlain_value hmiddle hw
  obtain rfl := ((ha.isPlain_value hcapa hv).agrees_iff hplain).mp hvw
  refine ⟨xs, ys, zs, hxs, hys, hzs, hxy, hyz, ?_⟩
  rw [agreesIn, Compared.agreeIn_eq_true_iff]
  constructor
  · rintro ⟨-, xs', zs', hxs', hzs', hxz⟩
    obtain rfl : xs = xs' := Except.ok.inj (hxs.symm.trans hxs')
    obtain rfl : zs = zs' := Except.ok.inj (hzs.symm.trans hzs')
    exact hxz
  · exact fun hxz => ⟨⟨v, u, hv, hu, hwu⟩, xs, zs, hxs, hzs, hxz⟩

/-! ### Three nodes -/

/-- Nodes that equal a third one are equal exactly when they agree behind it. -/
theorem IsWritten.equals_iff_of_equals (ha : a.IsWritten) (hb : b.IsWritten) (hc : c.IsWritten)
    (hab : a.equals b = .ok true) (hbc : b.equals c = .ok true) :
    a.equals c = .ok true ↔ a.AgreesBehind b c := by
  induction ha generalizing b c with
  | @mk o s values tags kinds parts ih =>
    have ha : (Node.mk o s).IsWritten := .mk values tags kinds parts
    obtain ⟨-, hab⟩ := equals_eq_true_iff.mp hab
    obtain ⟨-, hbc⟩ := equals_eq_true_iff.mp hbc
    -- in what the middle one does not lack, the others agree as their parts do
    have hseen : ∀ cap ∈ Capability.shared (Node.mk o s).kind c.kind,
        cap ∈ Capability.ofKind b.kind → _ := fun cap hcap hmiddle =>
      agreesIn_iff_parts ha hb hcap hmiddle
        (hab cap (Capability.mem_shared.mpr ⟨(Capability.mem_shared.mp hcap).1, hmiddle⟩))
        (hbc cap (Capability.mem_shared.mpr ⟨hmiddle, (Capability.mem_shared.mp hcap).2⟩))
    have hparts : ∀ {cap}, cap ∈ Capability.shared (Node.mk o s).kind c.kind →
        cap ∈ Capability.ofKind b.kind → ∀ {xs ys zs : List Node} {n : Nat} {x y z : Node},
        (Node.mk o s).compared.parts cap = .ok xs → b.compared.parts cap = .ok ys →
        c.compared.parts cap = .ok zs → xs[n]? = some x → ys[n]? = some y → zs[n]? = some z →
        x.equals y = .ok true → y.equals z = .ok true →
        (x.equals z = .ok true ↔ x.AgreesBehind y z) := by
      intro cap hcap hmiddle xs ys zs n x y z hxs hys hzs hx hy hz hxy hyz
      obtain ⟨hcapa, hcapc⟩ := Capability.mem_shared.mp hcap
      have hx := mem_core_of_compared hcapa hxs (List.mem_of_getElem? hx)
      have hy := mem_core_of_compared hmiddle hys (List.mem_of_getElem? hy)
      have hz := mem_core_of_compared hcapc hzs (List.mem_of_getElem? hz)
      exact ih x hx (hb.parts y hy) (hc.parts z hz) hxy hyz
    rw [equals_eq_true_iff]
    constructor
    · rintro ⟨shares, hac⟩
      refine .mk shares (fun cap hcap _ => hac cap hcap) ?_
      intro cap hcap hmiddle xs ys zs hxs hys hzs n x y z hx hy hz
      obtain ⟨xs', ys', zs', hxs', hys', hzs', hxy, hyz, hiff⟩ := hseen cap hcap hmiddle
      obtain rfl : xs = xs' := Except.ok.inj (hxs.symm.trans hxs')
      obtain rfl : ys = ys' := Except.ok.inj (hys.symm.trans hys')
      obtain rfl : zs = zs' := Except.ok.inj (hzs.symm.trans hzs')
      have hthree := hparts hcap hmiddle hxs hys hzs hx hy hz (rel_of_forall₂ hxy hx hy)
        (rel_of_forall₂ hyz hy hz)
      exact hthree.mp (rel_of_forall₂ (hiff.mp (hac cap hcap)) hx hz)
    · rintro ⟨shares, hidden, seen⟩
      refine ⟨shares, fun cap hcap => ?_⟩
      by_cases hmiddle : cap ∈ Capability.ofKind b.kind
      · obtain ⟨xs, ys, zs, hxs, hys, hzs, hxy, hyz, hiff⟩ := hseen cap hcap hmiddle
        refine hiff.mpr (List.forall₂_iff_get.mpr ⟨hxy.length_eq.trans hyz.length_eq, ?_⟩)
        intro n hx hz
        have hy : n < ys.length := hxy.length_eq ▸ hx
        have hx' := List.getElem?_eq_getElem hx
        have hy' := List.getElem?_eq_getElem hy
        have hz' := List.getElem?_eq_getElem hz
        have hthree := hparts hcap hmiddle hxs hys hzs hx' hy' hz' (rel_of_forall₂ hxy hx' hy')
          (rel_of_forall₂ hyz hy' hz')
        exact hthree.mpr (seen cap hcap hmiddle xs ys zs hxs hys hzs n _ _ _ hx' hy' hz')
      · exact hidden cap hcap hmiddle

/-- In the places of most kinds, parts that share a capability are of one kind, and again of such a
kind. -/
theorem eq_of_inner {k p q : Kind} (hk : k ∉ [Kind.feature, .rule, .featureFile, .directory])
    (hp : p ∈ k.inner) (hq : q ∈ k.inner) (h : Capability.shared p q ≠ []) :
    p = q ∧ p ∉ [Kind.feature, .rule, .featureFile, .directory] := by
  have key : ∀ k ∉ [Kind.feature, .rule, .featureFile, .directory], ∀ p ∈ k.inner, ∀ q ∈ k.inner,
      Capability.shared p q ≠ [] → p = q ∧ p ∉ [Kind.feature, .rule, .featureFile, .directory] := by
    intro k
    cases k <;> decide
  exact key k hk p hp q hq h

/-- Behind a node of the same kind, which is no feature, rule, file or directory, nodes agree if
both equal it. -/
theorem IsWritten.agreesBehind (ha : a.IsWritten) (hb : b.IsWritten) (hc : c.IsWritten)
    (hkind : a.kind ∉ [Kind.feature, .rule, .featureFile, .directory]) (hkb : a.kind = b.kind)
    (hkc : b.kind = c.kind) (hab : a.equals b = .ok true) (hbc : b.equals c = .ok true) :
    a.AgreesBehind b c := by
  induction ha generalizing b c with
  | @mk o s values tags kinds parts ih =>
    obtain ⟨-, hab⟩ := equals_eq_true_iff.mp hab
    obtain ⟨-, hbc⟩ := equals_eq_true_iff.mp hbc
    have hkac := hkb.trans hkc
    refine .mk (hkac ▸ Capability.shared_self_ne_nil _) ?_ ?_
    · intro cap hcap hmiddle
      exact absurd (hkb ▸ (Capability.mem_shared.mp hcap).1) hmiddle
    · intro cap hcap hmiddle xs ys zs hxs hys hzs n x y z hx hy hz
      obtain ⟨hcapa, hcapc⟩ := Capability.mem_shared.mp hcap
      obtain ⟨-, xs', ys', hxs', hys', hxy⟩ := Compared.agreeIn_eq_true_iff.mp
        (hab cap (Capability.mem_shared.mpr ⟨hcapa, hmiddle⟩))
      obtain ⟨-, ys'', zs', hys'', hzs', hyz⟩ := Compared.agreeIn_eq_true_iff.mp
        (hbc cap (Capability.mem_shared.mpr ⟨hmiddle, hcapc⟩))
      obtain rfl : xs = xs' := Except.ok.inj (hxs.symm.trans hxs')
      obtain rfl : ys = ys' := Except.ok.inj (hys.symm.trans hys')
      obtain rfl : ys = ys'' := Except.ok.inj (hys.symm.trans hys'')
      obtain rfl : zs = zs' := Except.ok.inj (hzs.symm.trans hzs')
      have hxy := rel_of_forall₂ hxy hx hy
      have hyz := rel_of_forall₂ hyz hy hz
      have hx := mem_core_of_compared hcapa hxs (List.mem_of_getElem? hx)
      have hy := mem_core_of_compared hmiddle hys (List.mem_of_getElem? hy)
      have hz := mem_core_of_compared hcapc hzs (List.mem_of_getElem? hz)
      obtain ⟨hkxy, hkx⟩ := eq_of_inner hkind (kinds x hx) (hkb ▸ hb.kinds y hy)
        (equals_eq_true_iff.mp hxy).1
      obtain ⟨hkyz, -⟩ := eq_of_inner hkind (hkb ▸ hb.kinds y hy) (hkac ▸ hc.kinds z hz)
        (equals_eq_true_iff.mp hyz).1
      exact ih x hx (hb.parts y hy) (hc.parts z hz) hkx hkxy hkyz hxy hyz

/-- A node is what some text is read as for a kind, in some dialect. -/
def IsReadAs (kind : Kind) (n : Node) : Prop :=
  ∃ default dialect path source, read default dialect path source kind = .ok n

/-- What is read as a kind is written and of this kind. -/
theorem IsReadAs.isWritten {kind : Kind} {n : Node} (h : n.IsReadAs kind) :
    n.IsWritten ∧ n.kind = kind := by
  obtain ⟨_, _, _, _, h⟩ := h
  exact isWritten_of_read h

/-- Directories are not read from text. -/
theorem IsReadAs.ne_directory {kind : Kind} {n : Node} (h : n.IsReadAs kind) :
    kind ≠ .directory := by
  rintro rfl
  obtain ⟨_, _, _, _, h⟩ := h
  obtain ⟨_, -, h⟩ := bind_ok h
  obtain ⟨_, -, h⟩ := bind_ok h
  cases h

end Node

namespace Store

variable {s : Store} {i j k : NodeId} {kind : Kind} {a b c : Node}

/-! ### Main statement -/

/-- Nodes of one kind that were read from text and equal a third one are equal, unless they are
features, rules or files. In any case they are equal exactly when they agree behind it. -/
theorem equals_iff_agreesBehind (ha : a.IsReadAs kind) (hb : b.IsReadAs kind)
    (hc : c.IsReadAs kind) (hi : s.Unfolds i a) (hj : s.Unfolds j b) (hk : s.Unfolds k c)
    (hij : s.equals i j = .ok true) (hjk : s.equals j k = .ok true) :
    (kind ∉ [Kind.feature, .rule, .featureFile] → s.equals i k = .ok true)
      ∧ (s.equals i k = .ok true ↔ a.AgreesBehind b c) := by
  have hdirectory := ha.ne_directory
  obtain ⟨ha, hkinda⟩ := ha.isWritten
  obtain ⟨hb, hkindb⟩ := hb.isWritten
  obtain ⟨hc, hkindc⟩ := hc.isWritten
  rw [equals_of_unfolds hi hj ha.isComparable hb.isComparable] at hij
  rw [equals_of_unfolds hj hk hb.isComparable hc.isComparable] at hjk
  rw [equals_of_unfolds hi hk ha.isComparable hc.isComparable]
  have hiff := ha.equals_iff_of_equals hb hc hij hjk
  refine ⟨fun hkind => hiff.mpr ?_, hiff⟩
  refine ha.agreesBehind hb hc ?_ (hkinda.trans hkindb.symm) (hkindb.trans hkindc.symm) hij hjk
  rw [hkinda]
  simp only [List.mem_cons, List.not_mem_nil, or_false, not_or] at hkind ⊢
  exact ⟨hkind.1, hkind.2.1, hkind.2.2, hdirectory⟩

/-- Three texts that are read can be put into one store, where they are compared as their trees
are. -/
theorem exists_unfolds_of_read {kind : Kind} {source source' source'' : Text} {x y z : Bool}
    (h : (do
      let a ← Node.read .null (.text english.name) [] source kind
      let b ← Node.read .null (.text english.name) [] source' kind
      let c ← Node.read .null (.text english.name) [] source'' kind
      return (← a.equals b, ← b.equals c, ← a.equals c)).toOption = some (x, y, z)) :
    ∃ s i j k a b c, Unfolds s i a ∧ Unfolds s j b ∧ Unfolds s k c
      ∧ Node.read .null (.text english.name) [] source kind = .ok a
      ∧ Node.read .null (.text english.name) [] source' kind = .ok b
      ∧ Node.read .null (.text english.name) [] source'' kind = .ok c
      ∧ s.equals i j = .ok x ∧ s.equals j k = .ok y ∧ s.equals i k = .ok z := by
  generalize hresult : (do
    let a ← Node.read .null (.text english.name) [] source kind
    let b ← Node.read .null (.text english.name) [] source' kind
    let c ← Node.read .null (.text english.name) [] source'' kind
    return (← a.equals b, ← b.equals c, ← a.equals c) : Except Fault (Bool × Bool × Bool)) = r at h
  cases r with
  | error _ => cases h
  | ok r =>
    obtain rfl := Option.some.inj h
    obtain ⟨a, ha, hresult⟩ := bind_ok hresult
    obtain ⟨b, hb, hresult⟩ := bind_ok hresult
    obtain ⟨c, hc, hresult⟩ := bind_ok hresult
    obtain ⟨x', hab, hresult⟩ := bind_ok hresult
    obtain ⟨y', hbc, hresult⟩ := bind_ok hresult
    obtain ⟨z', hac, hresult⟩ := bind_ok hresult
    cases hresult
    have hgrown := grown_plant b.within_any (({} : Store).plant a).2
    have hgrown' := grown_plant c.within_any ((({} : Store).plant a).2.plant b).2
    have hi := (((represents_plant a {}).of_grown hgrown).of_grown hgrown').unfolds
    have hj := ((represents_plant b _).of_grown hgrown').unfolds
    have hk := (represents_plant c ((({} : Store).plant a).2.plant b).2).unfolds
    have ha' := (Node.isWritten_of_read ha).1.isComparable
    have hb' := (Node.isWritten_of_read hb).1.isComparable
    have hc' := (Node.isWritten_of_read hc).1.isComparable
    exact ⟨_, _, _, _, a, b, c, hi, hj, hk, ha, hb, hc,
      (equals_of_unfolds hi hj ha' hb').trans hab, (equals_of_unfolds hj hk hb' hc').trans hbc,
      (equals_of_unfolds hi hk ha' hc').trans hac⟩

/-- Features whose one section is a scenario with a tag, a background and a scenario with another
tag. Both scenarios equal the background, and so do the features. -/
theorem exists_not_equals : ∃ s i j k a b c,
    Unfolds s i a ∧ Unfolds s j b ∧ Unfolds s k c
      ∧ Node.read .null (.text english.name) [] "Feature: f\n@t\nScenario: s".toList .feature
        = .ok a
      ∧ Node.read .null (.text english.name) [] "Feature: f\nBackground: s".toList .feature = .ok b
      ∧ Node.read .null (.text english.name) [] "Feature: f\n@u\nScenario: s".toList .feature
        = .ok c
      ∧ s.equals i j = .ok true ∧ s.equals j k = .ok true ∧ s.equals i k = .ok false :=
  exists_unfolds_of_read (by decide +kernel)

/-- Where both scenarios have the same tag, the features agree behind the one with a background. -/
theorem equals_iff_agreesBehind_tagged : ∃ s i j k a b c,
    Unfolds s i a ∧ Unfolds s j b ∧ Unfolds s k c
      ∧ a.IsReadAs .feature ∧ b.IsReadAs .feature ∧ c.IsReadAs .feature
      ∧ s.equals i j = .ok true ∧ s.equals j k = .ok true ∧ a.AgreesBehind b c := by
  obtain ⟨s, i, j, k, a, b, c, hi, hj, hk, ha, hb, hc, hij, hjk, hik⟩ :=
    @exists_unfolds_of_read .feature "Feature: f\n@t\nScenario: s".toList
      "Feature: f\nBackground: s".toList "Feature: f\n@t\nExample: s".toList true true true
      (by decide +kernel)
  have ha : a.IsReadAs .feature := ⟨_, _, _, _, ha⟩
  have hb : b.IsReadAs .feature := ⟨_, _, _, _, hb⟩
  have hc : c.IsReadAs .feature := ⟨_, _, _, _, hc⟩
  exact ⟨s, i, j, k, a, b, c, hi, hj, hk, ha, hb, hc, hij, hjk,
    (equals_iff_agreesBehind ha hb hc hi hj hk hij hjk).2.mp hik⟩

end Store

end FeatureTree
