import FeatureTree.Proofs.Schema.Forms

/-!
# Trees that differ in what is absent

A field of a part that may be left out is absent when it is left out, null or empty. Two trees are
alike if they differ in nothing but such fields, at any number of places and at any depth, and each
of these fields is absent in both (`Schema.Alike`). One thing has to be watched: a part that stands
in a field of its own must not become empty by it, for then it would be absent itself.

What is read from parts that are alike is the same, or alike in turn. Computations agree when they
fail in the same way or give results that are related (`Agree`).

## Main results

* `Schema.Alike.get`: what stands in a field of parts that are alike
* `Schema.alike_put`, `Schema.alike_erase`: absent fields make no difference
-/

namespace FeatureTree

/-! ### Computations that agree -/

/-- Two computations fail in the same way or give things that are related. -/
def Agree {α β : Type} (R : α → β → Prop) : Except Fault α → Except Fault β → Prop
  | .ok a, .ok b => R a b
  | .error e, .error e' => e = e'
  | _, _ => False

namespace Agree

variable {α α' β β' : Type} {R : α → α' → Prop} {Q : β → β' → Prop}

/-- Two failures with one fault agree. -/
theorem error (e : Fault) : Agree R (.error e) (.error e) := rfl

/-- A computation agrees with itself if what it gives is related to itself. -/
theorem refl {R : α → α → Prop} {x : Except Fault α} (h : ∀ a, x = .ok a → R a a) :
    Agree R x x := by
  cases x with
  | error e => rfl
  | ok a => exact h a rfl

/-- Agreeing on equal values is being equal. -/
theorem eq_iff {x y : Except Fault α} : Agree Eq x y ↔ x = y := by
  cases x <;> cases y <;> simp [Agree]

/-- Computations that agree go on in agreement if what follows does. -/
theorem bind {x : Except Fault α} {y : Except Fault α'} {f : α → Except Fault β}
    {g : α' → Except Fault β'} (h : Agree R x y) (hf : ∀ a b, R a b → Agree Q (f a) (g b)) :
    Agree Q (x >>= f) (y >>= g) := by
  cases x with
  | error e =>
    cases y with
    | error e' => exact h
    | ok b => cases h
  | ok a =>
    cases y with
    | error e' => cases h
    | ok b => exact hf a b h

/-- Agreement on some relation is agreement on any weaker one. -/
theorem imp {R' : α → α' → Prop} {x : Except Fault α} {y : Except Fault α'} (h : Agree R x y)
    (hR : ∀ a b, R a b → R' a b) : Agree R' x y := by
  cases x <;> cases y <;> first | exact hR _ _ h | exact h

/-- The same step in front. -/
theorem bind_eq {x y : Except Fault α} {f : α → Except Fault β} {g : α → Except Fault β'}
    (h : x = y) (hf : ∀ a, y = .ok a → Agree Q (f a) (g a)) : Agree Q (x >>= f) (y >>= g) := by
  subst h
  cases hx : x with
  | error e => rfl
  | ok a => exact hf a hx

/-- Agreeing computations agree on what functions make of their values. -/
theorem map {x : Except Fault α} {y : Except Fault α'} {f : α → β} {g : α' → β'}
    (h : Agree R x y) (hf : ∀ a b, R a b → Q (f a) (g b)) : Agree Q (x.map f) (y.map g) := by
  cases x with
  | error e =>
    cases y with
    | error e' => exact h
    | ok b => cases h
  | ok a =>
    cases y with
    | error e' => cases h
    | ok b => exact hf a b h

/-- Computations that agree one by one agree as a list. -/
theorem mapM {f : α → Except Fault β} {g : α' → Except Fault β'} {xs : List α} {ys : List α'}
    (h : List.Forall₂ (fun a b => Agree Q (f a) (g b)) xs ys) :
    Agree (List.Forall₂ Q) (xs.mapM f) (ys.mapM g) := by
  induction h with
  | nil => exact .nil
  | cons h _ ih =>
    rw [List.mapM_cons, List.mapM_cons]
    exact h.bind fun _ _ hab => ih.bind fun _ _ hall => .cons hab hall

/-- What does not depend on how the results differ is the same. -/
theorem eq_of {γ : Type} {x : Except Fault α} {y : Except Fault α'} {f : α → γ} {g : α' → γ}
    (h : Agree R x y) (hf : ∀ a b, R a b → f a = g b) : x.map f = y.map g :=
  eq_iff.mp (h.map hf)

end Agree

namespace Value

/-! ### What stands in a value -/

/-- The members of a list and what stands in the fields of a table. -/
def inner : Value → List Value
  | .list items | .kept _ items => items
  | .table fields => fields.map Prod.snd
  | _ => []

/-- What is inside a value is smaller than the value. -/
theorem sizeOf_lt_of_mem_inner {v w : Value} (h : w ∈ v.inner) : sizeOf w < sizeOf v := by
  cases v with
  | list items | kept id items =>
    have := List.sizeOf_lt_of_mem (show w ∈ items from h)
    simp only [list.sizeOf_spec, kept.sizeOf_spec]
    omega
  | table fields =>
    obtain ⟨⟨key, v⟩, hmem, rfl⟩ := List.mem_map.mp h
    have := List.sizeOf_lt_of_mem hmem
    simp only [Prod.mk.sizeOf_spec, table.sizeOf_spec] at *
    omega
  | _ => cases h

/-- What holds of a value as soon as it holds of all that stands in it holds of all values. -/
theorem induction {motive : Value → Prop} (step : ∀ v, (∀ w ∈ v.inner, motive w) → motive v)
    (v : Value) : motive v :=
  step v fun w _ => induction step w
termination_by sizeOf v
decreasing_by exact sizeOf_lt_of_mem_inner ‹_›

/-- The value of a field is inside its table. -/
theorem mem_inner_of_lookup {fields : List (String × Value)} {key : String} {v : Value}
    (h : lookup key fields = some v) : v ∈ (table fields).inner :=
  List.mem_map.mpr ⟨_, mem_of_lookup_eq_some h, rfl⟩

/-- The items of a list are inside it. -/
theorem mem_inner_of_items? {v w : Value} {items : List Value} (h : v.items? = some items)
    (hw : w ∈ items) : w ∈ v.inner := by
  cases v <;> cases h <;> exact hw

end Value

namespace Schema

open Value (lookup fieldOf)

/-! ### Alike -/

/-- Whether a field of a part can be left out: it is read, and it gives neither a line nor a
type. -/
def Role.optional? (schema : SchemaVersion) (role : Role) (key : String) : Option Form :=
  (role.form? schema key).filter fun form => form ≠ .line ∧ form ≠ .type

/-- Two values of a form differ in nothing but fields of parts that are absent in both. -/
inductive Alike (schema : SchemaVersion) : Form → Value → Value → Prop
  | refl {form : Form} (v : Value) : Alike schema form v v
  | part {role : Role} {fields fields' : List (String × Value)}
    (kept : ∀ key, role.optional? schema key = none → lookup key fields = lookup key fields')
    (present : ∀ key form, role.optional? schema key = some form →
      (fieldOf fields key).isPresent = (fieldOf fields' key).isPresent)
    (inner : ∀ key form, role.optional? schema key = some form →
      (fieldOf fields key).isPresent = true →
      Alike schema form (fieldOf fields key) (fieldOf fields' key)) :
    Alike schema (.part role) (.table fields) (.table fields')
  | wrapper {fields fields' : List (String × Value)}
    (names : fields.map Prod.fst = fields'.map Prod.fst)
    (inner : ∀ key role v v', wrapped? key = some role → lookup key fields = some v →
      lookup key fields' = some v' → Alike schema (.part role) v v') :
    Alike schema .wrapper (.table fields) (.table fields')
  | list {form : Form} {v v' : Value} {items items' : List Value} (hv : v.items? = some items)
    (hv' : v'.items? = some items') (length : items.length = items'.length)
    (inner : ∀ p ∈ items.zip items', Alike schema form p.1 p.2) :
    Alike schema (.list form) v v'

/-- What stands in two fields is absent in both or alike. -/
def AlikeOrAbsent (schema : SchemaVersion) (form : Form) (v v' : Value) : Prop :=
  v.isPresent = v'.isPresent ∧ (v.isPresent = true → Alike schema form v v')

variable {schema : SchemaVersion} {role : Role} {form : Form} {v v' : Value} {key : String}

/-- What the two younger schemas say in the same way. -/
theorem Role.optional?_of_ast (hs : schema ≠ .legacyJson) {o : Option Form}
    (ht : role.optional? .typedAst key = o) (hc : role.optional? .currentAst key = o) :
    role.optional? schema key = o := by
  cases schema with
  | legacyJson => exact absurd rfl hs
  | typedAst => exact ht
  | currentAst => exact hc

/-- Every value is like itself. -/
theorem AlikeOrAbsent.refl (v : Value) : AlikeOrAbsent schema form v v := ⟨rfl, fun _ => .refl v⟩

/-- Parts are alike if what stands in one field is alike or absent and all else is the same. -/
theorem alike_of_field {fields fields' : List (String × Value)}
    (hkey : role.optional? schema key = some form)
    (hother : ∀ other, other ≠ key → lookup other fields = lookup other fields')
    (h : AlikeOrAbsent schema form (fieldOf fields key) (fieldOf fields' key)) :
    Alike schema (.part role) (.table fields) (.table fields') := by
  refine .part (fun other hnone => ?_) (fun other form' hf => ?_) fun other form' hf hpresent => ?_
  · exact hother other fun heq => by simp [heq, hkey] at hnone
  · by_cases heq : other = key
    · subst heq
      exact h.1
    · rw [fieldOf, fieldOf, hother other heq]
  · by_cases heq : other = key
    · subst heq
      obtain rfl := Option.some.inj (hkey.symm.trans hf)
      exact h.2 hpresent
    · rw [fieldOf, fieldOf, hother other heq]
      exact .refl _

/-- A field that was put has the value that was put there. -/
theorem fieldOf_put (key : String) (v : Value) (fields : List (String × Value)) :
    fieldOf (Value.put key v fields) key = v := by
  rw [fieldOf, Value.lookup_put]
  rfl

/-- What stands in an absent field makes no difference. -/
theorem alike_put (key : String) (fields : List (String × Value))
    (hkey : role.optional? schema key = some form)
    (h : AlikeOrAbsent schema form v v') :
    Alike schema (.part role) (.table (Value.put key v fields))
      (.table (Value.put key v' fields)) := by
  refine alike_of_field hkey (fun other hne => ?_) (by rwa [fieldOf_put, fieldOf_put])
  rw [Value.lookup_put_of_ne hne, Value.lookup_put_of_ne hne]

/-- Leaving a field out is as good as setting it to something absent. -/
theorem alike_erase (key : String) (fields : List (String × Value))
    (hkey : role.optional? schema key = some form)
    (h : v.isPresent = false) :
    Alike schema (.part role) (.table (Value.put key v fields))
      (.table (fields.filter (·.1 != key))) := by
  have herased : fieldOf (fields.filter (·.1 != key)) key = .null := by
    rw [fieldOf, lookup, lookup_filter_ne, if_pos BEq.rfl, Option.getD_none]
  refine alike_of_field hkey (fun other hne => ?_) ?_
  · rw [Value.lookup_put_of_ne hne]
    exact ((lookup_filter_ne key other fields).trans (if_neg (by simpa using hne))).symm
  · rw [fieldOf_put, herased]
    exact ⟨h, fun hpresent => absurd (h.symm.trans hpresent) (by simp)⟩

namespace Alike

/-- Wrapping two values that are alike in one key gives values that are alike. -/
theorem wrap (key : String) (hkey : wrapped? key = some role) (h : Alike schema (.part role) v v') :
    Alike schema .wrapper (.table [(key, v)]) (.table [(key, v')]) := by
  refine .wrapper rfl fun key' role' w w' hkey' hw hw' => ?_
  obtain ⟨rfl, rfl⟩ := Prod.mk.inj (List.mem_singleton.mp (mem_of_lookup_eq_some hw))
  obtain ⟨-, rfl⟩ := Prod.mk.inj (List.mem_singleton.mp (mem_of_lookup_eq_some hw'))
  obtain rfl := Option.some.inj (hkey.symm.trans hkey')
  exact h

/-- Lists of one part each are alike if the parts are. -/
theorem singleton (h : Alike schema form v v') :
    Alike schema (.list form) (.list [v]) (.list [v']) :=
  .list rfl rfl rfl (by simpa using h)

/-- Texts that are alike are equal. -/
theorem eq_of_text (h : Alike schema .text v v') : v = v' := by
  cases h
  rfl

/-- Wrappers that are alike have the same keys. -/
theorem names_eq {fields fields' : List (String × Value)}
    (h : Alike schema .wrapper (.table fields) (.table fields')) :
    fields.map Prod.fst = fields'.map Prod.fst := by
  cases h with
  | refl => rfl
  | wrapper names => exact names

/-- Lists that are alike have parts that are alike, one by one. -/
theorem forall₂_items {items items' : List Value} (h : Alike schema (.list form) v v')
    (hv : v.items? = some items) (hv' : v'.items? = some items') :
    List.Forall₂ (Alike schema form) items items' := by
  cases h with
  | refl =>
    obtain rfl := Option.some.inj (hv.symm.trans hv')
    exact List.forall₂_same.mpr fun w _ => .refl w
  | list hw hw' length inner =>
    obtain rfl := Option.some.inj (hv.symm.trans hw)
    obtain rfl := Option.some.inj (hv'.symm.trans hw')
    exact List.forall₂_iff_zip.mpr ⟨length, fun hmem => inner _ hmem⟩

/-- Lists that are alike have members or have none. -/
theorem isPresent_list (h : Alike schema (.list form) v v') : v.isPresent = v'.isPresent := by
  cases h with
  | refl => rfl
  | @list _ _ _ items items' hv hv' length =>
    rw [Value.isPresent_of_items? hv, Value.isPresent_of_items? hv']
    cases items <;> cases items' <;> first | rfl | cases length

/-- What stands in an optional field of parts that are alike is alike, or absent in both. -/
theorem get (h : Alike schema (.part role) v v') (key : String)
    (hf : role.optional? schema key = some form) :
    Agree (AlikeOrAbsent schema form) (v.get key) (v'.get key) := by
  cases h with
  | refl => exact .refl fun w _ => .refl w
  | part kept present inner => exact ⟨present key form hf, inner key form hf⟩

/-- What stands in any other field is the same. -/
theorem get_eq (h : Alike schema (.part role) v v') (key : String)
    (hf : role.optional? schema key = none) : v.get key = v'.get key := by
  cases h with
  | refl => rfl
  | part kept => rw [Value.get_eq_fieldOf, Value.get_eq_fieldOf, fieldOf, fieldOf, kept key hf]

/-- Parts that are alike have the same text in a field. -/
theorem getAny (h : Alike schema (.part role) v v') (key : String)
    (hf : role.optional? schema key = some .text) : v.getAny key = v'.getAny key := by
  refine (h.get key hf).eq_of fun w w' ⟨hpresent, halike⟩ => ?_
  rw [Value.orEmptyText, Value.orEmptyText, ← hpresent]
  cases hw : w.isPresent with
  | false => rfl
  | true => rw [(halike hw).eq_of_text]

/-- Parts that are alike have the same trimmed text in a field. -/
theorem getTrimmed (h : Alike schema (.part role) v v') (key : String)
    (hf : role.optional? schema key = some .text) : v.getTrimmed key = v'.getTrimmed key := by
  refine Agree.eq_iff.mp <| (h.get key hf).bind fun w w' ⟨hpresent, halike⟩ => ?_
  cases hw : w.isPresent with
  | false =>
    rw [Value.textOrEmpty_of_absent hw, Value.textOrEmpty_of_absent (hpresent ▸ hw)]
    rfl
  | true =>
    rw [(halike hw).eq_of_text]
    exact .refl fun _ _ => rfl

/-- Parts that are alike have fields that are alike, or both have nothing there. -/
theorem getPresent? (h : Alike schema (.part role) v v') (key : String)
    (hf : role.optional? schema key = some form) :
    Agree (Option.Rel fun w w' => w.isPresent = true ∧ Alike schema form w w')
      (v.getPresent? key) (v'.getPresent? key) := by
  refine (h.get key hf).map fun w w' ⟨hpresent, halike⟩ => ?_
  rw [← hpresent]
  cases hw : w.isPresent with
  | false => exact .none
  | true => exact .some ⟨hw, halike hw⟩

/-- The members of lists that are alike or absent are alike one by one. -/
theorem membersOrEmpty (h : AlikeOrAbsent schema (.list form) v v') :
    Agree (List.Forall₂ (Alike schema form)) v.membersOrEmpty v'.membersOrEmpty := by
  obtain ⟨hpresent, halike⟩ := h
  cases hv : v.isPresent with
  | false =>
    rw [Value.membersOrEmpty_of_absent hv, Value.membersOrEmpty_of_absent (hpresent ▸ hv)]
    exact .nil
  | true =>
    rw [Value.membersOrEmpty, Value.membersOrEmpty, ← hpresent, hv]
    have hlist := halike hv
    cases hlist with
    | refl => exact .refl fun ws _ => List.forall₂_same.mpr fun w _ => .refl w
    | list hitems hitems' =>
      rw [if_pos rfl, if_pos rfl, Value.members_of_items? hitems, Value.members_of_items? hitems']
      exact (halike hv).forall₂_items hitems hitems'

/-- Parts that are alike have members that are alike, one by one. -/
theorem getMembers (h : Alike schema (.part role) v v') (key : String)
    (hf : role.optional? schema key = some (.list form)) :
    Agree (List.Forall₂ (Alike schema form)) (v.getMembers key) (v'.getMembers key) :=
  (h.get key hf).bind fun _ _ h => membersOrEmpty h

end Alike

end Schema

end FeatureTree
