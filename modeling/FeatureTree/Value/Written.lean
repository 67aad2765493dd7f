import FeatureTree.Fault
import FeatureTree.Text.Digit

/-!
# Values as text

Not every value has a text. An integer can have too many digits to be written, and what a node is
written as is asked of the node. All other values are written by their parts, so a value that holds
neither is written in one way, wherever that is done.

## Main results

* `Value.writtenBy_congr`: only the nodes in a value can be written in different ways
* `Value.HasOwnText.writtenBy`: a value without nodes and long integers has a text
-/

namespace FeatureTree

namespace Value

/-- Whether an integer has more decimal digits than are written. -/
def isLong (i : Int) : Bool := maxIntegerDigits < (Nat.toDigits 10 i.natAbs).length

/-- The decimal digits of an integer that is not too long for that. -/
def integerText (i : Int) : Except Fault Text :=
  if isLong i then .error .integerTooLong else .ok (intText i)

/-- A value as text where there are no nodes to be asked. -/
def written (v : Value) : Except Fault Text :=
  v.writtenBy integerText (fun _ _ => .error .noSuchNode) (fun _ _ => .error .noSuchNode) []

mutual

/-- The integers that a value holds. -/
def integers : Value → List Int
  | .int i => [i]
  | .list items | .kept _ items => integersOfItems items
  | .table fields => integersOfFields fields
  | _ => []

/-- The integers that a list of values holds. -/
def integersOfItems : List Value → List Int
  | [] => []
  | v :: items => v.integers ++ integersOfItems items

/-- The integers that the fields of a table hold. -/
def integersOfFields : List (String × Value) → List Int
  | [] => []
  | (_, v) :: fields => v.integers ++ integersOfFields fields

end

/-- A value with a text of its own: it holds no node, and no integer that is too long. -/
structure HasOwnText (v : Value) : Prop where
  /-- There is no node in the value. -/
  nodes : v.nodes = []
  /-- All integers in the value can be written. -/
  short : ∀ i ∈ v.integers, isLong i = false

/-! ### What a text depends on -/

section

variable {m : Type → Type} [Monad m] {digits : Int → m Text}
  {label label' : List Nat → Nat → m Text}

mutual

/-- How a value is shown depends on how the nodes in it are shown, and on no other nodes. -/
theorem shownBy_congr {v : Value} (h : ∀ i ∈ v.nodes, ∀ within, label within i = label' within i)
    (within : List Nat) : v.shownBy digits label within = v.shownBy digits label' within := by
  cases v with
  | bool b => cases b <;> rfl
  | null | int | float | text => rfl
  | node i => exact h i (by simp [nodes]) within
  | list items =>
    simp only [shownBy,
      shownItemsBy_congr (fun i hi => h i (by simpa only [nodes] using hi)) within]
  | kept id items =>
    have hitems : shownItemsBy digits label (id :: within) items
        = shownItemsBy digits label' (id :: within) items :=
      shownItemsBy_congr (fun i hi => h i (by simpa only [nodes] using hi)) (id :: within)
    simp only [shownBy, hitems]
  | table fields =>
    simp only [shownBy,
      shownFieldsBy_congr (fun i hi => h i (by simpa only [nodes] using hi)) within]

/-- How the members of a list are shown depends on how the nodes in them are shown. -/
theorem shownItemsBy_congr {items : List Value}
    (h : ∀ i ∈ nodesOfItems items, ∀ within, label within i = label' within i)
    (within : List Nat) :
    shownItemsBy digits label within items = shownItemsBy digits label' within items := by
  cases items with
  | nil => rfl
  | cons v items =>
    simp only [nodesOfItems, List.mem_append] at h
    simp only [shownItemsBy, shownBy_congr (fun i hi => h i (.inl hi)) within,
      shownItemsBy_congr (fun i hi => h i (.inr hi)) within]

/-- How the fields of a table are shown depends on how the nodes in them are shown. -/
theorem shownFieldsBy_congr {fields : List (String × Value)}
    (h : ∀ i ∈ nodesOfFields fields, ∀ within, label within i = label' within i)
    (within : List Nat) :
    shownFieldsBy digits label within fields = shownFieldsBy digits label' within fields := by
  match fields with
  | [] => rfl
  | (k, v) :: fields =>
    simp only [nodesOfFields, List.mem_append] at h
    simp only [shownFieldsBy, shownBy_congr (fun i hi => h i (.inl hi)) within,
      shownFieldsBy_congr (fun i hi => h i (.inr hi)) within]

end

/-- The text of a value depends on the texts and labels of the nodes in it, and on no other
nodes. -/
theorem writtenBy_congr {write write' : List Nat → Nat → m Text} {v : Value}
    (hwrite : ∀ i ∈ v.nodes, ∀ within, write within i = write' within i)
    (hlabel : ∀ i ∈ v.nodes, ∀ within, label within i = label' within i) (within : List Nat) :
    v.writtenBy digits write label within = v.writtenBy digits write' label' within := by
  have hshown : v.shownBy digits label within = v.shownBy digits label' within :=
    shownBy_congr hlabel within
  cases v with
  | text => rfl
  | node i => exact hwrite i (by simp [nodes]) within
  | _ => exact hshown

end

/-! ### Values with a text of their own -/

section

variable {label write : List Nat → Nat → Except Fault Text}

/-- A value without nodes as it is shown where its integers can have any length. -/
def shownAtLength (within : List Nat) (v : Value) : Text :=
  Id.run (v.shownBy (fun i => pure (intText i)) (fun _ _ => pure []) within)

mutual

/-- A value with a text of its own is shown in one way. -/
theorem shownBy_of_short {v : Value} (hnodes : v.nodes = [])
    (hshort : ∀ i ∈ v.integers, isLong i = false) (within : List Nat) :
    v.shownBy integerText label within = .ok (v.shownAtLength within) := by
  cases v with
  | bool b => cases b <;> rfl
  | null | float | text => rfl
  | int i =>
    have hi : isLong i = false := hshort i (by simp [integers])
    simp only [shownBy, integerText, hi, Bool.false_eq_true, if_false]
    rfl
  | node i => simp [nodes] at hnodes
  | list items =>
    simp only [nodes, integers] at hnodes hshort
    simp only [shownBy, shownItemsBy_of_short hnodes hshort within]
    rfl
  | kept id items =>
    simp only [nodes, integers] at hnodes hshort
    simp only [shownBy, shownItemsBy_of_short hnodes hshort (id :: within), shownAtLength]
    split <;> rfl
  | table fields =>
    simp only [nodes, integers] at hnodes hshort
    simp only [shownBy, shownFieldsBy_of_short hnodes hshort within]
    rfl

/-- Members of a list with texts of their own are shown in one way. -/
theorem shownItemsBy_of_short {items : List Value} (hnodes : nodesOfItems items = [])
    (hshort : ∀ i ∈ integersOfItems items, isLong i = false) (within : List Nat) :
    shownItemsBy integerText label within items
      = .ok (Id.run (shownItemsBy (fun i => pure (intText i)) (fun _ _ => pure []) within
        items)) := by
  cases items with
  | nil => rfl
  | cons v items =>
    simp only [nodesOfItems, List.append_eq_nil_iff] at hnodes
    simp only [integersOfItems, List.mem_append] at hshort
    simp only [shownItemsBy, shownBy_of_short hnodes.1 (fun i hi => hshort i (.inl hi)) within,
      shownItemsBy_of_short hnodes.2 (fun i hi => hshort i (.inr hi)) within]
    rfl

/-- Fields of a table with texts of their own are shown in one way. -/
theorem shownFieldsBy_of_short {fields : List (String × Value)} (hnodes : nodesOfFields fields = [])
    (hshort : ∀ i ∈ integersOfFields fields, isLong i = false) (within : List Nat) :
    shownFieldsBy integerText label within fields
      = .ok (Id.run (shownFieldsBy (fun i => pure (intText i)) (fun _ _ => pure []) within
        fields)) := by
  match fields with
  | [] => rfl
  | (k, v) :: fields =>
    simp only [nodesOfFields, List.append_eq_nil_iff] at hnodes
    simp only [integersOfFields, List.mem_append] at hshort
    simp only [shownFieldsBy, shownBy_of_short hnodes.1 (fun i hi => hshort i (.inl hi)) within,
      shownFieldsBy_of_short hnodes.2 (fun i hi => hshort i (.inr hi)) within]
    rfl

end

/-- A value with a text of its own has the same text however nodes are written. -/
theorem HasOwnText.writtenBy {v : Value} (hv : v.HasOwnText) :
    v.writtenBy integerText write label [] = .ok v.asText := by
  have hshown : v.shownBy integerText label [] = .ok (v.shownAtLength []) :=
    shownBy_of_short hv.nodes hv.short []
  cases v with
  | text => rfl
  | node i => cases hv.nodes
  | _ => exact hshown

/-- The text of a value with a text of its own, where there are no nodes to be asked. -/
theorem HasOwnText.written {v : Value} (hv : v.HasOwnText) : v.written = .ok v.asText :=
  hv.writtenBy

/-- An integer that is too long has no text. -/
theorem writtenBy_of_isLong {i : Int} (hi : isLong i = true) (within : List Nat) :
    (int i).writtenBy integerText write label within = .error .integerTooLong := by
  simp only [Value.writtenBy, shownBy, integerText, hi, if_true]

/-- A text is written as itself. -/
@[simp] theorem written_text (t : Text) : (text t).written = .ok t := rfl

/-- A text holds nothing that keeps it from being written. -/
theorem hasOwnText_text (t : Text) : (text t).HasOwnText := ⟨rfl, by simp [integers]⟩

end

end Value

end FeatureTree
