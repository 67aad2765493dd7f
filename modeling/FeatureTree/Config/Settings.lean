import FeatureTree.Config.Environment

/-!
# Settings

The default settings, the merging of one configuration over another, and the reading of single
settings. A configuration comes from outside, so a setting can have any value; reading one says what
becomes of a value of the wrong kind.

## Main results

* `Config.lookup_merge`: what a merged configuration holds under a name
-/

namespace FeatureTree

namespace Config

/-- The settings of a program without a configuration. -/
def defaults : Fields :=
  [("parsing", .table [("dialect", .text ['e', 'n'])]),
   ("scanning", .table
     [("patterns", .list [.text "*.feature".toList]),
      ("recursive", .bool true),
      ("skip_dirs", .list []),
      ("skip_files", .list [])])]

mutual

/-- The value that results when one is set over another: tables are merged field by field, any
other value replaces what was there. -/
def mergeValue (base : Option Value) : Value → Value
  | .table override =>
    match base with
    | some (.table fields) => .table (mergeFields fields override)
    | _ => .table override
  | v => v

/-- Sets the fields of one table over those of another. -/
def mergeFields (base : Fields) : List (String × Value) → Fields
  | [] => base
  | (key, v) :: override =>
    mergeFields (Value.put key (mergeValue (Value.lookup key base) v) base) override

end

/-- Merges a configuration over another. -/
def merge (base override : Fields) : Fields := mergeFields base override

/-- Merges what is meant to be a configuration over another. The fields of the one that is set over
the other are gone through, so it has to be a table; the other has to be one if it is to take any
field, and whether it can be asked for a field is noticed before whether it can be given one. -/
def mergeAny (base override : Value) : Except Fault Value :=
  match base, override with
  | .table base, .table override => .ok (.table (merge base override))
  | base, .table [] => .ok base
  | _, .table ((_, .table _) :: _) => .error .noAttribute
  | _, .table (_ :: _) => .error .unusableValue
  | _, _ => .error .noAttribute

/-- The fields of what is meant to be a configuration. -/
def fieldsOf (config : Value) : Except Fault Fields :=
  match config with
  | .table fields => .ok fields
  | _ => .error .noAttribute

/-- A section of a configuration, empty when it is left out. -/
def sectionOf (config : Fields) (name : String) : Value :=
  (Value.lookup name config).getD (.table [])

/-- The dialect that a configuration names; nothing if it is silent on it. A section that is no
table cannot be asked. -/
def dialect? (config : Fields) : Except Fault (Option Value) :=
  match sectionOf config "parsing" with
  | .table fields => .ok (Value.lookup "dialect" fields)
  | _ => .error .noAttribute

/-- Whether a configuration asks for directories below the first one to be read. -/
def recursive (config : Fields) : Except Fault Bool :=
  match sectionOf config "scanning" with
  | .table fields => .ok ((Value.lookup "recursive" fields).getD (.bool true)).isPresent
  | _ => .error .noAttribute

/-! ### Merging -/

/-- What the overriding fields do not name is as it was below them. -/
theorem lookup_mergeFields_of_not_mem {key : String} (base : Fields)
    {override : List (String × Value)} (h : ∀ v, (key, v) ∉ override) :
    Value.lookup key (mergeFields base override) = Value.lookup key base := by
  induction override generalizing base with
  | nil => simp [mergeFields]
  | cons f override ih =>
    obtain ⟨k, v⟩ := f
    have hk : key ≠ k := by
      rintro rfl
      exact h v (by simp)
    rw [mergeFields, ih _ fun v hv => h v (by simp [hv]), Value.lookup_put_of_ne hk]

/-- What a merged configuration holds under a name: what was there if the name is not overridden,
else the override merged over it. -/
theorem lookup_merge (key : String) (base override : Fields)
    (nodup : (override.map (·.1)).Nodup) :
    Value.lookup key (merge base override) =
      match Value.lookup key override with
      | none => Value.lookup key base
      | some v => some (mergeValue (Value.lookup key base) v) := by
  unfold merge
  induction override generalizing base with
  | nil => simp [mergeFields, Value.lookup]
  | cons f override ih =>
    obtain ⟨k, v⟩ := f
    rw [List.map_cons, List.nodup_cons] at nodup
    by_cases hk : key = k
    · subst hk
      have hnot : ∀ w, (key, w) ∉ override := fun w hw =>
        nodup.1 (List.mem_map.mpr ⟨(key, w), hw, rfl⟩)
      rw [mergeFields, lookup_mergeFields_of_not_mem _ hnot, Value.lookup_put]
      simp [Value.lookup]
    · have hb : (key == k) = false := by simpa using hk
      rw [mergeFields, ih _ nodup.2]
      simp only [Value.lookup_put_of_ne hk]
      simp [Value.lookup, List.lookup_cons, hb]

end Config

end FeatureTree
