import FeatureTree.Toml.Draft

/-!
# Putting tables together

Entries are set one after the other. Under a new name anything can be set. A value is never set
again, and a table that a header has opened is not opened again; a table that only longer keys went
through can be met again. Then it goes on where it ended, or it gets one more part, if other tables
came in between or a dotted key or a header has made one of the two. The parts of a table have to
fit together: one after the other, their entries have to make one table.

Tables that stand in one another as deep as their keys are long are gone through with a bound on the
depth; a bound that is large enough for the text that was read is given by its length.

## Main results

* `Toml.Section.append_of_new`: under a new name anything can be set
* `Toml.Section.append_value_of_known`: a name that is known cannot be given a value
* `Toml.Section.fits_of_apart`: parts without a common name fit together
-/

namespace FeatureTree

namespace Toml

namespace Section

/-- Whether an implied table goes on in the implied one of its name that stands before it: no dotted
key has made either of them, and no other table has come in between. -/
def continues (s : Section) (earlier name : Label) : Bool :=
  !name.dotted && !earlier.dotted && s.lastTable? = some name.key

/-- Looks at two parts of a table, one of which a header has opened. What is a table in both is
looked at in the same way, whether a header has opened it or not, but a table in parts is not taken
up again. A dotted key does not go into a table that a header has opened, nor the other way round.
-/
def fits : Nat → Section → Section → Except Fault Unit
  | 0, _, _ => .error .invalidConfig
  | n + 1, before, inside => inside.entries.forM fun (name, d) =>
    match before.under name.key with
    | [] => .ok ()
    | [(earlier, current)] =>
      match d, current with
      | .tables _, .tables _ => .ok ()
      | .table opening _, .tables _ =>
        if opening = .header then .error .repeatedName
        else if name.dotted then .error .reopenedTable
        else .ok ()
      | .table later inner, .table first outer =>
        if later = .header && first = .header then .error .repeatedName
        else if (name.dotted && first = .header) || (earlier.dotted && later = .header) then
          .error .reopenedTable
        else fits n outer inner
      | _, _ => .error .repeatedName
    | _ => .error .repeatedName

/-- Puts an entry behind the others, where under its key there are tables only. The tables of a list
join the ones of a list that is there. -/
def pushPart (s : Section) (name : Label) (d : Draft) : Except Fault Section :=
  match s.latest? name.key, d with
  | none, _ | some (_, .table _ _), _ => .ok (s.push name d)
  | some (_, .tables before), .tables items =>
    .ok (s.replaceLatest name.key (.tables (before ++ items)))
  | _, _ => .error .repeatedName

mutual

/-- Sets an entry. If it becomes one more part of a table, `checked` says whether the parts are put
together at once. -/
def append : Nat → Bool → Section → Label → Draft → Except Fault Section
  | 0, _, _, _, _ => .error .invalidConfig
  | n + 1, checked, s, name, d =>
    match s.latest? name.key with
    | none => .ok (s.push name d)
    | some (earlier, current) =>
      let part : Except Fault Section :=
        let s := s.push name d
        if checked then join n s name.key else .ok s
      match d, current with
      | .table .member _, .tables items =>
        .ok (s.replaceLatest name.key (.tables (items ++ [d])))
      | .table .member _, .table _ _ =>
        .ok (s.mapEntries (replaceAll name.key (.tables [current, d])))
      | .table .implied inside, .tables items =>
        match items.getLast? with
        | some (.table opening before) => do
          let merged ← inside.entries.foldlM (fun s (e : Label × Draft) => append n true s e.1 e.2)
            before
          return s.replaceLatest name.key (.tables (items.dropLast ++ [.table opening merged]))
        | _ => .error .repeatedName
      | .table .header _, .table .header _ => .error .repeatedName
      | .table .header inside, .table _ before => do
        if earlier.dotted then throw .reopenedTable
        fits n before inside
        part
      | .table _ inside, .table .header before => do
        fits n before inside
        part
      | .table _ inside, .table opening before =>
        if s.continues earlier name then do
          let merged ← inside.entries.foldlM (fun s (e : Label × Draft) => attach n true s e.1 e.2)
            before
          return s.replaceLatest name.key (.table opening merged)
        else part
      | .tables items, .tables before =>
        .ok (s.replaceLatest name.key (.tables (before ++ items)))
      | _, _ => .error .repeatedName

/-- Sets an entry and looks at the parts of its table. -/
def attach : Nat → Bool → Section → Label → Draft → Except Fault Section
  | 0, _, _, _, _ => .error .invalidConfig
  | n + 1, checked, s, name, d => do
    let s ← append n checked s name d
    if s.isSplit name.key then
      let _ ← gather n (s.partEntries name.key 0)
    return s

/-- Puts the parts of a table together, which were put together before up to some part: one after
the other, their entries have to make one table. -/
def join : Nat → Section → String → Except Fault Section
  | 0, _, _ => .error .invalidConfig
  | n + 1, s, key => do
    if !s.isSplit key then return s
    let (count, before) := s.joinedAs key
    let together ← (s.partEntries key count).foldlM
      (fun s (e : Label × Draft) => append n false s e.1 e.2) before
    return s.keepJoined key (s.under key).length (← joinAll n together)

/-- Puts the parts of all tables together. -/
def joinAll : Nat → Section → Except Fault Section
  | 0, _ => .error .invalidConfig
  | n + 1, s => s.keys.foldlM (join n) s

/-- Puts the entries of all the parts of a table into one, where tables that occur more than once
have to fit together. -/
def gather : Nat → List (Label × Draft) → Except Fault Section
  | 0, _ => .error .invalidConfig
  | n + 1, entries => do
    joinAll n (← entries.foldlM (fun s (e : Label × Draft) => s.pushPart e.1 e.2) .empty)

end

/-- Sets what a key and its value make. A dotted key has its parts put together at once. -/
def setKey (n : Nat) (s : Section) (k : Key) (v : Value) : Except Fault Section :=
  let (name, d) := Draft.ofKey v k.first k.others
  attach n name.dotted s name d

mutual

/-- The fields that have been built. -/
def fieldsValue : Nat → Section → Except Fault (List (String × Value))
  | 0, _ => .error .invalidConfig
  | n + 1, s => s.keys.mapM fun key => do
    match s.under key with
    | [(_, d)] => return (key, ← draftValue n d)
    | _ => return (key, .table (← fieldsValue n (← gather n (s.partEntries key 0))))

/-- The value that has been built. -/
def draftValue : Nat → Draft → Except Fault Value
  | 0, _ => .error .invalidConfig
  | n + 1, d =>
    match d with
    | .value v => .ok v
    | .table _ inside => .table <$> fieldsValue n inside
    | .tables items => .list <$> items.mapM (draftValue n)

end

/-! ### Laws -/

/-- Under a new name anything can be set. -/
theorem append_of_new {s : Section} {name : Label} (h : s.latest? name.key = none) (n : Nat)
    (checked : Bool) (d : Draft) : append (n + 1) checked s name d = .ok (s.push name d) := by
  rw [append, h]

/-- A name that is known cannot be given a value. -/
theorem append_value_of_known {s : Section} {name : Label} {known : Label × Draft}
    (h : s.latest? name.key = some known) (n : Nat) (checked : Bool) (v : Value) :
    append (n + 1) checked s name (.value v) = .error .repeatedName := by
  rw [append, h]

/-- A check of all the members of a list passes exactly when each member passes it. -/
theorem forM_eq_ok_iff {α : Type} {f : α → Except Fault Unit} {items : List α} :
    items.forM f = .ok () ↔ ∀ a ∈ items, f a = .ok () := by
  induction items with
  | nil => exact ⟨fun _ _ h => absurd h List.not_mem_nil, fun _ => rfl⟩
  | cons a items ih =>
    rw [show (a :: items).forM f = (f a >>= fun _ => items.forM f) from rfl, List.forall_mem_cons,
      ← ih]
    cases f a with
    | error e => exact ⟨fun h => (nomatch h), fun h => (nomatch h.1)⟩
    | ok u => exact ⟨fun h => ⟨rfl, h⟩, fun h => h.2⟩

/-- Parts without a common name fit together. -/
theorem fits_of_apart {before inside : Section} (n : Nat)
    (h : ∀ e ∈ inside.entries, before.under e.1.key = []) :
    fits (n + 1) before inside = .ok () := by
  rw [fits]
  exact forM_eq_ok_iff.mpr fun e he => by simp only [h e he]

end Section

end Toml

end FeatureTree
