import FeatureTree.Layout.Loose
import FeatureTree.Proofs.Gherkin.Cells
import FeatureTree.Proofs.Lists
import Mathlib.Algebra.BigOperators.Group.List.Basic
import Mathlib.Algebra.Group.Nat.Even
import Mathlib.Algebra.GroupWithZero.Nat
import Mathlib.Data.List.DropRight

/-!
# Aligned tables

The width of a column is the length of its longest cell, counted in the written form. Rows may have
different numbers of cells; a row takes part in as many columns as it has cells. Every cell is
filled up to the width of its column, so where a cell starts depends on its column alone.

Whether a pipe separates cells is told by the backslashes directly in front of it: after an even
number of them it does. A written value ends in an even number of backslashes, whatever it ends in
itself, so it can hold no separator and cannot take the one behind it away.

## Main results

* `Layout.getElem?_columnWidths`: the width of a column is the greatest length in it
* `Text.hasPipe_append`: pipes are found part by part
* `Cell.sealed_escape`: a written value neither holds a separating pipe nor escapes one behind it
* `Layout.isAligned_tableLine`: where the cells and the separators of a line stand
* `Layout.tables_aligned`: the lines of a table
-/

namespace FeatureTree

/-! ### Widths of columns -/

namespace Layout

/-- Widening takes the greater width in each column. -/
theorem getElem?_widen (widths lengths : List Nat) (j : Nat) :
    (widen widths lengths)[j]? = Option.merge max widths[j]? lengths[j]? := by
  fun_induction widen widths lengths generalizing j with
  | case1 widths => simp
  | case2 n lengths ih =>
    cases j with
    | zero => simp
    | succ j => simpa using ih j
  | case3 width widths n lengths ih =>
    cases j with
    | zero => simp
    | succ j => simpa using ih j

/-- The width of a column is the greatest length in it. -/
theorem getElem?_foldl_widen (lengths : List (List Nat)) (widths : List Nat) (j : Nat) :
    (lengths.foldl widen widths)[j]?
      = Option.merge max widths[j]? (lengths.filterMap (·[j]?)).max? := by
  induction lengths generalizing widths with
  | nil => simp
  | cons row lengths ih =>
    rw [List.foldl_cons, ih, getElem?_widen, List.filterMap_cons]
    cases hrow : row[j]? with
    | none => simp
    | some n =>
      simp only [List.max?_cons]
      cases widths[j]? <;> cases (lengths.filterMap (·[j]?)).max? <;> simp [Nat.max_assoc]

/-- The width of a column is the greatest length of the cells in it; there is none behind the last
column. -/
theorem getElem?_columnWidths (grid : List (List Text)) (j : Nat) :
    (columnWidths grid)[j]? = ((grid.filterMap (·[j]?)).map List.length).max? := by
  rw [columnWidths, widest, getElem?_foldl_widen, List.filterMap_map, List.map_filterMap]
  simp

/-- There are as many columns as the longest row has cells. -/
theorem length_columnWidths_escape (rows : List (List Text)) :
    (columnWidths (rows.map (·.map Cell.escape))).length = (rows.map List.length).max?.getD 0 := by
  rw [length_columnWidths, List.foldl_max, Nat.zero_max, List.map_map]
  simp [Function.comp_def]

/-- Every row has a width for each of its cells. -/
theorem length_le_columnWidths {rows : List (List Text)} {values : List Text} (h : values ∈ rows) :
    values.length ≤ (columnWidths (rows.map (·.map Cell.escape))).length := by
  have hmem : values.length ∈ rows.map List.length := List.mem_map_of_mem h
  obtain ⟨n, hn⟩ := Option.isSome_iff_exists.mp (List.isSome_max?_of_mem hmem)
  rw [length_columnWidths_escape, hn]
  exact (List.max?_eq_some_iff.mp hn).2 _ hmem

/-- Every cell has a width, and fits into it. -/
theorem exists_width {grid : List (List Text)} {cells : List Text} (h : cells ∈ grid) {j : Nat}
    {cell : Text} (hcell : cells[j]? = some cell) :
    ∃ width, (columnWidths grid)[j]? = some width ∧ cell.length ≤ width := by
  have hmem : cell.length ∈ (grid.filterMap (·[j]?)).map List.length :=
    List.mem_map_of_mem (List.mem_filterMap.mpr ⟨cells, h, hcell⟩)
  obtain ⟨width, hwidth⟩ := Option.isSome_iff_exists.mp (List.isSome_max?_of_mem hmem)
  exact ⟨width, by rw [getElem?_columnWidths, hwidth], (List.max?_eq_some_iff.mp hwidth).2 _ hmem⟩

end Layout

/-! ### Pipes that separate -/

namespace Text

/-- The number of backslashes at the end of a text. -/
def backslashes (t : Text) : Nat := (t.rtakeWhile (· = '\\')).length

/-- Whether a pipe that is not escaped stands at a position: the number of backslashes directly in
front of it is even. -/
def HasPipe (t : Text) (i : Nat) : Prop := t[i]? = some '|' ∧ Even (backslashes (t.take i))

variable {s t : Text} {i : Nat}

/-- Backslashes at the end are counted on into the text in front if there is nothing else behind
it. -/
theorem backslashes_append (s t : Text) :
    backslashes (s ++ t)
      = if backslashes t = t.length then backslashes s + t.length else backslashes t := by
  simp only [backslashes, List.rtakeWhile, List.reverse_append, List.takeWhile_append,
    List.length_reverse]
  split <;> simp [Nat.add_comm]

/-- An even number of backslashes in front does not change what comes behind. -/
theorem even_backslashes_append (h : Even (backslashes s)) (t : Text) :
    Even (backslashes (s ++ t)) ↔ Even (backslashes t) := by
  rw [backslashes_append]
  split
  · next hall => rw [Nat.even_add, hall, iff_true_left h]
  · rfl

/-- Behind an even number of backslashes pipes are found as if nothing stood in front. -/
theorem hasPipe_append (h : Even (backslashes s)) :
    HasPipe (s ++ t) i ↔ HasPipe s i ∨ ∃ k, i = s.length + k ∧ HasPipe t k := by
  rcases Nat.lt_or_ge i s.length with hi | hi
  · have hno : ¬ ∃ k, i = s.length + k ∧ HasPipe t k := by
      rintro ⟨k, rfl, -⟩
      omega
    rw [HasPipe, List.getElem?_append_left hi, List.take_append_of_le_length (Nat.le_of_lt hi),
      or_iff_left hno, HasPipe]
  · obtain ⟨k, rfl⟩ := Nat.exists_eq_add_of_le hi
    have hno : ¬ HasPipe s (s.length + k) := by
      rintro ⟨hpipe, -⟩
      rw [List.getElem?_eq_none hi] at hpipe
      cases hpipe
    rw [or_iff_right hno, HasPipe, List.getElem?_append_right hi, Nat.add_sub_cancel_left,
      List.take_length_add_append, even_backslashes_append h]
    simp [HasPipe]

/-- A text that holds no separating pipe and does not escape one behind it. -/
structure Sealed (t : Text) : Prop where
  even : Even (backslashes t)
  not_hasPipe : ∀ i, ¬ HasPipe t i

/-- Texts that are sealed are sealed together. -/
theorem Sealed.append (hs : Sealed s) (ht : Sealed t) : Sealed (s ++ t) where
  even := (even_backslashes_append hs.even t).mpr ht.even
  not_hasPipe i := by
    rw [hasPipe_append hs.even]
    rintro (hpipe | ⟨k, -, hpipe⟩)
    · exact hs.not_hasPipe i hpipe
    · exact ht.not_hasPipe k hpipe

/-- A text without pipes is sealed if the backslashes at its end are even in number. -/
theorem sealed_of_even (hpipe : '|' ∉ t) (heven : Even (backslashes t)) : Sealed t :=
  ⟨heven, fun _ h => hpipe (List.mem_of_getElem? h.1)⟩

/-- A text without pipes and backslashes is sealed. -/
theorem sealed_of_not_mem (hpipe : '|' ∉ t) (hback : '\\' ∉ t) : Sealed t := by
  refine sealed_of_even hpipe ?_
  have hnone : backslashes t = 0 := by
    rw [backslashes, List.length_eq_zero_iff, List.rtakeWhile_eq_nil_iff]
    intro hne hlast
    exact hback (of_decide_eq_true hlast ▸ List.getLast_mem hne)
  rw [hnone]
  exact Even.zero

/-- Behind a pipe a sealed text has no other. -/
theorem Sealed.hasPipe_cons (h : Sealed t) : HasPipe ('|' :: t) i ↔ i = 0 := by
  have hpipe : HasPipe ['|'] i ↔ i = 0 := by
    cases i <;> simp [HasPipe, backslashes]
  rw [← List.singleton_append, hasPipe_append (by decide), hpipe, or_iff_left]
  rintro ⟨k, -, hk⟩
  exact h.not_hasPipe k hk

/-- The pipes around sealed texts are the pipes that separate. -/
theorem hasPipe_fenced {ts : List Text} (h : ∀ t ∈ ts, Sealed t) :
    HasPipe ('|' :: ts.flatMap (· ++ ['|'])) i
      ↔ ∃ j ≤ ts.length, i = ((ts.take j).map (·.length + 1)).sum := by
  induction ts generalizing i with
  | nil => simpa using (sealed_of_not_mem (t := []) (by simp) (by simp)).hasPipe_cons
  | cons t ts ih =>
    rw [List.forall_mem_cons] at h
    have heven : Even (backslashes ('|' :: t)) := by
      rw [← List.singleton_append, even_backslashes_append (by decide)]
      exact h.1.even
    have hsplit : '|' :: (t :: ts).flatMap (· ++ ['|'])
        = ('|' :: t) ++ '|' :: ts.flatMap (· ++ ['|']) := by simp
    rw [hsplit, hasPipe_append heven, h.1.hasPipe_cons]
    constructor
    · rintro (rfl | ⟨k, rfl, hpipe⟩)
      · exact ⟨0, Nat.zero_le _, rfl⟩
      · obtain ⟨j, hj, rfl⟩ := (ih h.2).mp hpipe
        exact ⟨j + 1, Nat.succ_le_succ hj, by simp⟩
    · rintro ⟨_ | j, hj, rfl⟩
      · exact .inl rfl
      · exact .inr ⟨_, by simp, (ih h.2).mpr ⟨j, Nat.le_of_succ_le_succ hj, rfl⟩⟩

/-- Each part adds its length and that of a pipe. -/
theorem length_fenced (ts : List Text) :
    (ts.flatMap (· ++ ['|'])).length = (ts.map (·.length + 1)).sum := by
  induction ts with
  | nil => rfl
  | cons t ts ih =>
    rw [List.flatMap_cons, List.length_append, ih, List.map_cons, List.sum_cons, List.length_append,
      List.length_singleton]

/-- Texts with a pipe behind each are passed one by one. -/
theorem drop_fenced (ts : List Text) (j : Nat) :
    (ts.flatMap (· ++ ['|'])).drop ((ts.take j).map (·.length + 1)).sum
      = (ts.drop j).flatMap (· ++ ['|']) := by
  have hlengths : (ts.take j).map (·.length + 1)
      = ((ts.map (· ++ ['|'])).map List.length).take j := by
    rw [List.map_map, List.map_take]
    simp [Function.comp_def]
  rw [hlengths, List.flatMap, List.drop_sum_flatten, ← List.map_drop, List.flatMap]

end Text

/-- An escaped character is sealed. -/
theorem Cell.sealed_escapeChar (c : Char) : (escapeChar c).Sealed := by
  rw [escapeChar]
  split
  · exact Text.sealed_of_even (by decide) (by decide)
  · split
    · -- The pipe that stands for itself has one backslash in front of it.
      refine ⟨by decide, fun i h => ?_⟩
      obtain ⟨hpipe, heven⟩ := h
      rcases i with _ | _ | i
      · simp at hpipe
      · exact absurd heven (by decide)
      · simp at hpipe
    · split
      · exact Text.sealed_of_even (by decide) (by decide)
      · next hback hpipe _ =>
        exact Text.sealed_of_not_mem (by simpa using Ne.symm hpipe) (by simpa using Ne.symm hback)

/-- A written value holds no separating pipe, and none behind it is escaped. -/
theorem Cell.sealed_escape (value : Text) : (escape value).Sealed := by
  induction value with
  | nil => exact Text.sealed_of_not_mem (by simp) (by simp)
  | cons c value ih => exact (sealed_escapeChar c).append ih

/-- The box of a value is sealed. -/
theorem Cell.sealed_box (width : Nat) (value : Text) : (box width value).Sealed := by
  obtain ⟨w, hw, hbox⟩ := box_eq width value
  have hspaces : ∀ {u : Text}, (∀ c ∈ u, c = ' ') → u.Sealed := fun hu =>
    Text.sealed_of_not_mem (fun h => absurd (hu _ h) (by decide))
      fun h => absurd (hu _ h) (by decide)
  rw [hbox]
  exact (hspaces (by simp)).append ((sealed_escape value).append (hspaces (spaces_concat hw)))

/-! ### Table lines -/

namespace Layout

open Cell (escape box)

/-- Where the cells of a column start in a table line: behind the margin and the columns in front,
each as wide as it is with a separator and its spaces. -/
def cellStart (widths : List Nat) (j : Nat) : Nat := 2 + ((widths.take j).map (· + 3)).sum

/-- Whether a line shows some values aligned to widths. -/
structure IsAligned (widths : List Nat) (values : List Text) (line : Text) : Prop where
  /-- Every value is written where its column starts, and filled up to the width of it. -/
  cell : ∀ j value, values[j]? = some value → ∃ width, widths[j]? = some width
    ∧ (escape value).length ≤ width
    ∧ escape value ++ List.replicate (width - (escape value).length) ' ' ++ [' ', '|']
      <+: line.drop (cellStart widths j)
  /-- The pipes that are not escaped are the first and the last character and those between two
  columns. -/
  pipes : ∀ i, line.HasPipe i ↔ i = 0 ∨ i + 1 = line.length
    ∨ ∃ j, 0 < j ∧ j < values.length ∧ i + 2 = cellStart widths j
  /-- The length depends on how many values there are. -/
  length : line.length = if values = [] then 4 else cellStart widths values.length - 1

variable {widths : List Nat} {values : List Text}

/-- The box of a value is wider than its column by a space on each side. -/
theorem length_box {width : Nat} {value : Text} (h : (escape value).length ≤ width) :
    (box width value).length = width + 2 := by
  simp [box]
  omega

/-- The boxes of the values of a line, each as wide as its column with a blank on either side. -/
def boxes (widths : List Nat) (values : List Text) : List Text :=
  (widths.zip values).map fun p => box p.1 p.2

section

variable (hlen : values.length ≤ widths.length)
  (hfit : ∀ p ∈ widths.zip values, (escape p.2).length ≤ p.1)

/-- A line of a table is its boxes with pipes around them. -/
theorem tableLine_eq_fenced (hne : values ≠ []) (hlen : values.length ≤ widths.length) :
    tableLine widths (values.map escape) = '|' :: (boxes widths values).flatMap (· ++ ['|']) := by
  rw [Cell.tableLine_eq_boxes hne hlen, boxes, List.flatMap_map]

include hlen in
/-- There is a box for each value. -/
theorem length_boxes : (boxes widths values).length = values.length := by
  rw [boxes, List.length_map, List.length_zip, Nat.min_eq_right hlen]

include hlen hfit in
/-- A column takes up its width, a blank on either side and a pipe. -/
theorem sum_take_boxes {j : Nat} (hj : j ≤ values.length) :
    (((boxes widths values).take j).map (·.length + 1)).sum
      = ((widths.take j).map (· + 3)).sum := by
  have hfst : (widths.zip values).map Prod.fst = widths.take values.length := by
    rw [List.zip_eq_zip_take_min, List.map_fst_zip (by simp), Nat.min_eq_right hlen]
  have hlengths : (boxes widths values).map (·.length + 1)
      = (widths.take values.length).map (· + 3) := by
    rw [← hfst, boxes, List.map_map, List.map_map]
    refine List.map_congr_left fun p hp => ?_
    simp [length_box (hfit p hp)]
  rw [List.map_take, hlengths, ← List.map_take, List.take_take, Nat.min_eq_left hj]

include hlen hfit in
/-- A cell starts behind the boxes and pipes in front of it, and a space. -/
theorem cellStart_eq {j : Nat} (hj : j ≤ values.length) :
    cellStart widths j = 2 + (((boxes widths values).take j).map (·.length + 1)).sum := by
  rw [cellStart, sum_take_boxes hlen hfit hj]

include hlen hfit in
/-- A line of a table ends where another cell would start, but for one space. -/
theorem length_tableLine (hne : values ≠ []) :
    (tableLine widths (values.map escape)).length = cellStart widths values.length - 1 := by
  have hall : (boxes widths values).take values.length = boxes widths values := by
    rw [← length_boxes hlen, List.take_length]
  rw [tableLine_eq_fenced hne hlen, cellStart_eq hlen hfit (Nat.le_refl _), hall, List.length_cons,
    Text.length_fenced]
  omega

include hlen hfit in
/-- A value stands in its line where its column starts, filled up and with a pipe behind it. -/
theorem isPrefix_drop_tableLine {j width : Nat} {value : Text} (hvalue : values[j]? = some value)
    (hwidth : widths[j]? = some width) :
    (escape value).padRight width ++ [' ', '|']
      <+: (tableLine widths (values.map escape)).drop (cellStart widths j) := by
  have hne : values ≠ [] := by
    rintro rfl
    cases hvalue
  have hj : j < values.length := (List.getElem?_eq_some_iff.mp hvalue).1
  have hpair : (widths.zip values)[j]? = some (width, value) :=
    List.getElem?_zip_eq_some.mpr ⟨hwidth, hvalue⟩
  have hbox : (boxes widths values)[j]? = some (box width value) := by
    rw [boxes, List.getElem?_map, hpair, Option.map_some]
  obtain ⟨hlt, hget⟩ := List.getElem?_eq_some_iff.mp hbox
  have hstart : cellStart widths j
      = (((boxes widths values).take j).map (·.length + 1)).sum + 1 + 1 := by
    rw [cellStart_eq hlen hfit (Nat.le_of_lt hj)]
    omega
  rw [tableLine_eq_fenced hne hlen, hstart, List.drop_succ_cons, ← List.drop_drop,
    Text.drop_fenced, List.drop_eq_getElem_cons hlt, hget, List.flatMap_cons]
  exact ⟨((boxes widths values).drop (j + 1)).flatMap (· ++ ['|']), by simp [box]⟩

include hlen hfit in
/-- The pipes that separate stand two places in front of where columns start, the last one where
the next column would start. -/
theorem hasPipe_tableLine (hne : values ≠ []) (i : Nat) :
    (tableLine widths (values.map escape)).HasPipe i
      ↔ ∃ j ≤ values.length, i + 2 = cellStart widths j := by
  have hsealed : ∀ t ∈ boxes widths values, t.Sealed :=
    List.forall_mem_map.mpr fun p _ => Cell.sealed_box p.1 p.2
  rw [tableLine_eq_fenced hne hlen, Text.hasPipe_fenced hsealed, length_boxes hlen]
  refine exists_congr fun j => and_congr_right fun hj => ?_
  rw [cellStart_eq hlen hfit hj]
  omega

include hlen hfit in
/-- The line of the values of a row is aligned. -/
theorem isAligned_tableLine : IsAligned widths values (tableLine widths (values.map escape)) := by
  refine ⟨fun j value hvalue => ?_, fun i => ?_, ?_⟩
  · have hj : j < widths.length :=
      Nat.lt_of_lt_of_le (List.getElem?_eq_some_iff.mp hvalue).1 hlen
    have hwidth : widths[j]? = some widths[j] := List.getElem?_eq_getElem hj
    refine ⟨widths[j], hwidth, ?_, isPrefix_drop_tableLine hlen hfit hvalue hwidth⟩
    exact hfit (widths[j], value)
      (List.mem_of_getElem? (List.getElem?_zip_eq_some.mpr ⟨hwidth, hvalue⟩))
  · rcases eq_or_ne values [] with rfl | hne
    · -- A row without cells is written with the blanks of both margins between two pipes.
      have hline : tableLine widths [] = '|' :: [[' ', ' ']].flatMap (· ++ ['|']) := rfl
      have hsealed : ∀ t ∈ [[' ', ' ']], Text.Sealed t :=
        List.forall_mem_singleton.mpr (Text.sealed_of_not_mem (by decide) (by decide))
      rw [List.map_nil, hline, Text.hasPipe_fenced hsealed, List.length_singleton]
      simp only [Nat.le_one_iff_eq_zero_or_eq_one, exists_eq_or_imp, exists_eq_left]
      simp
    · have hstart : 2 ≤ cellStart widths values.length := Nat.le_add_right 2 _
      have hfirst : cellStart widths 0 = 2 := rfl
      rw [hasPipe_tableLine hlen hfit hne, length_tableLine hlen hfit hne]
      constructor
      · rintro ⟨j, hj, hi⟩
        rcases Nat.eq_zero_or_pos j with rfl | hpos
        · exact .inl (by omega)
        · rcases Nat.eq_or_lt_of_le hj with rfl | hlt
          · exact .inr (.inl (by omega))
          · exact .inr (.inr ⟨j, hpos, hlt, hi⟩)
      · rintro (rfl | hlast | ⟨j, -, hj, hi⟩)
        · exact ⟨0, Nat.zero_le _, rfl⟩
        · exact ⟨values.length, Nat.le_refl _, by omega⟩
        · exact ⟨j, Nat.le_of_lt hj, hi⟩
  · split
    · next hnil =>
      subst hnil
      rfl
    · next hne => exact length_tableLine hlen hfit hne

end

/-- Lines with the same number of values are of the same length. -/
theorem IsAligned.length_eq {values' : List Text} {line line' : Text}
    (h : IsAligned widths values line) (h' : IsAligned widths values' line')
    (hlen : values.length = values'.length) : line.length = line'.length := by
  have hnil : values = [] ↔ values' = [] := by
    rw [← List.length_eq_zero_iff, hlen, List.length_eq_zero_iff]
  rw [h.length, h'.length, hlen]
  simp only [hnil]

/-! ### Tables -/

/-- The line of a row of a table is aligned to the widths of its columns. -/
theorem isAligned_of_mem {rows : List (List Text)} (h : values ∈ rows) :
    IsAligned (columnWidths (rows.map (·.map escape))) values
      (tableLine (columnWidths (rows.map (·.map escape))) (values.map escape)) := by
  have hmem : values.map escape ∈ rows.map (·.map escape) := List.mem_map_of_mem h
  refine isAligned_tableLine (length_le_columnWidths h) ?_
  rintro ⟨width, value⟩ hp
  obtain ⟨j, hj⟩ := List.getElem?_of_mem hp
  obtain ⟨hwidth, hvalue⟩ := List.getElem?_zip_eq_some.mp hj
  obtain ⟨_, hwidth', hle⟩ := exists_width hmem (by rw [List.getElem?_map, hvalue, Option.map_some])
  rw [hwidth] at hwidth'
  exact Option.some.inj hwidth' ▸ hle

/-- The widths of a grid of texts are those of its columns. -/
theorem widthsOf_text (grid : List (List Text)) :
    widthsOf (.list (grid.map fun cells => .list (cells.map .text))) = .ok (columnWidths grid) := by
  have hrow : ∀ cells : List Text,
      (do (← (Value.list (cells.map .text)).members).mapM Value.size)
        = .ok (cells.map List.length) :=
    fun cells => mapM_of_forall₂ (List.forall₂_map_right_iff.mpr (List.forall₂_map_left_iff.mpr
      (List.forall₂_same.mpr fun cell _ => Value.size_text cell)))
  have hgrid : (grid.map fun cells => Value.list (cells.map .text)).mapM
      (fun row => do (← row.members).mapM Value.size) = .ok (grid.map (·.map List.length)) :=
    mapM_of_forall₂ (List.forall₂_map_right_iff.mpr (List.forall₂_map_left_iff.mpr
      (List.forall₂_same.mpr fun cells _ => hrow cells)))
  exact congrArg (fun lengths : Except Fault (List (List Nat)) => do return widest (← lengths))
    hgrid

/-- For any rows, ragged or not. There are as many widths as the longest row has cells, and each is
the greatest length in its column, of the cells as they are written. The table can be written and
has one line for each row: every cell starts where its column does, is filled up to the width of it
and has a blank and a pipe behind it; the pipes that are not escaped are those between two cells and
the two outer ones. Rows of the same number of cells have lines of the same length. -/
theorem tables_aligned (rows : List (List Text)) :
    let grid : List (List Text) := rows.map (·.map escape)
    ((columnWidths grid).length = (rows.map List.length).max?.getD 0
        ∧ ∀ j : Nat, (columnWidths grid)[j]?
          = ((grid.filterMap fun cells => cells[j]?).map List.length).max?)
      ∧ widthsOf (.list (grid.map fun cells => .list (cells.map .text))) = .ok (columnWidths grid)
      ∧ ∃ lines, tableOf (.list (rows.map fun cells => .list (cells.map .text))) = .ok lines
        ∧ List.Forall₂ (IsAligned (columnWidths grid)) rows lines
        ∧ ∀ p ∈ rows.zip lines, ∀ q ∈ rows.zip lines, p.1.length = q.1.length →
          p.2.length = q.2.length := by
  intro grid
  have hlines : List.Forall₂ (IsAligned (columnWidths grid)) rows (tableLines rows) := by
    rw [tableLines, gridLines, List.map_map, List.forall₂_map_right_iff, List.forall₂_same]
    exact fun row hrow => isAligned_of_mem hrow
  have hpairs : ∀ p ∈ rows.zip (tableLines rows), IsAligned (columnWidths grid) p.1 p.2 :=
    fun _ hp => (List.forall₂_iff_zip.mp hlines).2 hp
  exact ⟨⟨length_columnWidths_escape rows, getElem?_columnWidths grid⟩, widthsOf_text grid,
    tableLines rows, tableOf_text rows, hlines,
    fun p hp q hq => (hpairs p hp).length_eq (hpairs q hq)⟩

/-- A pipe and a backslash at the ends of cells, and a row without cells. -/
example : tableLines [["a|".toList, ['b']], [['\\']], []]
    = ["| a\\| | b |".toList, "| \\\\  |".toList, "|  |".toList] := by decide

end Layout

end FeatureTree
