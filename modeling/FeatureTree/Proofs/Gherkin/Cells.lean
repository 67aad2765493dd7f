import FeatureTree.Layout
import FeatureTree.Proofs.Text.Lines

/-!
# Rows that are read back

A table line is read as the cells that it was written from. An escaped value holds no pipe that
could end its cell, and the blanks around it are padding; so all that is asked of a value is that it
has no padding of its own at its ends (`Cell.Tidy`), which is also what reading a cell gives.

## Main results

* `Cell.tidy_trim`: the value of a cell that was read is tidy
* `Cell.values_ofRow_tableLine`: a table line is read as the values that it was written from
-/

namespace FeatureTree

namespace Cell

/-- A value without padding at its ends. -/
def Tidy (value : Text) : Prop :=
  (∀ c ∈ value.head?, isPadding c = false) ∧ ∀ c ∈ value.getLast?, isPadding c = false

/-- Spaces are padding. -/
theorem isPadding_space : isPadding ' ' = true := by decide

/-- A text without blanks at its ends is tidy. -/
theorem tidy_of_trimmed {value : Text} (h : value.Trimmed) : Tidy value :=
  ⟨fun c hc => by simp [isPadding, h.head c hc], fun c hc => by simp [isPadding, h.last c hc]⟩

/-! ### Padding -/

/-- Dropping padding at the end of a text that does not start with padding keeps its start. -/
theorem head?_reverse_dropWhile {t : Text} (h : ∀ c ∈ t.head?, isPadding c = false) :
    ∀ c ∈ ((t.reverse.dropWhile isPadding).reverse).head?, isPadding c = false := by
  intro c hc
  obtain ⟨s, hs⟩ := Text.dropEndWhile_isPrefix isPadding t
  refine h c ?_
  rw [← hs]
  rw [← Text.dropEndWhile] at hc
  cases hd : Text.dropEndWhile isPadding t with
  | nil => simp [hd] at hc
  | cons a r => simpa [hd] using hc

/-- The value of a cell that was read is tidy. -/
theorem tidy_trim (t : Text) : Tidy (trim t) := by
  have hstart : ∀ c ∈ (t.dropWhile isPadding).head?, isPadding c = false := Text.head?_dropWhile
  rw [trim]
  split
  · next r hr =>
    -- the value ends in a line feed, in front of which padding was dropped
    have ht : t.dropWhile isPadding = r.reverse ++ ['\n'] := by
      rw [← List.reverse_reverse (t.dropWhile isPadding), hr, List.reverse_cons]
    refine ⟨fun c hc => ?_, fun c hc => ?_⟩
    · cases hd : r.dropWhile isPadding with
      | nil =>
        obtain rfl : '\n' = c := by simpa [hd] using hc
        decide
      | cons a s =>
        have hne : r.reverse ≠ [] := by
          intro he
          rw [List.reverse_eq_nil_iff.mp he] at hd
          simp at hd
        have hr' : ∀ c ∈ r.reverse.head?, isPadding c = false := by
          intro d hmem
          refine hstart d ?_
          obtain ⟨e, u, he⟩ := List.exists_cons_of_ne_nil hne
          rw [ht, he]
          simpa [he] using hmem
        have := head?_reverse_dropWhile hr' c
        rw [List.reverse_reverse, hd] at this
        refine this ?_
        rw [hd] at hc
        cases hs : (a :: s).reverse with
        | nil => simp at hs
        | cons b u => simpa [hs] using hc
    · obtain rfl : '\n' = c := by simpa using hc
      decide
  · next r _ =>
    refine ⟨head?_reverse_dropWhile hstart, fun c hc => ?_⟩
    rw [List.getLast?_reverse] at hc
    exact Text.head?_dropWhile c hc

/-- Padding around a tidy value is dropped, if some stands behind it. -/
theorem trim_pad {value w : Text} (h : Tidy value) (hw : ∀ c ∈ w, c = ' ') :
    trim (' ' :: value ++ (w ++ [' '])) = value := by
  have hpad : ∀ c ∈ w ++ [' '], isPadding c = true := by
    intro c hc
    rcases List.mem_append.mp hc with hc | hc
    · rw [hw c hc]; decide
    · rw [List.mem_singleton.mp hc]; decide
  rw [trim, List.cons_append, List.dropWhile_cons_of_pos isPadding_space]
  cases hv : value with
  | nil =>
    rw [List.nil_append, Text.dropWhile_eq_nil.mpr hpad]
    rfl
  | cons c r =>
    have hc : isPadding c = false := h.1 c (by simp [hv])
    rw [List.cons_append, List.dropWhile_cons_of_neg (by simp [hc]), ← List.cons_append, ← hv,
      ← List.append_assoc, List.reverse_append, List.reverse_singleton, List.singleton_append]
    have hdrop : (' ' :: (value ++ w).reverse).dropWhile isPadding = value.reverse := by
      rw [List.dropWhile_cons_of_pos isPadding_space, List.reverse_append,
        List.dropWhile_append_of_pos fun d hd =>
          hpad d (List.mem_append_left _ (List.mem_reverse.mp hd)),
        Text.dropWhile_eq_self]
      simpa [List.head?_reverse] using h.2
    split
    · next heq => simp at heq
    · next hneq => rw [hdrop, List.reverse_reverse]

/-! ### Pieces of a row -/

/-- Puts a text in front of the first piece. -/
def onFirst (s : Text) : List Text → List Text
  | [] => [s]
  | piece :: rest => (s ++ piece) :: rest

/-- A row has one piece at least. -/
theorem pieces_ne_nil (t : Text) : pieces t ≠ [] := by
  fun_cases pieces t <;> simp_all

/-- What is put in front of the first piece can be put there bit by bit. -/
theorem onFirst_append (s u : Text) (ps : List Text) :
    onFirst (s ++ u) ps = onFirst s (onFirst u ps) := by
  cases ps <;> simp [onFirst]

/-- Putting nothing in front of the first piece changes nothing. -/
theorem onFirst_nil {ps : List Text} (h : ps ≠ []) : onFirst [] ps = ps := by
  cases ps with
  | nil => exact absurd rfl h
  | cons p ps => rfl

/-- A character that is neither a pipe nor a backslash belongs to the first piece. -/
theorem pieces_cons_of_plain {c : Char} (hp : c ≠ '|') (hb : c ≠ '\\') (t : Text) :
    pieces (c :: t) = onFirst [c] (pieces t) := by
  have heq : pieces (c :: t)
      = match pieces t with
        | [] => [[c]]
        | piece :: rest => (c :: piece) :: rest :=
    pieces.eq_4 c t hp fun _ _ hc => absurd hc hb
  rw [heq]
  cases pieces t <;> rfl

/-- An escaped character belongs to the first piece. -/
theorem pieces_escapeChar_append (c : Char) (t : Text) :
    pieces (escapeChar c ++ t) = onFirst (escapeChar c) (pieces t) := by
  rw [escapeChar]
  split
  · simp only [List.cons_append, List.nil_append, pieces]
    cases pieces t <;> rfl
  · split
    · simp only [List.cons_append, List.nil_append, pieces]
      cases pieces t <;> rfl
    · split
      · simp only [List.cons_append, List.nil_append, pieces]
        cases pieces t <;> rfl
      · next hb hp _ => exact pieces_cons_of_plain hp hb t

/-- An escaped value holds no pipe that ends its cell. -/
theorem pieces_escape_append (value t : Text) :
    pieces (escape value ++ t) = onFirst (escape value) (pieces t) := by
  induction value with
  | nil => exact (onFirst_nil (pieces_ne_nil t)).symm
  | cons c r ih =>
    rw [escape_cons, List.append_assoc, pieces_escapeChar_append, ih, onFirst_append]

/-- Spaces belong to the first piece. -/
theorem pieces_spaces_append {w : Text} (hw : ∀ c ∈ w, c = ' ') (t : Text) :
    pieces (w ++ t) = onFirst w (pieces t) := by
  induction w with
  | nil => exact (onFirst_nil (pieces_ne_nil t)).symm
  | cons c w ih =>
    obtain rfl : c = ' ' := hw c (by simp)
    rw [List.cons_append, pieces_cons_of_plain (by decide) (by decide),
      ih fun d hd => hw d (List.mem_cons_of_mem _ hd), ← onFirst_append]
    rfl

/-! ### Reading a table line -/

/-- An escaped value is read back in front of any text. -/
theorem unescape_escape_append (value t : Text) :
    unescape (escape value ++ t) = value ++ unescape t := by
  induction value with
  | nil => rfl
  | cons c r ih =>
    rw [escape_cons, List.append_assoc, escapeChar]
    split
    · next h => subst h; simp [unescape, ih]
    · split
      · next h => subst h; simp [unescape, ih]
      · split
        · next h => subst h; simp [unescape, ih]
        · next h _ _ => simp [unescape_cons_of_ne h, ih]

/-- Spaces stand for themselves. -/
theorem unescape_spaces {w : Text} (hw : ∀ c ∈ w, c = ' ') : unescape w = w := by
  induction w with
  | nil => rfl
  | cons c w ih =>
    obtain rfl : c = ' ' := hw c (by simp)
    rw [unescape_cons_of_ne (by decide), ih fun d hd => hw d (List.mem_cons_of_mem _ hd)]

/-- What stands between two pipes for a value. -/
def box (width : Nat) (value : Text) : Text :=
  ' ' :: (escape value).padRight width ++ [' ']

/-- The box of a value is the escaped value between spaces. -/
theorem box_eq (width : Nat) (value : Text) : ∃ w : Text, (∀ c ∈ w, c = ' ')
    ∧ box width value = [' '] ++ (escape value ++ (w ++ [' '])) := by
  refine ⟨List.replicate (width - (escape value).length) ' ', ?_, ?_⟩
  · exact fun c hc => List.eq_of_mem_replicate hc
  · simp [box, Text.padRight]

/-- Spaces with one more are spaces. -/
theorem spaces_concat {w : Text} (hw : ∀ c ∈ w, c = ' ') : ∀ c ∈ w ++ [' '], c = ' ' := by
  intro c hc
  rcases List.mem_append.mp hc with hc | hc
  · exact hw c hc
  · exact List.mem_singleton.mp hc

/-- A box that a pipe follows is the first piece. -/
theorem pieces_box_append (width : Nat) (value t : Text) :
    pieces (box width value ++ '|' :: t) = box width value :: pieces t := by
  obtain ⟨w, hw, hbox⟩ := box_eq width value
  have hw' : ∀ c ∈ w ++ [' '], c = ' ' := spaces_concat hw
  have hpipe : pieces ('|' :: t) = [] :: pieces t := by rw [pieces]
  rw [hbox, List.append_assoc, List.append_assoc, pieces_spaces_append (by simp),
    pieces_escape_append, pieces_spaces_append hw', hpipe]
  simp [onFirst]

/-- The value in a box is read back. -/
theorem trim_unescape_box {value : Text} (h : Tidy value) (width : Nat) :
    trim (unescape (box width value)) = value := by
  obtain ⟨w, hw, hbox⟩ := box_eq width value
  have hw' : ∀ c ∈ w ++ [' '], c = ' ' := spaces_concat hw
  rw [hbox, List.singleton_append, unescape_cons_of_ne (by decide), unescape_escape_append,
    unescape_spaces hw']
  exact trim_pad h hw

/-- A line of boxes, each with a pipe behind it. -/
theorem pieces_boxes (boxes : List (Nat × Text)) :
    pieces (boxes.flatMap fun b => box b.1 b.2 ++ ['|'])
      = boxes.map (fun b => box b.1 b.2) ++ [[]] := by
  induction boxes with
  | nil => rfl
  | cons b bs ih =>
    rw [List.flatMap_cons, List.append_assoc, List.singleton_append, pieces_box_append, ih]
    rfl

/-- Counting columns leaves the values of cells alone. -/
theorem values_withColumns (column : Nat) (ps : List Text) :
    (withColumns column ps).map (·.2) = ps.map fun p => trim (unescape p) := by
  induction ps generalizing column with
  | nil => rfl
  | cons p ps ih => rw [withColumns, List.map_cons, ih, List.map_cons]

/-- A table line is a pipe and a line of boxes. -/
theorem tableLine_eq_boxes {widths : List Nat} {values : List Text} (hne : values ≠ [])
    (hlen : values.length ≤ widths.length) :
    Layout.tableLine widths (values.map escape)
      = '|' :: (widths.zip values).flatMap fun b => box b.1 b.2 ++ ['|'] := by
  have key : ∀ (values : List Text) (widths : List Nat), values ≠ [] →
      values.length ≤ widths.length →
      ' ' :: [' ', '|', ' '].intercalate (Layout.padCells widths (values.map escape)) ++ [' ', '|']
        = (widths.zip values).flatMap fun b => box b.1 b.2 ++ ['|'] := by
    intro values
    induction values with
    | nil => exact fun _ h _ => absurd rfl h
    | cons v vs ih =>
      intro widths _ hlen
      cases widths with
      | nil => simp at hlen
      | cons n ns =>
        cases vs with
        | nil => simp [Layout.padCells, List.intercalate, box]
        | cons u us =>
          cases ns with
          | nil => simp at hlen
          | cons m ms =>
            have := ih (m :: ms) (by simp) (by simpa using hlen)
            simp only [Layout.padCells, List.map_cons, List.zipWith_cons_cons, List.zip_cons_cons,
              List.flatMap_cons, List.intercalate, List.intersperse, List.flatten_cons] at this ⊢
            rw [← this]
            simp [box]
  rw [Layout.tableLine, ← key values widths hne hlen]
  rfl

/-- A table line is read as the values that it was written from. -/
theorem values_ofRow_tableLine {widths : List Nat} {values : List Text} (hne : values ≠ [])
    (hlen : values.length ≤ widths.length) (h : ∀ v ∈ values, Tidy v) (column : Nat) :
    (ofRow column (Layout.tableLine widths (values.map escape))).map (·.2) = values := by
  have hpipe : ∀ t, pieces ('|' :: t) = [] :: pieces t := fun t => by rw [pieces]
  rw [tableLine_eq_boxes hne hlen, ofRow, hpipe, pieces_boxes, List.tail_cons,
    List.dropLast_concat, values_withColumns, List.map_map]
  have hmap : (widths.zip values).map (fun b => trim (unescape (box b.1 b.2)))
      = (widths.zip values).map Prod.snd :=
    List.map_congr_left fun b hb => trim_unescape_box (h b.2 (List.of_mem_zip hb).2) b.1
  rw [show (fun p => trim (unescape p)) ∘ (fun b : Nat × Text => box b.1 b.2)
      = fun b => trim (unescape (box b.1 b.2)) from rfl, hmap, List.map_snd_zip hlen]

end Cell

end FeatureTree
