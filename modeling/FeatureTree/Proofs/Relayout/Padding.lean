import FeatureTree.Proofs.Relayout.Spacing

/-!
# Lines that are written with other blanks

A title, a step, a row and a line of tags say the same whatever stands around their parts. A line
that starts with a mark can be read in one way only, so another line that starts with the same mark
is read as the same kinds of token. For the cells of a row that takes a space in front of each pipe
that ends one, before and after: without it, a backslash would take the pipe into the cell, and a
line feed at the end of a value would lose the padding in front of it.

## Main results

* `Reading.Only.kin`: lines that can be read in one way are read as the same kinds of token
* `Reading.only_titleStart`, `Reading.only_stepWord`: a title and a step, by how they start
* `Cell.pieces_of_repadded`, `Cell.value_of_repadded`: cells with other spaces around them
-/

namespace FeatureTree

open Dialect (english)

/-! ### Cells -/

namespace Cell

/-- Whether a cell is written again as it was, or with other spaces around it, of which at least one
stays in front of the pipe that ends the cell. -/
def Repadded (cell cell' : Text) : Prop :=
  cell' = cell ∨ ∃ a b a' b' core : Text, IsMargin a ∧ IsMargin b ∧ IsMargin a' ∧ IsMargin b'
    ∧ cell = a ++ (core ++ ' ' :: b) ∧ cell' = a' ++ (core ++ ' ' :: b')

/-- Whether a text holds no pipe that would end a cell. -/
def IsPiece (t : Text) : Prop := pieces t = [t]

/-- Whether a pipe behind a text is the first that ends a cell. -/
def IsClosed (t : Text) : Prop := ∀ rest, pieces (t ++ '|' :: rest) = t :: pieces rest

/-- A pipe ends an empty piece. -/
theorem pieces_pipe (t : Text) : pieces ('|' :: t) = [] :: pieces t := by rw [pieces]

/-- A backslash and the character behind it belong to the first piece. -/
theorem pieces_backslash (c : Char) (t : Text) :
    pieces ('\\' :: c :: t) = onFirst ['\\', c] (pieces t) := by
  rw [pieces]
  cases pieces t <;> rfl

/-- Pieces are the same if they are the same with a text in front of the first. -/
theorem onFirst_inj {s : Text} {ps qs : List Text} (hp : ps ≠ []) (hq : qs ≠ [])
    (h : onFirst s ps = onFirst s qs) : ps = qs := by
  cases ps with
  | nil => exact absurd rfl hp
  | cons p ps => cases qs with
    | nil => exact absurd rfl hq
    | cons q qs => simpa [onFirst] using h

/-- What is in front of a piece goes on it. -/
theorem onFirst_eq_singleton_iff {s t : Text} {ps : List Text} (hp : ps ≠ []) :
    onFirst s ps = [s ++ t] ↔ ps = [t] := by
  refine ⟨fun h => onFirst_inj hp (by simp) (h.trans rfl), fun h => ?_⟩
  rw [h]
  rfl

/-- All that stands between pipes holds none that would end it. -/
theorem isPiece_of_mem {t piece : Text} (h : piece ∈ pieces t) : IsPiece piece := by
  fun_induction pieces t generalizing piece with
  | case1 =>
    obtain rfl := List.mem_singleton.mp h
    rfl
  | case2 t ih =>
    rcases List.mem_cons.mp h with rfl | h
    · rfl
    · exact ih h
  | case3 c t hnil => exact absurd hnil (pieces_ne_nil t)
  | case4 c t first rest hcons ih =>
    rcases List.mem_cons.mp h with rfl | h
    · have hfirst : pieces first = [first] := ih (by rw [hcons]; exact List.mem_cons_self)
      rw [IsPiece, pieces_backslash, hfirst]
      rfl
    · exact ih (by rw [hcons]; exact List.mem_cons_of_mem _ h)
  | case5 c t hp hb hnil => exact absurd hnil (pieces_ne_nil t)
  | case6 c t hp hb first rest hcons ih =>
    rcases List.mem_cons.mp h with rfl | h
    · by_cases hc : c = '\\'
      · -- a backslash at the very end
        cases t with
        | nil =>
          obtain ⟨rfl, -⟩ := List.cons.inj (hcons.symm.trans (show pieces [] = [[]] from rfl))
          rw [hc]
          rfl
        | cons d t => exact absurd rfl (hb d t hc)
      · have hfirst : pieces first = [first] := ih (by rw [hcons]; exact List.mem_cons_self)
        rw [IsPiece, pieces_cons_of_plain hp hc, hfirst]
        rfl
    · exact ih (by rw [hcons]; exact List.mem_cons_of_mem _ h)

/-- All pieces but the last end at a pipe. -/
theorem isClosed_of_mem {t cell : Text} (h : cell ∈ (pieces t).dropLast) : IsClosed cell := by
  fun_induction pieces t generalizing cell with
  | case1 => cases h
  | case2 t ih =>
    rw [List.dropLast_cons_of_ne_nil (pieces_ne_nil t)] at h
    rcases List.mem_cons.mp h with rfl | h
    · exact pieces_pipe
    · exact ih h
  | case3 c t hnil => exact absurd hnil (pieces_ne_nil t)
  | case4 c t first rest hcons ih =>
    cases rest with
    | nil => cases h
    | cons second rest =>
      rw [hcons] at ih
      rcases List.mem_cons.mp h with rfl | h
      · intro rest'
        rw [List.cons_append, List.cons_append, pieces_backslash, ih List.mem_cons_self rest']
        rfl
      · exact ih (List.mem_cons_of_mem _ h)
  | case5 c t hp hb hnil => exact absurd hnil (pieces_ne_nil t)
  | case6 c t hp hb first rest hcons ih =>
    cases rest with
    | nil => cases h
    | cons second rest =>
      rw [hcons] at ih
      rcases List.mem_cons.mp h with rfl | h
      · intro rest'
        have hc : c ≠ '\\' := by
          rintro rfl
          cases t with
          | nil => cases hcons
          | cons d t => exact hb d t rfl rfl
        rw [List.cons_append, pieces_cons_of_plain hp hc, ih List.mem_cons_self rest']
        rfl
      · exact ih (List.mem_cons_of_mem _ h)

/-- What a pipe closes is a piece. -/
theorem IsClosed.isPiece {t : Text} (h : IsClosed t) : IsPiece t :=
  isPiece_of_mem (t := t ++ ['|']) (by rw [h []]; exact List.mem_cons_self)

/-- With a space behind it, no part of a piece does anything to what follows. -/
theorem pieces_append_space {s u : Text} (h : IsPiece (s ++ u)) (t : Text) :
    pieces (s ++ ' ' :: t) = onFirst (s ++ [' ']) (pieces t) := by
  fun_induction pieces s generalizing u with
  | case1 => exact pieces_cons_of_plain (by decide) (by decide) t
  | case2 s ih =>
    rw [IsPiece, List.cons_append, pieces_pipe] at h
    exact absurd h (by simp)
  | case3 c s hnil => exact absurd hnil (pieces_ne_nil s)
  | case4 c s first rest hcons ih =>
    have hs : IsPiece (s ++ u) := by
      rw [IsPiece, List.cons_append, List.cons_append, pieces_backslash] at h
      exact (onFirst_eq_singleton_iff (pieces_ne_nil _)).mp h
    rw [List.cons_append, List.cons_append, pieces_backslash, ih hs, ← onFirst_append]
    rfl
  | case5 c s hp hb hnil => exact absurd hnil (pieces_ne_nil s)
  | case6 c s hp hb first rest hcons ih =>
    by_cases hc : c = '\\'
    · cases s with
      | nil =>
        rw [hc, List.singleton_append, pieces_backslash]
        rfl
      | cons d s => exact absurd rfl (hb d s hc)
    · have hs : IsPiece (s ++ u) := by
        rw [IsPiece, List.cons_append, pieces_cons_of_plain hp hc] at h
        exact (onFirst_eq_singleton_iff (pieces_ne_nil _)).mp h
      rw [List.cons_append, pieces_cons_of_plain hp hc, ih hs, ← onFirst_append]
      rfl

/-- A cell that is written again ends at the same pipe. -/
theorem isClosed_of_repadded {cell cell' : Text} (h : IsClosed cell)
    (hcell : Repadded cell cell') : IsClosed cell' := by
  rcases hcell with rfl | ⟨a, b, a', b', core, ha, -, ha', hb', rfl, rfl⟩
  · exact h
  intro t
  have hpiece := h.isPiece
  rw [IsPiece, pieces_spaces_append ha] at hpiece
  have hcore : IsPiece (core ++ ' ' :: b) :=
    (onFirst_eq_singleton_iff (pieces_ne_nil _)).mp hpiece
  rw [List.append_assoc, List.append_assoc, List.cons_append, pieces_spaces_append ha',
    pieces_append_space hcore, pieces_spaces_append hb', pieces_pipe]
  simp [onFirst]

/-- A row that is written again has its cells where they were. -/
theorem pieces_of_repadded {cells cells' : List Text} (h : ∀ cell ∈ cells, IsClosed cell)
    (hcells : List.Forall₂ Repadded cells cells') {last : Text} (hlast : IsPiece last) :
    pieces (cells'.flatMap (· ++ ['|']) ++ last) = cells' ++ [last] := by
  induction hcells with
  | nil => exact hlast
  | cons hcell hcells ih =>
    rw [List.flatMap_cons, List.append_assoc, List.append_assoc, List.singleton_append,
      isClosed_of_repadded (h _ List.mem_cons_self) hcell,
      ih fun cell hmem => h cell (List.mem_cons_of_mem _ hmem)]
    rfl

/-- Spaces behind a cell stand for themselves. -/
theorem unescape_append_spaces (s : Text) {w : Text} (hw : IsMargin w) :
    unescape (s ++ w) = unescape s ++ w := by
  fun_induction unescape s with
  | case1 => exact unescape_spaces hw
  | case2 s ih => simp only [List.cons_append, unescape, ih]
  | case3 s ih => simp only [List.cons_append, unescape, ih]
  | case4 s ih => simp only [List.cons_append, unescape, ih]
  | case5 c s hn hp hb ih =>
    -- what follows is no escape, with or without the spaces
    have hnot : ∀ d, d ≠ ' ' → (∀ t, c = '\\' → s = d :: t → False) →
        ∀ t, c = '\\' → s ++ w = d :: t → False := by
      intro d hd hno t hc ht
      cases s with
      | nil =>
        rw [List.nil_append] at ht
        exact hd (hw d (by rw [ht]; exact List.mem_cons_self))
      | cons e s =>
        obtain ⟨rfl, -⟩ := List.cons.inj ht
        exact hno s hc rfl
    rw [List.cons_append, unescape.eq_5 c (s ++ w) (hnot 'n' (by decide) hn)
      (hnot '|' (by decide) hp) (hnot '\\' (by decide) hb), ih]
    rfl

/-- Spaces in front of a cell stand for themselves. -/
theorem unescape_spaces_append {w : Text} (hw : IsMargin w) (s : Text) :
    unescape (w ++ s) = w ++ unescape s := by
  induction w with
  | nil => rfl
  | cons c w ih =>
    obtain rfl : c = ' ' := hw c List.mem_cons_self
    rw [List.cons_append, unescape_cons_of_ne (by decide),
      ih fun d hd => hw d (List.mem_cons_of_mem _ hd)]
    rfl

/-- With a space at its end, a text loses its padding at both ends. -/
theorem trim_concat_space (t : Text) :
    trim (t ++ [' ']) = Text.dropEndWhile isPadding (t.dropWhile isPadding) := by
  by_cases ht : t.dropWhile isPadding = []
  · have hall : ∀ c ∈ t, isPadding c = true := Text.dropWhile_eq_nil.mp ht
    have hnil : (t ++ [' ']).dropWhile isPadding = [] := by
      rw [List.dropWhile_append_of_pos hall]
      rfl
    rw [trim, hnil, ht]
    rfl
  · have hdrop : (t ++ [' ']).dropWhile isPadding = t.dropWhile isPadding ++ [' '] := by
      rw [List.dropWhile_append, if_neg]
      simpa using ht
    rw [trim, hdrop, List.reverse_append]
    rfl

/-- Spaces around a text make no difference to its value, if one stands at its end. -/
theorem trim_spaces {a v b : Text} (ha : IsMargin a) (hb : IsMargin b) :
    trim (a ++ (v ++ ' ' :: b)) = Text.dropEndWhile isPadding (v.dropWhile isPadding) := by
  have hpad : ∀ w : Text, IsMargin w → ∀ c ∈ w, isPadding c = true := fun w hw c hc => by
    rw [hw c hc]
    exact isPadding_space
  obtain ⟨b', hb', heq⟩ : ∃ b', IsMargin b' ∧ ' ' :: b = b' ++ [' '] := by
    refine ⟨b, hb, ?_⟩
    rw [(List.eq_replicate_of_mem hb : b = _), ← List.replicate_succ, List.replicate_succ']
  rw [heq, ← List.append_assoc, ← List.append_assoc, trim_concat_space, List.append_assoc,
    List.dropWhile_append_of_pos (hpad a ha), List.dropWhile_append]
  split
  · next hv =>
    rw [List.isEmpty_iff.mp hv, Text.dropWhile_eq_nil.mpr (hpad b' hb')]
  · exact Text.dropEndWhile_append_of_all (hpad b' hb')

/-- A cell that is written again has the value that it had. -/
theorem value_of_repadded {cell cell' : Text} (h : Repadded cell cell') :
    trim (unescape cell') = trim (unescape cell) := by
  have key : ∀ a b core : Text, IsMargin a → IsMargin b →
      trim (unescape (a ++ (core ++ ' ' :: b)))
        = Text.dropEndWhile isPadding ((unescape core).dropWhile isPadding) := by
    intro a b core ha hb
    have hspaces : IsMargin (' ' :: b) := List.forall_mem_cons.mpr ⟨rfl, hb⟩
    rw [unescape_spaces_append ha, unescape_append_spaces core hspaces, trim_spaces ha hb]
  rcases h with rfl | ⟨a, b, a', b', core, ha, hb, ha', hb', rfl, rfl⟩
  · rfl
  · rw [key a b core ha hb, key a' b' core ha' hb']

/-- Cells with other padding have the same values. -/
theorem map_value_of_repadded {cells cells' : List Text} (h : List.Forall₂ Repadded cells cells') :
    cells'.map (fun cell => trim (unescape cell)) = cells.map fun cell => trim (unescape cell) := by
  induction h with
  | nil => rfl
  | cons hcell hcells ih => rw [List.map_cons, List.map_cons, ih, value_of_repadded hcell]

end Cell

/-! ### Lines that start with a mark -/

namespace Reading

variable {r r' : Reading} {l l' : Line} {kind : TokenKind} {token token' : Token}

/-- Lines that can be read in one way are read as the same kinds of token. -/
theorem Only.kin (h : r.Only l kind token) (h' : r'.Only l' kind token') : r.Kin l r' l' := by
  intro kind'
  by_cases hother : kind' = .other
  · rw [hother]
    rfl
  · by_cases hkind : kind' = kind
    · rw [hkind, accepts?_of_reads h.reads, accepts?_of_reads h'.reads]
    · rw [accepts?_of_refuses (h.refuses kind' hkind hother),
        accepts?_of_refuses (h'.refuses kind' hkind hother)]

/-- A line that starts with a title keyword and a colon is the title of the rest of the line. -/
theorem only_titleStart (hf : r.fence = none) (hd : r.dialect = english)
    (hkind : kind ∈ TokenKind.titles) {k s : Text} (hk : k ∈ english.titleWords kind)
    (hl : l.trimmed = k ++ ':' :: s) : r.Only l kind (Token.ofTitle ⟨k, Text.trim s⟩ kind) := by
  have hmark : r.dialect.Marks kind (k ++ [':']) := by
    rw [hd]
    exact (Dialect.titleWord_english hkind hk).mark
  have hprefix : k ++ [':'] <+: l.trimmed := ⟨s, by rw [hl]; simp⟩
  refine hmark.only hprefix hf ?_ ?_
  · rintro rfl
    exact absurd hkind (by decide)
  · rw [token?_title hkind, title?_eq_some hkind hmark hl, Option.map_some]

/-- A line that starts with a step keyword is a step with the rest of the line. -/
theorem only_stepWord (hf : r.fence = none) (hd : r.dialect = english) {w s : Text}
    (hw : w ∈ english.stepKeywords) (hl : l.trimmed = w ++ s) :
    r.Only l .stepLine (.stepLine w (r.dialect.roleOf w) (Text.trim s)) := by
  have hmark : r.dialect.Marks .stepLine w := by
    rw [hd]
    exact Dialect.marks_english hw
  have hprefix : w <+: l.trimmed := ⟨s, hl.symm⟩
  refine hmark.only hprefix hf (by decide) ?_
  simp only [token?, stepKeywordOf?_eq_some hmark hprefix, Option.map_some]
  rw [hl, List.drop_left]

end Reading

end FeatureTree
