import FeatureTree.Proofs.RoundTrip.ExampleRows
import FeatureTree.Proofs.RoundTrip.Tables
import FeatureTree.Proofs.Store.MappedRows

/-!
# Rows that are removed by their values

Data for a row is trimmed at both ends, every value of it. What a cell holds that was read has no
blanks at its ends either, but for line feeds: these are written as escapes, and reading keeps them.
So a row of examples that were read is found by its values if none of these begins or ends with a
line feed, and only then. By a mapping from the parameters to the values it is found just like by
the values in their order, if no parameter occurs twice.

## Main results

* `Cell.trimmed_iff_of_tidy`: when what a cell holds is what data stands for
* `Node.exists_examples_of_read`: examples that were read hold rows of tidy cells
* `Store.removeRow_of_read`: what is removed from examples that were read by the values of a row
-/

namespace FeatureTree

open Dialect (english)

/-! ### What is trimmed of values -/

/-- A tidy value is trimmed just if no line feed stands at its ends. -/
theorem Cell.trimmed_iff_of_tidy {value : Text} (h : Tidy value) :
    value.Trimmed ↔ '\n' ∉ value.head? ∧ '\n' ∉ value.getLast? := by
  have hedge : ∀ {o : Option Char}, (∀ c ∈ o, isPadding c = false) →
      ((∀ c ∈ o, isBlank c = false) ↔ '\n' ∉ o) := by
    intro o ho
    constructor
    · intro hblank hmem
      exact absurd (hblank _ hmem) (by decide)
    · intro hmem c hc
      have hpadding : isBlank c = true → c = '\n' := by simpa [isPadding] using ho c hc
      exact Bool.eq_false_iff.mpr fun hblank => hmem (hpadding hblank ▸ hc)
  rw [Text.trimmed_iff, hedge h.1, hedge h.2]

namespace RowData

variable {pairs : List (Value × Value)} {k p v : Value}

/-! ### Mappings from parameters to the values of a row -/

/-- A key that is new is put at the end. -/
theorem put_of_new (h : ∀ e ∈ pairs, Value.sameKey e.1 k = false) :
    put k v pairs = pairs ++ [(k, v)] := by
  induction pairs with
  | nil => rfl
  | cons e pairs ih =>
    rw [List.forall_mem_cons] at h
    simp only [put, h.1, ih h.2, Bool.false_eq_true, if_false, List.cons_append]

/-- Pairs with different keys are a mapping as they are. -/
theorem entries_of_pairwise (h : pairs.Pairwise fun e e' => Value.sameKey e.1 e'.1 = false) :
    entries pairs = pairs := by
  induction pairs using List.reverseRecOn with
  | nil => rfl
  | append_singleton pairs e ih =>
    obtain ⟨hpairs, -, hlast⟩ := List.pairwise_append.mp h
    have hput : entries (pairs ++ [e]) = put e.1 e.2 (entries pairs) := by
      rw [entries, List.foldl_append]
      rfl
    rw [hput, ih hpairs, put_of_new fun e' he' => hlast e' he' e (by simp)]

/-- If no parameter occurs twice, a mapping from parameters to values has the parameters as its
keys, and for each of them its value. -/
theorem forall₂_picks_zip {write : Value → Except Fault Text} {parameters : List Text}
    {values : List Value} (hwrite : ∀ t, write (.text t) = .ok t)
    (hlength : parameters.length = values.length) (hnodup : parameters.Nodup) :
    (∀ e ∈ entries ((parameters.map .text).zip values), ∃ t, write e.1 = .ok t)
      ∧ List.Forall₂ (Picks write (entries ((parameters.map .text).zip values)))
        (parameters.map .text) values := by
  have hkeys : ((parameters.map Value.text).zip values).map Prod.fst = parameters.map .text :=
    List.map_fst_zip (by simp [hlength])
  have hnodup' : (parameters.map Value.text).Nodup := hnodup.map fun _ _ => Value.text.inj
  have hpairwise : (((parameters.map Value.text).zip values).map Prod.fst).Pairwise
      fun k k' => Value.sameKey k k' = false := by
    rw [hkeys, List.pairwise_map]
    exact hnodup.imp fun hne => by simpa [Value.sameKey] using hne
  rw [entries_of_pairwise (List.pairwise_map.mp hpairwise)]
  refine ⟨fun e he => ?_, List.forall₂_iff_zip.mpr ⟨by simp [hlength], fun {p v} hmem => ?_⟩⟩
  · obtain ⟨t, -, ht⟩ := List.mem_map.mp (hkeys ▸ List.mem_map_of_mem he)
    exact ⟨t, ht ▸ hwrite t⟩
  obtain ⟨before, after, hsplit⟩ := List.append_of_mem hmem
  rw [hsplit, List.map_append, List.map_cons] at hkeys
  have hin : ∀ k ∈ before.map Prod.fst ++ p :: after.map Prod.fst, ∃ t, .text t = k :=
    fun k hk => (List.mem_map.mp (hkeys ▸ hk)).imp fun _ h => h.2
  obtain ⟨t, rfl⟩ := hin p (by simp)
  refine .last hsplit (hwrite t) fun e he heq => ?_
  have hkey : e.1 ∈ after.map Prod.fst := List.mem_map_of_mem he
  obtain ⟨t', ht'⟩ := hin e.1 (by simp [hkey])
  rw [← ht', hwrite] at heq
  obtain rfl : t' = t := Except.ok.inj heq
  rw [← hkeys, List.nodup_append, List.nodup_cons] at hnodup'
  exact hnodup'.2.1.1 (ht' ▸ hkey)

end RowData

/-! ### Examples that were read -/

namespace Node

variable {default dialect : Value} {path source : Text} {kind : Kind} {n : Node}

/-- A part is read in a dialect that there is. -/
theorem exists_dialect_of_readPart (h : readPart default dialect source kind = .ok n) :
    ∃ d ∈ Dialect.all, Dialect.nameOr default dialect = .text d.name := by
  obtain ⟨_, hkeywords, -⟩ := bind_ok h
  obtain ⟨d?, hd?, hfound⟩ := bind_ok hkeywords
  cases d? with
  | none => cases hfound
  | some d =>
    cases hname : Dialect.nameOr default dialect with
    | text name =>
      rw [hname] at hd?
      have hfind : Dialect.all.find? (·.name = name) = some d := Except.ok.inj hd?
      have heq : d.name = name := by simpa using List.find?_some hfind
      exact ⟨d, List.mem_of_find?_eq_some hfind, by rw [heq]⟩
    | _ => simp [hname, Dialect.ofValue?, Value.isKey] at hd?

/-- Examples that were read hold rows of tidy cells, with as many in each. -/
theorem exists_examples_of_read (h : read default dialect path source .example = .ok n) :
    ∃ p : Plain.Examples, n.bare = p.node ∧ Plain.Even p.rows := by
  obtain ⟨d, hd, hdialect⟩ := exists_dialect_of_readPart h
  rw [← read_nameOr, hdialect] at h
  obtain ⟨document, r, hparse, hselect, hn⟩ := exists_parse_of_readPart_in hd h
  obtain ⟨f, hf, x, hx, e, he, hr⟩ := exists_examples_of_select? hselect
  refine ⟨e.plain, by rw [bare_of_build hn, hr, Ast.Examples.bare_ofRecord], ?_⟩
  obtain ⟨hlaw, htables⟩ := Ast.Document.sound_of_parse_inFeature hd hparse
    (by rw [Option.mem_def.mp hf]; rfl)
  have hlaw := ((hlaw f hf).body.scenarios x hx).examples e he
  have htables := ((htables f hf).body.scenarios x hx).examples e he
  exact Ast.even_values hlaw.rows htables.rows

end Node

namespace Store

variable {s t u : Store} {i : NodeId} {rows : List (NodeId × List Value)}
  {first : NodeId × List Value} {values values' : List Value}

/-- Examples in reach that hold rows have these rows. -/
theorem Holds.hasRows {h : Plain.Heading} {tags : List (NodeId × Text)}
    {rows : List (NodeId × List Text)} (hh : s.Holds i h tags rows) (hi : s.Reaches i) :
    s.HasRows i (rows.map fun r => (r.1, r.2.map .text)) := by
  obtain ⟨e, entry, plain, shape⟩ := hh.entry
  refine ⟨⟨⟨e, h.title, tags.map Prod.fst, entry, by simp [shape, Function.comp_def],
    fun name _ => by rw [plain]; rfl⟩, ?_⟩, ?_⟩
  all_goals
    rw [List.forall_mem_map]
    intro r hr
  · exact (hh.row r hr).2.valuesOf_row
  · exact parent?_eq_some_iff.mpr ⟨(hh.row r hr).1, hi⟩

/-- What is left after a row was taken out tells what values the row had. -/
theorem Removes.values_eq (h : s.Removes i first rows values t)
    (h' : s.Removes i first rows values' t) (hrows : s.HasRows i (first :: rows))
    (hr : ∃ r ∈ rows, r.2 = values) : values' = values := by
  obtain ⟨r, hr, hvalues⟩ := hr
  have hmember : ∀ {before after} {row : NodeId × List Value}, rows = before ++ row :: after →
      row ∈ first :: rows := fun h => List.mem_cons_of_mem _ (h ▸ by simp)
  cases h with
  | nothing absent => exact absurd hvalues (absent r hr)
  | @row before after row t split absent holds lists remembered attached =>
    have hbefore := remembered_of_parent? (hrows.attached row (hmember split))
    have hafter := (remembered row.1).trans (if_pos rfl)
    cases h' with
    | nothing absent' =>
      rw [hbefore] at hafter
      cases hafter
    | @row before' after' row' _ split' absent' holds' lists' remembered' attached' =>
      have hsame : row.1 = row'.1 := by
        by_contra hne
        rw [remembered' row.1, if_neg hne, hbefore] at hafter
        cases hafter
      have hvalues := hrows.values row (hmember split)
      rw [hsame, hrows.values row' (hmember split')] at hvalues
      rw [← holds, ← holds', Value.list.inj (Except.ok.inj hvalues)]

/-- There is one way only to cut rows at the first one with some values. -/
theorem cut_unique {before before' after after' : List (NodeId × List Value)}
    {row row' : NodeId × List Value} (heq : before ++ row :: after = before' ++ row' :: after')
    (habsent : ∀ r ∈ before, r.2 ≠ values) (habsent' : ∀ r ∈ before', r.2 ≠ values)
    (hrow : row.2 = values) (hrow' : row'.2 = values) : before = before' ∧ after = after' := by
  induction before generalizing before' with
  | nil =>
    cases before' with
    | nil => exact ⟨rfl, (List.cons.inj heq).2⟩
    | cons r before' =>
      obtain ⟨rfl, -⟩ := List.cons.inj heq
      exact absurd hrow (habsent' row List.mem_cons_self)
  | cons r before ih =>
    rw [List.forall_mem_cons] at habsent
    cases before' with
    | nil =>
      obtain ⟨rfl, -⟩ := List.cons.inj heq
      exact absurd hrow' habsent.1
    | cons r' before' =>
      rw [List.forall_mem_cons] at habsent'
      obtain ⟨rfl, hrest⟩ := List.cons.inj heq
      obtain ⟨rfl, rfl⟩ := ih hrest habsent.2 habsent'.2
      exact ⟨rfl, rfl⟩

/-- What is left after a row was taken out are the rows before and behind the first one with its
values. -/
theorem Removes.listsRows {before after : List (NodeId × List Value)} {row : NodeId × List Value}
    (h : s.Removes i first (before ++ row :: after) values t)
    (habsent : ∀ r ∈ before, r.2 ≠ values) (hrow : row.2 = values) :
    t.ListsRows i (first :: (before ++ after)) := by
  cases h with
  | nothing absent => exact absurd hrow (absent row (by simp))
  | row split absent holds lists =>
    obtain ⟨rfl, rfl⟩ := cut_unique split habsent absent hrow holds
    exact lists

/-- Values stand for the texts that are left of them when they are trimmed. -/
theorem rowTexts_sequence_texts (s : Store) (i : NodeId) (texts : List Text) :
    s.rowTexts i (.sequence (texts.map .text)) = .ok (texts.map Text.trim) := by
  rw [rowTexts, rowItems]
  simp only [bind, Except.bind]
  refine mapM_of_forall₂ (List.forall₂_map_left_iff.mpr (List.forall₂_map_right_iff.mpr ?_))
  exact List.forall₂_same.mpr fun t _ => cellText_text s t

/-- A row whose values are texts is found by these just if they are trimmed. -/
theorem HasRows.removeRow_sequence_iff {texts : List Text} {r : NodeId × List Value}
    (h : s.HasRows i (first :: rows)) (hr : r ∈ rows) (htexts : r.2 = texts.map .text) :
    (∃ t, s.removeRow i (.sequence r.2) = .ok t ∧ s.Removes i first rows r.2 t)
      ↔ ∀ v ∈ texts, v.Trimmed := by
  have hrow := rowTexts_sequence_texts s i texts
  rw [← htexts] at hrow
  obtain ⟨t, ht, hremoves⟩ := h.exists_removeRow hrow
  have hiff : (texts.map Text.trim).map Value.text = r.2 ↔ ∀ v ∈ texts, v.Trimmed := by
    have hinj : Function.Injective Value.text := fun _ _ => Value.text.inj
    rw [htexts, hinj.list_map.eq_iff]
    nth_rewrite 2 [← List.map_id texts]
    exact List.map_inj_left
  rw [← hiff]
  constructor
  · rintro ⟨t', ht', hremoves'⟩
    obtain rfl := Except.ok.inj (ht.symm.trans ht')
    exact hremoves'.values_eq hremoves h ⟨r, hr, rfl⟩
  · intro heq
    exact ⟨t, ht, heq ▸ hremoves⟩

/-- If no parameter occurs twice, the mapping from the parameters to values removes what the values
remove. -/
theorem HasRows.removeRow_zip {parameters : List Text} {values : List Value}
    (h : s.HasRows i (first :: rows)) (hparameters : first.2 = parameters.map .text)
    (hlength : parameters.length = values.length) (hnodup : parameters.Nodup) :
    s.removeRow i (.mapping (first.2.zip values)) = s.removeRow i (.sequence values) := by
  obtain ⟨hnames, hpicks⟩ := RowData.forall₂_picks_zip (written_text s) hlength hnodup
  rw [← hparameters] at hnames hpicks
  refine removeRow_congr (h.rowTexts_mapping (fun p hp => ?_) hnames hpicks)
  rw [hparameters] at hp
  obtain ⟨t, -, rfl⟩ := List.mem_map.mp hp
  rfl

/-- Examples that are made from a text have rows of texts. What is removed by the values of a row of
arguments is the first row that holds these values trimmed. That is the first row that holds the
values themselves just if no value of the row begins or ends with a line feed. The mapping from the
parameters to the values removes the same, if no parameter occurs twice. -/
theorem removeRow_of_read {dialect : Value} {path source : Text} {name : String}
    (h : s.perform (.make (.text .example dialect path source) name) = .ok t) :
    ∃ i table, t.held? name = some (some i) ∧ t.HasRows i table
      ∧ ∀ first rows, table = first :: rows → ∀ r ∈ rows, ∃ texts : List Text,
        r.2 = texts.map .text
        ∧ (∃ u, t.removeRow i (.sequence r.2) = .ok u
          ∧ t.Removes i first rows ((texts.map Text.trim).map .text) u)
        ∧ ((∃ u, t.removeRow i (.sequence r.2) = .ok u ∧ t.Removes i first rows r.2 u)
          ↔ ∀ v ∈ texts, '\n' ∉ v.head? ∧ '\n' ∉ v.getLast?)
        ∧ (first.2.Nodup →
          t.removeRow i (.mapping (first.2.zip r.2)) = t.removeRow i (.sequence r.2)) := by
  obtain ⟨n, u, hn, hu, rfl⟩ := make_inv h
  obtain ⟨p, hnode, heven⟩ := Node.exists_examples_of_read hn
  have hplant : s.plant n = u := hu
  subst hplant
  obtain ⟨tags, rows, hholds, -, hrows⟩ := exists_holds_of_plant hnode s name
  have hheld := held?_hold (s.plant n).2 name (some (s.plant n).1)
  obtain ⟨e, entry, -⟩ := hholds.entry
  have hhas := hholds.hasRows (reaches_of_held? hheld (get?_lt entry))
  refine ⟨_, _, hheld, hhas, fun first' rows' htable r hr => ?_⟩
  cases rows with
  | nil => cases htable
  | cons first rows =>
    obtain ⟨rfl, rfl⟩ := List.cons.inj htable
    obtain ⟨x, hx, rfl⟩ := List.mem_map.mp hr
    have hmember : ∀ {y : NodeId × List Text}, y ∈ first :: rows → y.2 ∈ p.rows := fun hy =>
      hrows ▸ List.mem_map_of_mem hy
    have hx' := hmember (List.mem_cons_of_mem _ hx)
    have htidy := heven.tidy x.2 hx'
    obtain ⟨u, hu, hremoves⟩ := hhas.exists_removeRow (rowTexts_sequence_texts _ _ x.2)
    refine ⟨x.2, rfl, ⟨u, hu, hremoves⟩, ?_, fun hnodup => ?_⟩
    · rw [hhas.removeRow_sequence_iff hr rfl]
      exact forall₂_congr fun v hv => Cell.trimmed_iff_of_tidy (htidy v hv)
    · refine hhas.removeRow_zip rfl ?_ (hnodup.of_map _)
      rw [List.length_map]
      exact heven.length_eq _ (hmember List.mem_cons_self) _ hx'

/-- The rows of examples are listed in one way only. -/
theorem ListsRows.unique {rows' : List (NodeId × List Value)} (h : s.ListsRows i rows)
    (h' : s.ListsRows i rows') : rows' = rows := by
  have hids : rows'.map Prod.fst = rows.map Prod.fst := by
    obtain ⟨e, _, _, he, hs, -⟩ := h.entry
    obtain ⟨e', _, _, he', hs', -⟩ := h'.entry
    obtain rfl := Option.some.inj (he.symm.trans he')
    exact (Shape.example.inj (hs'.symm.trans hs)).2.2
  have hvalues : ∀ {list : List (NodeId × List Value)}, s.ListsRows i list →
      list.map (fun r => (r.1, (Except.ok (.list r.2) : Except Fault Value)))
        = (list.map Prod.fst).map fun j => (j, s.valuesOf (.node j)) := fun h => by
    rw [List.map_map]
    exact List.map_congr_left fun r hr => by rw [Function.comp, h.values r hr]
  have hinj : Function.Injective fun r : NodeId × List Value =>
      (r.1, (Except.ok (.list r.2) : Except Fault Value)) := fun r r' heq => by
    obtain ⟨hid, hvalue⟩ := Prod.mk.inj heq
    exact Prod.ext hid (Value.list.inj (Except.ok.inj hvalue))
  exact hinj.list_map (by rw [hvalues h', hvalues h, hids])

/-- Examples with the parameter `a` and two rows of arguments: one holds an `x` with a line feed
behind it, and the other an `x`. -/
def twoArguments : Plain.Examples :=
  ⟨⟨"Examples".toList, [], []⟩, [], [[['a']], [['x', '\n']], [['x']]]⟩

/-- The table of two arguments can be written. -/
theorem fit_twoArguments : twoArguments.Fit english := by
  have hpadding : (['a', 'x', '\n'].all fun c => !Cell.isPadding c) = true := by decide
  have hends : ∀ c ∈ ['a', 'x', '\n'], Cell.isPadding c = false := by simpa using hpadding
  have hgrid : Plain.Grid [[['a']], [['x', '\n']], [['x']]] :=
    ⟨by simp, by simp [Cell.Tidy, hends], by simp⟩
  exact ⟨fit_oneParameter.heading, List.forall_mem_nil _, hgrid⟩

/-- By the values of the first row of arguments, which ends in a line feed, the second one is
removed. -/
theorem removeRow_of_read_twoArguments :
    ∃ t i first row row' u, ({} : Store).perform (.make (.text .example (.text english.name) []
        "Examples:\n  | a   |\n  | x\\n |\n  | x   |".toList) "examples") = .ok t
      ∧ t.HasRows i [first, (row, [.text ['x', '\n']]), (row', [.text ['x']])]
      ∧ t.removeRow i (.sequence [.text ['x', '\n']]) = .ok u
      ∧ u.ListsRows i [first, (row, [.text ['x', '\n']])] := by
  obtain ⟨n, hn, hbare⟩ := Plain.Examples.isReadBack (({} : Store).dialect) fit_twoArguments
  have hlines : Text.joinLines twoArguments.lines
      = "Examples:\n  | a   |\n  | x\\n |\n  | x   |".toList := by
    decide
  rw [hlines] at hn
  have hmade : ({} : Store).perform (.make (.text .example (.text english.name) []
      "Examples:\n  | a   |\n  | x\\n |\n  | x   |".toList) "examples")
      = .ok ((({} : Store).plant n).2.hold "examples" (some (({} : Store).plant n).1)) := by
    have hread : Node.read ({} : Store).dialect (.text english.name) []
        "Examples:\n  | a   |\n  | x\\n |\n  | x   |".toList .example = .ok n := hn
    simp only [perform, Making.keep, Making.node, hread, bind, Except.bind]
    rfl
  obtain ⟨tags, rows, hholds, -, hrows⟩ := exists_holds_of_plant hbare {} "examples"
  have hheld := held?_hold (({} : Store).plant n).2 "examples" (some (({} : Store).plant n).1)
  obtain ⟨i, table, hi, htable, hremoves⟩ := removeRow_of_read hmade
  obtain rfl : i = _ := Option.some.inj (Option.some.inj (hi.symm.trans hheld))
  obtain ⟨e, entry, -⟩ := hholds.entry
  generalize (({} : Store).plant n).2.hold "examples" (some (({} : Store).plant n).1) = t at *
  obtain rfl := (hholds.hasRows (reaches_of_held? hheld (get?_lt entry))).toListsRows.unique
    htable.toListsRows
  obtain ⟨first, rest, rfl, -, hrest⟩ := List.map_eq_cons_iff.mp hrows
  obtain ⟨row, rest, rfl, hrow, hrest⟩ := List.map_eq_cons_iff.mp hrest
  obtain ⟨row', rest, rfl, hrow', hrest⟩ := List.map_eq_cons_iff.mp hrest
  obtain rfl := List.map_eq_nil_iff.mp hrest
  obtain ⟨texts, htexts, ⟨u, hu, hremoves⟩, -⟩ :=
    hremoves _ _ rfl (row.1, row.2.map .text) (by simp)
  simp only [List.map_cons, List.map_nil, hrow, hrow'] at htexts hu hremoves htable
  obtain rfl : [['x', '\n']] = texts := by
    have hinj : Function.Injective Value.text := fun _ _ => Value.text.inj
    exact hinj.list_map htexts
  refine ⟨_, _, _, _, _, u, hmade, htable, hu, ?_⟩
  have hsecond : t.Removes _ _ ([(row.1, [.text ['x', '\n']])] ++ [(row'.1, [.text ['x']])])
      [.text ['x']] u := hremoves
  exact hsecond.listsRows (by simp) rfl

end Store

end FeatureTree
