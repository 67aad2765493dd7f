import FeatureTree.Proofs.Gherkin.Faultless

/-!
# Choices without faults

Which entry takes a line depends on the reading alone, on which kinds of token the line can be read
as, and on the same of the lines behind it. Here that is said without the reader:
`Reading.chosen?` gives the entry that is chosen, or nothing if a fault would be noted on the way.
So two lines of which the same kinds of token can be read are taken by the same entry.

## Main results

* `ParseState.choose_eq_iff`: the reader chooses without a fault exactly as `Reading.chosen?` says
* `Reading.Kin.chosen?_eq`: lines of the same kinds of token are taken by the same entry
-/

namespace FeatureTree

namespace Reading

/-- Whether a line can be read as a token of a kind; nothing if it is faulty as one. -/
def accepts? (r : Reading) (l : Line) (kind : TokenKind) : Option Bool :=
  match r.token? l kind with
  | .ok token => some token.isSome
  | .error _ => none

/-- Whether looking ahead goes on behind a line. -/
def skips? (r : Reading) (l : Line) : Option Bool :=
  match r.accepts? l .empty with
  | none => none
  | some true => some true
  | some false =>
    match r.accepts? l .comment with
    | none => none
    | some true => some true
    | some false => r.accepts? l .tagLine

/-- Whether a token of a kind stands behind blank lines, comments and tag lines. -/
def ahead? (r : Reading) (kind : TokenKind) : List Line → Option Bool
  | [] => some false
  | l :: rest =>
    match r.accepts? l kind with
    | none => none
    | some true => some true
    | some false =>
      match r.skips? l with
      | none => none
      | some true => r.ahead? kind rest
      | some false => some false

/-- The first of the entries that takes a line, if any; nothing if a fault is noted before. -/
def chosen? (r : Reading) (l : Line) (rest : List Line) : List Entry → Option (Option Entry)
  | [] => some none
  | e :: es =>
    match r.accepts? l e.kind with
    | none => none
    | some false => r.chosen? l rest es
    | some true =>
      match e.ahead with
      | none => some (some e)
      | some kind =>
        match r.ahead? kind rest with
        | none => none
        | some true => some (some e)
        | some false => r.chosen? l rest es

/-- A line that is read as a kind is accepted as it. -/
theorem accepts?_of_reads {r : Reading} {l : Line} {kind : TokenKind} {token : Token}
    (h : r.token? l kind = .ok (some token)) : r.accepts? l kind = some true := by
  rw [accepts?, h]
  rfl

/-- A line that is not read as a kind is not accepted as it. -/
theorem accepts?_of_refuses {r : Reading} {l : Line} {kind : TokenKind}
    (h : r.token? l kind = .ok none) : r.accepts? l kind = some false := by
  rw [accepts?, h]
  rfl

/-- A line that is accepted as a kind is read as it. -/
theorem exists_token_of_accepts? {r : Reading} {l : Line} {kind : TokenKind}
    (h : r.accepts? l kind = some true) : ∃ token, r.token? l kind = .ok (some token) := by
  rw [accepts?] at h
  split at h
  · next token ht =>
    obtain ⟨token, rfl⟩ := Option.isSome_iff_exists.mp (Option.some.inj h)
    exact ⟨token, ht⟩
  · cases h

/-- A line that is not accepted as a kind is not read as it. -/
theorem refuses_of_accepts? {r : Reading} {l : Line} {kind : TokenKind}
    (h : r.accepts? l kind = some false) : r.token? l kind = .ok none := by
  rw [accepts?] at h
  split at h
  · next token ht =>
    obtain rfl := Option.isNone_iff_eq_none.mp (Option.isSome_eq_false_iff.mp (Option.some.inj h))
    exact ht
  · cases h

/-! ### The reader -/

end Reading

namespace ParseState

variable {s : ParseState} {l : Line} {rest : List Line}

/-- A line that is neither accepted nor refused leaves a fault. -/
theorem tryKind_of_accepts?_none {kind : TokenKind} (h : s.reading.accepts? l kind = none) :
    (s.tryKind l kind).2 = none ∧ (s.tryKind l kind).1.faults ≠ [] := by
  rw [Reading.accepts?] at h
  split at h
  · cases h
  · next fault ht =>
    rw [tryKind, ht]
    exact ⟨rfl, note_ne_nil _ _⟩

/-- Looking ahead and choosing never forget a fault. -/
theorem faulty_looksAhead (h : s.faults ≠ []) (kind : TokenKind) :
    (s.looksAhead kind rest).1.faults ≠ [] := fun hnil =>
  h (looksAhead_of_faultless hnil ▸ hnil)

/-- Trying kinds removes no fault. -/
theorem faulty_tryKinds (h : s.faults ≠ []) (kinds : List TokenKind) :
    (s.tryKinds l kinds).1.faults ≠ [] := fun hnil =>
  h (tryKinds_of_faultless hnil ▸ hnil)

/-- Choosing an entry removes no fault. -/
theorem faulty_choose (h : s.faults ≠ []) (es : List Entry) :
    (s.choose l rest es).1.faults ≠ [] := fun hnil =>
  h ((choose_of_faultless hnil).1 ▸ hnil)

/-- Trying whether a line is skipped. -/
theorem tryKinds_skips? :
    (∀ b, s.reading.skips? l = some b → (s.tryKinds l [.empty, .comment, .tagLine]).1 = s
        ∧ (s.tryKinds l [.empty, .comment, .tagLine]).2.isSome = b)
      ∧ (s.reading.skips? l = none →
        (s.tryKinds l [.empty, .comment, .tagLine]).1.faults ≠ []) := by
  have hcons : ∀ (kind : TokenKind) (kinds : List TokenKind),
      (s.reading.accepts? l kind = none → (s.tryKinds l (kind :: kinds)).1.faults ≠ [])
        ∧ (s.reading.accepts? l kind = some true →
          ∃ token, s.tryKinds l (kind :: kinds) = (s, some token))
        ∧ (s.reading.accepts? l kind = some false →
          s.tryKinds l (kind :: kinds) = s.tryKinds l kinds) := by
    intro kind kinds
    refine ⟨fun h => ?_, fun h => ?_, fun h => ?_⟩
    · obtain ⟨hnone, hfaulty⟩ := tryKind_of_accepts?_none h
      rw [tryKinds]
      rcases htry : s.tryKind l kind with ⟨s', _ | token⟩
      · rw [htry] at hfaulty
        exact faulty_tryKinds hfaulty kinds
      · rw [htry] at hnone
        cases hnone
    · obtain ⟨token, ht⟩ := Reading.exists_token_of_accepts? h
      exact ⟨token, by rw [tryKinds, tryKind_of_reads ht]⟩
    · rw [tryKinds, tryKind_of_refuses (Reading.refuses_of_accepts? h)]
  obtain ⟨hnone, htrue, hfalse⟩ := hcons .empty [.comment, .tagLine]
  obtain ⟨hnone', htrue', hfalse'⟩ := hcons .comment [.tagLine]
  obtain ⟨hnone'', htrue'', hfalse''⟩ := hcons .tagLine []
  rw [Reading.skips?]
  rcases he : s.reading.accepts? l .empty with _ | _ | _
  · exact ⟨fun _ h => (by cases h), fun _ => hnone he⟩
  · rw [hfalse he]
    rcases hc : s.reading.accepts? l .comment with _ | _ | _
    · exact ⟨fun _ h => (by cases h), fun _ => hnone' hc⟩
    · rw [hfalse' hc]
      rcases ht : s.reading.accepts? l .tagLine with _ | _ | _
      · exact ⟨fun _ h => (by cases h), fun _ => hnone'' ht⟩
      · rw [hfalse'' ht]
        exact ⟨fun b hb => ⟨rfl, by cases hb; rfl⟩, fun h => by cases h⟩
      · obtain ⟨token, heq⟩ := htrue'' ht
        rw [heq]
        exact ⟨fun b hb => ⟨rfl, by cases hb; rfl⟩, fun h => by cases h⟩
    · obtain ⟨token, heq⟩ := htrue' hc
      rw [heq]
      exact ⟨fun b hb => ⟨rfl, by cases hb; rfl⟩, fun h => by cases h⟩
  · obtain ⟨token, heq⟩ := htrue he
    rw [heq]
    exact ⟨fun b hb => ⟨rfl, by cases hb; rfl⟩, fun h => by cases h⟩

/-- Looking ahead finds what the lines say, or leaves a fault. -/
theorem looksAhead_ahead? (kind : TokenKind) :
    (∀ b, s.reading.ahead? kind rest = some b → s.looksAhead kind rest = (s, b))
      ∧ (s.reading.ahead? kind rest = none → (s.looksAhead kind rest).1.faults ≠ []) := by
  induction rest with
  | nil => exact ⟨fun b hb => (by cases hb; rfl), fun h => by cases h⟩
  | cons l rest ih =>
    rw [Reading.ahead?, looksAhead]
    rcases ha : s.reading.accepts? l kind with _ | _ | _
    · refine ⟨fun _ h => (by cases h), fun _ => ?_⟩
      obtain ⟨hnone, hfaulty⟩ := tryKind_of_accepts?_none ha
      rcases htry : s.tryKind l kind with ⟨s', _ | token⟩
      · rw [htry] at hfaulty
        have hskip := faulty_tryKinds (l := l) hfaulty [.empty, .comment, .tagLine]
        rcases htry' : s'.tryKinds l [.empty, .comment, .tagLine] with ⟨s'', _ | token⟩
        · rw [htry'] at hskip
          simpa only [htry'] using hskip
        · rw [htry'] at hskip
          simpa only [htry'] using faulty_looksAhead hskip kind
      · rw [htry] at hnone
        cases hnone
    · rw [tryKind_of_refuses (Reading.refuses_of_accepts? ha)]
      obtain ⟨hskips, hnone⟩ := tryKinds_skips? (s := s) (l := l)
      rcases htry : s.tryKinds l [.empty, .comment, .tagLine] with ⟨s', token⟩
      rw [htry] at hskips hnone
      rcases hs : s.reading.skips? l with _ | _ | _
      · refine ⟨fun _ h => (by cases h), fun _ => ?_⟩
        cases token with
        | none => simpa only [htry] using hnone hs
        | some token => simpa only [htry] using faulty_looksAhead (hnone hs) kind
      · obtain ⟨rfl, hnot⟩ := hskips _ hs
        obtain rfl : token = none := by simpa using hnot
        simp only [htry]
        exact ⟨fun b hb => (by cases hb; rfl), fun h => by cases h⟩
      · obtain ⟨rfl, hfound⟩ := hskips _ hs
        obtain ⟨token, rfl⟩ : ∃ t, token = some t := Option.isSome_iff_exists.mp hfound
        simp only [htry]
        exact ih
    · obtain ⟨token, ht⟩ := Reading.exists_token_of_accepts? ha
      rw [tryKind_of_reads ht]
      exact ⟨fun b hb => (by cases hb; rfl), fun h => by cases h⟩

/-- The entry that is chosen is the one that the line and those behind it say, or there is a
fault. -/
theorem choose_chosen? (es : List Entry) :
    (s.reading.chosen? l rest es = some none → s.choose l rest es = (s, none))
      ∧ (∀ e, s.reading.chosen? l rest es = some (some e) →
        ∃ token, s.reading.token? l e.kind = .ok (some token)
          ∧ s.choose l rest es = (s, some (e, token)))
      ∧ (s.reading.chosen? l rest es = none → (s.choose l rest es).1.faults ≠ []) := by
  induction es with
  | nil => exact ⟨fun _ => rfl, fun _ he => (by cases he), fun h => by cases h⟩
  | cons e es ih =>
    rw [Reading.chosen?, choose]
    rcases ha : s.reading.accepts? l e.kind with _ | _ | _
    · refine ⟨fun h => (by cases h), fun _ he => (by cases he), fun _ => ?_⟩
      obtain ⟨hnone, hfaulty⟩ := tryKind_of_accepts?_none ha
      rcases htry : s.tryKind l e.kind with ⟨s', _ | token⟩
      · rw [htry] at hfaulty
        simpa only [htry] using faulty_choose hfaulty es
      · rw [htry] at hnone
        cases hnone
    · simp only [tryKind_of_refuses (Reading.refuses_of_accepts? ha)]
      exact ih
    · obtain ⟨token, ht⟩ := Reading.exists_token_of_accepts? ha
      simp only [tryKind_of_reads ht]
      cases hahead : e.ahead with
      | none =>
        refine ⟨fun h => (by cases h), fun e' he' => ?_, fun h => by cases h⟩
        cases he'
        exact ⟨token, ht, rfl⟩
      | some kind =>
        obtain ⟨hsome, hnone⟩ := @looksAhead_ahead? s rest kind
        rcases hl : s.reading.ahead? kind rest with _ | _ | _
        · simp only [hl]
          refine ⟨fun h => (by cases h), fun _ he => (by cases he), fun _ => ?_⟩
          have hfaulty := hnone hl
          rcases hlook : s.looksAhead kind rest with ⟨s', _ | _⟩
          · rw [hlook] at hfaulty
            simpa only [hlook] using faulty_choose hfaulty es
          · rw [hlook] at hfaulty
            simpa only [hlook] using hfaulty
        · simp only [hl, hsome _ hl]
          exact ih
        · simp only [hl, hsome _ hl]
          refine ⟨fun h => (by cases h), fun e' he' => ?_, fun h => by cases h⟩
          cases he'
          exact ⟨token, ht, rfl⟩

/-- The reader chooses an entry without a fault as the kinds of the line and of the lines ahead
say. -/
theorem choose_eq_iff (hs : s.faults = []) {es : List Entry} {e : Entry} {token : Token} :
    s.choose l rest es = (s, some (e, token))
      ↔ s.reading.chosen? l rest es = some (some e)
        ∧ s.reading.token? l e.kind = .ok (some token) := by
  obtain ⟨hrefused, htaken, hfaulty⟩ := @choose_chosen? s l rest es
  constructor
  · intro h
    rcases hc : s.reading.chosen? l rest es with _ | _ | e'
    · have := hfaulty hc
      rw [h] at this
      exact absurd hs this
    · rw [hrefused hc] at h
      cases h
    · obtain ⟨token', ht, heq⟩ := htaken e' hc
      rw [h] at heq
      cases heq
      exact ⟨rfl, ht⟩
  · rintro ⟨hc, ht⟩
    obtain ⟨token', ht', heq⟩ := htaken e hc
    rw [ht] at ht'
    cases ht'
    exact heq

end ParseState

/-! ### Lines of the same kinds -/

namespace Reading

/-- Whether two lines can be read, each in its own reading, as tokens of the same kinds. -/
def Kin (r : Reading) (l : Line) (r' : Reading) (l' : Line) : Prop :=
  ∀ kind, r'.accepts? l' kind = r.accepts? l kind

/-- Whether looking ahead at lines finds the same titles. -/
def SameAhead (r : Reading) (ls ls' : List Line) : Prop :=
  ∀ kind ∈ TokenKind.titles, r.ahead? kind ls' = r.ahead? kind ls

variable {r r' : Reading} {l l' : Line} {ls ls' ls'' : List Line}

/-- Lines of a kin are skipped alike in looking ahead. -/
theorem Kin.skips?_eq (h : r.Kin l r' l') : r'.skips? l' = r.skips? l := by
  simp only [skips?, h .empty, h .comment, h .tagLine]

namespace SameAhead

/-- Lines look the same from behind as themselves. -/
theorem refl (r : Reading) (ls : List Line) : r.SameAhead ls ls := fun _ _ => rfl

/-- That lines look the same ahead holds in both directions. -/
theorem symm (h : r.SameAhead ls ls') : r.SameAhead ls' ls := fun kind hkind => (h kind hkind).symm

/-- Lines that look the same ahead as others look the same as what those look like. -/
theorem trans (h : r.SameAhead ls ls') (h' : r.SameAhead ls' ls'') : r.SameAhead ls ls'' :=
  fun kind hkind => (h' kind hkind).trans (h kind hkind)

/-- Looking ahead over lines of the same kinds. -/
theorem cons (h : r.Kin l r l') (hls : r.SameAhead ls ls') : r.SameAhead (l :: ls) (l' :: ls') :=
  fun kind hkind => by simp only [ahead?, h kind, h.skips?_eq, hls kind hkind]

/-- Looking ahead goes on behind a line that is no title and is skipped. -/
theorem cons_of_skips (h : ∀ kind ∈ TokenKind.titles, r.accepts? l kind = some false)
    (hskips : r.skips? l = some true) (ls : List Line) : r.SameAhead ls (l :: ls) :=
  fun kind hkind => by simp only [ahead?, h kind hkind, hskips]

end SameAhead

/-- Lines of the same kinds of token are taken by the same entry. -/
theorem Kin.chosen?_eq (h : r.Kin l r' l') {rest rest' : List Line} {es : List Entry}
    (hahead : ∀ e ∈ es, ∀ kind, e.ahead = some kind →
      r'.ahead? kind rest' = r.ahead? kind rest) :
    r'.chosen? l' rest' es = r.chosen? l rest es := by
  induction es with
  | nil => rfl
  | cons e es ih =>
    have hrest := ih fun e he => hahead e (List.mem_cons_of_mem _ he)
    cases ha : e.ahead with
    | none => simp only [chosen?, h e.kind, ha, hrest]
    | some kind => simp only [chosen?, h e.kind, ha, hrest, hahead e (by simp) kind ha]

end Reading

end FeatureTree
