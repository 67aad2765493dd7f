import FeatureTree.Proofs.Gherkin.Run

/-!
# Runs without faults

Faults are noted and never forgotten. So in a run that ends without a fault nothing was noted on the
way, and every line was taken by the entry that was chosen for it: the line is a token of the
entry's kind and of no kind that was tried before (`ParseState.Takes`). What every such step keeps
holds at the end of the run.

## Main results

* `ParseState.note_ne_nil`: a fault that is noted stays noted
* `ParseState.advance_of_faultless`: what a step without a fault does
* `ParseState.run_induction`: what steps without a fault keep, runs without a fault keep
-/

namespace FeatureTree

namespace ParseState

variable {s : ParseState} {l : Line} {rest : List Line}

/-! ### Noting faults -/

/-- Noting leaves at least one fault. -/
theorem note_ne_nil (s : ParseState) (fault : SyntaxFault) : (s.note fault).faults ≠ [] := by
  rw [note]
  split
  · simp
  · next h =>
    intro hnil
    rw [hnil] at h
    exact h rfl

/-- Where trying a kind leaves no fault, nothing but the token comes of it. -/
theorem tryKind_of_faultless {kind : TokenKind} (h : (s.tryKind l kind).1.faults = []) :
    ∃ token, s.reading.token? l kind = .ok token ∧ s.tryKind l kind = (s, token) := by
  rw [tryKind] at h ⊢
  cases ht : s.reading.token? l kind with
  | ok token => exact ⟨token, rfl, rfl⟩
  | error fault =>
    rw [ht] at h
    exact absurd h (note_ne_nil _ _)

/-- Where trying kinds leaves no fault, the state is as it was. -/
theorem tryKinds_of_faultless {kinds : List TokenKind}
    (h : (s.tryKinds l kinds).1.faults = []) : (s.tryKinds l kinds).1 = s := by
  induction kinds generalizing s with
  | nil => rfl
  | cons kind kinds ih =>
    rw [tryKinds] at h ⊢
    rcases htry : s.tryKind l kind with ⟨s', _ | token⟩
    · rw [htry] at h
      have hs' : (s'.tryKinds l kinds).1 = s' := ih h
      have hfaults : (s.tryKind l kind).1.faults = [] := by
        rw [htry]
        exact hs' ▸ h
      obtain ⟨token, -, heq⟩ := tryKind_of_faultless hfaults
      obtain rfl : s' = s := congrArg Prod.fst (htry.symm.trans heq)
      exact hs'
    · rw [htry] at h
      have hfaults : (s.tryKind l kind).1.faults = [] := by
        rw [htry]
        exact h
      obtain ⟨token', -, heq⟩ := tryKind_of_faultless hfaults
      exact congrArg Prod.fst (htry.symm.trans heq)

/-- Where looking ahead leaves no fault, the state is as it was. -/
theorem looksAhead_of_faultless {kind : TokenKind} (h : (s.looksAhead kind rest).1.faults = []) :
    (s.looksAhead kind rest).1 = s := by
  induction rest generalizing s with
  | nil => rfl
  | cons l rest ih =>
    have hfirst : ∀ (s' : ParseState) token, s.tryKind l kind = (s', token) → s'.faults = [] →
        s' = s := by
      intro s' token htry hs'
      have hfaults : (s.tryKind l kind).1.faults = [] := by rwa [htry]
      obtain ⟨_, -, heq⟩ := tryKind_of_faultless hfaults
      exact congrArg Prod.fst (htry.symm.trans heq)
    have hsecond : ∀ (s' s'' : ParseState) token,
        s'.tryKinds l [.empty, .comment, .tagLine] = (s'', token) → s''.faults = [] → s'' = s' := by
      intro s' s'' token htry hs''
      have hfaults : (s'.tryKinds l [.empty, .comment, .tagLine]).1.faults = [] := by rwa [htry]
      exact (congrArg Prod.fst htry).symm.trans (tryKinds_of_faultless hfaults)
    rw [looksAhead] at h ⊢
    rcases htry : s.tryKind l kind with ⟨s', _ | token⟩
    · rw [htry] at h
      rcases htry' : s'.tryKinds l [.empty, .comment, .tagLine] with ⟨s'', _ | token⟩
      · simp only [htry'] at h ⊢
        obtain rfl := hsecond s' s'' _ htry' h
        exact hfirst s'' _ htry h
      · simp only [htry'] at h ⊢
        have hs'' : (s''.looksAhead kind rest).1 = s'' := ih h
        rw [hs''] at h ⊢
        obtain rfl := hsecond s' s'' _ htry' h
        exact hfirst s'' _ htry h
    · rw [htry] at h
      exact hfirst s' _ htry h

/-! ### Steps -/

/-- Whether an entry takes a line as a token: the line is a token of the kind of the entry, and of
no kind that is tried before without looking ahead. -/
structure Takes (s : ParseState) (l : Line) (es : List Entry) (e : Entry) (token : Token) :
    Prop where
  reads : s.reading.token? l e.kind = .ok (some token)
  split : ∃ before after, es = before ++ e :: after
    ∧ ∀ e' ∈ before, e'.ahead = none → s.reading.token? l e'.kind = .ok none

/-- An entry is still taken behind one that refuses the line. -/
theorem Takes.cons {es : List Entry} {e e' : Entry} {token : Token} (h : s.Takes l es e token)
    (hrefuse : e'.ahead = none → s.reading.token? l e'.kind = .ok none) :
    s.Takes l (e' :: es) e token := by
  obtain ⟨hreads, before, after, rfl, hbefore⟩ := h
  refine ⟨hreads, e' :: before, after, rfl, fun e'' he'' => ?_⟩
  rcases List.mem_cons.mp he'' with rfl | he''
  · exact hrefuse
  · exact hbefore e'' he''

/-- The entry that is taken is one of those offered. -/
theorem Takes.mem {es : List Entry} {e : Entry} {token : Token} (h : s.Takes l es e token) :
    e ∈ es := by
  obtain ⟨-, before, after, rfl, -⟩ := h
  simp

/-- Without a fault the choice leaves the reader as it is, and what is chosen takes the line. -/
theorem choose_of_faultless {es : List Entry} (h : (s.choose l rest es).1.faults = []) :
    (s.choose l rest es).1 = s
      ∧ ∀ e token, (s.choose l rest es).2 = some (e, token) → s.Takes l es e token := by
  induction es generalizing s with
  | nil =>
    rw [choose]
    exact ⟨rfl, fun e token he => by cases he⟩
  | cons e es ih =>
    have hfirst : ∀ (s' : ParseState) token, s.tryKind l e.kind = (s', token) → s'.faults = [] →
        s' = s ∧ s.reading.token? l e.kind = .ok token := by
      intro s' token htry hs'
      have hfaults : (s.tryKind l e.kind).1.faults = [] := by rwa [htry]
      obtain ⟨token', hread, heq⟩ := tryKind_of_faultless hfaults
      obtain ⟨rfl, rfl⟩ := Prod.mk.inj (htry.symm.trans heq)
      exact ⟨rfl, hread⟩
    rw [choose] at h ⊢
    rcases htry : s.tryKind l e.kind with ⟨s', _ | token⟩
    · simp only [htry] at h ⊢
      obtain ⟨hs', htakes⟩ := ih h
      obtain ⟨rfl, hread⟩ := hfirst s' _ htry (hs' ▸ h)
      exact ⟨hs', fun e' token he' => (htakes e' token he').cons fun _ => hread⟩
    · simp only [htry] at h ⊢
      cases hahead : e.ahead with
      | none =>
        simp only [hahead] at h ⊢
        obtain ⟨rfl, hread⟩ := hfirst s' _ htry h
        refine ⟨rfl, fun e' token' he' => ?_⟩
        cases he'
        exact ⟨hread, [], es, rfl, by simp⟩
      | some kind =>
        simp only [hahead] at h ⊢
        have hlook : ∀ (s'' : ParseState) found, s'.looksAhead kind rest = (s'', found) →
            s''.faults = [] → s'' = s' := by
          intro s'' found hlook hs''
          have hfaults : (s'.looksAhead kind rest).1.faults = [] := by rwa [hlook]
          exact (congrArg Prod.fst hlook).symm.trans (looksAhead_of_faultless hfaults)
        rcases hl : s'.looksAhead kind rest with ⟨s'', _ | _⟩
        · simp only [hl] at h ⊢
          obtain ⟨hs'', htakes⟩ := ih h
          obtain rfl := hlook s'' _ hl (hs'' ▸ h)
          obtain ⟨rfl, -⟩ := hfirst s'' _ htry (hs'' ▸ h)
          exact ⟨hs'', fun e' token he' => (htakes e' token he').cons fun hnone => by
            rw [hahead] at hnone; cases hnone⟩
        · simp only [hl] at h ⊢
          obtain rfl := hlook s'' _ hl h
          obtain ⟨rfl, hread⟩ := hfirst s'' _ htry h
          refine ⟨rfl, fun e' token' he' => ?_⟩
          cases he'
          exact ⟨hread, [], es, rfl, by simp⟩

/-- Where leaving a place leaves no fault, the state is as it was. -/
theorem leave_of_faultless {next : State} (h : (s.leave next).faults = []) : s.leave next = s := by
  rw [leave] at h ⊢
  split at h
  · split at h
    · exact absurd h (note_ne_nil _ _)
    · next hragged => simp
  · next hin => rw [if_neg hin]

/-- Without a fault an entry of its place is chosen for a line, and a table that ends with it is not
ragged. -/
theorem exists_choose_of_faultless (h : (s.advance l rest).faults = []) :
    ∃ e token, s.choose l rest s.place.entries = (s, some (e, token)) ∧ s.leave e.next = s
      ∧ s.advance l rest = s.goes l e.next token := by
  rcases hchoose : s.choose l rest s.place.entries with ⟨s', _ | ⟨e, token⟩⟩
  · rw [advance, hchoose] at h
    exact absurd h (note_ne_nil _ _)
  · have hadvance : s.advance l rest = (s'.leave e.next).goes l e.next token := by
      rw [advance, hchoose]
      rfl
    rw [hadvance] at h ⊢
    have hfaults : (s'.leave e.next).faults = [] := h
    have hleave := leave_of_faultless hfaults
    rw [hleave] at hfaults
    have hchosen : (s.choose l rest s.place.entries).1.faults = [] := by rwa [hchoose]
    have heq := (choose_of_faultless hchosen).1
    rw [hchoose] at heq
    obtain rfl : s' = s := heq
    exact ⟨e, token, rfl, hleave, by rw [hleave]⟩

/-- Without a fault a line is taken by an entry of its place, and a table that ends with it is not
ragged. -/
theorem advance_of_faultless (h : (s.advance l rest).faults = []) :
    ∃ e token, s.Takes l s.place.entries e token ∧ s.leave e.next = s
      ∧ s.advance l rest = s.goes l e.next token := by
  obtain ⟨e, token, hchoose, hleave, heq⟩ := exists_choose_of_faultless h
  have hfaults : (s.choose l rest s.place.entries).1.faults = [] := by
    rw [heq] at h
    rw [hchoose]
    exact h
  exact ⟨e, token, (choose_of_faultless hfaults).2 e token (by rw [hchoose]), hleave, heq⟩

/-- A step without a fault follows a state without faults. -/
theorem faults_of_advance (h : (s.advance l rest).faults = []) : s.faults = [] := by
  obtain ⟨e, token, -, -, heq⟩ := advance_of_faultless h
  rw [heq] at h
  exact h

/-- Where a run leaves no fault, there was none before. -/
theorem faults_of_run {ls : List Line} (h : (s.run ls).faults = []) : s.faults = [] := by
  induction ls generalizing s with
  | nil => exact h
  | cons l ls ih => exact faults_of_advance (ih h)

/-- What steps without a fault keep, runs without a fault keep. -/
theorem run_induction {P : ParseState → Prop} {Q : Line → Prop}
    (hstep : ∀ s l e token, P s → Q l → s.Takes l s.place.entries e token → s.leave e.next = s →
      P (s.goes l e.next token)) {ls : List Line} (hs : P s) (hls : ∀ l ∈ ls, Q l)
    (h : (s.run ls).faults = []) : P (s.run ls) := by
  induction ls generalizing s with
  | nil => exact hs
  | cons l ls ih =>
    have hfaults : (s.advance l ls).faults = [] := faults_of_run h
    obtain ⟨e, token, htakes, hleave, heq⟩ := advance_of_faultless hfaults
    refine ih ?_ (fun l' hl' => hls l' (List.mem_cons_of_mem _ hl')) h
    rw [heq]
    exact hstep s l e token hs (hls l (by simp)) htakes hleave

end ParseState

end FeatureTree
