import FeatureTree.Proofs.Plain.ReadTitles

/-!
# Parts that are read back

Each part of a plain document that is legible in a dialect is read as a part that says what comes
back of it, by a reader of that dialect that stands where the part can begin, with any number of
blank lines behind.
The document that was read so far gets the part at its end and is otherwise left alone, so inner
parts are added one by one and a whole feature is put together from them.

## Main results

* `Plain.leads_section`: a background or scenario up to its examples
* `Plain.leads_examples`, `Plain.leads_scenario`, `Plain.leads_body`, `Plain.leads_rule`: the parts
* `Plain.leads_feature`: a whole feature
-/

namespace FeatureTree

open Ast (Document)

namespace Plain

variable {s : ParseState} {ls : List Line} {d : Dialect}

/-- The lines of a part, with each blank line behind the part before it. -/
theorem part_append_blanks (h : Heading) (tags body : List Text) (inner : List (List Text))
    (j : Nat) : h.part tags body inner ++ List.replicate j []
      = (Layout.opening tags (Layout.titleLine h.keyword h.name) h.description (!body.isEmpty)
        ++ body ++ List.replicate (gap inner j) []) ++ gapped inner j := by
  rw [Heading.part, Layout.part, List.map_id', List.append_assoc, flatMap_gap]
  simp only [List.append_assoc]

/-- A part without inner parts is its title, its description and its body, with blank lines behind
them. -/
theorem part_nil_append_blanks (h : Heading) (tags body : List Text) (j : Nat) :
    h.part tags body [] ++ List.replicate j []
      = Layout.opening tags (Layout.titleLine h.keyword h.name) h.description (!body.isEmpty)
        ++ body ++ List.replicate j [] := by
  rw [part_append_blanks]
  simp [gap, gapped]

/-! ### Sections -/

/-- Blank lines behind a step change nothing. -/
theorem passes_blanks_behind_step {scope : Scope} {owner : Owner} {given : Argument}
    (hs : s.Ready) (hplace : s.place = .step scope owner given) (hgiven : given.isClosed = true)
    {k : Nat} (hls : Line.Spell ls (List.replicate k [])) : s.Passes ls s := by
  refine passes_blanks hs ?_ hls
  rw [hplace]
  cases owner <;> cases given <;> first | exact absurd hgiven Bool.false_ne_true | rfl

/-- A section is read as what comes back of it, up to the examples of a scenario. -/
theorem leads_section {scope : Scope} (owner : Owner) (hs : s.Ready)
    (hnext : s.place.next? owner.titleKind = some (.title scope owner)) {h : Heading}
    (hfit : h.Fit s.reading.dialect owner.titleKind) {tags : List Text}
    (htags : ∀ t ∈ tags, IsTag t)
    (hplace : tags = [] ∨ owner = .scenario
      ∧ s.place.next? .tagLine (some .scenarioLine) = some (.scenarioTags scope))
    {ps : List Step} (hps : ∀ p ∈ ps, p.Legible s.reading.dialect) {j : Nat}
    (hls : Line.Spell ls (Layout.opening tags (Layout.titleLine h.keyword h.name) h.description
      (!(stepLines ps).isEmpty) ++ stepLines ps ++ List.replicate j [])) :
    ∃ (ts : List Ast.Tag) (x : Ast.Heading) (xs : List Ast.Step), ts.map (·.name) = tags
      ∧ x.plain = h ∧ xs.map Ast.Step.plain = ps.map (Step.reread s.reading.dialect)
      ∧ s.Leads ls (State.TakesSteps scope owner)
        (s.document.onBody scope (·.start owner x ts xs)) := by
  have hkind : owner.titleKind ∈ TokenKind.titles := by cases owner <;> decide
  have hbegin : ∀ (ts : List Ast.Tag) loc, ts.map (·.name) = tags →
      (s.document.withTags ts).takePart s.reading.dialect.name loc (.title scope owner)
        (Token.ofTitle ⟨h.keyword, h.name⟩ owner.titleKind)
      = s.document.onBody scope (·.start owner (.ofTitle loc ⟨h.keyword, h.name⟩) ts []) := by
    intro ts loc hts
    cases owner with
    | background =>
      have hnil : ts = [] := by
        rcases hplace with rfl | ⟨ho, -⟩
        · exact List.map_eq_nil_iff.mp hts
        · cases ho
      rw [hnil, Document.withTags, ← hs.tags]
      rfl
    | scenario =>
      have htake : (s.document.withTags ts).takePart s.reading.dialect.name loc
            (.title scope .scenario) (Token.ofTitle ⟨h.keyword, h.name⟩ .scenarioLine)
          = (s.document.withTags ts).withoutTags.onBody scope
            (·.start .scenario (.ofTitle loc ⟨h.keyword, h.name⟩) ts []) := rfl
      rw [s.document.withTags_withoutTags ts hs.tags] at htake
      exact htake
  have hopening : ∀ (hasBody : Bool) (k : Nat) {ls : List Line},
      Line.Spell ls (Layout.opening tags (Layout.titleLine h.keyword h.name) h.description hasBody
        ++ List.replicate k []) →
      ∃ (ts : List Ast.Tag) (x : Ast.Heading), ts.map (·.name) = tags ∧ x.plain = h
        ∧ s.Leads ls (State.TakesSteps scope owner)
          (s.document.onBody scope (·.start owner x ts [])) := by
    intro hasBody k ls hls
    obtain ⟨ts, loc, ds, hts, hx, hlead⟩ :=
      passes_opening hkind hs (State.describes_section scope owner) (by simp) hnext hfit htags
        (hplace.imp_right fun h => by
          obtain ⟨rfl, ht⟩ := h
          exact ⟨_, ht, by rfl, rfl⟩)
        (fun ts loc hts => by rw [hbegin ts loc hts]; exact hs.tags) hls
    rw [hbegin ts loc hts, Document.onTitle_start] at hlead
    refine ⟨ts, _, hts, hx, hlead.mono fun p hp => ?_⟩
    rcases hp with rfl | rfl <;> exact ⟨rfl, rfl⟩
  by_cases hempty : ps = []
  · subst hempty
    obtain ⟨ts, x, hts, hx, hlead⟩ := hopening false j (by simpa [stepLines] using hls)
    exact ⟨ts, x, [], hts, hx, rfl, hlead⟩
  · rw [List.append_assoc] at hls
    obtain ⟨ls, ls', rfl, htitle, hsteps⟩ := Line.Spell.append_inv hls
    obtain ⟨ls', ls'', rfl, hsteps, hblanks⟩ := Line.Spell.append_inv hsteps
    obtain ⟨ts, x, hts, hx, hlead⟩ := hopening _ 0 (by simpa using htitle)
    obtain ⟨place, hplace', hrun, hready⟩ := hlead
    obtain ⟨xs, place', hxs, hstep, hrun', hready'⟩ :=
      passes_steps hready hplace' isMargin_indentUnit hps hsteps
    obtain ⟨given, rfl, hgiven⟩ := hstep.resolve_left fun hnil => hempty hnil.2
    have hrun'' := passes_blanks_behind_step hready' rfl hgiven hblanks
    have hdoc : (s.document.onBody scope (·.start owner x ts [])).onBody scope
          (·.onSteps owner (· ++ xs)) = s.document.onBody scope (·.start owner x ts xs) := by
      simp only [Document.onBody_onBody, Ast.Body.onSteps_start, List.nil_append]
    exact ⟨ts, x, xs, hts, hx, hxs, .step scope owner given, ⟨rfl, rfl, hgiven⟩,
      hdoc ▸ hrun.append (hrun'.append hrun''), hdoc ▸ hready'⟩

/-! ### Examples -/

/-- Examples are read as what comes back of them. -/
theorem leads_examples {scope : Scope} (hs : s.Ready) (hplace : s.place.IsInScenario scope)
    {p : Examples} (hfit : p.Legible s.reading.dialect) {j : Nat}
    (hls : Line.Spell ls (p.lines ++ List.replicate j [])) :
    ∃ x : Ast.Examples, x.plain = p.reread ∧ s.Leads ls (State.IsInScenario scope)
      (s.document.onBody scope (·.onExamples (· ++ [x]))) := by
  obtain ⟨h, tags, rows⟩ := p
  obtain ⟨hnext, hnextTag⟩ := State.next?_examplesLine hplace
  have hbegin : ∀ (ts : List Ast.Tag) loc,
      (s.document.withTags ts).takePart s.reading.dialect.name loc (.examples scope)
        (Token.ofTitle ⟨h.keyword, h.name⟩ .examplesLine)
      = s.document.onBody scope
        (·.onExamples (· ++ [⟨.ofTitle loc ⟨h.keyword, h.name⟩, ts, []⟩])) := by
    intro ts loc
    have htake : (s.document.withTags ts).takePart s.reading.dialect.name loc (.examples scope)
          (Token.ofTitle ⟨h.keyword, h.name⟩ .examplesLine)
        = (s.document.withTags ts).withoutTags.onBody scope
          (·.onExamples (· ++ [⟨.ofTitle loc ⟨h.keyword, h.name⟩, ts, []⟩])) := rfl
    rw [s.document.withTags_withoutTags ts hs.tags] at htake
    exact htake
  rw [Examples.lines, part_nil_append_blanks] at hls
  have hopening : ∀ (hasBody : Bool) (k : Nat) {ls : List Line},
      Line.Spell ls (Layout.opening tags (Layout.titleLine h.keyword h.name) h.description hasBody
        ++ List.replicate k []) →
      ∃ (ts : List Ast.Tag) (x : Ast.Heading), ts.map (·.name) = tags ∧ x.plain = h
        ∧ s.Leads ls (fun p => p = .examples scope ∨ p = .examplesText scope)
          (s.document.onBody scope (·.onExamples (· ++ [⟨x, ts, []⟩]))) := by
    intro hasBody k ls hls
    obtain ⟨ts, loc, ds, hts, hx, hlead⟩ :=
      passes_opening (by decide) hs (State.describes_examples scope) (by simp) hnext hfit.heading
        hfit.tags (.inr ⟨_, hnextTag, rfl, rfl⟩)
        (fun ts loc _ => by rw [hbegin ts loc]; exact hs.tags) hls
    rw [hbegin ts loc, Document.onTitle_addExamples] at hlead
    exact ⟨ts, _, hts, hx, hlead⟩
  by_cases hempty : rows = []
  · subst hempty
    have hnil : Layout.indent (Layout.tableLines []) = [] := rfl
    simp only [hnil, List.append_nil, List.isEmpty_nil, Bool.not_true] at hls
    obtain ⟨ts, x, hts, hx, hlead⟩ := hopening false j hls
    refine ⟨⟨x, ts, []⟩, by rw [Ast.Examples.plain, hts, hx]; rfl, hlead.mono fun p hp => ?_⟩
    rcases hp with rfl | rfl <;> rfl
  · rw [List.append_assoc] at hls
    obtain ⟨ls, ls', rfl, htitle, hrows⟩ := Line.Spell.append_inv hls
    obtain ⟨ls', ls'', rfl, hrows, hblanks⟩ := Line.Spell.append_inv hrows
    have heven : Even rows := hfit.grid
    rw [← tableLines_fillRow heven] at hrows
    obtain ⟨ts, x, hts, hx, place, hplace', hrun, hready⟩ := hopening _ 0 (by simpa using htitle)
    have hnextRow : place.next? .tableRow = some (.examplesTable scope) := by
      rcases hplace' with rfl | rfl <;> rfl
    have hsame : ∀ (d : Document) f, d.onRows (.examplesTable scope) f = d.onRows place f := by
      rcases hplace' with rfl | rfl <;> exact fun _ _ => rfl
    obtain ⟨xs, hxs, hrun'⟩ := passes_rows hready.distinct hready.fence hnextRow rfl hsame
      (hready.settled _) isMargin_indentUnit (by simpa using hempty) heven.grid hrows
    have hdoc : (s.document.onBody scope (·.onExamples (· ++ [⟨x, ts, []⟩]))).onRows place (· ++ xs)
        = s.document.onBody scope (·.onExamples (· ++ [⟨x, ts, xs⟩])) := by
      rw [← hsame]
      exact s.document.onRows_addExamples scope ⟨x, ts, []⟩ (· ++ xs)
    have hready' : (s.moved (.examplesTable scope)
        (s.document.onBody scope (·.onExamples (· ++ [⟨x, ts, xs⟩])))).Ready := by
      refine ⟨hs.distinct, hs.fence, hs.tags, ParseState.settled_of_openRows ?_⟩
      have hragged := firstRagged?_eq_none (hxs ▸ heven.grid)
      rcases s.document.openRows_addExamples scope ⟨x, ts, xs⟩ with hopen | hopen
      · exact (congrArg Ast.firstRagged? hopen).trans hragged
      · exact congrArg Ast.firstRagged? hopen
    have hrun'' := passes_blanks hready' rfl hblanks
    refine ⟨⟨x, ts, xs⟩, by rw [Ast.Examples.plain, hts, hx, hxs]; rfl, .examplesTable scope, rfl,
      ?_, hready'⟩
    exact hrun.append ((hdoc ▸ hrun').append hrun'')

/-! ### Scenarios and what holds them -/

/-- A scenario says what comes back of its parts, if what follows its steps agrees with its
keyword. -/
theorem plain_scenario_eq {words : List Text} {p : Scenario} (hagrees : p.Agrees words)
    {x : Ast.Heading} {ts : List Ast.Tag} {xs : List Ast.Step} {es : List Ast.Examples}
    (hx : x.plain = p.heading) (hts : ts.map (·.name) = p.tags)
    (hxs : xs.map Ast.Step.plain = p.steps.map (Step.reread d))
    (hes : es.map Ast.Examples.plain = (p.examples.getD []).map Examples.reread) :
    (⟨x, ts, xs, es⟩ : Ast.Scenario).plain words = p.reread d := by
  obtain ⟨h, tags, steps, examples⟩ := p
  have hkeyword : x.keyword.trim = h.keyword := congrArg Heading.keyword hx
  have hempty : es.isEmpty = (examples.getD []).isEmpty := by
    rw [← List.isEmpty_map, hes, List.isEmpty_map]
  have hsome : examples.isSome = (!(examples.getD []).isEmpty || words.contains h.keyword) :=
    hagrees
  have hexamples : (if (!es.isEmpty || words.contains x.keyword.trim) then
      some (es.map Ast.Examples.plain) else none) = examples.map (·.map Examples.reread) := by
    rw [hempty, hkeyword, ← hsome, hes]
    cases examples <;> rfl
  simp only [Ast.Scenario.plain, Ast.Scenario.isOutline, hx, hts, hxs]
  exact congrArg (Scenario.mk h tags (steps.map (Step.reread d))) hexamples

/-- A scenario is read as what comes back of it. -/
theorem leads_scenario {scope : Scope} (hs : s.Ready) (hplace : s.place.IsWithin scope)
    {p : Scenario} (hfit : p.Legible s.reading.dialect) {j : Nat}
    (hls : Line.Spell ls (p.lines ++ List.replicate j [])) :
    ∃ x : Ast.Scenario,
      x.plain s.reading.dialect.outlineKeywords = p.reread s.reading.dialect
      ∧ s.Leads ls (State.IsWithin scope) (s.document.onBody scope (·.addScenario x)) := by
  obtain ⟨hnext, hnextTag⟩ := State.next?_scenarioLine hplace
  rw [Scenario.lines, part_append_blanks] at hls
  obtain ⟨ls, ls', rfl, hsection, hinner⟩ := Line.Spell.append_inv hls
  obtain ⟨ts, x, xs, hts, hx, hxs, place, hplace', hrun, hready⟩ :=
    leads_section .scenario hs hnext hfit.heading hfit.tags (.inr ⟨rfl, hnextTag⟩)
      hfit.steps hsection
  obtain ⟨es, hes, place', hplace'', hrun', hready'⟩ :=
    leads_inner (s := s.moved place (s.document.onBody scope (·.start .scenario x ts xs)))
      Examples.lines Ast.Examples.plain Examples.reread (State.IsInScenario scope)
      (fun es d => d.onBody scope (·.onExamples (· ++ es)))
      (fun d => d.onBody_eq_self scope fun b => b.onExamples_eq_self List.append_nil)
      (fun d e es => by
        simp only [Document.onBody_onBody, Ast.Body.onExamples_onExamples, List.append_assoc,
          List.singleton_append])
      (fun e he s' ls' j hreading hs' hplace' hls' =>
        leads_examples hs' hplace' (by rw [hreading]; exact hfit.examples e he) hls')
      hready hplace'.isInScenario hinner
  have hdoc : (s.document.onBody scope (·.start .scenario x ts xs)).onBody scope
        (·.onExamples (· ++ es))
      = s.document.onBody scope (·.addScenario ⟨x, ts, xs, es⟩) := by
    simp only [Document.onBody_onBody, Ast.Body.start, Ast.Body.onExamples_addScenario,
      List.nil_append]
  exact ⟨⟨x, ts, xs, es⟩, plain_scenario_eq hfit.agrees hx hts hxs hes, place', hplace''.isWithin,
    hdoc ▸ hrun.append hrun', hdoc ▸ hready'⟩

/-- A background is read as what comes back of it. -/
theorem leads_background {scope : Scope} (hs : s.Ready)
    (hnext : s.place.next? .backgroundLine = some (.title scope .background)) {p : Background}
    (hfit : p.Legible s.reading.dialect) {j : Nat}
    (hls : Line.Spell ls (p.lines ++ List.replicate j [])) :
    ∃ x : Ast.Background, x.plain = p.reread s.reading.dialect
      ∧ s.Leads ls (State.IsWithin scope) (s.document.onBody scope (·.setBackground x)) := by
  rw [Background.lines, part_nil_append_blanks] at hls
  obtain ⟨ts, x, xs, -, hx, hxs, hlead⟩ :=
    leads_section .background hs hnext hfit.heading (by simp) (.inl rfl) hfit.steps hls
  refine ⟨⟨x, xs⟩, ?_, hlead.mono fun _ hp => hp.isWithin⟩
  rw [Ast.Background.plain, hx, hxs]
  rfl

/-- Scenarios are read as what comes back of them, wherever they can begin. -/
theorem leads_scenarios {scope : Scope} (hs : s.Ready) (hplace : s.place.IsWithin scope)
    {ps : List Scenario} (hfit : ∀ p ∈ ps, p.Legible s.reading.dialect) {j : Nat}
    (hls : Line.Spell ls (gapped (ps.map Scenario.lines) j)) :
    ∃ xs : List Ast.Scenario,
      xs.map (Ast.Scenario.plain s.reading.dialect.outlineKeywords)
        = ps.map (Scenario.reread s.reading.dialect)
      ∧ s.Leads ls (State.IsWithin scope) (s.document.onBody scope (·.add ⟨none, xs⟩)) := by
  refine leads_inner Scenario.lines (Ast.Scenario.plain s.reading.dialect.outlineKeywords)
    (Scenario.reread s.reading.dialect) (State.IsWithin scope)
    (fun xs d => d.onBody scope (·.add ⟨none, xs⟩)) (fun d => ?_) (fun d x xs => ?_) ?_
    hs hplace hls
  · exact d.onBody_eq_self scope fun b => by simp [Ast.Body.add]
  · simp [Document.onBody_onBody, Ast.Body.add]
  · intro p hp s' ls' k hreading hs' hplace' hls'
    obtain ⟨x, hx, hlead⟩ :=
      leads_scenario hs' hplace' (by rw [hreading]; exact hfit p hp) hls'
    refine ⟨x, hreading ▸ hx, ?_⟩
    have hadd : ∀ b : Ast.Body, b.add ⟨none, [x]⟩ = b.addScenario x := fun b => by
      simp [Ast.Body.add, Ast.Body.addScenario]
    simpa only [hadd] using hlead

/-- The sections of a feature or rule are read as what comes back of them. -/
theorem leads_body {scope : Scope} (hs : s.Ready)
    (hplace : s.place = .heading scope ∨ s.place = .headingText scope) {b : Body}
    (hfit : b.Legible s.reading.dialect) {j : Nat} (hls : Line.Spell ls (gapped b.parts j)) :
    ∃ x : Ast.Body, x.plain s.reading.dialect.outlineKeywords = b.reread s.reading.dialect
      ∧ s.Leads ls (State.IsWithin scope) (s.document.onBody scope (·.add x)) := by
  obtain ⟨background, scenarios⟩ := b
  have hwithin : s.place.IsWithin scope := by rcases hplace with h | h <;> rw [h] <;> rfl
  rw [Body.parts, gapped_append] at hls
  obtain ⟨ls, ls', rfl, hbackground, hrest⟩ := Line.Spell.append_inv hls
  cases background with
  | none =>
    cases hbackground
    obtain ⟨xs, hxs, hlead⟩ := leads_scenarios hs hwithin hfit.scenarios hrest
    exact ⟨⟨none, xs⟩, by rw [Ast.Body.plain, hxs]; rfl, hlead⟩
  | some p =>
    have hnext : s.place.next? .backgroundLine = some (.title scope .background) := by
      rcases hplace with h | h <;> rw [h] <;> rfl
    have hlines : Line.Spell ls
        (p.lines ++ List.replicate (gap (scenarios.map Scenario.lines) j) []) := by
      simpa [gapped, gap] using hbackground
    obtain ⟨x, hx, place, hplace', hrun, hready⟩ :=
      leads_background hs hnext (hfit.background p rfl) hlines
    obtain ⟨xs, hxs, place', hplace'', hrun', hready'⟩ :=
      leads_scenarios hready hplace' hfit.scenarios hrest
    have hdoc : (s.document.onBody scope (·.setBackground x)).onBody scope (·.add ⟨none, xs⟩)
        = s.document.onBody scope (·.add ⟨some x, xs⟩) := by
      simp [Document.onBody_onBody, Ast.Body.add, Ast.Body.setBackground]
    refine ⟨⟨some x, xs⟩, ?_, place', hplace'', hdoc ▸ hrun.append hrun', hdoc ▸ hready'⟩
    have hscenarios : xs.map (Ast.Scenario.plain s.reading.dialect.outlineKeywords)
        = scenarios.map (Scenario.reread s.reading.dialect) := hxs
    rw [Ast.Body.plain, hscenarios, Option.map_some, hx]
    rfl

/-! ### Rules and features -/

/-- Whether a place is one behind the title of a feature, so that a rule can begin. -/
def IsBehindTitle (place : State) : Prop := ∃ scope, place.IsWithin scope

/-- A rule is read as what comes back of it. -/
theorem leads_rule (hs : s.Ready) (hplace : IsBehindTitle s.place) {p : Rule}
    (hfit : p.Legible s.reading.dialect) {j : Nat}
    (hls : Line.Spell ls (p.lines ++ List.replicate j [])) :
    ∃ x : Ast.Rule, x.plain s.reading.dialect.outlineKeywords = p.reread s.reading.dialect
      ∧ s.Leads ls IsBehindTitle (s.document.addRules [x]) := by
  obtain ⟨h, tags, body⟩ := p
  obtain ⟨scope, hplace⟩ := hplace
  obtain ⟨hnext, hnextTag⟩ := State.next?_ruleLine hplace
  have hbegin : ∀ (ts : List Ast.Tag) loc,
      (s.document.withTags ts).takePart s.reading.dialect.name loc (.heading .rule)
        (Token.ofTitle ⟨h.keyword, h.name⟩ .ruleLine)
      = s.document.addRules [⟨.ofTitle loc ⟨h.keyword, h.name⟩, ts, .empty⟩] := by
    intro ts loc
    have htake : (s.document.withTags ts).takePart s.reading.dialect.name loc (.heading .rule)
          (Token.ofTitle ⟨h.keyword, h.name⟩ .ruleLine)
        = (s.document.withTags ts).withoutTags.addRules
          [⟨.ofTitle loc ⟨h.keyword, h.name⟩, ts, .empty⟩] := rfl
    rw [s.document.withTags_withoutTags ts hs.tags] at htake
    exact htake
  rw [Rule.lines, part_append_blanks] at hls
  obtain ⟨ls, ls', rfl, htitle, hinner⟩ := Line.Spell.append_inv hls
  obtain ⟨ts, loc, ds, hts, hx, place, hplace', hrun, hready⟩ :=
    passes_opening (by decide) hs State.describes_rule (by simp) hnext hfit.heading hfit.tags
      (.inr ⟨_, hnextTag, rfl, rfl⟩) (fun ts loc _ => by rw [hbegin ts loc]; exact hs.tags)
      (by simpa using htitle)
  rw [hbegin ts loc] at hrun hready
  generalize Ast.Heading.ofTitle loc ⟨h.keyword, h.name⟩ = title at hx hrun hready
  have htitled : ∀ f, (s.document.addRules [⟨title, ts, .empty⟩]).onTitle (.heading .rule) f
      = s.document.addRules [⟨f title, ts, .empty⟩] :=
    s.document.onHeading_addRule ⟨title, ts, .empty⟩
  rw [htitled] at hrun hready
  obtain ⟨x, hbody, place', hwithin, hrun', hready'⟩ := leads_body hready hplace' hfit.body hinner
  have hdoc : (s.document.addRules [⟨title.extend ds, ts, .empty⟩]).onBody .rule (·.add x)
      = s.document.addRules [⟨title.extend ds, ts, x⟩] := by
    rw [Document.onBody_addRule, Ast.Body.empty_add]
  refine ⟨⟨title.extend ds, ts, x⟩, ?_, place', ⟨.rule, hwithin⟩, hdoc ▸ hrun.append hrun',
    hdoc ▸ hready'⟩
  rw [Ast.Rule.plain, hts, hx]
  exact congrArg (Rule.mk h tags) hbody

/-- Rules are read as what comes back of them. -/
theorem leads_rules (hs : s.Ready) (hplace : IsBehindTitle s.place) {ps : List Rule}
    (hfit : ∀ p ∈ ps, p.Legible s.reading.dialect) {j : Nat}
    (hls : Line.Spell ls (gapped (ps.map Rule.lines) j)) :
    ∃ xs : List Ast.Rule,
      xs.map (Ast.Rule.plain s.reading.dialect.outlineKeywords)
        = ps.map (Rule.reread s.reading.dialect)
      ∧ s.Leads ls IsBehindTitle (s.document.addRules xs) := by
  refine leads_inner Rule.lines (Ast.Rule.plain s.reading.dialect.outlineKeywords)
    (Rule.reread s.reading.dialect) IsBehindTitle (fun xs d => d.addRules xs)
    (fun d => d.onFeature_eq_self fun t => by simp) (fun d x xs => d.addRules_addRules [x] xs) ?_
    hs hplace hls
  intro p hp s' ls' k hreading hs' hplace' hls'
  obtain ⟨x, hx, hlead⟩ := leads_rule hs' hplace' (by rw [hreading]; exact hfit p hp) hls'
  exact ⟨x, hreading ▸ hx, hlead⟩

/-- A feature is read as what comes back of it, at the start or behind a language line. -/
theorem leads_feature (hs : s.Ready) (hplace : s.place = .start ∨ s.place = .languageGiven)
    (hdialect : Dialect.ofName? s.reading.dialect.name = some s.reading.dialect) {p : Feature}
    (hfit : p.Legible s.reading.dialect) {j : Nat}
    (hls : Line.Spell ls (p.lines ++ List.replicate j [])) :
    ∃ x : Ast.Feature, x.plain = p.reread s.reading.dialect
      ∧ s.Leads ls IsBehindTitle (s.document.withFeature x) := by
  obtain ⟨h, tags, language, body, rules⟩ := p
  have hnext : s.place.next? .featureLine = some (.heading .feature)
      ∧ s.place.next? .tagLine (some .featureLine) = some .featureTags := by
    rcases hplace with h | h <;> rw [h] <;> exact ⟨rfl, rfl⟩
  have hbegin : ∀ (ts : List Ast.Tag) loc,
      (s.document.withTags ts).takePart s.reading.dialect.name loc (.heading .feature)
        (Token.ofTitle ⟨h.keyword, h.name⟩ .featureLine)
      = s.document.withFeature
        ⟨.ofTitle loc ⟨h.keyword, h.name⟩, ts, s.reading.dialect.name, .empty, []⟩ := by
    intro ts loc
    have htake : (s.document.withTags ts).takePart s.reading.dialect.name loc (.heading .feature)
          (Token.ofTitle ⟨h.keyword, h.name⟩ .featureLine)
        = (s.document.withTags ts).withoutTags.withFeature
          ⟨.ofTitle loc ⟨h.keyword, h.name⟩, ts, s.reading.dialect.name, .empty, []⟩ := rfl
    rw [s.document.withTags_withoutTags ts hs.tags] at htake
    exact htake
  rw [Feature.lines, part_append_blanks, gapped_append] at hls
  obtain ⟨ls, ls', rfl, htitle, hinner⟩ := Line.Spell.append_inv hls
  obtain ⟨ls', ls'', rfl, hbody, hrules⟩ := Line.Spell.append_inv hinner
  obtain ⟨ts, loc, ds, hts, hx, place, hplace', hrun, hready⟩ :=
    passes_opening (by decide) hs State.describes_feature (by simp) hnext.1 hfit.heading hfit.tags
      (.inr ⟨_, hnext.2, rfl, rfl⟩) (fun ts loc _ => by rw [hbegin ts loc]; exact hs.tags)
      (by simpa using htitle)
  rw [hbegin ts loc] at hrun hready
  generalize Ast.Heading.ofTitle loc ⟨h.keyword, h.name⟩ = title at hx hrun hready
  obtain ⟨x, hx', place', hwithin, hrun', hready'⟩ := leads_body hready hplace' hfit.body hbody
  have hdoc : ((s.document.withFeature
          ⟨title, ts, s.reading.dialect.name, .empty, []⟩).onTitle (.heading .feature)
        (·.extend ds)).onBody .feature (·.add x)
      = s.document.withFeature ⟨title.extend ds, ts, s.reading.dialect.name, x, []⟩ :=
    congrArg (fun b => s.document.withFeature
      ⟨title.extend ds, ts, s.reading.dialect.name, b, []⟩) x.empty_add
  obtain ⟨rs, hrs, hlead⟩ := leads_rules hready' ⟨.feature, hwithin⟩ hfit.rules hrules
  obtain ⟨place'', hbehind, hrun'', hready''⟩ := hlead
  have hdoc' : (s.document.withFeature
        ⟨title.extend ds, ts, s.reading.dialect.name, x, []⟩).addRules rs
      = s.document.withFeature ⟨title.extend ds, ts, s.reading.dialect.name, x, rs⟩ := rfl
  have hdocument := (congrArg (·.addRules rs) hdoc).trans hdoc'
  refine ⟨⟨title.extend ds, ts, s.reading.dialect.name, x, rs⟩, ?_, place'', hbehind,
    hdocument ▸ hrun.append (hrun'.append hrun''), hdocument ▸ hready''⟩
  have hwords : Ast.Feature.outlineWords ⟨title.extend ds, ts, s.reading.dialect.name, x, rs⟩
      = s.reading.dialect.outlineKeywords := by
    rw [Ast.Feature.outlineWords, hdialect, Option.getD_some]
  obtain rfl : language = s.reading.dialect.name := hfit.language
  have hrs' : rs.map (Ast.Rule.plain s.reading.dialect.outlineKeywords)
      = rules.map (Rule.reread s.reading.dialect) := hrs
  have hx'' : x.plain s.reading.dialect.outlineKeywords = body.reread s.reading.dialect := hx'
  simp only [Ast.Feature.plain, Feature.reread, hwords, hts, hx, hx'', hrs']

end Plain

end FeatureTree
