import FeatureTree.Proofs.Gherkin.Places

/-!
# Laws of documents

A law asks something of every heading, tag and step and of the rows of every examples of a document
(`Ast.Law`). A document that is read obeys a law if everything that a token adds to it does: each
operation that extends a document keeps a law that the extension keeps.

A table may be ragged only while it is being read. So what is asked of whole tables holds of the
document without the table that is being read (`Ast.Document.close`), and of that table as soon as
it ends.

## Main results

* `Ast.Document.Obeys.take`: a token that keeps a law is added to a document that obeys it
* `Ast.Document.Obeys.of_close`: a law of tables holds of a document if it holds without the table
  that is being read and of that table
-/

namespace FeatureTree

namespace Ast

/-- What is asked of the parts of a document. -/
structure Law where
  heading : TokenKind → Heading → Prop
  tag : Tag → Prop
  step : Step → Prop
  rows : List Row → Prop

variable {law : Law}

structure Background.Obeys (law : Law) (b : Background) : Prop where
  heading : law.heading .backgroundLine b.heading
  steps : ∀ s ∈ b.steps, law.step s

structure Examples.Obeys (law : Law) (e : Examples) : Prop where
  heading : law.heading .examplesLine e.heading
  tags : ∀ t ∈ e.tags, law.tag t
  rows : law.rows e.rows

structure Scenario.Obeys (law : Law) (s : Scenario) : Prop where
  heading : law.heading .scenarioLine s.heading
  tags : ∀ t ∈ s.tags, law.tag t
  steps : ∀ t ∈ s.steps, law.step t
  examples : ∀ e ∈ s.examples, e.Obeys law

structure Body.Obeys (law : Law) (b : Body) : Prop where
  background : ∀ x ∈ b.background, x.Obeys law
  scenarios : ∀ x ∈ b.scenarios, x.Obeys law

structure Rule.Obeys (law : Law) (r : Rule) : Prop where
  heading : law.heading .ruleLine r.heading
  tags : ∀ t ∈ r.tags, law.tag t
  body : r.body.Obeys law

structure Feature.Obeys (law : Law) (f : Feature) : Prop where
  heading : law.heading .featureLine f.heading
  tags : ∀ t ∈ f.tags, law.tag t
  body : f.body.Obeys law
  rules : ∀ r ∈ f.rules, r.Obeys law

/-- Whether a document obeys a law in all parts of its feature. -/
def Document.Obeys (law : Law) (d : Document) : Prop := ∀ f ∈ d.feature, f.Obeys law

/-! ### Sections -/

namespace Body.Obeys

variable {b : Body}

/-- An empty body obeys every law. -/
theorem empty : Body.empty.Obeys law := ⟨by simp [Body.empty], by simp [Body.empty]⟩

/-- A body still obeys a law if its last steps are changed into steps that do. -/
theorem onSteps (h : b.Obeys law) (owner : Owner) {f : List Step → List Step}
    (hf : ∀ xs, (∀ s ∈ xs, law.step s) → ∀ s ∈ f xs, law.step s) :
    (b.onSteps owner f).Obeys law := by
  cases owner with
  | background =>
    refine ⟨fun x hx => ?_, h.scenarios⟩
    obtain ⟨y, hy, rfl⟩ := Option.map_eq_some_iff.mp hx
    obtain ⟨hheading, hsteps⟩ := h.background y hy
    exact ⟨hheading, hf _ hsteps⟩
  | scenario =>
    refine ⟨h.background, forall_mem_mapLast h.scenarios fun x hx => ?_⟩
    exact ⟨hx.heading, hx.tags, hf _ hx.steps, hx.examples⟩

/-- A body still obeys a law if its last title is changed into one that does. -/
theorem onTitle (h : b.Obeys law) (owner : Owner) {f : Heading → Heading}
    (hf : ∀ x, law.heading owner.titleKind x → law.heading owner.titleKind (f x)) :
    (b.onTitle owner f).Obeys law := by
  cases owner with
  | background =>
    refine ⟨fun x hx => ?_, h.scenarios⟩
    obtain ⟨y, hy, rfl⟩ := Option.map_eq_some_iff.mp hx
    obtain ⟨hheading, hsteps⟩ := h.background y hy
    exact ⟨hf _ hheading, hsteps⟩
  | scenario =>
    refine ⟨h.background, forall_mem_mapLast h.scenarios fun x hx => ?_⟩
    exact ⟨hf _ hx.heading, hx.tags, hx.steps, hx.examples⟩

/-- A body still obeys a law if its last examples are changed into examples that do. -/
theorem onExamples (h : b.Obeys law) {f : List Examples → List Examples}
    (hf : ∀ xs, (∀ e ∈ xs, e.Obeys law) → ∀ e ∈ f xs, e.Obeys law) : (b.onExamples f).Obeys law :=
  ⟨h.background, forall_mem_mapLast h.scenarios fun _ hx =>
    ⟨hx.heading, hx.tags, hx.steps, hf _ hx.examples⟩⟩

/-- A body still obeys a law if what is started in it does. -/
theorem start (h : b.Obeys law) (owner : Owner) {x : Heading} (hx : law.heading owner.titleKind x)
    {tags : List Tag} (htags : ∀ t ∈ tags, law.tag t) : (b.start owner x tags []).Obeys law := by
  cases owner with
  | background =>
    refine ⟨fun y hy => ?_, h.scenarios⟩
    obtain rfl := Option.some.inj hy
    exact ⟨hx, by simp⟩
  | scenario =>
    refine ⟨h.background, fun y hy => ?_⟩
    rcases List.mem_append.mp hy with hy | hy
    · exact h.scenarios y hy
    · obtain rfl := List.mem_singleton.mp hy
      exact ⟨hx, htags, by simp, by simp⟩

end Body.Obeys

/-! ### Documents -/

namespace Document.Obeys

variable {d : Document}

/-- An empty document obeys every law. -/
theorem empty : Document.empty.Obeys law := fun f hf => by cases hf

/-- Documents with the same feature obey the same laws. -/
theorem of_feature_eq {d' : Document} (h : d.Obeys law) (heq : d'.feature = d.feature) :
    d'.Obeys law := by
  rw [Document.Obeys, heq]
  exact h

/-- A document still obeys a law if its feature is changed into one that does. -/
theorem onFeature (h : d.Obeys law) {f : Feature → Feature}
    (hf : ∀ x, x.Obeys law → (f x).Obeys law) : (d.onFeature f).Obeys law := by
  intro x hx
  obtain ⟨y, hy, rfl⟩ := Option.map_eq_some_iff.mp hx
  exact hf y (h y hy)

/-- A document still obeys a law if a body in it is changed into one that does. -/
theorem onBody (h : d.Obeys law) (scope : Scope) {f : Body → Body}
    (hf : ∀ b, b.Obeys law → (f b).Obeys law) : (d.onBody scope f).Obeys law := by
  refine h.onFeature fun x hx => ?_
  cases scope with
  | feature => exact ⟨hx.heading, hx.tags, hf _ hx.body, hx.rules⟩
  | rule =>
    exact ⟨hx.heading, hx.tags, hx.body, forall_mem_mapLast hx.rules fun r hr =>
      ⟨hr.heading, hr.tags, hf _ hr.body⟩⟩

/-- A document still obeys a law if the heading and the tags of an added rule do. -/
theorem addRule (h : d.Obeys law) {x : Heading} (hx : law.heading .ruleLine x) {tags : List Tag}
    (htags : ∀ t ∈ tags, law.tag t) : (d.addRules [⟨x, tags, .empty⟩]).Obeys law := by
  refine h.onFeature fun f hf => ⟨hf.heading, hf.tags, hf.body, fun r hr => ?_⟩
  rcases List.mem_append.mp hr with hr | hr
  · exact hf.rules r hr
  · obtain rfl := List.mem_singleton.mp hr
    exact ⟨hx, htags, .empty⟩

/-- A document obeys a law if the heading and the tags of its feature do. -/
theorem withFeature {x : Heading} (hx : law.heading .featureLine x) {tags : List Tag}
    (htags : ∀ t ∈ tags, law.tag t) (language : Text) :
    (d.withFeature ⟨x, tags, language, .empty, []⟩).Obeys law := by
  intro f hf
  obtain rfl := Option.some.inj hf
  exact ⟨hx, htags, .empty, by simp⟩

end Document.Obeys

end Ast

/-- The kind of the title that a place stands under, where its description can go on. -/
def State.titleKind? : State → Option TokenKind
  | heading .feature | headingText .feature => some .featureLine
  | heading .rule | headingText .rule => some .ruleLine
  | title _ owner | titleText _ owner => some owner.titleKind
  | examples _ | examplesText _ => some .examplesLine
  | _ => none

namespace Ast

variable {law : Law}

namespace Document.Obeys

variable {d : Document}

/-- A heading is changed in a way that keeps the law. -/
theorem onTitle (h : d.Obeys law) (place : State) {f : Heading → Heading}
    (hf : ∀ kind, place.titleKind? = some kind → ∀ x, law.heading kind x → law.heading kind (f x))
    (htable : ∀ scope, place ≠ .examplesTable scope) : (d.onTitle place f).Obeys law := by
  cases place with
  | heading scope | headingText scope =>
    refine h.onFeature fun x hx => ?_
    cases scope with
    | feature => exact ⟨hf _ rfl _ hx.heading, hx.tags, hx.body, hx.rules⟩
    | rule =>
      exact ⟨hx.heading, hx.tags, hx.body, forall_mem_mapLast hx.rules fun r hr =>
        ⟨hf _ rfl _ hr.heading, hr.tags, hr.body⟩⟩
  | title scope owner | titleText scope owner =>
    exact h.onBody scope fun b hb => hb.onTitle owner (hf _ rfl)
  | examples scope | examplesText scope =>
    exact h.onBody scope fun b hb => hb.onExamples fun xs hxs =>
      forall_mem_mapLast hxs fun e he => ⟨hf _ rfl _ he.heading, he.tags, he.rows⟩
  | examplesTable scope => exact absurd rfl (htable scope)
  | _ => exact h

/-- The table of a place is changed in a way that keeps the law. -/
theorem onRows (h : d.Obeys law) (place : State) {f : List Row → List Row}
    (hstep : ∀ s, law.step s → law.step { s with table := f s.table })
    (hrows : ∀ rows, law.rows rows → law.rows (f rows)) : (d.onRows place f).Obeys law := by
  cases place with
  | step scope owner given =>
    exact h.onBody scope fun b hb => hb.onSteps owner fun xs hxs => forall_mem_mapLast hxs hstep
  | examples scope | examplesText scope | examplesTable scope =>
    exact h.onBody scope fun b hb => hb.onExamples fun xs hxs =>
      forall_mem_mapLast hxs fun e he => ⟨he.heading, he.tags, hrows _ he.rows⟩
  | _ => exact h

/-- The doc string of a place is changed in a way that keeps the law. -/
theorem onDocString (h : d.Obeys law) (place : State) {f : Option DocString → Option DocString}
    (hstep : ∀ s, law.step s → law.step { s with docString := f s.docString }) :
    (d.onDocString place f).Obeys law := by
  cases place with
  | step scope owner given =>
    exact h.onBody scope fun b hb => hb.onSteps owner fun xs hxs => forall_mem_mapLast hxs hstep
  | _ => exact h

end Document.Obeys

/-! ### Tokens -/

/-- Whether what a token adds to a document keeps a law, where `here` is the place where its line is
read. -/
structure Law.Keeps (law : Law) (l : Line) (here : State) (token : Token) : Prop where
  heading : ∀ kind ∈ TokenKind.titles, ∀ title, token = Token.ofTitle title kind →
    law.heading kind (.ofTitle l.location title)
  tag : ∀ tags, token = .tagLine tags → ∀ p ∈ tags, law.tag ⟨⟨l.number, p.1⟩, p.2⟩
  noRows : ∀ title, token = .examplesLine title → law.rows []
  step : ∀ keyword role text, token = .stepLine keyword role text →
    law.step ⟨l.location, keyword, role, text, [], none⟩
  description : ∀ text, token = .other text → ∀ kind, here.titleKind? = some kind → ∀ x,
    law.heading kind x → law.heading kind (x.describe text)
  content : ∀ text, token = .other text → ∀ s, law.step s → law.step { s with
    docString := s.docString.map fun t => { t with lines := t.lines ++ [text] } }
  fence : ∀ mark mediaType, token = .docStringSeparator mark mediaType → ∀ s, law.step s →
    law.step { s with docString := some ⟨l.location, mark, mediaType, []⟩ }
  stepRow : ∀ cells, token = .tableRow cells → ∀ s, law.step s →
    law.step { s with table := s.table ++ [.ofCells l.location cells] }
  row : ∀ cells, token = .tableRow cells → ∀ rows, law.rows rows →
    law.rows (rows ++ [.ofCells l.location cells])

/-- A title or step that keeps a law begins a part of a document that obeys it. -/
theorem Document.Obeys.takePart {d : Document} (h : d.Obeys law) (htags : ∀ t ∈ d.tags, law.tag t)
    {l : Line} {here : State} {token : Token} (hkeeps : law.Keeps l here token) (language : Text)
    (next : State) : (d.takePart language l.location next token).Obeys law := by
  cases token with
  | featureLine title =>
    exact Document.Obeys.withFeature (hkeeps.heading .featureLine (by decide) title rfl) htags
      language
  | ruleLine title =>
    exact (h.of_feature_eq rfl).addRule (hkeeps.heading .ruleLine (by decide) title rfl) htags
  | backgroundLine title =>
    have hx := hkeeps.heading .backgroundLine (by decide) title rfl
    cases next with
    | title scope owner =>
      have hnone : ∀ t ∈ ([] : List Tag), law.tag t := nofun
      exact h.onBody scope fun b hb => hb.start .background hx hnone
    | _ => exact h
  | scenarioLine title =>
    have hx := hkeeps.heading .scenarioLine (by decide) title rfl
    cases next with
    | title scope owner =>
      exact (h.of_feature_eq rfl).onBody scope fun b hb => hb.start .scenario hx htags
    | _ => exact h
  | examplesLine title =>
    have hx := hkeeps.heading .examplesLine (by decide) title rfl
    cases next with
    | examples scope =>
      refine (h.of_feature_eq rfl).onBody scope fun b hb => hb.onExamples fun xs hxs e he => ?_
      rcases List.mem_append.mp he with he | he
      · exact hxs e he
      · obtain rfl := List.mem_singleton.mp he
        exact ⟨hx, htags, hkeeps.noRows _ rfl⟩
    | _ => exact h
  | stepLine keyword role text =>
    have hx := hkeeps.step keyword role text rfl
    cases next with
    | step scope owner given =>
      refine h.onBody scope fun b hb => hb.onSteps owner fun xs hxs s hs => ?_
      rcases List.mem_append.mp hs with hs | hs
      · exact hxs s hs
      · obtain rfl := List.mem_singleton.mp hs
        exact hx
    | _ => exact h
  | _ => exact h

/-- A token that keeps a law is added to a document that obeys it. -/
theorem Document.Obeys.take {d : Document} (h : d.Obeys law) (htags : ∀ t ∈ d.tags, law.tag t)
    {l : Line} {here : State} {token : Token} (hkeeps : law.Keeps l here token)
    (hplace : ∀ text, token = .other text → ∀ scope, here ≠ .examplesTable scope) (language : Text)
    (next : State) : (d.take language l here next token).Obeys law := by
  cases token with
  | comment text | tagLine tags => exact h.of_feature_eq rfl
  | other text =>
    by_cases hstep : ∃ scope owner given, here = .step scope owner given
    · obtain ⟨scope, owner, given, rfl⟩ := hstep
      exact h.onDocString (.step scope owner given) (hkeeps.content text rfl)
    · have heq : d.take language l here next (.other text) = d.onTitle here (·.describe text) :=
        d.takeText_eq_onTitle text fun scope owner given he => hstep ⟨scope, owner, given, he⟩
      rw [heq]
      exact h.onTitle here (hkeeps.description text rfl) (hplace text rfl)
  | tableRow cells =>
    have heq : d.take language l here next (.tableRow cells)
        = d.onRows here (· ++ [.ofCells l.location cells]) := d.takeRow_eq_onRows _ _
    rw [heq]
    exact h.onRows here (hkeeps.stepRow cells rfl) (hkeeps.row cells rfl)
  | docStringSeparator mark mediaType =>
    have hfence := hkeeps.fence mark mediaType rfl
    cases here with
    | step scope owner given =>
      cases given with
      | bare | table => exact h.onDocString (.step scope owner .bare) (f := fun _ => some _) hfence
      | _ => exact h
    | _ => exact h
  | _ => exact h.takePart htags hkeeps language next

/-! ### The table that is being read -/

/-- What holds of a list with a changed last member holds of the list, if it holds of the last
member as it was. -/
theorem forall_mem_of_mapLast {α : Type} {P : α → Prop} {f : α → α} {xs : List α}
    (h : ∀ x ∈ mapLast f xs, P x) (hlast : ∀ x, xs.getLast? = some x → P (f x) → P x) :
    ∀ x ∈ xs, P x := by
  rcases List.eq_nil_or_concat' xs with rfl | ⟨ys, y, rfl⟩
  · simp
  · rw [mapLast_concat] at h
    intro x hx
    rcases List.mem_append.mp hx with hx | hx
    · exact h x (List.mem_append_left _ hx)
    · obtain rfl := List.mem_singleton.mp hx
      exact hlast x (by simp) (h (f x) (by simp))

/-- What is asked of every table. -/
def Law.ofTables (P : List Row → Prop) : Law where
  heading _ _ := True
  tag _ := True
  step s := P s.table
  rows := P

variable {P : List Row → Prop}

/-- All tables of steps satisfy a condition if the last one does, and the others with the last one
emptied. -/
theorem forall_tables_of_mapLast {xs : List Step}
    (h : ∀ s ∈ mapLast (fun s => { s with table := [] }) xs, P s.table)
    (hlast : P ((xs.getLast?.map (·.table)).getD [])) : ∀ s ∈ xs, P s.table := by
  refine forall_mem_of_mapLast (P := fun s : Step => P s.table) h fun x hx _ => ?_
  rw [hx] at hlast
  exact hlast

/-- A body obeys a law of tables if it does without the table of its last step, and this table
does. -/
theorem Body.Obeys.of_onSteps {b : Body} (owner : Owner)
    (h : (b.onSteps owner (mapLast fun s => { s with table := [] })).Obeys (.ofTables P))
    (hlast : P (((b.lastSteps owner).getLast?.map (·.table)).getD [])) : b.Obeys (.ofTables P) := by
  cases owner with
  | background =>
    refine ⟨fun x hx => ⟨trivial, ?_⟩, h.scenarios⟩
    have hx' : b.background = some x := hx
    rw [Body.lastSteps, hx', Option.map_some, Option.getD_some] at hlast
    refine forall_tables_of_mapLast ?_ hlast
    exact (h.background _ (Option.map_eq_some_iff.mpr ⟨x, hx', rfl⟩)).steps
  | scenario =>
    refine ⟨h.background, forall_mem_of_mapLast h.scenarios fun x hx hobeys => ?_⟩
    rw [Body.lastSteps, hx, Option.map_some, Option.getD_some] at hlast
    exact ⟨trivial, hobeys.tags, forall_tables_of_mapLast hobeys.steps hlast, hobeys.examples⟩

/-- A body obeys a law of tables if it does without the rows of its last examples, and these rows
do. -/
theorem Body.Obeys.of_onExamples {b : Body}
    (h : (b.onExamples (mapLast fun e => { e with rows := [] })).Obeys (.ofTables P))
    (hlast : P ((b.lastExamples.getLast?.map (·.rows)).getD [])) : b.Obeys (.ofTables P) := by
  refine ⟨h.background, forall_mem_of_mapLast h.scenarios fun x hx hobeys => ?_⟩
  rw [Body.lastExamples, hx, Option.map_some, Option.getD_some] at hlast
  refine ⟨trivial, hobeys.tags, hobeys.steps, forall_mem_of_mapLast hobeys.examples ?_⟩
  intro e he hobeys
  rw [he] at hlast
  exact ⟨trivial, hobeys.tags, hlast⟩

/-- A document obeys a law of tables if it does with a changed body, from which the law carries over
to the body as it was. -/
theorem Document.Obeys.of_onBody {d : Document} (scope : Scope) {f : Body → Body}
    (h : (d.onBody scope f).Obeys (.ofTables P))
    (hbody : (f (d.bodyAt scope)).Obeys (.ofTables P) → (d.bodyAt scope).Obeys (.ofTables P)) :
    d.Obeys (.ofTables P) := by
  intro x hx
  have hx' : d.feature = some x := hx
  have hobeys := h _ (Option.map_eq_some_iff.mpr ⟨x, hx', rfl⟩)
  cases scope with
  | feature =>
    have hat : d.bodyAt .feature = x.body := by simp only [bodyAt, hx']
    rw [hat] at hbody
    exact ⟨trivial, hobeys.tags, hbody hobeys.body, hobeys.rules⟩
  | rule =>
    refine ⟨trivial, hobeys.tags, hobeys.body, forall_mem_of_mapLast hobeys.rules ?_⟩
    intro r hr hobeys
    have hat : d.bodyAt .rule = r.body := by
      simp only [bodyAt, hx', hr, Option.map_some, Option.getD_some]
    rw [hat] at hbody
    exact ⟨trivial, hobeys.tags, hbody hobeys.body⟩

/-- A document without the table that is being read. -/
def Document.close (d : Document) (place : State) : Document :=
  if place.inTable then d.onRows place fun _ => [] else d

/-- What is asked of every table holds if it holds without the table that is being read and of that
table. -/
theorem Document.Obeys.of_close {d : Document} {place : State}
    (h : (d.close place).Obeys (.ofTables P)) (hopen : P (d.openRows place)) :
    d.Obeys (.ofTables P) := by
  rw [close] at h
  split at h
  · cases place with
    | step scope owner given =>
      rw [openRows_step] at hopen
      exact h.of_onBody scope fun hbody => hbody.of_onSteps owner hopen
    | examplesTable scope =>
      rw [openRows_examplesTable] at hopen
      exact h.of_onBody scope fun hbody => hbody.of_onExamples hopen
    | _ => exact absurd ‹_› Bool.false_ne_true
  · exact h

/-- A document that obeys a law of tables obeys it without the table that is being read. -/
theorem Document.Obeys.close {d : Document} (h : d.Obeys (.ofTables P)) (hnil : P [])
    (place : State) : (d.close place).Obeys (.ofTables P) := by
  rw [Document.close]
  split
  · exact h.onRows place (fun _ _ => hnil) fun _ _ => hnil
  · exact h

end Ast

end FeatureTree
