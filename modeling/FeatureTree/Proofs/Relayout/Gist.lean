import FeatureTree.Proofs.Plain.Sound

/-!
# The gist of a document

What is left of a document without its places and comments, with every description in its normal
form. Two documents of one gist say the same (`Ast.Feature.plain_gist`), and they stay of one gist
as long as the same tokens are added to both; where the tokens stand makes no difference. The tables
that are being read in them are ragged or not alike.

## Main results

* `Ast.Feature.plain_gist`: the gist of a feature says what the feature says
* `Ast.Document.gist_take`: tokens of one gist keep documents of one gist
* `Ast.Document.firstRagged?_openRows`: so does the table that is being read
-/

namespace FeatureTree

/-- Lists whose last members are changed keep their images under a function, if the changes keep
the images of members. -/
theorem map_mapLast_congr {α β : Type} {g : α → β} {f f' : α → α}
    (hf : ∀ x y, g x = g y → g (f x) = g (f' y)) {xs ys : List α} (h : xs.map g = ys.map g) :
    (mapLast f xs).map g = (mapLast f' ys).map g := by
  rcases List.eq_nil_or_concat' xs with rfl | ⟨xs, x, rfl⟩
  · obtain rfl := List.map_eq_nil_iff.mp h.symm
    rfl
  · rcases List.eq_nil_or_concat' ys with rfl | ⟨ys, y, rfl⟩
    · simp at h
    · rw [List.map_append, List.map_append] at h
      obtain ⟨hinit, hlast⟩ := List.append_inj' h rfl
      have hxy : g x = g y := by simpa using hlast
      simp [hinit, hf x y hxy]

/-- Optional parts of one gist still are of one gist once both are changed alike. -/
theorem map_option_congr {α β : Type} {g : α → β} {f f' : α → α}
    (hf : ∀ x y, g x = g y → g (f x) = g (f' y)) {x y : Option α} (h : x.map g = y.map g) :
    (x.map f).map g = (y.map f').map g := by
  cases x with
  | none => cases y with
    | none => rfl
    | some y => cases h
  | some x => cases y with
    | none => cases h
    | some y => exact congrArg some (hf x y (Option.some.inj h))

namespace Ast

def Tag.gist (t : Tag) : Tag := ⟨default, t.name⟩

def Cell.gist (c : Cell) : Cell := ⟨default, c.value⟩

def Row.gist (r : Row) : Row := ⟨default, r.cells.map Cell.gist⟩

def DocString.gist (s : DocString) : DocString := ⟨default, s.mark, s.mediaType, s.lines⟩

def Step.gist (s : Step) : Step :=
  ⟨default, s.keyword, s.role, s.text, s.table.map Row.gist, s.docString.map DocString.gist⟩

def Heading.gist (h : Heading) : Heading :=
  ⟨default, h.keyword, h.name, h.descriptionText.descriptionLines⟩

def Background.gist (b : Background) : Background := ⟨b.heading.gist, b.steps.map Step.gist⟩

def Examples.gist (e : Examples) : Examples :=
  ⟨e.heading.gist, e.tags.map Tag.gist, e.rows.map Row.gist⟩

def Scenario.gist (s : Scenario) : Scenario :=
  ⟨s.heading.gist, s.tags.map Tag.gist, s.steps.map Step.gist, s.examples.map Examples.gist⟩

def Body.gist (b : Body) : Body := ⟨b.background.map Background.gist, b.scenarios.map Scenario.gist⟩

def Rule.gist (r : Rule) : Rule := ⟨r.heading.gist, r.tags.map Tag.gist, r.body.gist⟩

def Feature.gist (f : Feature) : Feature :=
  ⟨f.heading.gist, f.tags.map Tag.gist, f.language, f.body.gist, f.rules.map Rule.gist⟩

/-- A document without places and comments, with its descriptions in their normal form. -/
def Document.gist (d : Document) : Document :=
  ⟨d.feature.map Feature.gist, [], d.tags.map Tag.gist⟩

/-! ### What the gist says -/

/-- A heading says what its gist says. -/
theorem Heading.plain_gist (h : Heading) : h.gist.plain = h.plain := by
  have hlast : ∀ l ∈ h.descriptionText.descriptionLines.getLast?, l.isEmpty = false := by
    intro l hl
    simpa using Text.ne_nil_of_isAllBlank (Text.getLast?_descriptionLines l hl)
  have htext : h.gist.descriptionText = h.descriptionText.trimDescription := by
    rw [descriptionText, gist, Text.dropEndWhile_eq_self hlast]
    rfl
  rw [plain, htext, Text.trimDescription_trimDescription]
  rfl

/-- A row has the values of its gist. -/
theorem Row.values_gist (r : Row) : r.gist.values = r.values := by
  simp [values, gist, Cell.gist]

/-- Rows have the values of their gists. -/
theorem map_values_gist (rows : List Row) :
    (rows.map Row.gist).map Row.values = rows.map Row.values := by
  rw [List.map_map]
  exact List.map_congr_left fun r _ => r.values_gist

/-- Tags have the names of their gists. -/
theorem map_name_gist (tags : List Tag) : (tags.map Tag.gist).map (·.name) = tags.map (·.name) := by
  rw [List.map_map]
  rfl

/-- A step says what its gist says. -/
theorem Step.plain_gist (s : Step) : s.gist.plain = s.plain := by
  simp only [plain, gist, map_values_gist]
  cases s.docString with
  | none => simp
  | some t => rfl

/-- Steps say what their gists say. -/
theorem map_plain_gist (steps : List Step) :
    (steps.map Step.gist).map Step.plain = steps.map Step.plain := by
  rw [List.map_map]
  exact List.map_congr_left fun s _ => s.plain_gist

/-- A background says what its gist says. -/
theorem Background.plain_gist (b : Background) : b.gist.plain = b.plain := by
  simp only [plain, gist, Heading.plain_gist, map_plain_gist]

/-- Examples say what their gist says. -/
theorem Examples.plain_gist (e : Examples) : e.gist.plain = e.plain := by
  simp only [plain, gist, Heading.plain_gist, map_name_gist, map_values_gist]

/-- A scenario says what its gist says. -/
theorem Scenario.plain_gist (words : List Text) (s : Scenario) :
    s.gist.plain words = s.plain words := by
  have hexamples : (s.examples.map Examples.gist).map Examples.plain
      = s.examples.map Examples.plain := by
    rw [List.map_map]
    exact List.map_congr_left fun e _ => e.plain_gist
  have houtline : s.gist.isOutline words = s.isOutline words := by
    simp [isOutline, gist, Heading.gist]
  rw [plain, houtline]
  simp only [plain, gist, Heading.plain_gist, map_name_gist, map_plain_gist, hexamples]

/-- A body says what its gist says. -/
theorem Body.plain_gist (words : List Text) (b : Body) : b.gist.plain words = b.plain words := by
  have hbackground : (b.background.map Background.gist).map Background.plain
      = b.background.map Background.plain := by
    rw [Option.map_map]
    exact congrArg (b.background.map ·) (funext Background.plain_gist)
  have hscenarios : (b.scenarios.map Scenario.gist).map (Scenario.plain words)
      = b.scenarios.map (Scenario.plain words) := by
    rw [List.map_map]
    exact List.map_congr_left fun s _ => s.plain_gist words
  exact congrArg₂ Plain.Body.mk hbackground hscenarios

/-- A rule says what its gist says. -/
theorem Rule.plain_gist (words : List Text) (r : Rule) : r.gist.plain words = r.plain words := by
  simp only [plain, gist, Heading.plain_gist, map_name_gist, Body.plain_gist]

/-- The gist of a feature says what the feature says. -/
theorem Feature.plain_gist (f : Feature) : f.gist.plain = f.plain := by
  have hwords : f.gist.outlineWords = f.outlineWords := rfl
  have hrules : (f.rules.map Rule.gist).map (Rule.plain f.outlineWords)
      = f.rules.map (Rule.plain f.outlineWords) := by
    rw [List.map_map]
    exact List.map_congr_left fun r _ => r.plain_gist _
  rw [plain, hwords]
  simp only [plain, gist, Heading.plain_gist, map_name_gist, Body.plain_gist, hrules]

/-- Documents of one gist say the same. -/
theorem Document.plain_of_gist_eq {d d' : Document} (h : d.gist = d'.gist) :
    d.feature.map Feature.plain = d'.feature.map Feature.plain := by
  have hfeature : d.feature.map Feature.gist = d'.feature.map Feature.gist :=
    congrArg Document.feature h
  have hplain : Feature.plain ∘ Feature.gist = Feature.plain := funext Feature.plain_gist
  have := congrArg (Option.map Feature.plain) hfeature
  rwa [Option.map_map, Option.map_map, hplain] at this

/-! ### Extending documents of one gist -/

section Body

variable {b b' : Body}

/-- Bodies of one gist stay so if their last steps are changed alike. -/
theorem Body.gist_onSteps (owner : Owner) (h : b.gist = b'.gist) {f f' : List Step → List Step}
    (hf : ∀ xs ys, xs.map Step.gist = ys.map Step.gist →
      (f xs).map Step.gist = (f' ys).map Step.gist) :
    (b.onSteps owner f).gist = (b'.onSteps owner f').gist := by
  obtain ⟨hbackground, hscenarios⟩ := Body.mk.inj h
  cases owner with
  | background =>
    refine congrArg₂ Body.mk (map_option_congr (fun x y hxy => ?_) hbackground) hscenarios
    obtain ⟨hheading, hsteps⟩ := Background.mk.inj hxy
    exact congrArg₂ Background.mk hheading (hf _ _ hsteps)
  | scenario =>
    refine congrArg₂ Body.mk hbackground (map_mapLast_congr (fun x y hxy => ?_) hscenarios)
    obtain ⟨hheading, htags, hsteps, hexamples⟩ := Scenario.mk.inj hxy
    simp only [Scenario.gist, Scenario.mk.injEq]
    exact ⟨hheading, htags, hf _ _ hsteps, hexamples⟩

/-- Bodies of one gist stay so if their last titles are changed alike. -/
theorem Body.gist_onTitle (owner : Owner) (h : b.gist = b'.gist) {f f' : Heading → Heading}
    (hf : ∀ x y, x.gist = y.gist → (f x).gist = (f' y).gist) :
    (b.onTitle owner f).gist = (b'.onTitle owner f').gist := by
  obtain ⟨hbackground, hscenarios⟩ := Body.mk.inj h
  cases owner with
  | background =>
    refine congrArg₂ Body.mk (map_option_congr (fun x y hxy => ?_) hbackground) hscenarios
    obtain ⟨hheading, hsteps⟩ := Background.mk.inj hxy
    exact congrArg₂ Background.mk (hf _ _ hheading) hsteps
  | scenario =>
    refine congrArg₂ Body.mk hbackground (map_mapLast_congr (fun x y hxy => ?_) hscenarios)
    obtain ⟨hheading, htags, hsteps, hexamples⟩ := Scenario.mk.inj hxy
    simp only [Scenario.gist, Scenario.mk.injEq]
    exact ⟨hf _ _ hheading, htags, hsteps, hexamples⟩

/-- Bodies of one gist stay so if their last examples are changed alike. -/
theorem Body.gist_onExamples (h : b.gist = b'.gist) {f f' : List Examples → List Examples}
    (hf : ∀ xs ys, xs.map Examples.gist = ys.map Examples.gist →
      (f xs).map Examples.gist = (f' ys).map Examples.gist) :
    (b.onExamples f).gist = (b'.onExamples f').gist := by
  obtain ⟨hbackground, hscenarios⟩ := Body.mk.inj h
  refine congrArg₂ Body.mk hbackground (map_mapLast_congr (fun x y hxy => ?_) hscenarios)
  obtain ⟨hheading, htags, hsteps, hexamples⟩ := Scenario.mk.inj hxy
  simp only [Scenario.gist, Scenario.mk.injEq]
  exact ⟨hheading, htags, hsteps, hf _ _ hexamples⟩

/-- Bodies of one gist stay so if sections of one gist are started in them. -/
theorem Body.gist_start (owner : Owner) (h : b.gist = b'.gist) {x y : Heading}
    (hxy : x.gist = y.gist) {tags tags' : List Tag}
    (htags : tags.map Tag.gist = tags'.map Tag.gist) :
    (b.start owner x tags []).gist = (b'.start owner y tags' []).gist := by
  obtain ⟨hbackground, hscenarios⟩ := Body.mk.inj h
  cases owner with
  | background =>
    refine congrArg₂ Body.mk (congrArg some ?_) hscenarios
    simp only [Background.gist, hxy]
  | scenario =>
    refine congrArg₂ Body.mk hbackground ?_
    simp only [start, addScenario, List.map_append, hscenarios, List.map_cons, List.map_nil,
      Scenario.gist, hxy, htags]

end Body

namespace Document

variable {d d' : Document}

/-- Documents of one gist stay so if their features are changed alike. -/
theorem gist_onFeature (h : d.gist = d'.gist) {f f' : Feature → Feature}
    (hf : ∀ x y, x.gist = y.gist → (f x).gist = (f' y).gist) :
    (d.onFeature f).gist = (d'.onFeature f').gist := by
  obtain ⟨hfeature, -, htags⟩ := Document.mk.inj h
  simp only [gist, Document.mk.injEq]
  exact ⟨map_option_congr hf hfeature, trivial, htags⟩

/-- Documents of one gist stay so if their bodies are changed alike. -/
theorem gist_onBody (scope : Scope) (h : d.gist = d'.gist) {f f' : Body → Body}
    (hf : ∀ x y, x.gist = y.gist → (f x).gist = (f' y).gist) :
    (d.onBody scope f).gist = (d'.onBody scope f').gist := by
  refine gist_onFeature h fun x y hxy => ?_
  obtain ⟨hheading, htags, hlanguage, hbody, hrules⟩ := Feature.mk.inj hxy
  cases scope with
  | feature =>
    simp only [Feature.gist, Feature.mk.injEq]
    exact ⟨hheading, htags, hlanguage, hf _ _ hbody, hrules⟩
  | rule =>
    simp only [Feature.gist, Feature.mk.injEq]
    refine ⟨hheading, htags, hlanguage, hbody, map_mapLast_congr (fun r t hrt => ?_) hrules⟩
    obtain ⟨hheading, htags, hbody⟩ := Rule.mk.inj hrt
    simp only [Rule.gist, Rule.mk.injEq]
    exact ⟨hheading, htags, hf _ _ hbody⟩

/-- Documents of one gist stay so if their headings are changed alike. -/
theorem gist_onHeading (scope : Scope) (h : d.gist = d'.gist) {f f' : Heading → Heading}
    (hf : ∀ x y, x.gist = y.gist → (f x).gist = (f' y).gist) :
    (d.onHeading scope f).gist = (d'.onHeading scope f').gist := by
  refine gist_onFeature h fun x y hxy => ?_
  obtain ⟨hheading, htags, hlanguage, hbody, hrules⟩ := Feature.mk.inj hxy
  cases scope with
  | feature =>
    simp only [Feature.gist, Feature.mk.injEq]
    exact ⟨hf _ _ hheading, htags, hlanguage, hbody, hrules⟩
  | rule =>
    simp only [Feature.gist, Feature.mk.injEq]
    refine ⟨hheading, htags, hlanguage, hbody, map_mapLast_congr (fun r t hrt => ?_) hrules⟩
    obtain ⟨hheading, htags, hbody⟩ := Rule.mk.inj hrt
    simp only [Rule.gist, Rule.mk.injEq]
    exact ⟨hf _ _ hheading, htags, hbody⟩

/-- Documents of one gist stay so without the tags that wait. -/
theorem gist_withoutTags (h : d.gist = d'.gist) : d.withoutTags.gist = d'.withoutTags.gist := by
  obtain ⟨hfeature, -, -⟩ := Document.mk.inj h
  simp only [gist, withoutTags, hfeature]

/-- Documents of one gist stay so if the titles at a place are changed alike. -/
theorem gist_onTitle (place : State) (h : d.gist = d'.gist) {f f' : Heading → Heading}
    (hf : ∀ x y, x.gist = y.gist → (f x).gist = (f' y).gist) :
    (d.onTitle place f).gist = (d'.onTitle place f').gist := by
  cases place with
  | heading scope | headingText scope => exact gist_onHeading scope h hf
  | title scope owner | titleText scope owner =>
    exact gist_onBody scope h fun x y hxy => Body.gist_onTitle owner hxy hf
  | examples scope | examplesText scope | examplesTable scope =>
    refine gist_onBody scope h fun x y hxy => Body.gist_onExamples hxy fun xs ys hxs =>
      map_mapLast_congr (fun e e' he => ?_) hxs
    obtain ⟨hheading, htags, hrows⟩ := Examples.mk.inj he
    simp only [Examples.gist, Examples.mk.injEq]
    exact ⟨hf _ _ hheading, htags, hrows⟩
  | _ => exact h

/-- Documents of one gist stay so if the rows at a place are changed alike. -/
theorem gist_onRows (place : State) (h : d.gist = d'.gist) {f f' : List Row → List Row}
    (hf : ∀ xs ys, xs.map Row.gist = ys.map Row.gist → (f xs).map Row.gist = (f' ys).map Row.gist) :
    (d.onRows place f).gist = (d'.onRows place f').gist := by
  cases place with
  | step scope owner given =>
    refine gist_onBody scope h fun x y hxy => Body.gist_onSteps owner hxy fun xs ys hxs =>
      map_mapLast_congr (fun s t hst => ?_) hxs
    obtain ⟨-, hkeyword, hrole, htext, htable, hdoc⟩ := Step.mk.inj hst
    simp only [Step.gist, Step.mk.injEq]
    exact ⟨trivial, hkeyword, hrole, htext, hf _ _ htable, hdoc⟩
  | examples scope | examplesText scope | examplesTable scope =>
    refine gist_onBody scope h fun x y hxy => Body.gist_onExamples hxy fun xs ys hxs =>
      map_mapLast_congr (fun e e' he => ?_) hxs
    obtain ⟨hheading, htags, hrows⟩ := Examples.mk.inj he
    simp only [Examples.gist, Examples.mk.injEq]
    exact ⟨hheading, htags, hf _ _ hrows⟩
  | _ => exact h

/-- Documents of one gist stay so if the doc strings at a place are changed alike. -/
theorem gist_onDocString (place : State) (h : d.gist = d'.gist)
    {f f' : Option DocString → Option DocString}
    (hf : ∀ x y, x.map DocString.gist = y.map DocString.gist →
      (f x).map DocString.gist = (f' y).map DocString.gist) :
    (d.onDocString place f).gist = (d'.onDocString place f').gist := by
  cases place with
  | step scope owner given =>
    refine gist_onBody scope h fun x y hxy => Body.gist_onSteps owner hxy fun xs ys hxs =>
      map_mapLast_congr (fun s t hst => ?_) hxs
    obtain ⟨-, hkeyword, hrole, htext, htable, hdoc⟩ := Step.mk.inj hst
    simp only [Step.gist, Step.mk.injEq]
    exact ⟨trivial, hkeyword, hrole, htext, htable, hf _ _ hdoc⟩
  | _ => exact h

end Document

end Ast

/-! ### Tokens -/

/-- A token without its columns, and a comment without its text. -/
def Token.gist : Token → Token
  | .comment _ => .comment []
  | .tagLine tags => .tagLine (tags.map fun p => (0, p.2))
  | .tableRow cells => .tableRow (cells.map fun p => (0, p.2))
  | token => token

/-- A token is of the kind of its gist. -/
theorem Token.kind_gist (token : Token) : token.gist.kind = token.kind := by
  cases token <;> rfl

/-- Tokens of one gist are of one kind. -/
theorem Token.kind_eq_of_gist_eq {token token' : Token} (h : token.gist = token'.gist) :
    token.kind = token'.kind := by
  rw [← token.kind_gist, h, token'.kind_gist]

namespace Ast

namespace Document

variable {d d' : Document}

/-- Documents of one gist stay so if they take the same part, wherever it stands. -/
theorem gist_takePart (h : d.gist = d'.gist) (language : Text) (loc loc' : Location) (next : State)
    (token : Token) :
    (d.takePart language loc next token).gist = (d'.takePart language loc' next token).gist := by
  obtain ⟨hfeature, -, htags⟩ := Document.mk.inj h
  have htitle : ∀ title : TitleLine,
      (Heading.ofTitle loc title).gist = (Heading.ofTitle loc' title).gist := fun _ => rfl
  cases token with
  | featureLine title =>
    simp only [takePart, gist, withoutTags, Option.map_some, Feature.gist, htitle title, htags]
  | ruleLine title =>
    refine gist_onFeature (gist_withoutTags h) fun x y hxy => ?_
    obtain ⟨hheading, htags', hlanguage, hbody, hrules⟩ := Feature.mk.inj hxy
    simp only [Feature.gist, Feature.mk.injEq, List.map_append, hrules]
    refine ⟨hheading, htags', hlanguage, hbody, ?_⟩
    simp only [List.map_cons, List.map_nil, Rule.gist, htitle title, htags]
  | backgroundLine title =>
    cases next with
    | title scope owner =>
      exact gist_onBody scope h fun x y hxy =>
        @Body.gist_start _ _ .background hxy _ _ (htitle title) [] [] rfl
    | _ => exact h
  | scenarioLine title =>
    cases next with
    | title scope owner =>
      exact gist_onBody scope (gist_withoutTags h) fun x y hxy =>
        Body.gist_start .scenario hxy (htitle title) htags
    | _ => exact h
  | examplesLine title =>
    cases next with
    | examples scope =>
      refine gist_onBody scope (gist_withoutTags h) fun x y hxy =>
        Body.gist_onExamples hxy fun xs ys hxs => ?_
      simp only [List.map_append, hxs, List.map_cons, List.map_nil, Examples.gist, htitle title,
        htags]
    | _ => exact h
  | stepLine keyword role text =>
    cases next with
    | step scope owner given =>
      refine gist_onBody scope h fun x y hxy => Body.gist_onSteps owner hxy fun xs ys hxs => ?_
      simp only [List.map_append, hxs, List.map_cons, List.map_nil, Step.gist]
    | _ => exact h
  | _ => cases next <;> exact h

/-- What is behind the columns of tags or cells of one gist. -/
theorem map_snd_eq {xs ys : List (Nat × Text)}
    (h : xs.map (fun p => (0, p.2)) = ys.map (fun p => (0, p.2))) :
    xs.map (·.2) = ys.map (·.2) := by
  have := congrArg (List.map (·.2)) h
  rwa [List.map_map, List.map_map] at this

/-- The gist of a row is the values of its cells. -/
theorem Row.gist_ofCells (loc : Location) (cells : List (Nat × Text)) :
    (Row.ofCells loc cells).gist = ⟨default, (cells.map (·.2)).map fun v => ⟨default, v⟩⟩ := by
  simp [Row.ofCells, Row.gist, Cell.gist, Function.comp_def]

/-- Tokens of one gist keep documents of one gist, wherever they stand. Free text has to be that of
a doc string. -/
theorem gist_take (h : d.gist = d'.gist) {token token' : Token} (htoken : token.gist = token'.gist)
    {here : State} (hother : token.kind = .other → here.inText = true) (language : Text)
    (l l' : Line) (next : State) :
    (d.take language l here next token).gist = (d'.take language l' here next token').gist := by
  obtain ⟨hfeature, -, htags⟩ := Document.mk.inj h
  cases token with
  | comment text =>
    cases token' <;> cases htoken
    exact h
  | tagLine tags =>
    cases token' <;> try cases htoken
    next tags' =>
      have hnames := map_snd_eq (Token.tagLine.inj htoken)
      have hmap : ∀ (l : Line) (tags : List (Nat × Text)),
          (tags.map fun p => (⟨⟨l.number, p.1⟩, p.2⟩ : Tag)).map Tag.gist
            = (tags.map (·.2)).map fun name => ⟨default, name⟩ := by
        intro l tags
        simp [Tag.gist, Function.comp_def]
      simp only [take, gist, List.map_append, Document.mk.injEq]
      exact ⟨hfeature, trivial, by rw [htags, hmap, hmap, hnames]⟩
  | tableRow cells =>
    cases token' <;> try cases htoken
    next cells' =>
      have hvalues := map_snd_eq (Token.tableRow.inj htoken)
      simp only [take]
      rw [takeRow_eq_onRows, takeRow_eq_onRows]
      refine gist_onRows here h fun xs ys hxs => ?_
      rw [List.map_append, List.map_append, hxs, List.map_singleton, List.map_singleton,
        Row.gist_ofCells, Row.gist_ofCells, hvalues]
  | other text =>
    cases token' <;> cases htoken
    cases here with
    | step scope owner given =>
      refine gist_onDocString (.step scope owner given) h fun x y hxy => ?_
      refine map_option_congr (fun s t hst => ?_) hxy
      obtain ⟨-, hmark, htype, hlines⟩ := DocString.mk.inj hst
      simp only [DocString.gist, DocString.mk.injEq]
      exact ⟨trivial, hmark, htype, by rw [hlines]⟩
    | _ => cases hother rfl
  | docStringSeparator mark mediaType =>
    cases token' <;> cases htoken
    cases here with
    | step scope owner given =>
      cases given with
      | bare | table =>
        exact @gist_onDocString d d' (.step scope owner .bare) h (fun _ => some _)
          (fun _ => some _) fun _ _ _ => rfl
      | _ => exact h
    | _ => exact h
  | _ =>
    cases token' <;> cases htoken
    exact gist_takePart h language l.location l'.location next _

end Document

/-! ### The table that is being read -/

/-- The body of a scope has the gist that it has in the gist of the document. -/
theorem Document.bodyAt_gist (d : Document) (scope : Scope) :
    d.gist.bodyAt scope = (d.bodyAt scope).gist := by
  cases hd : d.feature with
  | none => simp [bodyAt, gist, hd, Body.gist, Body.empty]
  | some f =>
    cases scope with
    | feature => simp [bodyAt, gist, hd, Feature.gist]
    | rule =>
      cases hr : f.rules.getLast? <;>
        simp [bodyAt, gist, hd, Feature.gist, hr, Rule.gist, Body.gist, Body.empty]

/-- The last steps have the gists that they have in the gist of the body. -/
theorem Body.lastSteps_gist (b : Body) (owner : Owner) :
    b.gist.lastSteps owner = (b.lastSteps owner).map Step.gist := by
  cases owner with
  | background => cases hb : b.background <;> simp [Body.lastSteps, Body.gist, hb, Background.gist]
  | scenario =>
    cases hs : b.scenarios.getLast? <;> simp [Body.lastSteps, Body.gist, hs, Scenario.gist]

/-- The rows that are being read have the gists that they have in the gist of the document. -/
theorem Document.openRows_gist (d : Document) (place : State) :
    d.gist.openRows place = (d.openRows place).map Row.gist := by
  cases place with
  | step scope owner given =>
    rw [openRows_step, openRows_step, bodyAt_gist, Body.lastSteps_gist, List.getLast?_map]
    cases ((d.bodyAt scope).lastSteps owner).getLast? <;> simp [Step.gist]
  | examplesTable scope =>
    rw [openRows_examplesTable, openRows_examplesTable, bodyAt_gist]
    cases hs : (d.bodyAt scope).scenarios.getLast? with
    | none => simp [Body.lastExamples, Body.gist, hs]
    | some s =>
      cases he : s.examples.getLast? <;>
        simp [Body.lastExamples, Body.gist, hs, Scenario.gist, he, Examples.gist]
  | _ => rfl

/-- Whether rows are ragged is told by their gists. -/
theorem firstRagged?_gist (rows : List Row) :
    firstRagged? (rows.map Row.gist) = (firstRagged? rows).map Row.gist := by
  have hlength : ∀ r : Row, r.gist.cells.length = r.cells.length := fun r => List.length_map ..
  cases rows with
  | nil => rfl
  | cons r rows =>
    simp only [List.map_cons, firstRagged?, List.find?_map, Function.comp_def, hlength]

/-- Of documents of one gist, the tables that are being read are ragged or not alike. -/
theorem Document.firstRagged?_openRows {d d' : Document} (h : d.gist = d'.gist) (place : State) :
    firstRagged? (d.openRows place) = none ↔ firstRagged? (d'.openRows place) = none := by
  rw [← Option.map_eq_none_iff (f := Row.gist), ← firstRagged?_gist, ← Document.openRows_gist, h,
    Document.openRows_gist, firstRagged?_gist, Option.map_eq_none_iff]

end Ast

end FeatureTree
