import FeatureTree.Proofs.Plain.Rendered
import FeatureTree.Proofs.Store.Links
import FeatureTree.Proofs.Store.Represents
import FeatureTree.Store.Render

/-!
# A store is rendered like a tree

Labels and lines of the nodes of a store depend on each other, so they are computed on a budget of
levels. Where nothing but texts and parts is held, or other values that cannot be changed in place,
labels play no part, and the budget is large enough: what is rendered of a node is what is rendered
of the tree that it stands for, with the keywords that the nodes go by in the store.

## Main results

* `Store.exists_drawn_of_unhidden`: what is drawn of a node of which nothing is hidden
* `Store.known_facet_of_writes`: what is asked of a node is what is asked of its tree
* `Store.text_of_writes`: the text of a node is the text of its tree
-/

namespace FeatureTree

/-- What is asked of a part, its keyword apart. -/
def Facet.known (part : Facet) : Facet :=
  { part with
    field := fun field => if field = .keyword then .error .noAttribute else part.field field }

/-- What is known of a facet does not depend on its keyword. -/
theorem Facet.known_congr {a b : Facet} (hfield : ∀ field ≠ .keyword, a.field field = b.field field)
    (hcells : a.cells = b.cells) (hlines : a.lines = b.lines) : a.known = b.known := by
  have : ∀ field : TextField, (if field = .keyword then Except.error Fault.noAttribute
      else a.field field) = if field = .keyword then .error .noAttribute else b.field field := by
    intro field
    split
    · rfl
    · next hne => exact hfield field hne
  rw [known, known, hcells, hlines, funext this]

namespace Shape

variable {α β : Type}

/-- A shape with another keyword, if its kind has one. -/
def withKeyword (keyword : Value) (s : Shape α) : Shape α := (s.setField .keyword keyword).getD s

/-- Setting the keyword and changing the parts can be done in either order. -/
theorem map_withKeyword (f : α → β) (keyword : Value) (s : Shape α) :
    (s.withKeyword keyword).map f = (s.map f).withKeyword keyword := by
  cases s <;> rfl

/-- Setting the keyword keeps the kind. -/
@[simp] theorem kind_withKeyword (keyword : Value) (s : Shape α) :
    (s.withKeyword keyword).kind = s.kind := by
  cases s <;> rfl

/-- Setting the keyword keeps the parts. -/
@[simp] theorem parts_withKeyword (keyword : Value) (s : Shape α) :
    (s.withKeyword keyword).parts = s.parts := by
  cases s <;> rfl

/-- Changing the parts keeps the fields. -/
theorem field?_map (f : α → β) (s : Shape α) (field : TextField) :
    (s.map f).field? field = s.field? field := by
  cases s <;> cases field <;> rfl

/-- Setting the keyword keeps the lists. -/
theorem list?_withKeyword (keyword : Value) (s : Shape α) (field : ListField) :
    (s.withKeyword keyword).list? field = s.list? field := by
  cases s <;> cases field <;> rfl

/-- Changing the parts keeps the values. -/
theorem values_map (f : α → β) (s : Shape α) : (s.map f).values = s.values := by
  cases s <;> rfl

/-- Setting the keyword keeps the other fields. -/
theorem ask_withKeyword (keyword : Value) (s : Shape α) {field : TextField}
    (h : field ≠ .keyword) : (s.withKeyword keyword).ask field = s.ask field := by
  cases s <;> cases field <;> first | rfl | exact absurd rfl h

/-- A shape has its own keyword. -/
theorem withKeyword_self (s : Shape α) :
    s.withKeyword ((s.field? .keyword).getD .null) = s := by
  cases s <;> rfl

/-- Functions that do the same to all parts change the shape in the same way. -/
theorem map_congr {f g : α → β} {s : Shape α} (h : ∀ a ∈ s.parts, f a = g a) :
    s.map f = s.map g := by
  have hl : ∀ {xs : List α}, (∀ a ∈ xs, a ∈ s.parts) → xs.map f = xs.map g := fun hxs =>
    List.map_congr_left fun a ha => h a (hxs a ha)
  have ho : ∀ {o : Option α}, (∀ a ∈ o.toList, a ∈ s.parts) → o.map f = o.map g := by
    rintro (_ | a) hxs
    · rfl
    · rw [Option.map_some, Option.map_some, h a (hxs a (by simp))]
  cases s <;> simp only [map] <;> congr 1 <;> first
    | exact hl fun a ha => by simp [parts, children, ha]
    | exact ho fun a ha => by simp [parts, children, Option.mem_toList.mp ha]

variable {write write' : Value → Except Fault Text} {keyword keyword' : Except Fault Value}

/-- A part is not asked for its keyword while the node around it is rendered. -/
theorem lines_map_known (s : Shape Facet) :
    (s.map Facet.known).lines write keyword = s.lines write keyword := by
  have hnames : ∀ parts : List Facet,
      Facet.tagNames (parts.map Facet.known) = Facet.tagNames parts :=
    fun parts => by
      rw [Facet.tagNames, List.mapM_map]
      rfl
  have hrows : ∀ parts : List Facet, Facet.table (parts.map Facet.known) = Facet.table parts :=
    fun parts => by
      rw [Facet.table, List.mapM_map]
      rfl
  have hsteps : ∀ parts : List Facet, Facet.steps (parts.map Facet.known) = Facet.steps parts :=
    fun parts => by
      rw [Facet.steps, List.mapM_map]
      rfl
  have htitled : ∀ tags title body inner,
      titledLines write keyword (tags.map Facet.known) title body (inner.map Facet.known)
        = titledLines write keyword tags title body inner := fun tags title body inner => by
    rw [titledLines, hnames, List.mapM_map]
    rfl
  have hbare : ∀ tags title body, titledLines write keyword (tags.map Facet.known) title body []
      = titledLines write keyword tags title body [] := fun tags title body =>
    htitled tags title body []
  cases s with
  | row cells =>
    simp only [map, lines, List.mapM_map]
    rfl
  | step own text block => cases block <;> rfl
  | featureFile path held comments => cases held <;> rfl
  | background title steps =>
    simp only [map, lines, hsteps]
  | scenario title tags steps | outline title tags steps examples | «example» title tags rows =>
    simp only [map, lines, hsteps, hrows, hbare, htitled]
  | rule title tags setup tests | feature title language tags setup tests rules =>
    simp only [map, lines, toList_map, ← List.map_append, htitled]
  | table rows => simp only [map, lines, hrows]
  | _ => rfl

/-- The lines of a node do not depend on the keyword that it has but on the one that it goes by. -/
theorem lines_withKeyword (own : Value) (s : Shape Facet) :
    (s.withKeyword own).lines write keyword = s.lines write keyword := by
  cases s <;> rfl

/-- Titled lines of values that cannot be changed in place. -/
theorem titledLines_congr (hwrite : ∀ v : Value, v.isKey = true → write v = write' v)
    {tags inner : List Facet} {title : Title} {body : List Value}
    (hkeys : ∀ v ∈ title.values, v.isKey = true) :
    titledLines write (.ok title.keyword) tags title body inner
      = titledLines write' (.ok title.keyword) tags title body inner := by
  have hkeyword := hwrite title.keyword (hkeys _ (by simp [Title.values]))
  have hname := hwrite title.name (hkeys _ (by simp [Title.values]))
  simp only [titledLines, Layout.titleOf, hkeyword, hname, bind, Except.bind]

/-- The lines of a node depend on how values are written that cannot be changed in place, if all
that is written is such a value. -/
theorem lines_congr {s : Shape Facet} (hwrite : ∀ v : Value, v.isKey = true → write v = write' v)
    (hkeys : ∀ v ∈ s.values, v.isKey = true)
    (hkeyword : ∀ v, s.field? .keyword = some v → keyword = .ok v ∧ keyword' = .ok v)
    (hlanguage : ∀ path p rest, s = .featureFile path (some p) rest →
      ∀ v, p.field .language = .ok v → v.isKey = true) :
    s.lines write keyword = s.lines write' keyword' := by
  cases s with
  | docString content contentType =>
    simp only [lines, hwrite contentType (hkeys _ (by simp [values]))]
  | step own text block =>
    obtain ⟨rfl, rfl⟩ := hkeyword own rfl
    simp only [lines, stepLines, bind, Except.bind, hwrite own (hkeys _ (by simp [values])),
      hwrite text (hkeys _ (by simp [values]))]
  | background title | scenario title | outline title | «example» title | rule title =>
    obtain ⟨rfl, rfl⟩ := hkeyword title.keyword rfl
    simp only [lines, titledLines_congr hwrite hkeys]
  | feature title =>
    obtain ⟨rfl, rfl⟩ := hkeyword title.keyword rfl
    have htitle : ∀ v ∈ title.values, v.isKey = true := fun v hv =>
      hkeys v (List.mem_cons_of_mem _ hv)
    simp only [lines, titledLines_congr hwrite htitle]
  | featureFile path held rest =>
    cases held with
    | none => rfl
    | some p =>
      simp only [lines, fileLines]
      cases hlines : p.lines () with
      | error f => rfl
      | ok ls =>
        cases hv : p.field .language with
        | error f => rfl
        | ok v =>
          simp only [bind, Except.bind, languageLines, hwrite v (hlanguage path p rest rfl v hv)]
  | _ => rfl

end Shape

/-- A tree whose texts are texts and whose nodes have keywords where they can. -/
inductive Node.IsWorded : Node → Prop
  | mk {o : Origin} {s : Shape Node}
    (keyword : ∀ v, s.field? .keyword = some v → v.isPresent = true)
    (texts : ∀ v ∈ s.values, ∃ t, v = .text t) (parts : ∀ n ∈ s.parts, IsWorded n) :
    IsWorded (.mk o s)

namespace Store

variable {s : Store} {i : NodeId} {e : Entry} {n : Node}

/-! ### Nodes of which nothing is hidden -/

/-- Nothing was given in the place of what a node is rendered from. -/
structure Entry.Unhidden (e : Entry) : Prop where
  text : ∀ field, Value.lookup (Attribute.text field).name e.given = none
  part : ∀ field, Value.lookup (Attribute.part field).name e.given = none
  list : ∀ field, Value.lookup (Attribute.list field).name e.given = none
  kind : Value.lookup Attribute.kind.name e.given = none
  rendering : Value.lookup "to_text" e.given = none

/-- An entry with nothing given to it hides nothing. -/
theorem Entry.Unhidden.of_plain (hg : e.given = []) : e.Unhidden := by
  constructor <;> simp [hg, Value.lookup]

/-- What was not given to a node is looked up in its own attributes. -/
theorem stored_of_not_given {a : Attribute} (he : s.get? i = some e)
    (hg : Value.lookup a.name e.given = none) (ha : a ≠ .text .name) :
    s.stored i a.name = Fault.ofOption (e.own a) := by
  have hget : s.get i = .ok e := by rw [get, he]
  simp only [stored, hget, bind, Except.bind, hg, Attribute.ofName?_name]

/-- An operation that was not given to a node is that of its class. -/
theorem calls_of_not_given {operation : String} (he : s.get? i = some e)
    (hg : Value.lookup operation e.given = none) : s.calls i operation = .ok () := by
  have hget : s.get i = .ok e := by rw [get, he]
  simp only [calls, hget, bind, Except.bind, hg]
  rfl

/-- A node that hides nothing answers with the fields of its shape. -/
theorem valueOf_text_of_unhidden (he : s.get? i = some e) (hg : e.Unhidden) (field : TextField) :
    s.valueOf i (.text field) = e.shape.ask field := by
  have hget : s.get i = .ok e := by rw [get, he]
  rw [valueOf, stored, hget]
  simp only [bind, Except.bind, hg.text field, Attribute.ofName?_name]
  cases field with
  | name =>
    simp only [Shape.ask]
    cases e.shape.nameOf <;> rfl
  | _ =>
    simp only [Entry.own, Shape.ask]
    cases e.shape.field? _ <;> rfl

/-- A node that hides nothing answers with the lists of its shape. -/
theorem valueOf_list_of_unhidden (he : s.get? i = some e) (hg : e.Unhidden) (field : ListField) :
    s.valueOf i (.list field) = Value.ofNodes <$> Fault.ofOption (e.shape.list? field) := by
  rw [valueOf, stored_of_not_given he (hg.list field) (by simp), Entry.own]
  cases e.shape.list? field <;> rfl

/-- A node that hides nothing lists the lists of its shape. -/
theorem listed_of_unhidden (he : s.get? i = some e) (hg : e.Unhidden) (field : ListField) :
    s.listed i field = (·.map .node) <$> Fault.ofOption (e.shape.list? field) := by
  rw [listed, valueOf_list_of_unhidden he hg]
  cases e.shape.list? field <;> rfl

/-- A node that hides nothing is laid out by the kind of its shape. -/
theorem layoutKind_of_unhidden (he : s.get? i = some e) (hg : e.Unhidden) :
    s.layoutKind i = .ok e.shape.kind := by
  have hget : s.get i = .ok e := by rw [get, he]
  rw [layoutKind, hget]
  simp only [bind, Except.bind, hg.kind]
  rfl

/-- A node with a keyword of its own goes by it. -/
theorem keywordOf_of_present {v : Value} (he : s.get? i = some e) (hg : e.Unhidden)
    (hv : e.shape.field? .keyword = some v) (hpresent : v.isPresent = true) :
    s.keywordOf i = .ok v := by
  have hvalue : s.valueOf i (.text .keyword) = .ok v := by
    rw [valueOf_text_of_unhidden he hg]
    simp only [Shape.ask, hv, Fault.ofOption]
  rw [keywordOf, hvalue]
  simp only [bind, Except.bind, hpresent, if_true]
  rfl

/-- A node with nothing given to it answers with the fields of its shape. -/
theorem valueOf_text_of_plain (he : s.get? i = some e) (hg : e.given = []) (field : TextField) :
    s.valueOf i (.text field) = e.shape.ask field :=
  valueOf_text_of_unhidden he (.of_plain hg) field

/-- A node with nothing given to it lists the lists of its shape. -/
theorem listed_of_plain (he : s.get? i = some e) (hg : e.given = []) (field : ListField) :
    s.listed i field = (·.map .node) <$> Fault.ofOption (e.shape.list? field) :=
  listed_of_unhidden he (.of_plain hg) field

/-- A node with nothing given to it is laid out by the kind of its shape. -/
theorem layoutKind_of_plain (he : s.get? i = some e) (hg : e.given = []) :
    s.layoutKind i = .ok e.shape.kind :=
  layoutKind_of_unhidden he (.of_plain hg)

section

variable (see : Value → Facet)

/-- A node that hides nothing draws the lists of its shape. -/
theorem drawnList_of_unhidden (he : s.get? i = some e) (hg : e.Unhidden) {field : ListField}
    {parts : List NodeId} (hl : e.shape.list? field = some parts) :
    s.drawnList see i field = .ok (parts.map fun c => see (.node c)) := by
  rw [drawnList, listed_of_unhidden he hg, hl]
  simp [Fault.ofOption, bind, Except.bind, Functor.map, Except.map, pure, Except.pure,
    Function.comp_def]

/-- A node that hides nothing draws the tags of its shape, if it has any. -/
theorem drawnTags_of_unhidden (he : s.get? i = some e) (hg : e.Unhidden) :
    s.drawnTags see i = .ok (((e.shape.list? .tags).getD []).map fun c => see (.node c)) := by
  rw [drawnTags, valueOf_list_of_unhidden he hg]
  cases e.shape.list? .tags with
  | none => rfl
  | some parts =>
    cases parts <;> simp [Fault.ofOption, Functor.map, Except.map, Value.ofNodes, Value.isPresent,
      drawnLate, Value.members] <;> rfl

/-- A node that hides nothing draws the single parts of its shape. -/
theorem drawnPart_of_unhidden (he : s.get? i = some e) (hg : e.Unhidden) {field : PartField}
    {part : Option NodeId} (hp : e.shape.part? field = some part) :
    s.drawnPart see i field = .ok (part.map fun c => see (.node c)) := by
  rw [drawnPart, valueOf, stored_of_not_given he (hg.part field) (by simp), Entry.own, hp]
  cases part <;> rfl

/-- A node that hides nothing has the title of its shape. -/
theorem titleOf_of_unhidden (he : s.get? i = some e) (hg : e.Unhidden) {title : Title}
    (ht : e.shape.title? = some title) : s.titleOf i = .ok title := by
  have hk := valueOf_text_of_unhidden he hg .keyword
  have hn := valueOf_text_of_unhidden he hg .name
  have hd := valueOf_text_of_unhidden he hg .description
  rw [titleOf, hk, hn, hd]
  cases hs : e.shape <;> rw [hs] at ht <;> cases ht <;> rfl

/-- What is drawn of a node has the lines of what its shape holds. -/
theorem exists_drawn_of_unhidden (he : s.get? i = some e) (hg : e.Unhidden) :
    ∃ shape, s.drawn see i = .ok shape ∧ ∀ write keyword,
      shape.lines write keyword = (e.shape.map fun c => see (.node c)).lines write keyword := by
  have hget : s.get i = .ok e := by rw [get, he]
  have hask := valueOf_text_of_unhidden he hg
  have hlist : ∀ {field parts}, e.shape.list? field = some parts → _ :=
    fun h => drawnList_of_unhidden see he hg h
  have hpart : ∀ {field part}, e.shape.part? field = some part → _ :=
    fun h => drawnPart_of_unhidden see he hg h
  have htitle : ∀ {title}, e.shape.title? = some title → _ := fun h => titleOf_of_unhidden he hg h
  have htags := drawnTags_of_unhidden see he hg
  rw [drawn, hget]
  cases hs : e.shape <;> rw [hs] at hask hlist hpart htitle htags <;>
    simp only [hs, bind, Except.bind, Shape.kind, Shape.map, pure, Except.pure]
  case cell value => exact ⟨_, by rw [hask .value]; rfl, fun _ _ => rfl⟩
  case row cells => exact ⟨_, by rw [hlist rfl], fun _ _ => rfl⟩
  case tag name => exact ⟨_, by rw [hask .name]; rfl, fun _ _ => rfl⟩
  case table rows => exact ⟨_, by rw [hlist rfl], fun _ _ => rfl⟩
  case docString content contentType =>
    exact ⟨_, by rw [hask .content, hask .contentType]; rfl, fun _ _ => rfl⟩
  case step keyword text block =>
    exact ⟨_, by rw [hask .keyword, hask .text, hpart rfl]; rfl, fun _ _ => rfl⟩
  case background title steps =>
    exact ⟨.scenario title [] (steps.map fun c => see (.node c)),
      by rw [hlist rfl, htitle rfl, htags]; rfl, fun _ _ => rfl⟩
  case scenario title tags steps =>
    exact ⟨_, by rw [hlist rfl, htitle rfl, htags]; rfl, fun _ _ => rfl⟩
  case outline title tags steps examples =>
    have hexamples : s.valueOf i (.list .examples) = .ok (Value.ofNodes examples) := by
      rw [valueOf_list_of_unhidden he hg, hs]
      rfl
    refine ⟨_, by rw [hlist rfl, hexamples, htitle rfl, htags], fun _ _ => ?_⟩
    simp only [drawnLate, Value.ofNodes, Value.members, List.map_map, Function.comp_def,
      Shape.list?, Option.getD_some]
  case «example» title tags rows =>
    exact ⟨_, by rw [hlist rfl, htitle rfl, htags]; rfl, fun _ _ => rfl⟩
  case rule title tags setup tests =>
    exact ⟨_, by rw [hpart rfl, hlist rfl, htitle rfl, htags]; rfl, fun _ _ => rfl⟩
  case feature title language tags setup tests rules =>
    have htests := @hlist .tests tests rfl
    have hrules := @hlist .rules rules rfl
    refine ⟨_, ?_, fun _ _ => rfl⟩
    rw [hpart rfl, htests, hrules, hask .language, htitle rfl, htags]
    rfl
  case featureFile path held comments =>
    exact ⟨.featureFile path (held.map fun c => see (.node c)) [],
      by rw [hask .path, hpart rfl]; rfl, fun _ _ => rfl⟩
  case directory path files dirs =>
    exact ⟨.directory path [] [], by rw [hask .path]; rfl, fun _ _ => rfl⟩
  case comment text => exact ⟨_, by rw [hask .text]; rfl, fun _ _ => rfl⟩

end

/-- The lines of a node are the lines of what its shape holds. -/
theorem linesBy_of_unhidden (he : s.get? i = some e) (hg : e.Unhidden) (sh : Showing)
    (within : List Nat) :
    s.linesBy sh within i = (e.shape.map fun c => s.facet sh within (.node c)).lines
      (sh.written s within) (s.keywordOf i) := by
  obtain ⟨drawn, hdrawn, hlines⟩ := exists_drawn_of_unhidden (s.facet sh within) he hg
  rw [linesBy, layoutKind_of_unhidden he hg, hdrawn]
  exact hlines _ _

/-- The text of a node consists of its lines. -/
theorem text_of_unhidden (he : s.get? i = some e) (hg : e.Unhidden) :
    s.text i = s.linesWithin s.levels [] i >>= Layout.joinValues := by
  rw [text, Showing.text, calls_of_not_given he hg.rendering]
  rfl

/-- A node with nothing given to it is written as its shape, with the keyword of where it stands. -/
theorem linesBy_of_plain (he : s.get? i = some e) (hg : e.given = []) (sh : Showing)
    (within : List Nat) :
    s.linesBy sh within i = (e.shape.map fun c => s.facet sh within (.node c)).lines
      (sh.written s within) (s.keywordOf i) :=
  linesBy_of_unhidden he (.of_plain hg) sh within

/-- The text of a node with nothing given to it is made of its own lines. -/
theorem text_of_plain (he : s.get? i = some e) (hg : e.given = []) :
    s.text i = s.linesWithin s.levels [] i >>= Layout.joinValues :=
  text_of_unhidden he (.of_plain hg)

/-- There are more levels than a way down can be long. -/
theorem lt_levels (s : Store) : s.size + 1 < s.levels := by
  have : s.size + 1 ≤ (s.size + 1) * (s.nextList + 1) := Nat.le_mul_of_pos_right _ (by omega)
  rw [levels, Nat.mul_assoc]
  omega

/-! ### Trees -/

/-- A node of a store is written from a tree: nothing is hidden of it, it goes by the keyword of the
top of the tree, whatever keyword it has itself, it holds what the top holds else, nothing of which
can be changed in place, and its parts are written from the parts of the tree. -/
inductive Writes (s : Store) : NodeId → Node → Prop
  | mk {i : NodeId} {e : Entry} {o : Origin} (pairs : Shape (NodeId × Node)) (own : Value)
    (entry : s.get? i = some e) (unhidden : e.Unhidden)
    (shape : e.shape = (pairs.map Prod.fst).withKeyword own)
    (keyword : ∀ v, pairs.field? .keyword = some v → s.keywordOf i = .ok v ∧ v.isPresent = true)
    (keys : ∀ v ∈ pairs.values, v.isKey = true)
    (parts : ∀ x ∈ pairs.parts, Writes s x.1 x.2) : Writes s i (.mk o (pairs.map Prod.snd))

/-- A node that writes another has an entry that hides nothing. -/
theorem Writes.exists_entry (h : s.Writes i n) : ∃ e, s.get? i = some e ∧ e.Unhidden := by
  cases h with
  | mk _ _ entry unhidden => exact ⟨_, entry, unhidden⟩

/-- A node that writes another spans it. -/
theorem Writes.spans (h : s.Writes i n) : s.Spans i n := by
  induction h with
  | mk pairs own entry _ shape _ _ _ ih =>
    refine .mk pairs.parts entry ?_ (Shape.parts_map _ _) ih
    rw [shape, Shape.parts_withKeyword, Shape.parts_map]

/-- No value of a node that is written can be changed in place. -/
theorem Writes.keys_shape (h : s.Writes i n) : ∀ v ∈ n.shape.values, v.isKey = true := by
  cases h with
  | mk pairs own _ _ _ _ keys _ => rwa [Node.shape, Shape.values_map]

/-- A node of a store is written like a tree: it was given nothing, its texts are texts, it goes by
the keyword of the top of the tree, whatever keyword it has itself, it holds what the top holds
else, and its parts are written like the parts of the tree. -/
inductive Prints (s : Store) : NodeId → Node → Prop
  | mk {i : NodeId} {e : Entry} {o : Origin} (pairs : Shape (NodeId × Node)) (own : Value)
    (entry : s.get? i = some e) (plain : e.given = [])
    (shape : e.shape = (pairs.map Prod.fst).withKeyword own)
    (keyword : ∀ v, pairs.field? .keyword = some v → s.keywordOf i = .ok v ∧ v.isPresent = true)
    (texts : ∀ v ∈ pairs.values, ∃ t, v = .text t)
    (parts : ∀ x ∈ pairs.parts, Prints s x.1 x.2) : Prints s i (.mk o (pairs.map Prod.snd))

/-- A node that prints another writes it. -/
theorem Prints.writes (h : s.Prints i n) : s.Writes i n := by
  induction h with
  | mk pairs own entry plain shape keyword texts _ ih =>
    refine .mk pairs own entry (.of_plain plain) shape keyword (fun v hv => ?_) ih
    obtain ⟨t, rfl⟩ := texts v hv
    rfl

/-- A node that prints another spans it. -/
theorem Prints.spans (h : s.Prints i n) : s.Spans i n := h.writes.spans

/-- A node that stands for a tree with keywords is written like it. -/
theorem Represents.prints_of_worded (h : s.Represents i n) (hn : n.IsWorded) : s.Prints i n := by
  induction h with
  | @mk i e o pairs entry plain shape _ _ ih =>
    obtain ⟨keyword, texts, parts⟩ := hn
    rw [Shape.values_map] at texts
    rw [Shape.parts_map] at parts
    refine .mk pairs ((pairs.field? .keyword).getD .null) entry plain ?_ (fun v hv => ?_) texts
      fun x hx => ih x hx (parts _ (List.mem_map_of_mem hx))
    · rw [shape, ← Shape.field?_map Prod.fst, Shape.withKeyword_self]
    · have hpresent := keyword v (by rwa [Shape.field?_map])
      have hv : e.shape.field? .keyword = some v := by rwa [shape, Shape.field?_map]
      exact ⟨keywordOf_of_present entry (.of_plain plain) hv hpresent, hpresent⟩

/-- A value that cannot be changed in place is written in the same way everywhere. -/
theorem written_of_isKey {v : Value} (h : v.isKey = true) (sh : Showing) (within : List Nat) :
    sh.written s within v = v.written := by
  cases v with
  | bool b => cases b <;> rfl
  | null | int | float | text => rfl
  | _ => cases h

section

variable {o : Origin} {pairs : Shape (NodeId × Node)} {own : Value}

/-- The cells of a node are shown as those of the tree, if they hold what those hold. -/
theorem cellTexts_of_unhidden (entry : s.get? i = some e) (unhidden : e.Unhidden)
    (shape : e.shape = (pairs.map Prod.fst).withKeyword own)
    (hvalue : ∀ x ∈ pairs.parts, s.ask (.node x.1) (.text .value) = x.2.shape.ask .value) :
    (do (← s.listed i .cells).mapM fun cell => do
        Layout.cellText (← s.ask cell (.text .value)))
      = (do
        let cells ← Fault.ofOption ((pairs.map Prod.snd).list? .cells)
        cells.mapM fun c => do Layout.cellText (← c.shape.ask .value)) := by
  rw [listed_of_unhidden entry unhidden, shape, Shape.list?_withKeyword, Shape.list?_map,
    Shape.list?_map]
  cases hl : pairs.list? .cells with
  | none => rfl
  | some xs =>
    simp only [Option.map_some, Fault.ofOption, Functor.map, Except.map, bind, Except.bind,
      List.map_map, List.mapM_map]
    refine mapM_congr fun x hx => ?_
    simp only [Function.comp_apply, hvalue x (Shape.mem_parts_of_list? hl hx)]

/-- The lines of a node are those of the tree that it is written from, if as much is known of its
parts as of the parts of the tree. -/
theorem linesWithin_of_known {default : Value} {budget : Nat} {within : List Nat}
    (entry : s.get? i = some e) (unhidden : e.Unhidden)
    (shape : e.shape = (pairs.map Prod.fst).withKeyword own)
    (keyword : ∀ v, pairs.field? .keyword = some v → s.keywordOf i = .ok v ∧ v.isPresent = true)
    (keys : ∀ v ∈ pairs.values, v.isKey = true) (parts : ∀ x ∈ pairs.parts, s.Writes x.1 x.2)
    (known : ∀ x ∈ pairs.parts, (s.facet ⟨s.labelWithin budget, s.linesWithin budget⟩ within
      (.node x.1)).known = (x.2.seen default).known) :
    s.linesWithin (budget + 1) within i = (Node.mk o (pairs.map Prod.snd)).lines default := by
  rw [linesWithin, linesBy_of_unhidden entry unhidden, shape, Shape.map_withKeyword,
    Shape.lines_withKeyword, ← Shape.lines_map_known, Shape.map_map, Shape.map_map,
    Shape.map_congr known, Node.lines_eq, ← Shape.lines_map_known ((Node.shape _).map _),
    Node.shape, Shape.map_map, Shape.map_map]
  refine Shape.lines_congr (fun v hv => written_of_isKey hv _ within)
    (by rwa [Shape.values_map]) (fun v hv => ?_) fun path p rest hs v hv => ?_
  · rw [Shape.field?_map] at hv
    obtain ⟨hgoes, hpresent⟩ := keyword v hv
    refine ⟨hgoes, ?_⟩
    rw [Node.keywordOf, Shape.field?_map, hv]
    simp only [hpresent, if_true]
  · -- a file is written with the language of its feature
    obtain ⟨x, hx, rfl⟩ : ∃ x ∈ pairs.parts, (x.2.seen default).known = p := by
      cases pairs <;> simp only [Shape.map, reduceCtorEq, Shape.featureFile.injEq] at hs
      obtain ⟨-, hp, -⟩ := hs
      obtain ⟨x, hx, hp⟩ := Option.map_eq_some_iff.mp hp
      exact ⟨x, by simp [Shape.parts, hx], hp⟩
    have hask : x.2.shape.field? .language = some v := by
      have hv : Fault.ofOption (x.2.shape.field? .language) = .ok v := hv
      exact Fault.ofOption_eq_ok_iff.mp hv
    exact (parts x hx).keys_shape v (Shape.mem_values_of_field? hask)

end

/-- What is asked of a node is what is asked of the tree that it is written from, on a budget of as
many levels as the tree has. -/
theorem known_facet_of_writes (h : s.Writes i n) (default : Value) : ∀ budget, n.height ≤ budget →
    ∀ within, (s.facet ⟨s.labelWithin budget, s.linesWithin budget⟩ within (.node i)).known
      = (n.seen default).known := by
  induction h with
  | @mk i e o pairs own entry unhidden shape keyword keys parts ih =>
    intro budget hbudget within
    obtain ⟨budget, rfl⟩ : ∃ b, budget = b + 1 :=
      ⟨budget - 1, by have := Node.height_pos (.mk o (pairs.map Prod.snd)); omega⟩
    have hparts : ∀ x ∈ pairs.parts, (s.facet ⟨s.labelWithin budget, s.linesWithin budget⟩ within
        (.node x.1)).known = (x.2.seen default).known := fun x hx => by
      refine ih x hx budget ?_ within
      have hmem : x.2 ∈ (Node.mk o (pairs.map Prod.snd)).shape.parts := by
        rw [Node.shape, Shape.parts_map]
        exact List.mem_map_of_mem hx
      have := Node.height_lt hmem
      omega
    have hfield : ∀ field ≠ .keyword,
        s.valueOf i (.text field) = (pairs.map Prod.snd).ask field := by
      intro field hne
      rw [valueOf_text_of_unhidden entry unhidden, shape, Shape.ask_withKeyword own _ hne,
        Shape.ask_map, Shape.ask_map]
    have hcells := cellTexts_of_unhidden entry unhidden shape fun x hx =>
      congrArg (fun part => part.field .value) (hparts x hx)
    have hlines := linesWithin_of_known (o := o) entry unhidden shape keyword keys parts hparts
    refine Facet.known_congr hfield ?_ ?_
    · funext _
      exact hcells
    · funext _
      exact hlines

/-- The text of a node is the text of the tree that it is written from. -/
theorem text_of_writes (h : s.Writes i n) (default : Value) : s.text i = n.text default := by
  obtain ⟨e, he, hg⟩ := h.exists_entry
  have hlevels : n.height ≤ s.levels := by
    have := h.spans.height_le
    have := s.lt_levels
    omega
  have hlines : s.linesWithin s.levels [] i = n.lines default :=
    congrArg (fun part => part.lines ()) (known_facet_of_writes h default s.levels hlevels [])
  rw [text_of_unhidden he hg, Node.text, ← hlines]

/-- What is known of a node that prints another is what is known of that other. -/
theorem known_facet_of_prints (h : s.Prints i n) (default : Value) : ∀ budget, n.height ≤ budget →
    ∀ within, (s.facet ⟨s.labelWithin budget, s.linesWithin budget⟩ within (.node i)).known
      = (n.seen default).known :=
  known_facet_of_writes h.writes default

/-- The text of a node is the text of the tree that it is written like. -/
theorem text_of_prints (h : s.Prints i n) (default : Value) : s.text i = n.text default :=
  text_of_writes h.writes default

end Store

end FeatureTree
