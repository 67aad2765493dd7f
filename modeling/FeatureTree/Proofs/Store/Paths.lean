import FeatureTree.Proofs.Files.Ancestors
import FeatureTree.Proofs.Store.Keywords
import FeatureTree.Proofs.Store.Listing
import FeatureTree.Proofs.Store.WaysUp

/-!
# Paths from a root, and what nodes inherit along them

A node of a tree is come to on a path from the root, by going from a node to one that it lists.
Going up again from the node leads back by the same nodes, so that they are its ancestors, nearest
first, and the tags that it inherits are the tags of those among them that carry tags, outermost
first. That a path can be gone back comes from what going down keeps: the next node is attached to
the one that lists it, whether the tree was planted just now or is what a run has made of it.

## Main results

* `Store.Descends.leadsUp`: a path from the root leads up again
* `Store.inherits_along_path`: ancestors, the ancestor of a kind, and inherited tags on a path
-/

namespace FeatureTree

namespace Store

variable {s : Store} {root m p : NodeId} {above before after : List NodeId}

/-! ### Paths -/

/-- A node is come to from a root, by the nodes above it from the root on; each lists the next
one. -/
inductive Descends (s : Store) (root : NodeId) : List NodeId → NodeId → Prop
  | root : Descends s root [] root
  | down {above : List NodeId} {p c : NodeId} (path : Descends s root above p)
    (lists : s.IsListed p c) : Descends s root (above ++ [p]) c

namespace Descends

/-- On the way to a node one comes to the nodes above it. -/
theorem of_split (h : s.Descends root (before ++ p :: after) m) : s.Descends root before p := by
  generalize hpath : before ++ p :: after = above at h
  induction h generalizing after with
  | root => simp at hpath
  | @down above q c path lists ih =>
    rcases List.eq_nil_or_concat after with rfl | ⟨after, last, rfl⟩
    · obtain ⟨rfl, hq⟩ := List.append_inj' hpath rfl
      obtain rfl := (List.cons.inj hq).1
      exact path
    · rw [List.concat_eq_append, ← List.cons_append, ← List.append_assoc] at hpath
      exact ih (List.append_inj' hpath rfl).1

/-- Where going down keeps a condition and comes to attached nodes, a path from a root that is
attached to none leads up again, and the condition holds on all of it. -/
theorem leadsUp (hm : s.Descends root above m) (live : NodeId → Prop) (hroot : live root)
    (hfree : s.parent? root = none)
    (hdown : ∀ p c, live p → s.IsListed p c → live c ∧ s.parent? c = some p) :
    s.LeadsUp m above.reverse ∧ ∀ j ∈ m :: above, live j := by
  induction hm with
  | root => exact ⟨.top hfree, by simpa using hroot⟩
  | @down above p c _ lists ih =>
    obtain ⟨hup, hlive⟩ := ih
    obtain ⟨hc, hparent⟩ := hdown p c (hlive p List.mem_cons_self) lists
    refine ⟨by simpa using hup.up hparent, List.forall_mem_cons.mpr ⟨hc, ?_⟩⟩
    refine List.forall_mem_append.mpr ⟨fun j hj => hlive j (List.mem_cons_of_mem _ hj), ?_⟩
    simpa using hlive p List.mem_cons_self

end Descends

/-! ### Trees whose root is kept -/

/-- The root of a tree is kept: the tree was planted and a name holds its root, or the root is a
node in reach that has no parent, after a run of operations that make nodes, put them into
directories, give them rows and let go of them. -/
inductive Kept (root : NodeId) : Store → Prop
  | planted (n : Node) (s : Store) (label : String) (top : (s.plant n).1 = root) :
    Kept root ((s.plant n).2.hold label (some root))
  | run {s : Store} (reached : s.Reached Operation.IsOrderly) (reaches : s.Reaches root)
    (free : s.parent? root = none) : Kept root s

/-- In a tree whose root is kept, a path leads up again, by nodes that were given nothing. -/
theorem Kept.leadsUp (h : Kept root s) (hm : s.Descends root above m) :
    s.LeadsUp m above.reverse ∧ ∀ j ∈ m :: above, ∃ e, s.get? j = some e ∧ e.given = [] := by
  cases h with
  | planted n s label top =>
    subst top
    obtain ⟨hn, hreaches, hfree⟩ := represents_hold_plant n s label
    obtain ⟨hup, hlive⟩ := hm.leadsUp (fun j => Reaches _ j ∧ ∃ n, Represents _ j n)
      ⟨hreaches, n, hn⟩ (parent?_of_free hfree) fun p c ⟨hp, n, hn⟩ hc => by
        obtain ⟨e, pairs, he, hg, hshape, -, attached, parts⟩ := hn.inv
        have hc := (isListed_iff he hg).mp hc
        obtain ⟨x, hx, rfl⟩ : ∃ x ∈ pairs.parts, x.1 = c := by
          rw [hshape, Shape.parts_map] at hc
          exact List.mem_map.mp hc
        obtain ⟨hreaches, hparent⟩ := reaches_part hp he hc (attached x hx)
        exact ⟨⟨hreaches, x.2, parts x hx⟩, hparent⟩
    refine ⟨hup, fun j hj => ?_⟩
    obtain ⟨-, n, hn⟩ := hlive j hj
    obtain ⟨e, -, he, hg, -⟩ := hn.inv
    exact ⟨e, he, hg⟩
  | run reached reaches free =>
    have htidy := reached.tidy
    obtain ⟨hup, hlive⟩ := hm.leadsUp s.Reaches reaches free fun p c hp hc => by
      obtain ⟨e, he⟩ := get?_of_lt hp.lt
      have hc := (isListed_iff he (htidy.plain p e he)).mp hc
      exact reaches_part hp he hc ((htidy.agree p c hp).mpr ⟨e, he, hc⟩)
    refine ⟨hup, fun j hj => ?_⟩
    obtain ⟨e, he⟩ := get?_of_lt (hlive j hj).lt
    exact ⟨e, he, htidy.plain j e he⟩

/-! ### Inherited tags -/

variable {e : Entry}

/-- What a tagged node inherits, and what it has with its own tags, can be asked for. -/
theorem content_tags (he : s.get? m = some e) (hg : e.given = []) (hm : s.isTagged m = true)
    {tags : List Value} (htags : s.appliedTags m = .ok tags) :
    s.content m Attribute.appliedTags.name = .ok (.value (.list tags))
      ∧ s.content m Attribute.allTags.name = .ok (.value (.list (tags ++ s.ownTags m))) := by
  have hkind : ((Shape.empty e.shape.kind : Shape Unit).list? .tags).isSome = true := by
    rw [isTagged, he, Option.bind_some] at hm
    cases hs : e.shape <;> rw [hs] at hm <;> first | rfl | cases hm
  have happlied : Attribute.following? e.shape.kind Attribute.appliedTags.name
      = some .appliedTags := by
    rw [Attribute.following?, Attribute.ofName?_name, Option.filter_some, Attribute.follows,
      if_pos hkind]
  have hall : Attribute.following? e.shape.kind Attribute.allTags.name = some .allTags := by
    rw [Attribute.following?, Attribute.ofName?_name, Option.filter_some, Attribute.follows,
      if_pos hkind]
  constructor
  · simp only [content, get_eq_ok.mpr he, happlied, bind, Except.bind, followed, htags]
    rfl
  · simp only [content, get_eq_ok.mpr he, hall, bind, Except.bind, followed, htags,
      listed_ownTags he hg hm]
    rfl

/-- Tagged nodes on a path: up to the last one of them, and that one. -/
theorem exists_split_of_getLast? {q : NodeId → Bool} (h : (above.filter q).getLast? = some p) :
    ∃ before after, above = before ++ p :: after ∧ above.filter q = before.filter q ++ [p]
      ∧ q p = true := by
  have hfind : above.reverse.find? q = some p := by
    rw [← List.head?_filter, List.filter_reverse, List.head?_reverse, h]
  obtain ⟨hp, after, before, hsplit, hafter⟩ := List.find?_eq_some_iff_append.mp hfind
  have habove : above = before.reverse ++ p :: after.reverse := by
    rw [← List.reverse_reverse above, hsplit]
    simp
  refine ⟨before.reverse, after.reverse, habove, ?_, hp⟩
  have hnone : after.reverse.filter q = [] :=
    List.filter_eq_nil_iff.mpr fun j hj => by simpa using hafter j (List.mem_reverse.mp hj)
  rw [habove, List.filter_append, List.filter_cons_of_pos hp, hnone]

/-! ### Main statement -/

/-- In a tree whose root is kept, on the path from the root to a node: the nodes above it are its
ancestors, nearest first; its ancestor of some kinds is the last one above it that has one of them;
and if it carries tags, it inherits the tags of the tagged nodes above it, in the order of the path,
so that it inherits all tags of the last tagged node above it, or none if there is no such node. -/
theorem inherits_along_path (h : Kept root s) (hm : s.Descends root above m) :
    s.ancestors m = above.reverse
      ∧ (∀ kinds, s.ancestor? kinds m = .ok ((above.filter (s.isOneOf kinds)).getLast?))
      ∧ (s.isTagged m = true →
        (∃ tags : NodeId → List Value,
          (∀ p ∈ above, s.isTagged p = true → s.listed p .tags = .ok (tags p))
            ∧ s.content m Attribute.appliedTags.name
              = .ok (.value (.list ((above.filter s.isTagged).flatMap tags))))
        ∧ match (above.filter s.isTagged).getLast? with
          | some p => s.content m Attribute.appliedTags.name = s.content p Attribute.allTags.name
          | none => s.content m Attribute.appliedTags.name = .ok (.value (.list []))) := by
  obtain ⟨hup, hplain⟩ := h.leadsUp hm
  obtain ⟨⟨e, he, hg⟩, habove⟩ := List.forall_mem_cons.mp hplain
  have hreverse : ∀ j ∈ above.reverse, ∃ e, s.get? j = some e ∧ e.given = [] :=
    fun j hj => habove j (List.mem_reverse.mp hj)
  have htags : s.appliedTags m = .ok ((above.filter s.isTagged).flatMap s.ownTags) := by
    rw [hup.appliedTags_eq hreverse, List.filter_reverse, List.reverse_reverse]
  refine ⟨hup.ancestors_eq, fun kinds => ?_, fun htagged =>
    ⟨⟨s.ownTags, fun p hp hpt => ?_, ?_⟩, ?_⟩⟩
  · rw [hup.ancestor?_eq he hg hreverse, ← List.head?_filter, List.filter_reverse,
      List.head?_reverse]
  · obtain ⟨f, hf, hgf⟩ := habove p hp
    exact listed_ownTags hf hgf hpt
  · exact (content_tags he hg htagged htags).1
  · split
    · next p hlast =>
      -- what the last tagged node inherits are the tags of those before it
      obtain ⟨before, after, rfl, hfilter, hp⟩ := exists_split_of_getLast? hlast
      obtain ⟨hupp, hplainp⟩ := h.leadsUp hm.of_split
      obtain ⟨⟨f, hf, hgf⟩, hbefore⟩ := List.forall_mem_cons.mp hplainp
      have htagsp : s.appliedTags p = .ok ((before.filter s.isTagged).flatMap s.ownTags) := by
        rw [hupp.appliedTags_eq fun j hj => hbefore j (List.mem_reverse.mp hj), List.filter_reverse,
          List.reverse_reverse]
      rw [(content_tags he hg htagged htags).1, (content_tags hf hgf hp htagsp).2, hfilter]
      simp
    · next hnone =>
      rw [List.getLast?_eq_none_iff] at hnone
      rw [(content_tags he hg htagged htags).1, hnone]
      rfl

/-- A document with a tagged feature, in which there is a tagged scenario. -/
def taggedDocument : Node :=
  let scenario : Node := .mk {} (.scenario {} [Plain.tagNode ['b']] [])
  let feature : Node := .mk {} (.feature {} (.text []) [Plain.tagNode ['a']] none [scenario] [])
  .mk {} (.featureFile (.text []) (some feature) [])

/-- The scenario has the feature and the document above it and inherits the tags of the feature. -/
theorem inherits_along_path_taggedDocument :
    let s := ((({} : Store).plant taggedDocument).2).hold "document" (some 4)
    Kept 4 s ∧ s.Descends 4 [4, 3] 2 ∧ s.ancestors 2 = [3, 4]
      ∧ s.content 2 Attribute.appliedTags.name = s.content 3 Attribute.allTags.name := by
  intro s
  have hkept : Kept 4 s := .planted taggedDocument {} "document" rfl
  have hfile : s.get? 4 = some { shape := .featureFile (.text []) (some 3) [] } := rfl
  have hfeature : s.get? 3
      = some { shape := .feature {} (.text []) [0] none [2] [], parent := some 4 } := rfl
  have hpath : s.Descends 4 [4, 3] 2 :=
    .down (.down .root ((isListed_iff hfile rfl).mpr (by decide)))
      ((isListed_iff hfeature rfl).mpr (by decide))
  obtain ⟨hancestors, -, htags⟩ := inherits_along_path hkept hpath
  exact ⟨hkept, hpath, hancestors, (htags rfl).2⟩

end Store

end FeatureTree
