import Lossless.Proofs.Evolving
import Lossless.Proofs.Grafting

/-! Lists with what follows them behind them: every token before a list or in it stands before every
token after it. Edits of a list keep that, in whatever order its own tokens are. -/

namespace Lossless

open List Forest

namespace Forest

variable {f : Forest} {b c : Branch} {node n : Node} {i : Nat}

theorem parent_insertChild_of_around (hn : f.Has node)
    (hac : ∀ c, node = .branch c → ¬ f.Around c b)
    (hc : f.Around c b) :
    (f.insertChild b i node).parent (.branch c) = f.parent (.branch c) :=
  (parent_insertChild hn b i c).trans (if_neg fun he => hac c he.symm hc)

theorem not_around_insertChild (hn : f.Has node)
    (hac : ∀ c, node = .branch c → ¬ f.Around c b)
    (hc : ¬ f.Around c b) : ¬ (f.insertChild b i node).Around c b := fun ha =>
  hc (Around.of_parent_eq (fun _ hd => parent_insertChild_of_around hn hac hd) ha)

namespace Linked

theorem beside_insertChild (hf : f.Linked) (hb : f.Has b) (hn : f.Has node)
    (hac : ∀ c, node = .branch c → ¬ f.Around c b)
    (hg : (f.insertChild b i node).Linked) :
    (f.insertChild b i node).leftLeaves b = f.leftLeaves b ∧
      (f.insertChild b i node).rightLeaves b = f.rightLeaves b := by
  refine hf.beside_congr hg (fun c _ hc => ?_) fun c hc => parent_insertChild_of_around hn hac hc
  have hne : c ≠ b := fun he => hc (he ▸ .self)
  rw [children_insertChild hb, if_neg hne]

theorem leaves_insertChild (hf : f.Linked) (hb : f.Has b)
    (hg : (f.insertChild b i node).Linked)
    (hn : ∀ c, n = .branch c → ¬ f.Around c b) :
    (f.insertChild b i node).leaves n = f.leaves n := by
  cases n with
  | leaf l => rw [leaves_leaf, leaves_leaf]
  | branch c =>
    refine hf.leaves_congr hg c fun d hd => ?_
    have hne : d ≠ b := fun he => hn c rfl (he ▸ hd)
    rw [children_insertChild hb, if_neg hne]

end Linked

end Forest

namespace Document

variable {doc mid doc' after fragment : Document} {list : Branch} {x y r : Leaf} {i j p : Nat}
  {tokens order tokens' : List Leaf}

def Precedes (doc : Document) (x y : Leaf) : Prop :=
  x ∈ doc.order → y ∈ doc.order → Before doc.order x y

theorem Precedes.lt (h : doc.Precedes x y) (hn : doc.order.Nodup) (hx : doc.position? x = some i)
    (hy : doc.position? y = some j) : i < j :=
  lt_of_before hn (h (mem_of_idxOf? hx) (mem_of_idxOf? hy)) hx hy

theorem Precedes.of_sublist (h : doc.Precedes x y) (hn : doc.order.Nodup)
    (hs : doc'.order <+ doc.order) : doc'.Precedes x y :=
  fun hx hy => (h (hs.subset hx) (hs.subset hy)).of_sublist hn hs hx hy

theorem Precedes.insertAt (h : doc.Precedes x y) (hx : x ∉ tokens) (hy : y ∉ tokens) (p : Nat) :
    (doc.insertAt p tokens).Precedes x y := fun hx' hy' =>
  (h ((mem_insertAt.1 hx').resolve_left hx) ((mem_insertAt.1 hy').resolve_left hy)).mono
    (sublist_insertAt ..)

theorem precedes_insertAt (hx : x ∈ tokens) (hy : y ∉ tokens)
    (hp : ∀ j, doc.position? y = some j → p ≤ j) : (doc.insertAt p tokens).Precedes x y := by
  intro _ hy'
  obtain ⟨j, hj⟩ := exists_position ((mem_insertAt.1 hy').resolve_left hy)
  have hdrop : y ∈ doc.order.drop p := by
    refine mem_of_getElem? (i := j - p) ?_
    rw [getElem?_drop, Nat.add_sub_cancel' (hp j hj)]
    exact getElem?_of_idxOf? hj
  exact before_append (mem_append_right _ hx) hdrop

/-- Every token after a list stands behind the list and what is before it, and the tokens after it
follow each other. -/
structure Bracketed (doc : Document) (list : Branch) : Prop where
  tree : doc.IsTree
  has : doc.Has list
  before : ∀ x ∈ doc.leftLeaves list ++ doc.leaves list,
    ∀ r ∈ doc.rightLeaves list, doc.Precedes x r
  right : (doc.rightLeaves list).Pairwise doc.Precedes

/-- In an ordered tree every list is so. -/
theorem bracketed_of_ordered (h : doc.IsTree) (ho : doc.Ordered) (hlist : doc.Has list) :
    doc.Bracketed list := by
  have hp := pairwise_before (surroundings_sublist h ho list)
  rw [pairwise_filter, ← append_assoc, pairwise_append] at hp
  have hvisible : ∀ {l : Leaf}, l ∈ doc.order → doc.order.contains l :=
    contains_iff_mem.2
  refine ⟨h, hlist, fun x hx r hr hxo hro => ?_, ?_⟩
  · exact hp.2.2 x hx r hr (hvisible hxo) (hvisible hro)
  · exact hp.2.1.imp fun hxy hxo hyo => hxy (hvisible hxo) (hvisible hyo)

namespace Bracketed

/-- What a change to the list has to show when no token comes in under it. -/
theorem step (h : doc.Bracketed list) (hr : doc.Rewired doc'.toForest list) (htree : doc'.IsTree)
    (hkeeps : ∀ x y, doc.Precedes x y → doc'.Precedes x y)
    (hold : doc'.leaves list ⊆ doc.leaves list) : doc'.Bracketed list := by
  obtain ⟨hleft, hright⟩ := hr.beside_eq h.tree.linked htree.linked h.has
  refine ⟨htree, hr.has _ h.has, ?_, ?_⟩
  · rw [hleft, hright]
    intro x hx r hr
    refine hkeeps x r (h.before x ?_ r hr)
    exact mem_append.2 ((mem_append.1 hx).imp_right fun hx => hold hx)
  · rw [hright]
    exact h.right.imp fun hxy => hkeeps _ _ hxy

/-! ### Tokens that go -/

theorem of_sublist (h : doc.Bracketed list) (hs : order <+ doc.order) :
    Bracketed { doc with order } list :=
  h.step (.refl ..) (h.tree.of_sublist hs)
    (fun _ _ hxy => hxy.of_sublist h.tree.order_nodup hs) (Subset.refl _)

theorem cut (h : doc.Bracketed list) (span : Span) : (doc.cut span).Bracketed list :=
  h.of_sublist (cut_sublist doc span)

theorem updateComments (h : doc.Bracketed list) : doc.updateComments.Bracketed list :=
  h.step (.refl ..) h.tree.updateComments (fun _ _ hxy => hxy) (Subset.refl _)

/-! ### Children that go -/

theorem removeChild (h : doc.Bracketed list) (node : Node) :
    (doc.removeChild list node).Bracketed list := by
  have hr : doc.Rewired (doc.removeChild list node).toForest list :=
    (Rewired.refl ..).removeChild node
  have htree := h.tree.removeChild list node
  refine h.step hr htree (fun _ _ hxy => hxy) fun x hx => ?_
  rw [htree.linked.leaves_branch, mem_flatMap] at hx
  obtain ⟨n, hn, hx⟩ := hx
  have hn : n ∈ doc.children list := by
    have hchildren : (doc.removeChild list node).children list = _ := children_removeChild ..
    rw [hchildren, if_pos rfl] at hn
    exact mem_of_mem_erase hn
  rw [h.tree.linked.leaves_branch, mem_flatMap]
  exact ⟨n, hn, hr.leaves_child h.tree.linked htree.linked hn ▸ hx⟩

end Bracketed

/-! ### Tokens that come in -/

/-- Tables with new tokens, which the list does not know of. -/
structure Fresh (doc mid : Document) (list : Branch) (tokens : List Leaf) : Prop where
  rewired : doc.Rewired mid.toForest list
  tree : mid.IsTree
  children_eq : mid.children list = doc.children list
  order_eq : mid.order = doc.order
  nodup : tokens.Nodup
  has : ∀ l ∈ tokens, mid.Has l
  new : ∀ l ∈ tokens, ¬ doc.Has l

namespace Fresh

theorem nil (h : doc.IsTree) (list : Branch) : Fresh doc doc list [] :=
  ⟨.refl .., h, rfl, rfl, nodup_nil, by simp, by simp⟩

theorem perm (h : Fresh doc mid list tokens) (hp : tokens' ~ tokens) :
    Fresh doc mid list tokens' :=
  ⟨h.rewired, h.tree, h.children_eq, h.order_eq, hp.nodup_iff.2 h.nodup,
    fun l hl => h.has l (hp.subset hl), fun l hl => h.new l (hp.subset hl)⟩

theorem sublist (h : Fresh doc mid list tokens) (hs : tokens' <+ tokens) :
    Fresh doc mid list tokens' :=
  ⟨h.rewired, h.tree, h.children_eq, h.order_eq, h.nodup.sublist hs,
    fun l hl => h.has l (hs.subset hl), fun l hl => h.new l (hs.subset hl)⟩

theorem newToken (h : Fresh doc mid list tokens) (text : String) :
    Fresh doc (mid.newToken text).2 list ((mid.newToken text).1 :: tokens) where
  rewired := h.rewired.addToken text
  tree := h.tree.newToken text
  children_eq := h.children_eq
  order_eq := h.order_eq
  nodup := nodup_cons.2 ⟨fun hm => not_has_newToken mid text (h.has _ hm), h.nodup⟩
  has l hl := by
    rcases mem_cons.1 hl with rfl | hl
    · exact has_newToken ..
    · exact has_newToken_of_has (h.has l hl) text
  new l hl := by
    rcases mem_cons.1 hl with rfl | hl
    · exact fun hd => not_has_newToken mid text (h.rewired.has _ hd)
    · exact h.new l hl

theorem newLiteral (h : Fresh doc mid list tokens) (text : String) :
    Fresh doc (mid.newLiteral text).2 list ((mid.newLiteral text).1.toList ++ tokens) := by
  rcases newLiteral_cases mid text with he | he <;> rw [he]
  · exact h
  · exact h.newToken text

theorem newIndentedBreak (h : doc.IsTree) (list : Branch) (indent : String) :
    Fresh doc (doc.newIndentedBreak indent).2 list (doc.newIndentedBreak indent).1 :=
  (((nil h list).newToken Layout.lineBreak).newLiteral indent).perm
    (perm_append_singleton ..).symm

theorem graft (h : doc.IsTree) (hlist : doc.Has list)
    (hf : fragment.IsTree) (hn : tokens.Nodup) (hs : tokens ⊆ fragment.order) :
    Fresh doc (doc.graft fragment).2 list (tokens.map doc.rehomeLeaf) where
  rewired := .graft hlist
  tree := h.graft hf.linked
  children_eq := children_graft_of_has hlist fragment
  order_eq := rfl
  nodup := hn.map doc.rehomeLeaf_injective
  has l hl := by
    obtain ⟨m, hm, rfl⟩ := mem_map.1 hl
    exact has_graft_iff.2 (.inr ⟨.leaf m, hf.order_has m (hs hm), rfl⟩)
  new l hl := by
    obtain ⟨m, -, rfl⟩ := mem_map.1 hl
    exact not_has_rehome doc m

theorem trans (h : Fresh doc mid list tokens)
    (h' : Fresh mid after list tokens') : Fresh doc after list (tokens' ++ tokens) where
  rewired := h.rewired.trans h'.rewired
  tree := h'.tree
  children_eq := h'.children_eq.trans h.children_eq
  order_eq := h'.order_eq.trans h.order_eq
  nodup := by
    refine nodup_append.2 ⟨h'.nodup, h.nodup, ?_⟩
    rintro l hl _ hm rfl
    exact h'.new l hl (h.has l hm)
  has l hl := by
    rcases mem_append.1 hl with hl | hl
    · exact h'.has l hl
    · exact h'.rewired.has _ (h.has l hl)
  new l hl hd := by
    rcases mem_append.1 hl with hl | hl
    · exact h'.new l hl (h.rewired.has _ hd)
    · exact h.new l hl hd

theorem leaves_eq (h : Fresh doc mid list tokens) (hd : doc.Linked) (hlist : doc.Has list) :
    mid.leaves list = doc.leaves list := by
  refine hd.leaves_congr h.tree.linked list fun c hc => ?_
  by_cases he : c = list
  · rw [he, h.children_eq]
  · exact h.rewired.children c (hc.has_inside hlist) he

end Fresh

structure Apart (doc : Document) (list : Branch) (tokens : List Leaf) : Prop where
  order : ∀ l ∈ tokens, l ∉ doc.order
  left : ∀ l ∈ tokens, l ∉ doc.leftLeaves list ++ doc.leaves list
  right : ∀ l ∈ tokens, l ∉ doc.rightLeaves list

theorem Fresh.apart (hf : Fresh doc mid list tokens) (h : doc.IsTree)
    (hlist : doc.Has list) : Apart mid list tokens := by
  obtain ⟨hleft, hright⟩ := hf.rewired.beside_eq h.linked hf.tree.linked hlist
  refine ⟨fun l hl ho => ?_, fun l hl hm => hf.new l hl ?_, fun l hl hm => hf.new l hl ?_⟩
  · exact hf.new l hl (h.order_has l (hf.order_eq ▸ ho))
  · rw [hleft, hf.leaves_eq h.linked hlist] at hm
    rcases mem_append.1 hm with hm | hm
    · exact h.linked.has_beside _ l (mem_append_left _ hm)
    · exact h.linked.has_of_mem_leaves hm
  · rw [hright] at hm
    exact h.linked.has_beside _ l (mem_append_right _ hm)

namespace Bracketed

theorem of_fresh (h : doc.Bracketed list) (hf : Fresh doc mid list tokens) : mid.Bracketed list := by
  refine h.step hf.rewired hf.tree (fun x y hxy => ?_) ?_
  · rw [Precedes, hf.order_eq]
    exact hxy
  · rw [hf.leaves_eq h.tree.linked h.has]
    exact Subset.refl _

theorem insertAt (h : doc.Bracketed list) (ha : Apart doc list tokens) (hn : tokens.Nodup)
    (hhas : ∀ l ∈ tokens, doc.Has (.leaf l)) (p : Nat) :
    (doc.insertAt p tokens).Bracketed list := by
  have hright : ∀ r ∈ doc.rightLeaves list, r ∉ tokens :=
    fun r hr hm => ha.right r hm hr
  refine ⟨h.tree.insertAt hn hhas ha.order p, h.has, fun x hx r hr => ?_, ?_⟩
  · exact (h.before x hx r hr).insertAt (fun hm => ha.left x hm hx) (hright r hr) p
  · exact h.right.imp_of_mem fun hx hy hxy => hxy.insertAt (hright _ hx) (hright _ hy) p

theorem insertFresh (h : doc.Bracketed list) (hf : Fresh doc mid list tokens) (p : Nat) :
    (mid.insertAt p tokens).Bracketed list :=
  (h.of_fresh hf).insertAt (hf.apart h.tree h.has) hf.nodup hf.has p

theorem insertChild {node : Node} (h : doc.Bracketed list) (hn : doc.Has node)
    (hfree : doc.parent node = none) (hroot : node ≠ .branch doc.root)
    (hac : ∀ c, node = .branch c → ¬ doc.Around c list)
    (hbefore : ∀ x ∈ doc.leaves node, ∀ r ∈ doc.rightLeaves list, doc.Precedes x r)
    (i : Nat) : (doc.insertChild list i node).Bracketed list := by
  have htree : (doc.insertChild list i node).IsTree := h.tree.insertChild h.has hn hfree hroot hac
  obtain ⟨hleft, hright⟩ := h.tree.linked.beside_insertChild h.has hn hac htree.linked
  have hinside : ∀ x ∈ (doc.insertChild list i node).leaves list,
      x ∈ doc.leaves list ∨ x ∈ doc.leaves node := by
    intro x hx
    have hleaf : ∀ n, (∀ c, n = .branch c → ¬ doc.Around c list) →
        x ∈ (doc.insertChild list i node).leaves n → x ∈ doc.leaves n := by
      intro n hn hx
      exact h.tree.linked.leaves_insertChild h.has htree.linked hn ▸ hx
    have hchildren : (doc.insertChild list i node).children list = _ :=
      children_insertChild h.has i node list
    rw [htree.linked.leaves_branch, hchildren, if_pos rfl, mem_flatMap] at hx
    obtain ⟨n, hn, hx⟩ := hx
    have hold : n ∈ doc.children list → x ∈ doc.leaves list := fun hc => by
      rw [h.tree.linked.leaves_branch, mem_flatMap]
      refine ⟨n, hc, hleaf n ?_ hx⟩
      rintro c rfl
      exact h.tree.linked.not_around_of_child hc
    rw [mem_append, mem_cons] at hn
    rcases hn with hn | rfl | hn
    · exact .inl (hold (mem_of_mem_take hn))
    · exact .inr (hleaf n hac hx)
    · exact .inl (hold (mem_of_mem_drop hn))
  refine ⟨htree, has_insertChild.2 h.has, fun x hx r hr => ?_, ?_⟩
  · have hr : r ∈ doc.rightLeaves list := hright ▸ hr
    rcases mem_append.1 hx with hx | hx
    · exact h.before x (mem_append_left _ (hleft ▸ hx)) r hr
    · rcases hinside x hx with hx | hx
      · exact h.before x (mem_append_right _ hx) r hr
      · exact hbefore x hx r hr
  · exact (congrArg (Pairwise doc.Precedes) hright).mpr h.right

theorem insertChildren {nodes : List Node} (h : doc.Bracketed list) (hhas : ∀ n ∈ nodes, doc.Has n)
    (hfree : ∀ n ∈ nodes, doc.parent n = none) (hnodup : nodes.Nodup)
    (hroot : .branch doc.root ∉ nodes)
    (hac : ∀ c, .branch c ∈ nodes → ¬ doc.Around c list)
    (hbefore : ∀ n ∈ nodes, ∀ x ∈ doc.leaves n, ∀ r ∈ doc.rightLeaves list,
      doc.Precedes x r) (i : Nat) : (doc.insertChildren list i nodes).Bracketed list ∧
      ∀ n, (∀ c, n = .branch c → ¬ doc.Around c list) →
        (doc.insertChildren list i nodes).leaves n = doc.leaves n := by
  have key : ((doc.insertChildren list i nodes).Bracketed list ∧
      ∀ n, (∀ c, n = .branch c → ¬ doc.Around c list) →
        (doc.insertChildren list i nodes).leaves n = doc.leaves n) ∧
      (doc.insertChildren list i nodes).rightLeaves list =
        doc.rightLeaves list ∧
      ∀ c, ¬ doc.Around c list → ¬ (doc.insertChildren list i nodes).Around c list := by
    induction nodes with
    | nil => exact ⟨⟨h, fun _ _ => rfl⟩, rfl, fun _ hc => hc⟩
    | cons n nodes ih =>
      obtain ⟨hn, hnodup⟩ := nodup_cons.1 hnodup
      obtain ⟨hhas', hhas⟩ := forall_mem_cons.1 hhas
      obtain ⟨hfree', hfree⟩ := forall_mem_cons.1 hfree
      obtain ⟨hbefore', hbefore⟩ := forall_mem_cons.1 hbefore
      obtain ⟨⟨hb, hleaves⟩, hright, haround⟩ := ih hhas hfree hnodup
        (fun hm => hroot (by simp [hm])) (fun c hc => hac c (by simp [hc])) hbefore
      have hnhas : (doc.insertChildren list i nodes).Has n := (has_insertChildren i nodes).2 hhas'
      have hac : ∀ c, n = .branch c → ¬ doc.Around c list :=
        fun c hc => hac c (by simp [hc])
      have hac' := fun c hc => haround c (hac c hc)
      have hb' := hb.insertChild hnhas ((parent_insertChildren hhas hn).trans hfree')
        (fun he => hroot (by rw [← root_insertChildren i nodes doc, ← he]; simp)) hac' (by
          rw [hleaves n hac, hright]
          intro x hx r hr
          rw [Precedes, order_insertChildren]
          exact hbefore' x hx r hr) i
      have hlinked := hb.tree.linked
      rw [insertChildren_cons]
      refine ⟨⟨hb', fun m hm => ?_⟩, ?_, fun c hc => ?_⟩
      · exact (hlinked.leaves_insertChild hb.has hb'.tree.linked
          fun c hc => haround c (hm c hc)).trans (hleaves m hm)
      · exact (hlinked.beside_insertChild hb.has hnhas hac' hb'.tree.linked).2.trans hright
      · exact not_around_insertChild hnhas hac' (haround c hc)
  exact key.1

end Bracketed

end Document

end Lossless
