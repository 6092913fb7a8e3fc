import Lossless.Proofs.Bracketed
import Lossless.Proofs.Clearing
import Lossless.Proofs.Fragments
import Mathlib.Data.List.Flatten

/-! Trees whose children follow the text, and steps that keep them so: what only takes tokens or
children away, what only brings tokens that no container claims, and what changes the children of
one container at one position of the text. -/

namespace Lossless

open List

theorem filter_contains_of_sublist {α : Type} [BEq α] [LawfulBEq α] {xs ys : List α}
    (hn : ys.Nodup) (h : xs <+ ys) : ys.filter xs.contains = xs := by
  induction h with
  | slnil => rfl
  | @cons xs ys y h ih =>
    obtain ⟨hy, hn⟩ := nodup_cons.1 hn
    have hnot : xs.contains y = false := by
      simpa using fun hx => hy (h.subset hx)
    rw [filter_cons, hnot, if_neg Bool.false_ne_true, ih hn]
  | @cons_cons xs ys y h ih =>
    obtain ⟨hy, hn⟩ := nodup_cons.1 hn
    rw [filter_cons_of_pos (by simp)]
    refine congrArg (y :: ·) (Eq.trans (filter_congr fun x hx => ?_) (ih hn))
    have hne : x ≠ y := ne_of_mem_of_not_mem hx hy
    simp [hne]

namespace Forest

variable {f g : Forest} {node : Node} {b : Branch}

theorem Linked.leaves_sublist (hf : f.Linked) (hg : g.Linked)
    (h : ∀ b, g.children b <+ f.children b) : ∀ node, g.leaves node <+ f.leaves node := by
  refine hg.induction (fun l => ?_) (fun b ih => ?_)
  · rw [leaves_leaf, leaves_leaf]
  · rw [hg.leaves_branch, hf.leaves_branch]
    exact (Sublist.flatMap_right _ ih).trans ((h b).flatMap _)

/-- The tokens of the tree around a node, those of the node among them. -/
def surroundings (f : Forest) (node : Node) : List Leaf :=
  f.leftLeaves node ++ (f.leaves node ++ f.rightLeaves node)

theorem Linked.surroundings_of_parent (hf : f.Linked)
    (h : f.parent node = some b) : f.surroundings node = f.surroundings b := by
  obtain ⟨xs, ys, hxy, hxs, -⟩ := hf.exists_siblings h
  unfold surroundings
  rw [hf.leftLeaves_of_parent h hxy hxs, hf.rightLeaves_of_parent h hxy hxs, hf.leaves_branch b, hxy]
  simp [append_assoc]

theorem Linked.surroundings_of_around (hf : f.Linked)
    (h : f.Around b node) : f.surroundings node = f.surroundings b := by
  induction h with
  | self => rfl
  | step hp _ ih => rw [hf.surroundings_of_parent hp, ih]

end Forest

namespace Document

variable {doc doc' mid after : Document} {b : Branch} {node : Node}

/-- A tree whose children follow the text. -/
structure Aligned (doc : Document) : Prop where
  tree : doc.IsTree
  ordered : doc.Ordered

theorem Aligned.visible (h : doc.Aligned) (node : Node) : doc.visibleLeaves node <+ doc.order :=
  (ordered_iff h.tree).1 h.ordered node

theorem aligned_of_visible (h : doc.IsTree)
    (hv : ∀ b, doc.visibleLeaves (.branch b) <+ doc.order) : doc.Aligned := by
  refine ⟨h, (ordered_iff h).2 fun node => ?_⟩
  cases node with
  | branch b => exact hv b
  | leaf l =>
    rw [visibleLeaves_leaf]
    split
    · next hl => exact singleton_sublist.2 hl
    · exact nil_sublist _

theorem Aligned.filter_leaves (h : doc.Aligned) {ls : List Leaf} (hls : ls <+ doc.order)
    (node : Node) : (doc.leaves node).filter ls.contains <+ ls := by
  have hkept : (doc.visibleLeaves node).filter ls.contains =
      (doc.leaves node).filter ls.contains := by
    rw [visibleLeaves, filter_filter]
    refine filter_congr fun l _ => ?_
    by_cases hm : l ∈ ls
    · simp [hm, hls.subset hm]
    · simp [hm]
  have hsub := (h.visible node).filter ls.contains
  rwa [hkept, filter_contains_of_sublist h.tree.order_nodup hls] at hsub

theorem Aligned.surroundings (h : doc.Aligned) (node : Node) :
    (doc.toForest.surroundings node).filter doc.order.contains <+ doc.order :=
  surroundings_sublist h.tree h.ordered node

theorem Aligned.updateComments (h : doc.Aligned) : doc.updateComments.Aligned :=
  ⟨h.tree.updateComments, h.ordered⟩

/-- What has evolved from a tree is a tree while its order names tokens once. -/
theorem Evolves.isTree {ok : Kind → Kind → Prop} (h : Evolves ok doc mid) (hd : doc.IsTree)
    (hhas : ∀ l ∈ mid.order, mid.Has (.leaf l)) (hn : mid.order.Nodup) : mid.IsTree where
  linked := h.linked
  root_has := h.root ▸ h.has _ hd.root_has
  root_free := h.root ▸ h.free hd.root_has hd.root_free
  order_has := hhas
  order_nodup := hn

/-! ### What goes -/

structure Thinned (doc doc' : Document) : Prop where
  tree : doc'.IsTree
  order : doc'.order <+ doc.order
  children : ∀ b, doc'.children b <+ doc.children b

namespace Thinned

theorem refl (h : doc.IsTree) : Thinned doc doc :=
  ⟨h, .refl _, fun _ => .refl _⟩

section

variable (h : Thinned doc mid)
include h

theorem cut (span : Span) : Thinned doc (mid.cut span) :=
  ⟨h.tree.cut span, (cut_sublist ..).trans h.order, h.children⟩

theorem discard (leaves : List Leaf) : Thinned doc (mid.discard leaves) :=
  ⟨h.tree.discard leaves, filter_sublist.trans h.order, h.children⟩

theorem updateComments : Thinned doc mid.updateComments :=
  ⟨h.tree.updateComments, h.order, h.children⟩

theorem removeChild (b : Branch) (node : Node) : Thinned doc (mid.removeChild b node) := by
  refine ⟨h.tree.removeChild b node, h.order, fun c => ?_⟩
  have hchildren : (mid.removeChild b node).children c = _ := Forest.children_removeChild ..
  rw [hchildren]
  split
  · next hc => exact hc ▸ erase_sublist.trans (h.children c)
  · exact h.children c

theorem clearChildren (b : Branch) : Thinned doc (mid.clearChildren b) := by
  refine ⟨h.tree.clearChildren b, h.order, fun c => ?_⟩
  rw [children_clearChildren]
  split
  · exact nil_sublist _
  · exact h.children c

theorem visible (hd : doc.IsTree) (hs : doc.visibleLeaves node <+ doc.order) :
    mid.visibleLeaves node <+ mid.order := by
  have hleaves := hd.linked.leaves_sublist h.tree.linked h.children node
  have hfilter : (doc.visibleLeaves node).filter mid.order.contains =
      (doc.leaves node).filter mid.order.contains := by
    rw [visibleLeaves, filter_filter]
    refine filter_congr fun l _ => ?_
    by_cases hl : l ∈ mid.order
    · simp [hl, h.order.subset hl]
    · simp [hl]
  calc mid.visibleLeaves node
      <+ (doc.leaves node).filter mid.order.contains := hleaves.filter _
    _ = (doc.visibleLeaves node).filter mid.order.contains := hfilter.symm
    _ <+ doc.order.filter mid.order.contains := hs.filter _
    _ = mid.order := filter_contains_of_sublist hd.order_nodup h.order

theorem aligned (hd : doc.Aligned) : mid.Aligned :=
  aligned_of_visible h.tree fun _ => h.visible hd.tree (hd.visible _)

end

end Thinned

/-! ### Tokens that nothing claims -/

theorem Aligned.newToken (h : doc.Aligned) (text : String) : (doc.newToken text).2.Aligned := by
  refine aligned_of_visible (h.tree.newToken text) fun b => ?_
  have hleaves : (doc.newToken text).2.visibleLeaves (.branch b) = doc.visibleLeaves (.branch b) :=
    congrArg (filter doc.order.contains) (leaves_newToken h.tree.linked text b)
  rw [hleaves]
  exact h.visible _

/-- Tokens that wait for a place in the text. A container that claims one of them shows nothing, and
claims them in the order in which they come. -/
structure Waits (doc : Document) (tokens : List Leaf) : Prop where
  aligned : doc.Aligned
  nodup : tokens.Nodup
  has : ∀ l ∈ tokens, doc.Has (.leaf l)
  new : ∀ l ∈ tokens, l ∉ doc.order
  claimed : ∀ b, (∀ l ∈ tokens, l ∉ doc.leaves (.branch b)) ∨
    doc.visibleLeaves (.branch b) = [] ∧ (doc.leaves (.branch b)).filter tokens.contains <+ tokens

theorem Waits.insertAt {tokens : List Leaf} (h : Waits doc tokens) (p : Nat) :
    (doc.insertAt p tokens).Aligned := by
  refine aligned_of_visible (h.aligned.tree.insertAt h.nodup h.has h.new p) fun b => ?_
  rcases h.claimed b with hnone | ⟨hhidden, hclaimed⟩
  · have hsame : (doc.insertAt p tokens).visibleLeaves (.branch b) = doc.visibleLeaves (.branch b) :=
      filter_congr fun l hl => by
        have hnot : l ∉ tokens := fun hm => hnone l hm hl
        simp [mem_insertAt, hnot]
    rw [hsame]
    exact (h.aligned.visible _).trans (sublist_insertAt ..)
  · have hsame : (doc.insertAt p tokens).visibleLeaves (.branch b) =
        (doc.leaves (.branch b)).filter tokens.contains :=
      filter_congr fun l hl => by
        have hnot : l ∉ doc.order := fun ho => by
          have hvisible : l ∈ doc.visibleLeaves (.branch b) := mem_visibleLeaves.2 ⟨hl, ho⟩
          rw [hhidden] at hvisible
          cases hvisible
        simp [mem_insertAt, hnot]
    rw [hsame]
    exact hclaimed.trans ((sublist_append_right ..).trans (sublist_append_left ..))

structure Loose (doc : Document) (tokens : List Leaf) : Prop where
  aligned : doc.Aligned
  nodup : tokens.Nodup
  has : ∀ l ∈ tokens, doc.Has (.leaf l)
  new : ∀ l ∈ tokens, l ∉ doc.order
  free : ∀ l ∈ tokens, doc.parent (.leaf l) = none

namespace Loose

variable {tokens tokens' : List Leaf}

theorem nil (h : doc.Aligned) : Loose doc [] :=
  ⟨h, .nil, forall_mem_nil _, forall_mem_nil _, forall_mem_nil _⟩

theorem perm (h : Loose doc tokens) (hp : tokens' ~ tokens) : Loose doc tokens' :=
  ⟨h.aligned, hp.nodup_iff.2 h.nodup, fun l hl => h.has l (hp.subset hl),
    fun l hl => h.new l (hp.subset hl), fun l hl => h.free l (hp.subset hl)⟩

theorem newToken (h : Loose doc tokens) (text : String) :
    Loose (doc.newToken text).2 ((doc.newToken text).1 :: tokens) := by
  have hfresh := not_has_newToken doc text
  refine ⟨h.aligned.newToken text, ?_, ?_, ?_, ?_⟩
  · exact nodup_cons.2 ⟨fun hl => hfresh (h.has _ hl), h.nodup⟩
  · exact forall_mem_cons.2 ⟨has_newToken .., fun l hl => has_newToken_of_has (h.has l hl) text⟩
  · exact forall_mem_cons.2 ⟨fun hl => hfresh (h.aligned.tree.order_has _ hl), h.new⟩
  · refine forall_mem_cons.2 ⟨?_, fun l hl => (parent_newToken ..).trans (h.free l hl)⟩
    exact (parent_newToken ..).trans (Forest.parent_of_not_has hfresh)

theorem newLiteral (h : Loose doc tokens) (text : String) :
    Loose (doc.newLiteral text).2 ((doc.newLiteral text).1.toList ++ tokens) := by
  rcases doc.newLiteral_cases text with he | he <;> rw [he]
  · exact h
  · exact h.newToken text

theorem not_mem_leaves {l : Leaf} (hd : doc.Linked) (hfree : doc.parent l = none)
    (b : Branch) : l ∉ doc.leaves b := by
  intro hm
  cases hd.mem_leaves.1 hm with
  | step hp _ =>
    rw [hfree] at hp
    cases hp

theorem insertAt (h : Loose doc tokens) (p : Nat) : (doc.insertAt p tokens).Aligned := by
  have hwaits : Waits doc tokens := ⟨h.aligned, h.nodup, h.has, h.new, fun b => .inl fun l hl =>
    not_mem_leaves h.aligned.tree.linked (h.free l hl) b⟩
  exact hwaits.insertAt p

end Loose

theorem Aligned.loose_newToken (h : doc.Aligned) (text : String) :
    Loose (doc.newToken text).2 [(doc.newToken text).1] :=
  (Loose.nil h).newToken text

theorem Aligned.loose_newIndentedBreak (h : doc.Aligned) (indent : String) :
    Loose (doc.newIndentedBreak indent).2 (doc.newIndentedBreak indent).1 := by
  refine ((h.loose_newToken Layout.lineBreak).newLiteral indent).perm ?_
  exact (perm_append_singleton ..).symm

theorem Aligned.insertBreaks (h : doc.Aligned) (p n : Nat) : (doc.insertBreaks p n).Aligned := by
  induction n generalizing doc with
  | zero => exact h
  | succ n ih => exact ih ((h.loose_newToken _).insertAt p)

theorem Aligned.cut (h : doc.Aligned) (span : Span) : (doc.cut span).Aligned :=
  ((Thinned.refl h.tree).cut span).aligned h

theorem Aligned.discard (h : doc.Aligned) (leaves : List Leaf) : (doc.discard leaves).Aligned :=
  ((Thinned.refl h.tree).discard leaves).aligned h

/-! ### Positions -/

structure Parts (doc : Document) (p : Nat) (ls rs : List Leaf) : Prop where
  left : ∀ l ∈ ls, ∀ i, doc.position? l = some i → i < p
  right : ∀ r ∈ rs, ∀ i, doc.position? r = some i → p ≤ i

namespace Parts

variable {p : Nat} {ls rs ms tokens : List Leaf}

theorem sublist (h : Parts doc p ls rs) (hn : doc.order.Nodup)
    (hs : (ls ++ rs).filter doc.order.contains <+ doc.order) (hm : ms <+ tokens) :
    ls.filter doc.order.contains ++ (ms ++ rs.filter doc.order.contains) <+
      (doc.insertAt p tokens).order := by
  have hside : ∀ xs part : List Leaf, part <+ doc.order → xs <+ doc.order →
      (∀ x ∈ xs, x ∈ part) → xs <+ part := by
    intro xs part hpart hxs hmem
    have hfilter : xs.filter part.contains = xs :=
      filter_eq_self.2 fun x hx => by simpa using hmem x hx
    have hsub := hxs.filter part.contains
    rwa [hfilter, filter_contains_of_sublist hn hpart] at hsub
  rw [filter_append] at hs
  have hleft : ls.filter doc.order.contains <+ doc.order.take p := by
    refine hside _ _ (take_sublist ..) ((sublist_append_left ..).trans hs) fun l hl => ?_
    obtain ⟨hl, ho⟩ := mem_filter.1 hl
    obtain ⟨i, hi⟩ := exists_position (contains_iff_mem.1 ho)
    refine mem_of_getElem? (i := i) ?_
    rw [getElem?_take_of_lt (h.left l hl i hi)]
    exact getElem?_of_idxOf? hi
  have hright : rs.filter doc.order.contains <+ doc.order.drop p := by
    refine hside _ _ (drop_sublist ..) ((sublist_append_right ..).trans hs) fun r hr => ?_
    obtain ⟨hr, ho⟩ := mem_filter.1 hr
    obtain ⟨i, hi⟩ := exists_position (contains_iff_mem.1 ho)
    have hle := h.right r hr i hi
    refine mem_of_getElem? (i := i - p) ?_
    rw [getElem?_drop, Nat.add_sub_cancel' hle]
    exact getElem?_of_idxOf? hi
  rw [Document.insertAt, append_assoc]
  exact hleft.append (hm.append hright)

end Parts

theorem parts_of_append {xs ys ls rs : List Leaf} (hn : doc.order.Nodup)
    (ho : doc.order = xs ++ ys) (hls : ∀ l ∈ ls, l ∈ doc.order → l ∈ xs)
    (hrs : ∀ r ∈ rs, r ∈ doc.order → r ∈ ys) : Parts doc xs.length ls rs := by
  have hapart := (nodup_append.1 (ho ▸ hn)).2.2
  refine ⟨fun l hl i hi => ?_, fun r hr i hi => ?_⟩ <;> by_contra hlt
  · have hget := getElem?_of_idxOf? hi
    rw [ho, getElem?_append_right (by omega)] at hget
    exact hapart l (hls l hl (mem_of_idxOf? hi)) l (mem_of_getElem? hget) rfl
  · have hget := getElem?_of_idxOf? hi
    rw [ho, getElem?_append_left (by omega)] at hget
    exact hapart r (mem_of_getElem? hget) r (hrs r hr (mem_of_idxOf? hi)) rfl

section

variable {l x : Leaf} {i p : Nat} (h : doc.Aligned)
include h

theorem Aligned.lt_trivia_start (hl : l ∈ doc.leftLeaves node) (hi : doc.position? l = some i) :
    i < (doc.trivia node).start := by
  have hsub : (doc.leftLeaves node).filter doc.order.contains <+ doc.order := by
    refine Sublist.trans ?_ (h.surroundings node)
    exact (sublist_append_left ..).filter _
  have hmem : l ∈ (doc.leftLeaves node).filter doc.order.contains :=
    mem_filter.2 ⟨hl, by simpa using mem_of_idxOf? hi⟩
  obtain ⟨init, last, he⟩ := eq_nil_or_concat _ |>.resolve_left (ne_nil_of_mem hmem)
  have hlast : doc.leftLeaf? node = some last := by
    rw [leftLeaf?_eq h.tree.linked, he, concat_eq_append, getLast?_concat]
  rw [he, concat_eq_append] at hsub hmem
  obtain ⟨j, hj⟩ := exists_position (hsub.subset (mem_append_right _ (mem_singleton_self _)))
  have hstart : (doc.trivia node).start = j + 1 := by
    simp [trivia, hlast, hj]
  rw [hstart]
  rcases mem_append.1 hmem with hmem | hmem
  · have hbefore := (pairwise_append.1 (pairwise_before hsub)).2.2 l hmem last (by simp)
    have := lt_of_before h.tree.order_nodup hbefore hi hj
    omega
  · rw [mem_singleton.1 hmem] at hi
    rw [hi] at hj
    cases hj
    omega

theorem Aligned.trivia_stop_le {r : Leaf} (hr : r ∈ doc.rightLeaves node)
    (hi : doc.position? r = some i) : (doc.trivia node).stop ≤ i := by
  have hsub : (doc.leftLeaves node ++ doc.rightLeaves node).filter doc.order.contains <+
      doc.order := by
    refine Sublist.trans (Sublist.filter _ ?_) (h.surroundings node)
    exact (Sublist.refl _).append (sublist_append_right ..)
  have hmem : r ∈ (doc.rightLeaves node).filter doc.order.contains :=
    mem_filter.2 ⟨hr, by simpa using mem_of_idxOf? hi⟩
  obtain ⟨first, rest, he⟩ := exists_cons_of_ne_nil (ne_nil_of_mem hmem)
  have hfirst : doc.rightLeaf? node = some first := by
    rw [rightLeaf?_eq h.tree.linked, he, head?_cons]
  rw [filter_append, he] at hsub
  rw [he] at hmem
  obtain ⟨j, hj⟩ := exists_position (hsub.subset (mem_append_right _ mem_cons_self))
  have hle : j ≤ i := by
    rcases mem_cons.1 hmem with rfl | hmem
    · rw [hi] at hj
      cases hj
      exact le_rfl
    · have hbefore := (pairwise_cons.1 (pairwise_append.1 (pairwise_before hsub)).2.1).1
        r hmem
      exact (lt_of_before h.tree.order_nodup hbefore hj hi).le
  have hstart : (doc.trivia node).start ≤ j := by
    cases hleft : (doc.leftLeaf? node).bind doc.position? with
    | none => simp [trivia, hleft]
    | some k =>
      obtain ⟨last, hlast, hk⟩ := Option.bind_eq_some_iff.1 hleft
      rw [leftLeaf?_eq h.tree.linked] at hlast
      have hbefore := (pairwise_append.1 (pairwise_before hsub)).2.2 last
        (mem_of_getLast? hlast) first mem_cons_self
      have hlt := lt_of_before h.tree.order_nodup hbefore hk hj
      simp only [trivia, hleft]
      exact hlt
  have hstop : (doc.trivia node).stop = max j (doc.trivia node).start := by
    simp [trivia, hfirst, hj]
  omega

/-- A node stands between its neighbours. -/
theorem Aligned.trivia_bounds (hx : x ∈ doc.leaves node)
    (hi : doc.position? x = some i) :
    (doc.trivia node).start ≤ i ∧ i < (doc.trivia node).stop := by
  have hsub := h.surroundings node
  have hmem : x ∈ (doc.leaves node).filter doc.order.contains :=
    mem_filter.2 ⟨hx, by simpa using mem_of_idxOf? hi⟩
  rw [Forest.surroundings, filter_append, filter_append] at hsub
  obtain ⟨-, hrest, hleft⟩ := pairwise_append.1 (pairwise_before hsub)
  have hright := (pairwise_append.1 hrest).2.2
  have hstart : (doc.trivia node).start ≤ i := by
    cases hl : (doc.leftLeaf? node).bind doc.position? with
    | none => simp [trivia, hl]
    | some k =>
      obtain ⟨last, hlast, hk⟩ := Option.bind_eq_some_iff.1 hl
      rw [leftLeaf?_eq h.tree.linked] at hlast
      have hbefore := hleft last (mem_of_getLast? hlast) x (mem_append_left _ hmem)
      have hlt := lt_of_before h.tree.order_nodup hbefore hk hi
      simp only [trivia, hl]
      exact hlt
  refine ⟨hstart, ?_⟩
  cases hr : (doc.rightLeaf? node).bind doc.position? with
  | none =>
    have hlt : i < doc.order.length := idxOf?_lt_length hi
    simp only [trivia, hr, Option.getD_none]
    omega
  | some k =>
    obtain ⟨first, hfirst, hk⟩ := Option.bind_eq_some_iff.1 hr
    rw [rightLeaf?_eq h.tree.linked] at hfirst
    have hlt := lt_of_before h.tree.order_nodup (hright x hmem first (mem_of_mem_head? hfirst))
      hi hk
    simp only [trivia, hr, Option.getD_some]
    omega

theorem Aligned.range_bounds {r : Span} (hr : doc.range? node = some r) :
    (doc.trivia node).start ≤ r.start ∧ r.stop ≤ (doc.trivia node).stop := by
  obtain ⟨first, last, j, hfirst, hlast, hi, hj, hstop⟩ := exists_of_range? hr
  have hstart := h.trivia_bounds (mem_of_mem_filter (mem_of_mem_head? hfirst)) hi
  have hend := h.trivia_bounds (mem_of_mem_filter (mem_of_getLast? hlast)) hj
  omega

theorem Aligned.parts_trivia (hstart : (doc.trivia node).start ≤ p)
    (hstop : p ≤ (doc.trivia node).stop) :
    Parts doc p (doc.leftLeaves node) (doc.rightLeaves node) where
  left _ hl _ hi := (h.lt_trivia_start hl hi).trans_le hstart
  right _ hr _ hi := hstop.trans (h.trivia_stop_le hr hi)

theorem Aligned.parts_start (node : Node) : Parts doc (doc.trivia node).start (doc.leftLeaves node)
    (doc.leaves node ++ doc.rightLeaves node) where
  left _ hl _ hi := h.lt_trivia_start hl hi
  right _ hr _ hi := by
    rcases mem_append.1 hr with hr | hr
    · exact (h.trivia_bounds hr hi).1
    · exact (doc.trivia_start_le node).trans (h.trivia_stop_le hr hi)

theorem Aligned.parts_stop (node : Node) : Parts doc (doc.trivia node).stop
    (doc.leftLeaves node ++ doc.leaves node) (doc.rightLeaves node) where
  left _ hl _ hi := by
    rcases mem_append.1 hl with hl | hl
    · exact (h.lt_trivia_start hl hi).trans_le (doc.trivia_start_le node)
    · exact (h.trivia_bounds hl hi).2
  right _ hr _ hi := h.trivia_stop_le hr hi

end

/-! ### Children of one container -/

/-- A container gets other children. Its tokens and those around it follow the text again, and so do
the new containers: then all is in order. -/
theorem Aligned.rewire (h : doc.Aligned) (hb : doc.Has b)
    (hr : doc.Rewired after.toForest b) (htree : after.IsTree) (hsub : doc.order <+ after.order)
    (hold : ∀ l ∈ after.order, doc.Has (.leaf l) → l ∈ doc.order)
    (hnew : ∀ c, ¬ doc.Has (.branch c) → after.visibleLeaves (.branch c) <+ after.order)
    (hnear : (after.toForest.surroundings b).filter after.order.contains <+ after.order) :
    after.Aligned := by
  have hd := h.tree.linked
  refine aligned_of_visible htree fun c => ?_
  by_cases hc : doc.Has (.branch c)
  · by_cases haround : doc.Around c b
    · have hback : ∀ a, after.Around a b → doc.Around a b := fun a ha =>
        .of_parent_eq (fun e he => hr.parent_of_around hd hb he) ha
      have hafter : after.Around c b :=
        .of_parent_eq (fun a ha => (hr.parent_of_around hd hb (hback a ha)).symm) haround
      refine Sublist.trans (Sublist.filter _ ?_) hnear
      rw [htree.linked.surroundings_of_around hafter]
      exact (sublist_append_left ..).trans (sublist_append_right ..)
    · have hleaves := hr.leaves_eq hd htree.linked hc haround
      have hsame : after.visibleLeaves (.branch c) = doc.visibleLeaves (.branch c) := by
        rw [visibleLeaves, visibleLeaves, hleaves]
        refine filter_congr fun l hl => ?_
        have hiff : l ∈ after.order ↔ l ∈ doc.order :=
          ⟨fun hm => hold l hm (hd.has_of_mem_leaves hl), fun hm => hsub.subset hm⟩
        simp [hiff]
      rw [hsame]
      exact (h.visible _).trans hsub
  · exact hnew c hc

section

variable {after : Document} {p : Nat} {tokens : List Leaf} (h : doc.Aligned)
  (hb : doc.Has b) (hr : doc.Rewired after.toForest b) (htree : after.IsTree)
  (horder : after.order = (doc.insertAt p tokens).order)
  (hfresh : ∀ l ∈ tokens, ¬ doc.Has (.leaf l))
  (hnew : ∀ c, ¬ doc.Has (.branch c) → after.visibleLeaves (.branch c) <+ after.order)
include h hb hr htree horder hfresh hnew

/-- New tokens come into the text at a position, and new nodes between the children of a container.
They stand in order when the position parts what is on their two sides. -/
theorem Aligned.attach {xs ys nodes : List Node} (hkids : after.children b = xs ++ (nodes ++ ys))
    (hxy : xs ++ ys <+ doc.children b)
    (hplace : Parts doc p (doc.leftLeaves b ++ xs.flatMap doc.leaves)
        (ys.flatMap doc.leaves ++ doc.rightLeaves b) ∧
        (nodes.flatMap after.leaves).filter after.order.contains <+ tokens ∨
      (nodes.flatMap after.leaves).filter after.order.contains = []) : after.Aligned := by
  have hd := h.tree.linked
  have hsub : doc.order <+ after.order := horder ▸ sublist_insertAt ..
  have hold : ∀ l ∈ after.order, doc.Has (.leaf l) → l ∈ doc.order := by
    intro l hl hhas
    rw [horder, mem_insertAt] at hl
    exact hl.resolve_left fun hm => hfresh l hm hhas
  have hfilter : ∀ ls : List Leaf, (∀ l ∈ ls, doc.Has (.leaf l)) →
      ls.filter after.order.contains = ls.filter doc.order.contains := by
    intro ls hls
    refine filter_congr fun l hl => ?_
    have hiff : l ∈ after.order ↔ l ∈ doc.order :=
      ⟨fun hm => hold l hm (hls l hl), fun hm => hsub.subset hm⟩
    simp [hiff]
  have hside : ∀ ns, ns ⊆ doc.children b → ns.flatMap after.leaves = ns.flatMap doc.leaves := by
    intro ns hns
    exact flatMap_congr fun n hn => hr.leaves_child hd htree.linked (hns hn)
  have hxs : xs ⊆ doc.children b := ((sublist_append_left ..).trans hxy).subset
  have hys : ys ⊆ doc.children b := ((sublist_append_right ..).trans hxy).subset
  obtain ⟨hleft, hright⟩ := hr.beside_eq hd htree.linked hb
  refine h.rewire hb hr htree hsub hold hnew ?_
  -- the old tokens on both sides, with the new ones between them
  have hsplit : after.toForest.surroundings b =
      (doc.leftLeaves b ++ xs.flatMap doc.leaves) ++ (nodes.flatMap after.leaves ++
        (ys.flatMap doc.leaves ++ doc.rightLeaves b)) := by
    rw [Forest.surroundings, hleft, hright, htree.linked.leaves_branch, hkids, flatMap_append,
      flatMap_append, hside xs hxs, hside ys hys]
    simp only [append_assoc]
  have hbeside := hd.has_beside b
  have hhasLeft : ∀ l ∈ doc.leftLeaves b ++ xs.flatMap doc.leaves, doc.Has (.leaf l) := by
    intro l hl
    rcases mem_append.1 hl with hl | hl
    · exact hbeside l (mem_append_left _ hl)
    · exact hd.has_of_mem_flatMap hxs hl
  have hhasRight : ∀ l ∈ ys.flatMap doc.leaves ++ doc.rightLeaves b,
      doc.Has (.leaf l) := by
    intro l hl
    rcases mem_append.1 hl with hl | hl
    · exact hd.has_of_mem_flatMap hys hl
    · exact hbeside l (mem_append_right _ hl)
  have hsides : ((doc.leftLeaves b ++ xs.flatMap doc.leaves) ++
      (ys.flatMap doc.leaves ++ doc.rightLeaves b)).filter doc.order.contains <+
      doc.order := by
    refine Sublist.trans (Sublist.filter _ ?_) (h.surroundings b)
    have hkept : xs.flatMap doc.leaves ++ ys.flatMap doc.leaves <+ doc.leaves b := by
      rw [hd.leaves_branch, ← flatMap_append]
      exact hxy.flatMap _
    have hrow := (Sublist.refl (doc.leftLeaves b)).append
      (hkept.append (Sublist.refl (doc.rightLeaves b)))
    simpa only [Forest.surroundings, append_assoc] using hrow
  have hleftFilter := hfilter _ hhasLeft
  have hrightFilter := hfilter _ hhasRight
  rw [hsplit]
  generalize doc.leftLeaves b ++ xs.flatMap doc.leaves = ls at *
  generalize ys.flatMap doc.leaves ++ doc.rightLeaves b = rs at *
  rw [filter_append, filter_append, hleftFilter, hrightFilter]
  rcases hplace with ⟨hparts, hnodes⟩ | hnodes
  · rw [horder] at hnodes ⊢
    exact hparts.sublist h.tree.order_nodup hsides hnodes
  · rw [hnodes, nil_append, ← filter_append]
    exact hsides.trans hsub

end

section

variable {laid after : Document} {ls tokens : List Leaf} {p : Nat} {c : Branch} (h : doc.IsTree)
  (horder : after.order = (doc.insertAt p tokens).order)
  (hleaves : after.leaves (.branch (doc.rehomeBranch c)) =
    (laid.leaves c).map doc.rehomeLeaf)
  (hplaced : ls.map doc.rehomeLeaf <+ tokens)
  (honly : ∀ l, laid.Has (.leaf l) → doc.rehomeLeaf l ∈ tokens → l ∈ ls)
include h horder hleaves hplaced honly

theorem visibleLeaves_rehome (hl : laid.Linked) :
    after.visibleLeaves (.branch (doc.rehomeBranch c)) =
      ((laid.leaves c).filter ls.contains).map doc.rehomeLeaf := by
  have hmem : ∀ l ∈ laid.leaves c, doc.rehomeLeaf l ∈ after.order ↔ l ∈ ls := by
    intro l hl'
    rw [horder, mem_insertAt]
    constructor
    · rintro (hm | hm)
      · exact honly l (hl.has_of_mem_leaves hl') hm
      · exact absurd (h.order_has _ hm) (not_has_rehome doc (.leaf l))
    · exact fun hm => .inl (hplaced.subset (mem_map_of_mem hm))
  rw [visibleLeaves, hleaves, filter_map]
  refine congrArg _ (filter_congr fun l hl' => ?_)
  simp [hmem l hl']

/-- The containers of a fragment follow the text when the tokens of the fragment that came in do. -/
theorem visibleLeaves_rehomed (hl : laid.Aligned) (hls : ls <+ laid.order) :
    after.visibleLeaves (.branch (doc.rehomeBranch c)) <+ ls.map doc.rehomeLeaf := by
  rw [visibleLeaves_rehome h horder hleaves hplaced honly hl.tree.linked]
  exact (hl.filter_leaves hls c).map _

end

end Document
end Lossless
