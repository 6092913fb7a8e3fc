import Lossless.Proofs.Aligned
import Lossless.Proofs.Beside

/-! Nodes that take a seat among the children of a container. Their tokens come into the text first;
the tree stays in order when these stand between what is on the two sides of the seat. -/

namespace Lossless.Document

open List Forest

variable {doc laid : Document} {b list c : Branch} {node other m : Node}
  {tokens ls ms rs : List Leaf} {nodes xs ys : List Node} {i p : Nat}

structure Between (doc : Document) (ls ms rs : List Leaf) : Prop where
  left : ∀ x ∈ ls, ∀ y ∈ ms, doc.Precedes x y
  right : ∀ y ∈ ms, ∀ z ∈ rs, doc.Precedes y z

theorem Between.sublist (h : doc.Between ls ms rs) (hn : doc.order.Nodup)
    (hs : (ls ++ rs).filter doc.order.contains <+ doc.order)
    (hm : ms.filter doc.order.contains <+ doc.order) :
    (ls ++ (ms ++ rs)).filter doc.order.contains <+ doc.order := by
  have hmem : ∀ {xs : List Leaf}, ∀ x ∈ xs.filter doc.order.contains, x ∈ xs ∧ x ∈ doc.order := by
    intro xs x hx
    exact (mem_filter.1 hx).imp_right fun ho => by simpa using ho
  rw [filter_append] at hs
  obtain ⟨hleft, hright, hsides⟩ := pairwise_append.1 (pairwise_before hs)
  refine sublist_of_before hn (fun x hx => (hmem x hx).2) ?_
  rw [filter_append, filter_append]
  refine pairwise_append.2 ⟨hleft, pairwise_append.2 ⟨pairwise_before hm, hright, ?_⟩, ?_⟩
  · intro y hy z hz
    exact h.right y (hmem y hy).1 z (hmem z hz).1 (hmem y hy).2 (hmem z hz).2
  · intro x hx y hy
    rcases mem_append.1 hy with hy | hy
    · exact h.left x (hmem x hx).1 y (hmem y hy).1 (hmem x hx).2 (hmem y hy).2
    · exact hsides x hx y hy

/-! ### Seats -/

structure Unseated (doc : Document) (b : Branch) (node : Node) : Prop where
  has : doc.Has node
  free : doc.parent node = none
  root : node ≠ .branch doc.root
  outside : ∀ c, node = .branch c → ¬ doc.Around c b

theorem Unseated.insertAt (h : doc.Unseated b node) (p : Nat) (tokens : List Leaf) :
    (doc.insertAt p tokens).Unseated b node :=
  ⟨h.has, h.free, h.root, h.outside⟩

theorem Unseated.newToken (h : doc.Unseated b node) (text : String) :
    (doc.newToken text).2.Unseated b node where
  has := has_newToken_of_has h.has text
  free := (parent_newToken ..).trans h.free
  root := h.root
  outside c hc ha := h.outside c hc (.of_parent_eq (fun _ _ => parent_newToken ..) ha)

theorem Unseated.newLiteral (h : doc.Unseated b node) (text : String) :
    (doc.newLiteral text).2.Unseated b node := by
  rcases doc.newLiteral_cases text with he | he <;> rw [he]
  · exact h
  · exact h.newToken text

theorem unseated_leaf {l : Leaf} (hl : doc.Has l) (hfree : doc.parent l = none)
    (b : Branch) : doc.Unseated b l := by
  refine ⟨hl, hfree, ?_, ?_⟩
  · rintro ⟨⟩
  · rintro _ ⟨⟩

theorem Unseated.insertChild (h : doc.Unseated b node) (ho : doc.Unseated b other)
    (hne : other ≠ node) (i : Nat) : (doc.insertChild b i node).Unseated b other where
  has := has_insertChild.2 ho.has
  free := (parent_insertChild h.has b i other).trans ((if_neg hne).trans ho.free)
  root := ho.root
  outside c hc := not_around_insertChild h.has h.outside (ho.outside c hc)

section

variable (hb : doc.Has b) (hn : doc.Unseated b node)
include hb hn

theorem Unseated.leaves_insertChild (h : doc.IsTree) (i : Nat) :
    (∀ m, (∀ c, m = .branch c → ¬ doc.Around c b) →
      (doc.insertChild b i node).leaves m = doc.leaves m) ∧
    (doc.insertChild b i node).leftLeaves b = doc.leftLeaves b ∧
    (doc.insertChild b i node).rightLeaves b = doc.rightLeaves b := by
  have hlinked : (doc.toForest.insertChild b i node).Linked :=
    (h.insertChild hb hn.has hn.free hn.root hn.outside).linked
  exact ⟨fun _ hm => h.linked.leaves_insertChild hb hlinked hm,
    h.linked.beside_insertChild hb hn.has hn.outside hlinked⟩

theorem Aligned.insertChild (h : doc.Aligned) (hplace : doc.Between
      (doc.leftLeaves b ++ ((doc.children b).take i).flatMap doc.leaves) (doc.leaves node)
      (((doc.children b).drop i).flatMap doc.leaves ++ doc.rightLeaves b)) :
    (doc.insertChild b i node).Aligned := by
  have hd := h.tree.linked
  have htree := h.tree.insertChild (i := i) hb hn.has hn.free hn.root hn.outside
  obtain ⟨hleaves, hleft, hright⟩ := hn.leaves_insertChild hb h.tree i
  have hup : ∀ {c}, doc.Around c b →
      (doc.insertChild b i node).parent c = doc.parent c := fun hc =>
    parent_insertChild_of_around hn.has hn.outside hc
  refine aligned_of_visible htree fun c => ?_
  by_cases hc : doc.Around c b
  · have hafter : (doc.insertChild b i node).Around c b :=
      .of_parent_eq (fun a ha => (hup (.of_parent_eq (fun _ he => hup he) ha)).symm) hc
    have hrow : (doc.insertChild b i node).leaves b =
        ((doc.children b).take i).flatMap doc.leaves ++
          (doc.leaves node ++ ((doc.children b).drop i).flatMap doc.leaves) := by
      have hchildren : (doc.insertChild b i node).children b = _ :=
        children_insertChild hb i node b
      have hside : ∀ ns ⊆ doc.children b,
          ns.flatMap (doc.insertChild b i node).leaves = ns.flatMap doc.leaves := fun ns hns =>
        flatMap_congr fun m hm => hleaves m fun d hd' =>
          hd.not_around_of_child (hd' ▸ hns hm)
      rw [htree.linked.leaves_branch, hchildren, if_pos rfl, flatMap_append, flatMap_cons,
        hside _ (take_subset ..), hside _ (drop_subset ..), hleaves node hn.outside]
    have hsides : ((doc.leftLeaves b ++ ((doc.children b).take i).flatMap doc.leaves) ++
        (((doc.children b).drop i).flatMap doc.leaves ++ doc.rightLeaves b)).filter
          doc.order.contains <+ doc.order := by
      have hnear := h.surroundings b
      rw [Forest.surroundings, hd.leaves_branch, ← take_append_drop i (doc.children b),
        flatMap_append] at hnear
      simpa only [append_assoc] using hnear
    have hnear := hplace.sublist h.tree.order_nodup hsides (h.visible node)
    refine Sublist.trans (Sublist.filter _ ?_) hnear
    rw [append_assoc, ← append_assoc (doc.leaves node), ← append_assoc
      (((doc.children b).take i).flatMap doc.leaves), ← hrow, ← hleft, ← hright]
    have hsame := htree.linked.surroundings_of_around hafter
    unfold Forest.surroundings at hsame
    rw [hsame]
    exact (sublist_append_left ..).trans (sublist_append_right ..)
  · have hsame := hleaves c (by rintro _ ⟨⟩; exact hc)
    rw [visibleLeaves, hsame]
    exact h.visible c

end

structure Settled (doc after : Document) (b : Branch) (nodes : List Node) : Prop where
  tree : after.IsTree
  order_eq : after.order = doc.order
  leaves_eq : ∀ m, (∀ c, m = .branch c → ¬ doc.Around c b) → after.leaves m = doc.leaves m
  outside : ∀ c, ¬ doc.Around c b → ¬ after.Around c b
  left_eq : after.leftLeaves b = doc.leftLeaves b
  right_eq : after.rightLeaves b = doc.rightLeaves b
  unseated : ∀ m ∉ nodes, doc.Unseated b m → after.Unseated b m

section

variable (hb : doc.Has b)
include hb

theorem IsTree.settle (h : doc.IsTree) (i : Nat) (hn : ∀ n ∈ nodes, doc.Unseated b n)
    (hnodup : nodes.Nodup) : Settled doc (doc.insertChildren b i nodes) b nodes := by
  induction nodes with
  | nil => exact ⟨h, rfl, fun _ _ => rfl, fun _ hc => hc, rfl, rfl, fun _ _ hm => hm⟩
  | cons n nodes ih =>
    obtain ⟨hnew, hnodup⟩ := nodup_cons.1 hnodup
    obtain ⟨hseat, hn⟩ := forall_mem_cons.1 hn
    have hmid := ih hn hnodup
    have hseat := hmid.unseated n hnew hseat
    obtain ⟨hleaves, hleft, hright⟩ :=
      hseat.leaves_insertChild ((has_insertChildren i nodes).2 hb) hmid.tree i
    rw [insertChildren_cons]
    refine ⟨?_, hmid.order_eq, fun m hm => ?_, fun c hc => ?_, hleft.trans hmid.left_eq,
      hright.trans hmid.right_eq, fun m hm hs => ?_⟩
    · exact hmid.tree.insertChild ((has_insertChildren i nodes).2 hb) hseat.has hseat.free
        hseat.root hseat.outside
    · exact (hleaves m fun c hc => hmid.outside c (hm c hc)).trans (hmid.leaves_eq m hm)
    · exact not_around_insertChild hseat.has hseat.outside (hmid.outside c hc)
    · rw [mem_cons, not_or] at hm
      exact hseat.insertChild (hmid.unseated m hm.2 hs) hm.1 i

theorem Aligned.insertChildren (h : doc.Aligned) (hi : i ≤ (doc.children b).length)
    (hn : ∀ n ∈ nodes, doc.Unseated b n) (hnodup : nodes.Nodup)
    (hrow : (nodes.flatMap doc.leaves).filter doc.order.contains <+ doc.order)
    (hplace : doc.Between
      (doc.leftLeaves b ++ ((doc.children b).take i).flatMap doc.leaves)
      (nodes.flatMap doc.leaves)
      (((doc.children b).drop i).flatMap doc.leaves ++ doc.rightLeaves b)) :
    (doc.insertChildren b i nodes).Aligned := by
  have hd := h.tree.linked
  induction nodes with
  | nil => exact h
  | cons n nodes ih =>
    obtain ⟨hnew, hnodup⟩ := nodup_cons.1 hnodup
    obtain ⟨hseat, hn⟩ := forall_mem_cons.1 hn
    rw [flatMap_cons] at hrow hplace
    have hmid := h.tree.settle hb i hn hnodup
    rw [filter_append] at hrow
    have haligned := ih hn hnodup ((sublist_append_right ..).trans hrow)
      ⟨fun x hx y hy => hplace.left x hx y (mem_append_right _ hy),
        fun y hy => hplace.right y (mem_append_right _ hy)⟩
    have hkept : ∀ ms : List Node, (∀ m ∈ ms, ∀ c, m = .branch c → ¬ doc.Around c b) →
        ms.flatMap (doc.insertChildren b i nodes).leaves = ms.flatMap doc.leaves := fun ms hms =>
      flatMap_congr fun m hm => hmid.leaves_eq m (hms m hm)
    have hkids : ∀ ms ⊆ doc.children b,
        ms.flatMap (doc.insertChildren b i nodes).leaves = ms.flatMap doc.leaves := fun ms hms =>
      hkept ms fun m hm c hc => hd.not_around_of_child (hc ▸ hms hm)
    have hlen : ((doc.children b).take i).length = i := by
      rw [length_take]
      omega
    rw [insertChildren_cons]
    refine haligned.insertChild ((has_insertChildren i nodes).2 hb) (hmid.unseated n hnew hseat) ?_
    rw [children_insertChildren hb hi, if_pos rfl, take_left' hlen, drop_left' hlen,
      flatMap_append, hkids _ (take_subset ..), hkids _ (drop_subset ..),
      hkept nodes fun m hm => (hn m hm).outside, hmid.left_eq, hmid.right_eq,
      hmid.leaves_eq n hseat.outside]
    have hprecedes : ∀ {x y}, doc.Precedes x y → (doc.insertChildren b i nodes).Precedes x y :=
      fun hxy => hxy.of_sublist h.tree.order_nodup (by rw [hmid.order_eq])
    refine ⟨fun x hx y hy => hprecedes (hplace.left x hx y (mem_append_left _ hy)),
      fun y hy z hz => hprecedes ?_⟩
    rw [append_assoc] at hz
    rcases mem_append.1 hz with hz | hz
    · intro hyo hzo
      exact (pairwise_append.1 (pairwise_before hrow)).2.2 y
        (mem_filter.2 ⟨hy, by simpa using hyo⟩) z (mem_filter.2 ⟨hz, by simpa using hzo⟩)
    · exact hplace.right y (mem_append_left _ hy) z hz

end

/-! ### A seat by position -/

theorem exists_start {r : Span} (hr : doc.range? node = some r) :
    ∃ x ∈ doc.leaves node, doc.position? x = some r.start := by
  obtain ⟨x, -, -, hx, -, hi, -, -⟩ := exists_of_range? hr
  exact ⟨x, (mem_visibleLeaves.1 (mem_of_mem_head? hx)).1, hi⟩

section

variable {range s : Span} (h : doc.Aligned) (hr : doc.range? node = some range)
  (hapart : doc.Between (doc.leaves other) (doc.leaves node) [] ∨
    doc.Between [] (doc.leaves node) (doc.leaves other))
include h hr hapart

theorem Between.of_early (hlt : ∀ s, doc.range? other = some s → s.start < range.start) :
    doc.Between (doc.leaves other) (doc.leaves node) [] := by
  refine hapart.elim id fun hright => ⟨fun x hx y _ hxo _ => ?_, fun _ _ => forall_mem_nil _⟩
  obtain ⟨s, hs⟩ := exists_range? (mem_visibleLeaves.2 ⟨hx, hxo⟩)
  obtain ⟨first, hfirst, hstart⟩ := exists_start hr
  obtain ⟨z, hz, hi⟩ := exists_start hs
  have := (hright.right first hfirst z hz).lt h.tree.order_nodup hstart hi
  have := hlt s hs
  omega

theorem Between.of_late (hs : doc.range? other = some s) (hle : range.start ≤ s.start) :
    doc.Between [] (doc.leaves node) (doc.leaves other) := by
  refine hapart.elim (fun hleft => ?_) id
  obtain ⟨first, hfirst, hstart⟩ := exists_start hr
  obtain ⟨z, hz, hi⟩ := exists_start hs
  have := (hleft.left z hz first hfirst).lt h.tree.order_nodup hi hstart
  omega

end

theorem Between.of_cons (h : doc.Aligned) (hsub : m :: nodes <+ doc.children b)
    (hm : doc.Between [] (doc.leaves node) (doc.leaves m)) {s : Span} (hs : doc.range? m = some s) :
    ∀ n ∈ m :: nodes, doc.Between [] (doc.leaves node) (doc.leaves n) := by
  have hrow : (m :: nodes).flatMap doc.visibleLeaves <+ doc.order := by
    refine Sublist.trans (hsub.flatMap _) ?_
    rw [← visibleLeaves_branch h.tree.linked]
    exact h.visible b
  rw [flatMap_cons] at hrow
  obtain ⟨z, hz, hi⟩ := exists_start hs
  intro n hn
  rcases mem_cons.1 hn with rfl | hn
  · exact hm
  refine ⟨forall_mem_nil _, fun y hy x hx hyo hxo => ?_⟩
  obtain ⟨j, hj⟩ := exists_position hyo
  obtain ⟨k, hk⟩ := exists_position hxo
  have hyz := (hm.right y hy z hz).lt h.tree.order_nodup hj hi
  have hzx : Before doc.order z x := (pairwise_append.1 (pairwise_before hrow)).2.2 z
    (mem_visibleLeaves.2 ⟨hz, mem_of_idxOf? hi⟩) x
    (mem_flatMap.2 ⟨n, hn, mem_visibleLeaves.2 ⟨hx, hxo⟩⟩)
  exact before_of_lt hj hk (hyz.trans (lt_of_before h.tree.order_nodup hzx hi hk))

section

variable (h : doc.Aligned) (hapart : ∀ m ∈ doc.children b,
  doc.Between (doc.leaves m) (doc.leaves node) [] ∨ doc.Between [] (doc.leaves node) (doc.leaves m))
include h hapart

/-- Where each child stands on one side of a node, the first one that starts no earlier parts those
before the node from those behind it. -/
theorem Aligned.between_findIdx {range : Span} (hr : doc.range? node = some range)
    (hindex : (doc.children b).findIdx
      (fun child => (doc.range? child).any (range.start ≤ ·.start)) = i) :
    (∀ m ∈ (doc.children b).take i, doc.Between (doc.leaves m) (doc.leaves node) []) ∧
      ∀ m ∈ (doc.children b).drop i, doc.Between [] (doc.leaves node) (doc.leaves m) := by
  constructor
  · intro m hm
    obtain ⟨k, hk, rfl⟩ := mem_take_iff_getElem.1 hm
    have hearly := not_of_lt_findIdx (hindex ▸ lt_of_lt_of_le hk (min_le_left ..))
    refine .of_early h hr (hapart _ (getElem_mem _)) fun s hs => ?_
    simpa only [hs, Option.any_some, decide_eq_false_iff_not, Nat.not_le] using hearly
  · by_cases hlt : i < (doc.children b).length
    · have hlate := findIdx_getElem (w := hindex.symm ▸ hlt)
      simp only [hindex] at hlate
      obtain ⟨s, hs, hle⟩ := (Option.any_eq_true _ _).1 hlate
      have hat : doc.Between [] (doc.leaves node) (doc.leaves (doc.children b)[i]) :=
        .of_late h hr (hapart _ (getElem_mem hlt)) hs (of_decide_eq_true hle)
      rw [← getElem_cons_drop hlt]
      refine .of_cons (b := b) h ?_ hat hs
      rw [getElem_cons_drop]
      exact drop_sublist ..
    · rw [drop_eq_nil_of_le (Nat.le_of_not_lt hlt)]
      exact forall_mem_nil _

/-- A node goes among the children of a container by where it starts, when each of them stands on
one side of it. -/
theorem Aligned.placeChild (hb : doc.Has b) (hn : doc.Unseated b node)
    (hbeside : doc.Between (doc.leftLeaves b) (doc.leaves node)
      (doc.rightLeaves b)) :
    (doc.placeChild b node).Aligned := by
  unfold Document.placeChild
  dsimp only
  cases hr : doc.range? node with
  | none =>
    have hnone : ∀ y ∈ doc.leaves node, y ∉ doc.order := by
      intro y hy ho
      have hvisible := mem_visibleLeaves.2 ⟨hy, ho⟩
      rw [range?_eq_none.1 hr] at hvisible
      cases hvisible
    refine h.insertChild hb hn ⟨fun x _ y hy _ ho => ?_, fun y hy z _ ho => ?_⟩ <;>
      exact absurd ho (hnone y hy)
  | some range =>
    dsimp only
    obtain ⟨hbefore, hbehind⟩ := h.between_findIdx hapart hr rfl
    refine h.insertChild hb hn ⟨fun x hx y hy => ?_, fun y hy z hz => ?_⟩
    · rcases mem_append.1 hx with hx | hx
      · exact hbeside.left x hx y hy
      · obtain ⟨m, hm, hx⟩ := mem_flatMap.1 hx
        exact (hbefore m hm).left x hx y hy
    · rcases mem_append.1 hz with hz | hz
      · obtain ⟨m, hm, hz⟩ := mem_flatMap.1 hz
        exact (hbehind m hm).right y hy z hz
      · exact hbeside.right y hy z hz

end

/-! ### Tokens with their nodes -/

theorem Parts.between (h : Parts doc p ls rs) (hls : ∀ l ∈ ls, l ∉ tokens)
    (hrs : ∀ r ∈ rs, r ∉ tokens) (hms : ∀ m ∈ ms, m ∉ doc.order) :
    (doc.insertAt p tokens).Between ls ms rs := by
  have hnew : ∀ m ∈ ms, m ∈ (doc.insertAt p tokens).order → m ∈ tokens := fun m hm ho =>
    (mem_insertAt.1 ho).resolve_right (hms m hm)
  refine ⟨fun x hx y hy hxo hyo => ?_, fun y hy z hz hyo hzo => ?_⟩
  · exact precedes_insertAt_left (hls x hx) (hnew y hy hyo) (h.left x hx) hxo hyo
  · exact precedes_insertAt (hnew y hy hyo) (hrs z hz) (h.right z hz) hyo hzo

/-- Behind a child, or where it would be, the children before it and after it are on the two
sides. -/
theorem Aligned.parts_behind (h : doc.Aligned) (hp : doc.parent node = some b)
    (hxy : doc.children b = xs ++ node :: ys) (hxs : node ∉ xs) :
    Parts doc ((doc.range? node).getD (doc.trivia node)).stop
      (doc.leftLeaves b ++ (xs ++ [node]).flatMap doc.leaves)
      (ys.flatMap doc.leaves ++ doc.rightLeaves b) := by
  have hd := h.tree.linked
  have hplace : (doc.trivia node).start ≤ ((doc.range? node).getD (doc.trivia node)).stop ∧
      ((doc.range? node).getD (doc.trivia node)).stop ≤ (doc.trivia node).stop ∧
      ∀ x ∈ doc.leaves node, ∀ i, doc.position? x = some i →
        i < ((doc.range? node).getD (doc.trivia node)).stop := by
    cases hr : doc.range? node with
    | none => exact ⟨doc.trivia_start_le node, le_rfl, fun x hx i hi => (h.trivia_bounds hx hi).2⟩
    | some r =>
      obtain ⟨hstart, hstop⟩ := h.range_bounds hr
      have hlt := range_nonempty h.tree.order_nodup (h.visible node) hr
      refine ⟨hstart.trans hlt.le, hstop, fun x hx i hi => ?_⟩
      exact (mem_range_of_sublist h.tree.order_nodup (h.visible node) hr
        (mem_visibleLeaves.2 ⟨hx, mem_of_idxOf? hi⟩) hi).2
  obtain ⟨hstart, hstop, hinside⟩ := hplace
  have hparts := h.parts_trivia hstart hstop
  rw [hd.leftLeaves_of_parent hp hxy hxs, hd.rightLeaves_of_parent hp hxy hxs] at hparts
  refine ⟨fun l hl => ?_, hparts.right⟩
  rw [flatMap_append, flatMap_singleton, ← append_assoc] at hl
  rcases mem_append.1 hl with hl | hl
  · exact hparts.left l hl
  · exact hinside l hl

theorem Waits.nil (h : doc.Aligned) : doc.Waits [] :=
  ⟨h, .nil, forall_mem_nil _, forall_mem_nil _, fun _ => .inl (forall_mem_nil _)⟩

theorem Waits.filter_leaves (h : doc.Waits ls)
    (hfree : ∀ l ∈ tokens, l ∈ ls ∨ doc.parent (.leaf l) = none) (b : Branch) :
    (doc.leaves b).filter tokens.contains <+ ls := by
  have hmem : ∀ l ∈ doc.leaves b, l ∈ tokens → l ∈ ls := fun l hl hm =>
    (hfree l hm).resolve_right fun hp => Loose.not_mem_leaves h.aligned.tree.linked hp b hl
  rcases h.claimed b with hnone | ⟨-, hsub⟩
  · have hnil : (doc.leaves b).filter tokens.contains = [] :=
      filter_eq_nil_iff.2 fun l hl => by simpa using fun hm => hnone l (hmem l hl hm) hl
    rw [hnil]
    exact nil_sublist _
  · have hpart : (doc.leaves b).filter tokens.contains =
        ((doc.leaves b).filter ls.contains).filter tokens.contains := by
      rw [filter_filter]
      refine filter_congr fun l hl => ?_
      by_cases hm : l ∈ tokens
      · simp [hm, hmem l hl hm]
      · simp [hm]
    rw [hpart]
    exact filter_sublist.trans hsub

theorem Waits.extend (h : doc.Waits ls) (hs : ls <+ tokens) (hn : tokens.Nodup)
    (hnew : ∀ l ∈ tokens, l ∈ ls ∨
      doc.Has (.leaf l) ∧ l ∉ doc.order ∧ doc.parent (.leaf l) = none) : doc.Waits tokens := by
  refine ⟨h.aligned, hn, fun l hl => ?_, fun l hl => ?_, fun b => ?_⟩
  · exact (hnew l hl).elim (h.has l) And.left
  · exact (hnew l hl).elim (h.new l) (·.2.1)
  · refine (h.claimed b).imp (fun hnone l hl hm => ?_) (And.imp_right fun _ => ?_)
    · refine (hnew l hl).elim (fun hl => hnone l hl hm) fun hfree => ?_
      exact Loose.not_mem_leaves h.aligned.tree.linked hfree.2.2 b hm
    · exact (h.filter_leaves (fun l hl => (hnew l hl).imp_right (·.2.2)) b).trans hs

theorem Waits.newToken (h : doc.Waits tokens) (text : String) :
    (doc.newToken text).2.Waits tokens := by
  have hleaves := leaves_newToken h.aligned.tree.linked text
  refine ⟨h.aligned.newToken text, h.nodup, fun l hl => has_newToken_of_has (h.has l hl) text,
    h.new, fun b => ?_⟩
  rw [visibleLeaves, hleaves]
  exact h.claimed b

theorem Waits.newLiteral (h : doc.Waits tokens) (text : String) :
    (doc.newLiteral text).2.Waits tokens := by
  rcases doc.newLiteral_cases text with he | he <;> rw [he]
  · exact h
  · exact h.newToken text

theorem leaves_graft_of_has (hd : doc.Linked) (hl : laid.Linked) (hb : doc.Has b) :
    (doc.graft laid).2.leaves b = doc.leaves b :=
  hd.leaves_congr (linked_graft hd hl) b fun _ hc => children_graft_of_has (hc.has_inside hb) laid

theorem not_mem_of_mem_graft (h : doc.IsTree) (hl : laid.Linked) {y : Leaf}
    (hy : y ∈ (doc.graft laid).2.leaves (doc.rehomeBranch c)) : y ∉ doc.order := by
  have hy : y ∈ (laid.leaves c).map doc.rehomeLeaf :=
    leaves_graft_rehome h.linked hl c ▸ hy
  obtain ⟨l, -, rfl⟩ := mem_map.1 hy
  exact fun ho => not_has_rehome doc l (h.order_has _ ho)

theorem waits_graft (h : doc.Aligned) (hl : laid.Aligned) (hls : ls <+ laid.order) :
    (doc.graft laid).2.Waits (ls.map doc.rehomeLeaf) := by
  have hd := h.tree.linked
  have hout : ∀ l, doc.rehomeLeaf l ∉ doc.order := fun l ho =>
    not_has_rehome doc l (h.tree.order_has _ ho)
  have hhidden : ∀ c, (doc.graft laid).2.visibleLeaves (doc.rehomeBranch c) = [] := by
    intro c
    refine filter_eq_nil_iff.2 fun l hm => ?_
    simpa using not_mem_of_mem_graft h.tree hl.tree.linked hm
  have hinjective := rehomeLeaf_injective doc
  refine ⟨aligned_of_visible (h.tree.graft hl.tree.linked) fun b => ?_,
    (hl.tree.order_nodup.sublist hls).map hinjective, fun l hm => ?_, fun l hm => ?_, fun b => ?_⟩
  · rcases doc.has_or_rehomeBranch b with hb | ⟨c, rfl⟩
    · rw [visibleLeaves, leaves_graft_of_has hd hl.tree.linked hb]
      exact h.visible b
    · rw [hhidden]
      exact nil_sublist _
  · obtain ⟨m, hmem, rfl⟩ := mem_map.1 hm
    exact has_graft_iff.2 (.inr ⟨.leaf m, hl.tree.order_has m (hls.subset hmem), rfl⟩)
  · obtain ⟨m, -, rfl⟩ := mem_map.1 hm
    exact hout m
  · rcases doc.has_or_rehomeBranch b with hb | ⟨c, rfl⟩
    · refine .inl fun l hm hleaf => ?_
      obtain ⟨m, -, rfl⟩ := mem_map.1 hm
      rw [leaves_graft_of_has hd hl.tree.linked hb] at hleaf
      exact not_has_rehome doc m (hd.has_of_mem_leaves hleaf)
    · refine .inr ⟨hhidden c, ?_⟩
      have hleaves : (doc.graft laid).2.leaves (doc.rehomeBranch c) = _ :=
        leaves_graft_rehome hd hl.tree.linked c
      rw [hleaves, filter_map]
      have hsame : (laid.leaves c).filter
          ((ls.map doc.rehomeLeaf).contains ∘ doc.rehomeLeaf) =
            (laid.leaves c).filter ls.contains :=
        filter_congr fun l _ => by simp [mem_map_of_injective hinjective]
      rw [hsame]
      exact (hl.filter_leaves hls c).map _

theorem unseated_graft (h : doc.IsTree) (hb : doc.Has b) (hl : laid.IsTree) :
    (doc.graft laid).2.Unseated b (doc.rehomeBranch laid.root) := by
  have hwaiting := waiting_graft hl doc
  have hnew : ¬ doc.Has (doc.rehomeBranch laid.root) :=
    not_has_rehome doc laid.root
  refine ⟨hwaiting.root_has, hwaiting.root_free, fun he => hnew (he ▸ h.root_has), ?_⟩
  rintro _ ⟨⟩
  exact not_around_graft h.linked hb laid.root

theorem Waits.insertChildren (h : doc.Waits tokens) (hb : doc.Has b)
    (ha : Apart doc b tokens) (hi : i ≤ (doc.children b).length)
    (hn : ∀ n ∈ nodes, doc.Unseated b n) (hnodup : nodes.Nodup)
    (hhidden : ∀ y ∈ nodes.flatMap doc.leaves, y ∉ doc.order)
    (hrow : (nodes.flatMap doc.leaves).filter tokens.contains <+ tokens)
    (hparts : Parts doc p
      (doc.leftLeaves b ++ ((doc.children b).take i).flatMap doc.leaves)
      (((doc.children b).drop i).flatMap doc.leaves ++ doc.rightLeaves b)) :
    ((doc.insertAt p tokens).insertChildren b i nodes).Aligned := by
  have hinside : ∀ ns ⊆ doc.children b, ∀ x ∈ ns.flatMap doc.leaves, x ∉ tokens := by
    intro ns hns x hx hm
    obtain ⟨n, hn, hx⟩ := mem_flatMap.1 hx
    refine ha.left x hm (mem_append_right _ ?_)
    rw [h.aligned.tree.linked.leaves_branch]
    exact mem_flatMap.2 ⟨n, hns hn, hx⟩
  refine (h.insertAt p).insertChildren hb hi (fun n hm => (hn n hm).insertAt p tokens) hnodup ?_ ?_
  · have hsame : (nodes.flatMap doc.leaves).filter (doc.insertAt p tokens).order.contains =
        (nodes.flatMap doc.leaves).filter tokens.contains :=
      filter_congr fun l hl => by simp [mem_insertAt, hhidden l hl]
    show (nodes.flatMap doc.leaves).filter _ <+ _
    rw [hsame]
    exact hrow.trans ((sublist_append_right ..).trans (sublist_append_left ..))
  · refine hparts.between (fun x hx hm => ?_) (fun x hx hm => ?_) hhidden
    · rcases mem_append.1 hx with hx | hx
      · exact ha.left x hm (mem_append_left _ hx)
      · exact hinside _ (take_subset ..) x hx hm
    · rcases mem_append.1 hx with hx | hx
      · exact hinside _ (drop_subset ..) x hx hm
      · exact ha.right x hm hx

end Lossless.Document
