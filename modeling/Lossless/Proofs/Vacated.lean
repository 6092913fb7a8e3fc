import Lossless.Proofs.LineComments
import Lossless.Proofs.Restoring

/-! What an optional leaves behind when it is cleared. Its tokens go with those beside it in one
piece of the text, and its neighbours stay on either side of the gap. Where line comments end their
lines, one that stands before the optional is not joined to what comes after it, except that an
optional on a line of its own may take the break before it along. -/

namespace Lossless

open List Option Layout Forest Document Bool

theorem sublist_of_split {α : Type} {xs ys xs' ys' : List α} {n : α} (hn : (xs ++ n :: ys).Nodup)
    (h : xs' ++ n :: ys' <+ xs ++ n :: ys) : xs' <+ xs ∧ ys' <+ ys := by
  obtain ⟨l₁, l₂, he, h₁, h₂⟩ := sublist_append_iff.1 h
  rw [List.nodup_append, nodup_cons] at hn
  obtain ⟨-, ⟨hys, -⟩, hdisjoint⟩ := hn
  have hxs : n ∉ l₁ := fun hm => hdisjoint n (h₁.subset hm) n mem_cons_self rfl
  have hmem : n ∈ l₁ ++ l₂ := he ▸ mem_append_right _ mem_cons_self
  cases h₂ with
  | cons _ h₂ => exact absurd (h₂.subset ((mem_append.1 hmem).resolve_left hxs)) hys
  | cons_cons _ h₂ =>
    obtain ⟨rfl, -, rfl⟩ :=
      (append_cons_inj_of_notMem hxs fun hm => hys (h₂.subset hm)).1 he.symm
    exact ⟨h₁, h₂⟩

namespace Forest

variable {f g : Forest} {b c : Branch} {node : Node}

theorem Rewired.around_of_outside (hr : f.Rewired g b) (hf : f.Linked) (ha : f.Around c node)
    (hn : f.Has node) (hout : ¬ f.Around b node) : g.Around c node := by
  induction ha with
  | self => exact .self
  | step hp _ ih =>
    have hparent := hr.parent _ hn fun hm => hout (.of_child hf hm)
    exact .step (hparent.trans hp) (ih (hf.has_parent hp) fun h => hout (.step hp h))

theorem Linked.beside_sublist (hf : f.Linked) (hg : g.Linked)
    (h : ∀ c, g.children c <+ f.children c)
    (hup : ∀ c, f.Around c b → g.parent (.branch c) = f.parent (.branch c)) :
    g.leftLeaves b <+ f.leftLeaves b ∧
      g.rightLeaves b <+ f.rightLeaves b := by
  have key : ∀ node, ∀ c, node = Node.branch c → f.Around c b →
      g.leftLeaves node <+ f.leftLeaves node ∧ g.rightLeaves node <+ f.rightLeaves node := by
    refine hf.upward ?_ ?_
    · rintro _ hp c rfl hc
      have hgp := (hup c hc).trans hp
      rw [leftLeaves_of_none hgp, rightLeaves_of_none hgp]
      exact ⟨nil_sublist _, nil_sublist _⟩
    · rintro _ p hp ih c rfl hc
      obtain ⟨ihl, ihr⟩ := ih p rfl (hc.trans (.step hp .self))
      have hgp := (hup c hc).trans hp
      obtain ⟨xs, ys, hxy, hxs, -⟩ := hf.exists_siblings hp
      obtain ⟨xs', ys', hxy', hxs', -⟩ := hg.exists_siblings hgp
      have hsplit := sublist_of_split (hxy ▸ hf.once p) (hxy' ▸ hxy ▸ h p)
      have hflat : ∀ {ms ns : List Node}, ms <+ ns → ms.flatMap g.leaves <+ ns.flatMap f.leaves :=
        fun hs => (List.Sublist.flatMap_right _ fun n _ => hf.leaves_sublist hg h n).trans
          (hs.flatMap _)
      rw [hf.leftLeaves_of_parent hp hxy hxs, hf.rightLeaves_of_parent hp hxy hxs,
        hg.leftLeaves_of_parent hgp hxy' hxs', hg.rightLeaves_of_parent hgp hxy' hxs']
      exact ⟨ihl.append (hflat hsplit.1), (hflat hsplit.2).append ihr⟩
  exact key _ b rfl .self

end Forest

namespace Document

variable {doc mid : Document} {b c parent : Branch} {rule : OptionalRule} {l mark x y : Leaf}
  {r span : Span} {a i z u v p s : Nat}

/-! ### The cut -/

theorem Aligned.spares_closeRoom (h : doc.Aligned) (b : Branch) :
    doc.Spares (doc.closeRoom b).toForest b := by
  have hd := h.tree.linked
  have hmid := ((Thinned.refl h.tree).closeRoom b).tree.linked
  rcases doc.closeRoom_cases b with ⟨mark, hmark, he | ⟨p, hp, he⟩⟩ | ⟨-, he | ⟨_, _, -, -, -, he⟩⟩
  · rw [he]
    exact .refl ..
  · rw [he] at hmid ⊢
    refine .of_rewired ((Rewired.refl doc.toForest p).removeChild mark) hd hmid
      (fun c _ => ?_) fun c hfree hc => ?_
    · exact (Forest.parent_removeChild ..).trans (if_neg fun hm => nomatch hm.1)
    · by_contra hout
      have hbeside := (h.beside_of_slotMark? hmark).1
      have hmem : mark ∈ doc.toForest.surroundings b := by
        simp only [Forest.surroundings, mem_append] at hbeside ⊢
        tauto
      exact hd.not_mem_leaves_of_apart hfree hout hmem (hd.mem_leaves.2 (.step hp hc))
  · rw [he]
    exact .refl ..
  · rw [he]
    exact .refl ..

theorem Aligned.spares_clearOptional (h : doc.Aligned) (hb : doc.Has b)
    (rule : OptionalRule) : doc.Spares (doc.clearOptional rule b).toForest b := by
  have hclear : ∀ mid : Document, mid.Aligned → doc.Spares mid.toForest b →
      doc.Spares (mid.clearChildren b).toForest b := fun mid ha hmid =>
    hmid.trans (.of_rewired_self (Rewired.refl mid.toForest b).clearChildren ha.tree.linked
      (ha.tree.clearChildren b).linked (hmid.has _ hb))
  have hcut : ∀ (mid : Document) span, mid.Aligned → doc.Spares mid.toForest b →
      doc.Spares ((mid.cut span).clearChildren b).toForest b := fun mid span ha hmid =>
    hclear (mid.cut span) (ha.cut span) hmid
  have hroom := h.spares_closeRoom b
  have haligned := ((Thinned.refl h.tree).closeRoom b).aligned h
  unfold Document.clearOptional
  split
  · exact hclear doc h (.refl ..)
  · unfold cutOptional
    split
    · exact hcut doc _ h (.refl ..)
    · exact hcut doc _ h (.refl ..)
    · exact hcut doc _ h (.refl ..)
    · dsimp only
      split
      · exact hclear _ haligned hroom
      · exact hcut _ _ haligned hroom

theorem has_clearOptional {node : Node} : (doc.clearOptional rule b).Has node ↔ doc.Has node := by
  have hroom : (doc.closeRoom b).Has node ↔ doc.Has node := by
    rcases doc.closeRoom_cases b with ⟨_, -, he | ⟨_, -, he⟩⟩ | ⟨-, he | ⟨_, _, -, -, -, he⟩⟩ <;>
      rw [he]
    · rfl
    · exact has_removeChild
    · rfl
  have hcut : ∀ r, (doc.cutOptional rule b r).Has node ↔ doc.Has node := by
    intro r
    unfold cutOptional
    split
    · rfl
    · rfl
    · rfl
    · dsimp only
      split
      · exact hroom
      · exact hroom
  unfold clearOptional
  split
  · exact has_clearChildren
  · exact has_clearChildren.trans (hcut _)

section

variable {node : Node} (h : doc.Aligned)
include h

theorem Aligned.trivia_start_cases (node : Node) :
    doc.leftLeaf? node = none ∧ (doc.trivia node).start = 0 ∨ ∃ l i, doc.leftLeaf? node = some l ∧
      l ∈ doc.leftLeaves node ∧ doc.position? l = some i ∧ (doc.trivia node).start = i + 1 := by
  cases hl : doc.leftLeaf? node with
  | none => exact Or.inl ⟨rfl, by simp [trivia, hl]⟩
  | some l =>
    have hmem := leftLeaf?_eq h.tree.linked node
    rw [hl] at hmem
    obtain ⟨hm, ho⟩ := mem_filter.1 (mem_of_getLast? hmem.symm)
    obtain ⟨i, hi⟩ := exists_position (contains_iff_mem.1 ho)
    exact Or.inr ⟨l, i, rfl, hm, hi, by simp [trivia, hl, hi]⟩

theorem Aligned.trivia_stop_cases (node : Node) :
    doc.rightLeaf? node = none ∧ (doc.trivia node).stop = doc.order.length ∨
      ∃ l, doc.rightLeaf? node = some l ∧ l ∈ doc.rightLeaves node ∧
        doc.position? l = some (doc.trivia node).stop := by
  cases hl : doc.rightLeaf? node with
  | none =>
    have hle := doc.trivia_stop_le_length node
    have hge : doc.order.length ≤ (doc.trivia node).stop := by simp [trivia, hl]
    exact Or.inl ⟨rfl, Nat.le_antisymm hle hge⟩
  | some l =>
    have hmem := rightLeaf?_eq h.tree.linked node
    rw [hl] at hmem
    obtain ⟨hm, ho⟩ := mem_filter.1 (mem_of_mem_head? hmem.symm)
    obtain ⟨i, hi⟩ := exists_position (contains_iff_mem.1 ho)
    have hge : i ≤ (doc.trivia node).stop := by simp [trivia, hl, hi]
    have hle := h.trivia_stop_le hm hi
    exact Or.inr ⟨l, rfl, hm, hi.trans (congrArg some (Nat.le_antisymm hge hle))⟩

theorem Aligned.trivia_of_free (hfree : doc.parent node = none) :
    doc.trivia node = ⟨0, doc.order.length⟩ := by
  have hstart : (doc.trivia node).start = 0 := by
    rcases h.trivia_start_cases node with ⟨-, hstart⟩ | ⟨l, i, -, hl, -⟩
    · exact hstart
    · rw [leftLeaves_of_none hfree] at hl
      cases hl
  have hstop : (doc.trivia node).stop = doc.order.length := by
    rcases h.trivia_stop_cases node with ⟨-, hstop⟩ | ⟨l, -, hl, -⟩
    · exact hstop
    · rw [rightLeaves_of_none hfree] at hl
      cases hl
  rw [← hstart, ← hstop]

end

section

variable (h : doc.Aligned) (hr : doc.range? b = some r)
include h hr

theorem Aligned.side_of_mem (hl : l ∈ doc.toForest.surroundings b)
    (hi : doc.position? l = some i) :
    l ∈ doc.leftLeaves b ∧ i < (doc.trivia b).start ∨
      l ∈ doc.leaves b ∧ r.start ≤ i ∧ i < r.stop ∨
      l ∈ doc.rightLeaves b ∧ (doc.trivia b).stop ≤ i := by
  simp only [Forest.surroundings, mem_append] at hl
  rcases hl with hl | hl | hl
  · exact Or.inl ⟨hl, h.lt_trivia_start hl hi⟩
  · have hvisible := mem_visibleLeaves.2 ⟨hl, mem_of_idxOf? hi⟩
    have hrange := mem_range_of_sublist h.tree.order_nodup (h.visible _) hr hvisible hi
    exact Or.inr (Or.inl ⟨hl, hrange⟩)
  · exact Or.inr (Or.inr ⟨hl, h.trivia_stop_le hl hi⟩)

theorem Aligned.trivia_leftLeaf (hmark : doc.leftLeaf? b = some mark) :
    (doc.trivia mark).stop = r.start := by
  obtain ⟨hnone, -⟩ | ⟨_, m, he, hmem, hm, hstart⟩ := h.trivia_start_cases b
  · cases hnone.symm.trans hmark
  cases he.symm.trans hmark
  have hsame := h.tree.linked.surroundings_of_mem
    (show mark ∈ doc.toForest.surroundings b from mem_append_left _ hmem)
  obtain ⟨first, _, _, hfirst, -, hf, -⟩ := exists_of_range? hr
  obtain ⟨hle, hstop⟩ := h.range_bounds hr
  have hlt := range_nonempty h.tree.order_nodup (h.visible _) hr
  have hself := h.trivia_bounds (show mark ∈ doc.leaves mark by simp) hm
  have hfirst := (mem_visibleLeaves.1 (mem_of_mem_head? hfirst)).1
  refine Nat.le_antisymm ?_ (Nat.le_of_not_lt fun hless => ?_)
  · have hin : first ∈ doc.toForest.surroundings mark :=
      hsame ▸ mem_append_right _ (mem_append_left _ hfirst)
    simp only [Forest.surroundings, leaves_leaf, mem_append, mem_singleton] at hin
    rcases hin with hin | rfl | hin
    · have := h.lt_trivia_start hin hf
      omega
    · cases hm.symm.trans hf
      omega
    · exact h.trivia_stop_le hin hf
  · obtain ⟨-, hend⟩ | ⟨next, -, hnext, hk⟩ := h.trivia_stop_cases mark
    · have := idxOf?_lt_length hf
      omega
    · have hin : next ∈ doc.toForest.surroundings b :=
        hsame ▸ mem_append_right _ (mem_append_right _ hnext)
      rcases h.side_of_mem hr hin hk with hside | hside | hside <;> omega

theorem Aligned.trivia_rightLeaf (hmark : doc.rightLeaf? b = some mark) :
    (doc.trivia mark).start = r.stop := by
  obtain ⟨hnone, -⟩ | ⟨_, he, hmem, hm⟩ := h.trivia_stop_cases b
  · cases hnone.symm.trans hmark
  cases he.symm.trans hmark
  have hsame := h.tree.linked.surroundings_of_mem
    (show mark ∈ doc.toForest.surroundings b from
      mem_append_right _ (mem_append_right _ hmem))
  obtain ⟨_, last, j, -, hlast, -, hj, hstop⟩ := exists_of_range? hr
  obtain ⟨hstart, hle⟩ := h.range_bounds hr
  have hlt := range_nonempty h.tree.order_nodup (h.visible _) hr
  have hself := h.trivia_bounds (show mark ∈ doc.leaves mark by simp) hm
  have hlast := (mem_visibleLeaves.1 (mem_of_getLast? hlast)).1
  refine Nat.le_antisymm (Nat.le_of_not_lt fun hless => ?_) ?_
  · obtain ⟨-, hzero⟩ | ⟨before, k, -, hbefore, hk, hnext⟩ := h.trivia_start_cases mark
    · omega
    · have hin : before ∈ doc.toForest.surroundings b :=
        hsame ▸ mem_append_left _ hbefore
      rcases h.side_of_mem hr hin hk with hside | hside | hside <;> omega
  · have hin : last ∈ doc.toForest.surroundings mark :=
      hsame ▸ mem_append_right _ (mem_append_left _ hlast)
    simp only [Forest.surroundings, leaves_leaf, mem_append, mem_singleton] at hin
    rcases hin with hin | rfl | hin
    · have := h.lt_trivia_start hin hj
      omega
    · cases hm.symm.trans hj
      omega
    · have := h.trivia_stop_le hin hj
      omega

end

/-! ### One gap in the text -/

structure Excised (doc mid : Document) (u v : Nat) : Prop where
  le : u ≤ v
  le_length : v ≤ doc.order.length
  order_eq : mid.order = doc.order.take u ++ doc.order.drop v

theorem excised_self (hu : u ≤ doc.order.length) : Excised doc doc u u :=
  ⟨le_rfl, hu, (take_append_drop ..).symm⟩

theorem excised_cut (hle : span.start ≤ span.stop)
    (hv : span.stop ≤ doc.order.length) : Excised doc (doc.cut span) span.start span.stop :=
  ⟨hle, hv, order_cut doc hle⟩

namespace Excised

variable {s p : Nat}

section

variable (hg : Excised doc mid u v)
include hg

theorem length_take : (doc.order.take u).length = u :=
  length_take_of_le (hg.le.trans hg.le_length)

theorem take_before (hp : p ≤ u) : mid.order.take p = doc.order.take p := by
  have hlength := hg.length_take
  rw [hg.order_eq, take_append_of_le_length (by omega), take_take, Nat.min_eq_left hp]

theorem leavesIn_before (hp : p ≤ u) : mid.leavesIn ⟨s, p⟩ = doc.leavesIn ⟨s, p⟩ := by
  show (mid.order.drop s).take (p - s) = (doc.order.drop s).take (p - s)
  rw [← drop_take, ← drop_take, hg.take_before hp]

theorem leavesIn_behind (p : Nat) : mid.leavesIn ⟨u, p⟩ = doc.leavesIn ⟨v, p + (v - u)⟩ := by
  have hle := hg.le
  show (mid.order.drop u).take (p - u) = (doc.order.drop v).take (p + (v - u) - v)
  rw [hg.order_eq, drop_left' hg.length_take]
  congr 1
  omega

theorem mem_of_mem (hl : l ∈ mid.order) : l ∈ doc.order := by
  rw [hg.order_eq] at hl
  exact (mem_append.1 hl).elim mem_of_mem_take mem_of_mem_drop

/-! Positions of a token that is still there. -/

section

variable (hd : doc.order.Nodup) (hi : mid.position? l = some i)
include hd hi

theorem position_before (hlt : i < u) : doc.position? l = some i := by
  have hlength := hg.length_take
  have hget : mid.order[i]? = some l := getElem?_of_idxOf? hi
  rw [hg.order_eq, getElem?_append_left (by omega), getElem?_take_of_lt hlt] at hget
  exact idxOf?_of_getElem? hd hget

theorem position_behind (hge : u ≤ i) : doc.position? l = some (i + (v - u)) := by
  have hle := hg.le
  have hlength := hg.length_take
  have hget : mid.order[i]? = some l := getElem?_of_idxOf? hi
  rw [hg.order_eq, getElem?_append_right (by omega), hlength, getElem?_drop] at hget
  refine idxOf?_of_getElem? hd (Eq.trans ?_ hget)
  congr 1
  omega

end

section

variable (hn : mid.order.Nodup) (hi : doc.position? l = some i)
include hn hi

theorem stays_before (hlt : i < u) : mid.position? l = some i := by
  have hlength := hg.length_take
  refine idxOf?_of_getElem? hn ?_
  rw [hg.order_eq, getElem?_append_left (by omega), getElem?_take_of_lt hlt]
  exact getElem?_of_idxOf? hi

theorem stays_behind (hge : v ≤ i) : mid.position? l = some (i - (v - u)) := by
  have hle := hg.le
  have hlength := hg.length_take
  refine idxOf?_of_getElem? hn ?_
  rw [hg.order_eq, getElem?_append_right (by omega), hlength, getElem?_drop,
    ← getElem?_of_idxOf? hi]
  congr 1
  omega

end

/-- A container beside a gap goes, and the gap grows by it. -/
theorem cut_beside (hn : mid.order.Nodup) (h : doc.Aligned) (hr : doc.range? b = some r)
    (hshown : mid.visibleLeaves b = doc.visibleLeaves b) :
    ∃ r', mid.range? b = some r' ∧
      (v = r.start → Excised doc (mid.cut r') u r.stop) ∧
      (u = r.stop → Excised doc (mid.cut r') r.start v) := by
  obtain ⟨first, last, j, hfirst, hlast, hi, hj, hstop⟩ := exists_of_range? hr
  have hlt := range_nonempty h.tree.order_nodup (h.visible _) hr
  have hend : r.stop ≤ doc.order.length := by simpa [layout] using range?_stop_le hr
  have hle := hg.le
  have hlength := hg.length_take
  obtain ⟨r', hr'⟩ : ∃ r', mid.range? b = some r' := by
    refine ne_none_iff_exists'.1 fun hnone => ?_
    rw [range?_eq_none, hshown, ← range?_eq_none, hr] at hnone
    cases hnone
  obtain ⟨first', last', j', hfirst', hlast', hi', hj', hstop'⟩ := exists_of_range? hr'
  rw [firstLeaf?, hshown] at hfirst'
  rw [lastLeaf?, hshown] at hlast'
  cases hfirst.symm.trans hfirst'
  cases hlast.symm.trans hlast'
  refine ⟨r', hr', fun he => ⟨by omega, hend, ?_⟩, fun he => ⟨by omega, hg.le_length, ?_⟩⟩
  · have hfirst := some.inj ((hg.stays_behind hn hi (by omega)).symm.trans hi')
    have hlast := some.inj ((hg.stays_behind hn hj (by omega)).symm.trans hj')
    have hmore : r'.stop = u + (r.stop - v) := by omega
    rw [order_cut mid (by omega), hg.order_eq, take_left' (by omega), hmore,
      drop_append, hlength, drop_eq_nil_of_le (by omega), nil_append, drop_drop]
    congr 2
    omega
  · have hfirst := some.inj ((hg.stays_before hn hi (by omega)).symm.trans hi')
    have hlast := some.inj ((hg.stays_before hn hj (by omega)).symm.trans hj')
    rw [order_cut mid (by omega), hg.order_eq, take_append_of_le_length (by omega),
      take_take, drop_left' (by omega)]
    congr 2
    omega

end

end Excised

/-- The parent of a container keeps white space before it when something of the parent comes
first. -/
structure RoomOnLeft (doc : Document) (b parent : Branch) (p : Nat) : Prop where
  parent_eq : doc.parent b = some parent
  not_tuple : ∀ delimiter, doc.shapeOf parent ≠ .tuple delimiter
  spacious : ¬ (doc.shapeOf parent = .plain .tight ∨ doc.isEnclosed b = true)
  starts : ∃ outer, doc.range? parent = some outer ∧ outer.start < p

/-- What may be lost of the line before a container that goes: nothing, what is around a delimiter,
or one token of white space. -/
inductive Joins (doc : Document) (b : Branch) (r : Span) (a z : Nat) : Prop
  | line (h : doc.Unbroken (doc.leavesIn ⟨a, r.start⟩))
  | mark {mark : Leaf} (h : doc.leftLeaf? b = some mark)
      (ha : a = (doc.trivia mark).start)
  | space {parent : Branch} (h : doc.RoomOnLeft b parent r.start) (ha : a + 1 = r.start)
      (hz : z = r.stop)

theorem unbroken_leavesIn_self (doc : Document) (p : Nat) : doc.Unbroken (doc.leavesIn ⟨p, p⟩) :=
  (unbroken_leavesIn le_rfl).2 rfl

/-- The room beside a container has gone in one gap, on its left or on its right. -/
def ClosedBeside (doc mid : Document) (b : Branch) (r : Span) : Prop :=
  ∃ u v, Excised doc mid u v ∧ (v = r.start ∧ doc.Joins b r u r.stop ∨ u = r.stop)

section

variable (h : doc.Aligned) (hr : doc.range? b = some r)
include h hr

theorem Aligned.range_within : r.start < r.stop ∧ r.stop ≤ doc.order.length :=
  ⟨range_nonempty h.tree.order_nodup (h.visible _) hr, by simpa [layout] using range?_stop_le hr⟩

theorem Aligned.closedBeside_self : ClosedBeside doc doc b r := by
  obtain ⟨hlt, hle⟩ := h.range_within hr
  exact ⟨r.start, r.start, excised_self (by omega),
    Or.inl ⟨rfl, .line (unbroken_leavesIn_self _ _)⟩⟩

theorem Aligned.closeSlotRoom_gap (tuple : Branch) (delimiter : String) :
    ClosedBeside doc (doc.closeSlotRoom tuple b delimiter) b r := by
  rw [closeSlotRoom]
  cases hmark : doc.slotDelimiter? tuple b delimiter with
  | none => exact h.closedBeside_self hr
  | some mark =>
    have hgap := excised_cut (doc.trivia_start_le mark) (doc.trivia_stop_le_length _)
    refine ⟨_, _, ⟨hgap.le, hgap.le_length, Eq.trans ?_ hgap.order_eq⟩, ?_⟩
    · dsimp only
      split <;> rfl
    · rcases or_eq_some_iff.1 hmark with hleft | ⟨-, hright⟩
      · have hleft := (filter_eq_some_iff.1 hleft).1
        exact Or.inl ⟨h.trivia_leftLeaf hr hleft, .mark hleft rfl⟩
      · exact Or.inr (h.trivia_rightLeaf hr (filter_eq_some_iff.1 hright).1)

theorem Aligned.closePlainRoom_gap (hp : doc.parent b = some parent)
    (hplain : ∀ delimiter, doc.shapeOf parent ≠ .tuple delimiter)
    (hspacious : ¬ (doc.shapeOf parent = .plain .tight ∨ doc.isEnclosed b = true)) :
    ClosedBeside doc (doc.closePlainRoom parent b) b r := by
  obtain ⟨hlt, hle⟩ := h.range_within hr
  obtain ⟨first, _, _, hfirst, -⟩ := exists_of_range? hr
  obtain ⟨outer, houter⟩ : ∃ outer, doc.range? parent = some outer := by
    obtain ⟨hl, ho⟩ := mem_visibleLeaves.1 (mem_of_mem_head? hfirst)
    refine exists_range? (l := first) (mem_visibleLeaves.2 ⟨?_, ho⟩)
    rw [h.tree.linked.mem_leaves] at hl ⊢
    exact hl.trans (.step hp .self)
  rw [closePlainRoom_eq houter hr]
  split
  · next hleft =>
    have hstart := of_decide_eq_true (and_eq_true_iff.1 hleft).1
    refine ⟨_, _, excised_cut (Nat.sub_le ..) (by dsimp only; omega), Or.inl ⟨rfl, ?_⟩⟩
    exact .space ⟨hp, hplain, hspacious, outer, houter, hstart⟩ (by dsimp only; omega) rfl
  · split
    · next hright =>
      have hstop := of_decide_eq_true (and_eq_true_iff.1 hright).1
      obtain ⟨-, hend⟩ := h.range_within houter
      exact ⟨_, _, excised_cut (Nat.le_add_right ..) (by dsimp only; omega), Or.inr rfl⟩
    · exact h.closedBeside_self hr

theorem Aligned.closeRoom_gap : ClosedBeside doc (doc.closeRoom b) b r := by
  cases hp : doc.parent b with
  | none =>
    rw [show doc.closeRoom b = doc by simp only [closeRoom, hp]]
    exact h.closedBeside_self hr
  | some parent =>
    by_cases htuple : ∃ delimiter, doc.shapeOf parent = .tuple delimiter
    · obtain ⟨delimiter, hshape⟩ := htuple
      rw [show doc.closeRoom b = doc.closeSlotRoom parent b delimiter by
        simp only [closeRoom, hp, hshape]]
      exact h.closeSlotRoom_gap hr parent delimiter
    · have hplain : ∀ delimiter, doc.shapeOf parent ≠ .tuple delimiter :=
        fun delimiter hshape => htuple ⟨delimiter, hshape⟩
      rw [closeRoom_plain doc hp hplain]
      split
      · exact h.closedBeside_self hr
      · next hspacious => exact h.closePlainRoom_gap hr hp hplain hspacious

theorem Aligned.clauseSpan_gap : ∃ a z, a ≤ r.start ∧ r.stop ≤ z ∧
    Excised doc (doc.cut (doc.clauseSpan r)) a z ∧ doc.Unbroken (doc.leavesIn ⟨a, r.start⟩) := by
  obtain ⟨hlt, hle⟩ := h.range_within hr
  have hstart : doc.layout.expandLeft r.start ≤ r.start := Nat.sub_le ..
  have hstop : r.stop ≤ doc.layout.expandRight r.stop := Nat.le_add_right ..
  have hend : doc.layout.expandRight r.stop ≤ doc.order.length := by
    have hwhile := (takeWhile_sublist (l := doc.layout.drop r.stop) isGap).length_le
    simp only [length_drop, layout, length_map] at hwhile
    simp only [expandRight, layout]
    omega
  have hspan : r.stop ≤ (doc.clauseSpan r).stop ∧
      (doc.clauseSpan r).stop ≤ doc.order.length := by
    simp only [clauseSpan]
    split
    · next hown =>
      have := of_decide_eq_true (and_eq_true_iff.1 hown).2
      omega
    · omega
  have hbounds : (doc.clauseSpan r).start ≤ (doc.clauseSpan r).stop :=
    hstart.trans (hlt.le.trans hspan.1)
  refine ⟨_, _, hstart, hspan.1, excised_cut hbounds hspan.2, fun l hl => ?_⟩
  obtain ⟨i, hi⟩ := exists_position (mem_of_mem_drop (mem_of_mem_take hl))
  obtain ⟨hge, hless⟩ := (mem_leavesIn h.tree.order_nodup hi).1 hl
  have hgap : isGap (doc.textOf l) = true :=
    holds_of_takeWhile_reverse (layout_getElem? (getElem?_of_idxOf? hi)) hless hge
  simpa using (and_eq_true_iff.1 hgap).1

theorem Aligned.cutOptional_gap (rule : OptionalRule) : ∃ a z, a ≤ r.start ∧ r.stop ≤ z ∧
    Excised doc (doc.cutOptional rule b r) a z ∧ doc.Joins b r a z ∧
      (rule.placement = .spaced ∨ doc.Unbroken (doc.leavesIn ⟨a, r.start⟩)) := by
  obtain ⟨hlt, hle⟩ := h.range_within hr
  obtain ⟨a, z, ha, hz, hclause, hline⟩ := h.clauseSpan_gap hr
  have hself := doc.unbroken_leavesIn_self r.start
  unfold cutOptional
  split
  · exact ⟨a, z, ha, hz, hclause, .line hline, Or.inr hline⟩
  · exact ⟨a, z, ha, hz, hclause, .line hline, Or.inr hline⟩
  · exact ⟨_, _, le_rfl, le_rfl, excised_cut hlt.le hle, .line hself, Or.inr hself⟩
  · next hrule =>
    have hmid := ((Thinned.refl h.tree).closeRoom b).tree
    obtain ⟨u, v, hgap, hside⟩ := h.closeRoom_gap hr
    obtain ⟨r', hr', hleft, hright⟩ :=
      hgap.cut_beside hmid.order_nodup h hr (h.visibleLeaves_closeRoom b)
    have huv := hgap.le
    dsimp only
    rw [hr']
    rcases hside with ⟨hv, hjoins⟩ | hu
    · exact ⟨u, r.stop, by omega, le_rfl, hleft hv, hjoins, Or.inl hrule⟩
    · exact ⟨r.start, v, le_rfl, by omega, hright hu, .line hself, Or.inl hrule⟩

end

/-! ### Around the gap -/

/-- A document from which the content of a container has gone with one piece of the text, between
the neighbours that the container has then. -/
structure Vacated (doc mid : Document) (b : Branch) (a z : Nat) : Prop
    extends Excised doc mid a z where
  aligned : mid.Aligned
  spares : doc.Spares mid.toForest b
  left : mid.leftLeaves b ⊆ doc.leftLeaves b
  right : mid.rightLeaves b ⊆ doc.rightLeaves b
  start_le : (mid.trivia b).start ≤ a
  le_stop : a ≤ (mid.trivia b).stop

/-- What went of the line before the content of an optional: nothing of what stands in its place
then, or what was lost with the content. -/
def JoinsLine (doc mid : Document) (rule : OptionalRule) (b : Branch) (a z : Nat) : Prop :=
  a ≤ (mid.trivia b).start ∨
    ∃ r, doc.range? b = some r ∧ a ≤ r.start ∧ doc.Joins b r a z ∧
      (rule.placement = .spaced ∨ doc.Unbroken (doc.leavesIn ⟨a, r.start⟩))

section

variable (h : doc.Aligned) (hb : doc.Has b) (rule : OptionalRule)
include h hb

theorem Aligned.vacated_of_gap (hg : Excised doc (doc.clearOptional rule b) a z)
    (hr : doc.range? b = some r) (ha : a ≤ r.start) (hz : r.stop ≤ z) :
    Vacated doc (doc.clearOptional rule b) b a z := by
  have hthin := (Thinned.refl h.tree).clearOptional rule b
  have hspares := h.spares_clearOptional hb rule
  have hmid := hthin.aligned h
  have hbeside := h.tree.linked.beside_sublist hthin.tree.linked hthin.children hspares.up
  have hlt := range_nonempty h.tree.order_nodup (h.visible _) hr
  have hbounds := h.range_bounds hr
  have hn := h.tree.order_nodup
  refine ⟨hg, hmid, hspares, hbeside.1.subset, hbeside.2.subset, ?_, ?_⟩
  · obtain ⟨-, hzero⟩ | ⟨l, i, -, hl, hi, hstart⟩ := hmid.trivia_start_cases b
    · omega
    · by_contra hge
      have hi := hg.position_behind hn hi (by omega)
      have := h.lt_trivia_start (hbeside.1.subset hl) hi
      omega
  · obtain ⟨-, hend⟩ | ⟨l, -, hl, hi⟩ := hmid.trivia_stop_cases b
    · rw [hend, hg.order_eq, length_append, hg.length_take]
      exact Nat.le_add_right ..
    · by_contra hlt
      have hi := hg.position_before hn hi (by omega)
      have := h.trivia_stop_le (hbeside.2.subset hl) hi
      omega

/-- Clearing an optional leaves one gap between its neighbours. -/
theorem Aligned.vacated : ∃ a z, Vacated doc (doc.clearOptional rule b) b a z ∧
    JoinsLine doc (doc.clearOptional rule b) rule b a z := by
  cases hr : doc.range? b with
  | none =>
    have hclear : doc.clearOptional rule b = doc.clearChildren b := by
      rw [Document.clearOptional, hr]
    have hthin := (Thinned.refl h.tree).clearOptional rule b
    have hspares := h.spares_clearOptional hb rule
    have hbeside := h.tree.linked.beside_sublist hthin.tree.linked hthin.children hspares.up
    have hle := (doc.clearOptional rule b).trivia_start_le b
    have hsame : (doc.clearOptional rule b).order = doc.order := by
      rw [hclear]
      rfl
    have hstop := (doc.clearOptional rule b).trivia_stop_le_length b
    rw [hsame] at hstop
    refine ⟨_, _, ⟨⟨le_rfl, hle.trans hstop, ?_⟩, hthin.aligned h, hspares, hbeside.1.subset,
      hbeside.2.subset, le_rfl, hle⟩, Or.inl le_rfl⟩
    rw [hsame, take_append_drop]
  | some r =>
    obtain ⟨a, z, ha, hz, hgap, hjoins⟩ := h.cutOptional_gap hr rule
    have hclear : doc.clearOptional rule b =
        ((doc.cutOptional rule b r).clearChildren b).updateComments := by
      rw [Document.clearOptional, hr]
    have hgap : Excised doc (doc.clearOptional rule b) a z := by
      rw [hclear]
      exact ⟨hgap.le, hgap.le_length, hgap.order_eq⟩
    exact ⟨a, z, h.vacated_of_gap hb rule hgap hr ha hz, Or.inr ⟨r, hr, ha, hjoins⟩⟩

end

theorem leavesIn_take (doc : Document) (hs : s ≤ p) :
    doc.order.take p = doc.order.take s ++ doc.leavesIn ⟨s, p⟩ := by
  rw [← leavesIn_zero, ← leavesIn_zero]
  exact doc.leavesIn_append (Nat.zero_le s) hs

theorem OnEndLine.take (h : doc.OnEndLine (doc.leavesIn ⟨s, p⟩) x) :
    doc.OnEndLine (doc.order.take p) x := by
  rcases Nat.le_total s p with hs | hs
  · rw [doc.leavesIn_take hs]
    exact onEndLine_append.2 (Or.inl h)
  · have hmem := h.mem
    simp [leavesIn, Nat.sub_eq_zero_of_le hs] at hmem

theorem not_onEndLine_of_le (hp : p ≤ s) : ¬ doc.OnEndLine (doc.leavesIn ⟨s, p⟩) x := by
  intro hline
  have hmem := hline.mem
  simp [leavesIn, Nat.sub_eq_zero_of_le hp] at hmem

/-! ### Comments beside the gap -/

section

variable {s : Nat} (h : doc.Aligned) (hends : doc.CommentsEndLines)
  (hcomment : doc.isLineComment c = true) (hfree : doc.parent c = none)
  (hout : ¬ doc.Around c b) (hx : x ∈ doc.leaves c)
include h hends hcomment hfree hout hx

theorem Aligned.broken_of_onEndLine (hr : doc.range? b = some r) (ha : a ≤ r.start)
    (hline : doc.OnEndLine (doc.leavesIn ⟨s, a⟩) x) :
    ¬ doc.Unbroken (doc.leavesIn ⟨a, r.start⟩) := by
  intro hu
  obtain ⟨first, _, _, hfirst, -, hf, -⟩ := exists_of_range? hr
  have hmem : first ∈ doc.toForest.surroundings b := mem_append_right _
    (mem_append_left _ (mem_visibleLeaves.1 (mem_of_mem_head? hfirst)).1)
  refine hends.not_onEndLine h.tree hmem hf hcomment hfree hout hx ?_
  rw [doc.leavesIn_take ha]
  exact onEndLine_append.2 (Or.inr ⟨hu, hline.take⟩)

/-- The token before a delimiter stays when the delimiter goes, and no line comment comes before
it on its line. -/
theorem Aligned.not_onEndLine_mark (hmark : doc.leftLeaf? b = some mark) :
    ¬ doc.OnEndLine (doc.leavesIn ⟨s, (doc.trivia mark).start⟩) x := by
  have hsame : doc.toForest.surroundings mark = doc.toForest.surroundings b := by
    obtain ⟨hnone, -⟩ | ⟨_, _, he, hin, -⟩ := h.trivia_start_cases b
    · cases hnone.symm.trans hmark
    · cases he.symm.trans hmark
      exact h.tree.linked.surroundings_of_mem (mem_append_left _ hin)
  obtain ⟨-, hzero⟩ | ⟨before, k, -, hbefore, hk, hnext⟩ := h.trivia_start_cases mark
  · rw [hzero]
    exact not_onEndLine_of_le (Nat.zero_le s)
  · rw [hnext]
    intro hline
    refine hends.not_onEndLine_succ h.tree ?_ hk hcomment hfree hout hx hline.take
    exact hsame ▸ mem_append_left _ hbefore

end

namespace Vacated

section

variable (hv : Vacated doc mid b a z) (h : doc.Aligned) (hends : doc.CommentsEndLines)
  (hcomment : doc.isLineComment c = true) (hfree : doc.parent c = none)
  (hout : ¬ doc.Around c b) (hx : x ∈ doc.leaves c)
include hv h hends hcomment hfree hout hx

/-- No line comment has a token on the line on which the place of the content begins, but what
stands in that place. -/
theorem not_onEndLine_start : ¬ mid.OnEndLine (mid.order.take (mid.trivia b).start) x := by
  obtain ⟨-, hzero⟩ | ⟨l, i, -, hl, hi, hstart⟩ := hv.aligned.trivia_start_cases b
  · rw [hzero, take_zero]
    exact fun hline => nomatch hline.mem
  · have hlt : i < a := by have := hv.start_le; omega
    have hi := hv.position_before h.tree.order_nodup hi hlt
    have hmem : l ∈ doc.toForest.surroundings b := mem_append_left _ (hv.left hl)
    rw [hstart, hv.take_before hlt]
    intro hline
    exact hends.not_onEndLine_succ h.tree hmem hi hcomment hfree hout hx (hline.congr fun l hl =>
      (hv.spares.textOf l (h.tree.order_has l (mem_of_mem_take hl))).symm)

theorem onEndLine_before (hy : mid.rightLeaf? b = some y)
    (hline : mid.OnEndLine (mid.leavesIn (mid.trivia b)) x) :
    doc.OnEndLine (doc.leavesIn ⟨(mid.trivia b).start, a⟩) x := by
  obtain ⟨hnone, -⟩ | ⟨_, he, hright, hj⟩ := hv.aligned.trivia_stop_cases b
  · cases hnone.symm.trans hy
  cases he.symm.trans hy
  have hbehind := hv.position_behind h.tree.order_nodup hj hv.le_stop
  have hmem : y ∈ doc.toForest.surroundings b :=
    mem_append_right _ (mem_append_right _ (hv.right hright))
  have hsplit := mid.leavesIn_append hv.start_le hv.le_stop
  rw [hv.leavesIn_before le_rfl, hv.leavesIn_behind] at hsplit
  rw [hsplit] at hline
  have hline : doc.OnEndLine _ x := hline.congr fun l hl => by
    refine (hv.spares.textOf l (h.tree.order_has l ?_)).symm
    rcases mem_append.1 hl with hl | hl <;>
      exact mem_of_mem_drop (mem_of_mem_take hl)
  rcases onEndLine_append.1 hline with hline | ⟨-, hline⟩
  · exact absurd hline.take (hends.not_onEndLine h.tree hmem hbehind hcomment hfree hout hx)
  · exact hline

/-- A line comment that stands before the gap is joined to the right neighbour only by the loss of
white space that the parent keeps before its content. -/
theorem space_of_onEndLine (hy : mid.rightLeaf? b = some y)
    (hjoins : JoinsLine doc mid rule b a z)
    (hline : mid.OnEndLine (mid.leavesIn (mid.trivia b)) x) :
    rule.placement = .spaced ∧ ∃ r parent, doc.range? b = some r ∧
      doc.RoomOnLeft b parent r.start ∧ a + 1 = r.start ∧ z = r.stop ∧
      ∀ l ∈ doc.toForest.surroundings b, doc.position? l ≠ some a := by
  have hline := hv.onEndLine_before h hends hcomment hfree hout hx hy hline
  rcases hjoins with hstart | ⟨r, hr, ha, hjoins, hplace⟩
  · exact absurd hline (not_onEndLine_of_le hstart)
  have hbroken := h.broken_of_onEndLine hends hcomment hfree hout hx hr ha hline
  refine ⟨hplace.resolve_right hbroken, ?_⟩
  cases hjoins with
  | line hu => exact absurd hu hbroken
  | mark hmark ha =>
    rw [ha] at hline
    exact absurd hline (h.not_onEndLine_mark hends hcomment hfree hout hx hmark)
  | @space parent hroom ha hz =>
    exact ⟨r, parent, hr, hroom, ha, hz, fun l hl hi =>
      hends.not_onEndLine h.tree hl hi hcomment hfree hout hx hline.take⟩

end

section

variable {parent : Branch} (hv : Vacated doc mid b a z) (h : doc.Aligned)
  (hr : doc.range? b = some r) (ha : a + 1 = r.start)
  (hout : ∀ l ∈ doc.toForest.surroundings b, doc.position? l ≠ some a)
include hv h hr ha hout

/-- The tokens beside a container are there as before when its content and one token before it have
gone. -/
theorem mem_order_iff (hz : z = r.stop)
    (hl : l ∈ doc.leftLeaves b ++ doc.rightLeaves b) :
    l ∈ mid.order ↔ l ∈ doc.order := by
  refine ⟨hv.mem_of_mem, fun ho => ?_⟩
  obtain ⟨hstart, hstop⟩ := h.range_bounds hr
  have hlt := range_nonempty h.tree.order_nodup (h.visible _) hr
  have hn := hv.aligned.tree.order_nodup
  obtain ⟨i, hi⟩ := exists_position ho
  rcases mem_append.1 hl with hl | hl
  · have hlt := h.lt_trivia_start hl hi
    have hne : i ≠ a := fun he => hout l (mem_append_left _ hl) (he ▸ hi)
    exact mem_of_idxOf? (hv.stays_before hn hi (by omega))
  · have hge := h.trivia_stop_le hl hi
    exact mem_of_idxOf? (hv.stays_behind hn hi (by omega))

variable (hb : doc.Has b) (hrewired : doc.Rewired mid.toForest b)
  (hroom : doc.RoomOnLeft b parent r.start)
include hb hrewired hroom

theorem exists_starts : ∃ outer, mid.range? parent = some outer ∧
    outer.start < (mid.trivia b).start := by
  obtain ⟨hparent, -, -, outer, houter, hstart⟩ := hroom
  have hd := h.tree.linked
  have hm := hv.aligned.tree.linked
  have hbounds := h.range_bounds hr
  have hlt := range_nonempty h.tree.order_nodup (h.visible _) hr
  obtain ⟨first, _, _, hfirst, -, hf, -⟩ := exists_of_range? houter
  obtain ⟨hunder, -⟩ := mem_visibleLeaves.1 (mem_of_mem_head? hfirst)
  have hmem : first ∈ doc.toForest.surroundings b := by
    rw [hd.surroundings_of_parent hparent]
    exact mem_append_right _ (mem_append_left _ hunder)
  have hne : outer.start ≠ a := fun he => hout first hmem (he ▸ hf)
  have hmid := hv.stays_before hv.aligned.tree.order_nodup hf (by omega)
  obtain ⟨hleft, -⟩ | ⟨-, hin, -⟩ | ⟨-, hin⟩ := h.side_of_mem hr hmem hf
  · have hnot : ¬ doc.Around b first := fun hin =>
      h.not_mem_leaves_of_beside (mem_append_left _ hleft) (mem_of_idxOf? hf)
        (hd.mem_leaves.2 hin)
    have hunder : first ∈ mid.leaves parent := hm.mem_leaves.2
      (hrewired.around_of_outside hd (hd.mem_leaves.1 hunder) (hd.has_of_mem_leaves hunder) hnot)
    have hvisible := mem_visibleLeaves.2 ⟨hunder, mem_of_idxOf? hmid⟩
    obtain ⟨outer', houter'⟩ := exists_range? hvisible
    have hle := mem_range_of_sublist hv.aligned.tree.order_nodup (hv.aligned.visible _) houter'
      hvisible hmid
    have hlt := hv.aligned.lt_trivia_start ((hrewired.beside_eq hd hm hb).1 ▸ hleft) hmid
    exact ⟨outer', houter', by omega⟩
  · omega
  · omega

/-- The room before a container is still there when its content and one token before it have
gone. -/
theorem roomOnLeft (hz : z = r.stop) (hgrammar : mid.grammar = doc.grammar) :
    mid.RoomOnLeft b parent (mid.trivia b).start := by
  have hd := h.tree.linked
  have hshape := shapeOf_of_rewired hrewired hd hroom.parent_eq hgrammar
  refine ⟨(hv.spares.up b .self).trans hroom.parent_eq,
    fun delimiter => hshape ▸ hroom.not_tuple delimiter, ?_,
    hv.exists_starts h hr ha hout hb hrewired hroom⟩
  rw [hshape, isEnclosed_of_rewired hrewired hd hb hv.aligned.tree.linked fun l hl =>
    hv.mem_order_iff h hr ha hout hz hl]
  exact hroom.spacious

end

end Vacated

theorem RoomOnLeft.rewired_clearOptional
    (hroom : doc.RoomOnLeft b parent p) (rule : OptionalRule) :
    doc.Rewired (doc.clearOptional rule b).toForest b := by
  have hclose : (doc.closeRoom b).toForest = doc.toForest := by
    rcases doc.closeRoom_cases b with ⟨mark, hmark, -⟩ | ⟨-, he | ⟨_, _, -, -, -, he⟩⟩
    · obtain ⟨tuple, delimiter, htuple, hshape, -⟩ := exists_of_slotMark? hmark
      cases hroom.parent_eq.symm.trans htuple
      exact absurd hshape (hroom.not_tuple delimiter)
    · rw [he]
    · rw [he]
      rfl
  have hcut : ∀ r, (doc.cutOptional rule b r).toForest = doc.toForest := by
    intro r
    unfold cutOptional
    split
    · rfl
    · rfl
    · rfl
    · dsimp only
      split
      · exact hclose
      · exact hclose
  have hclear := (Rewired.refl doc.toForest b).clearChildren
  unfold clearOptional
  split
  · exact hclear
  · next r _ =>
    have hsame : ((doc.cutOptional rule b r).clearChildren b).toForest =
        doc.toForest.clearChildren b := congrArg (·.clearChildren b) (hcut r)
    exact hsame ▸ hclear

/-- In the place of a cleared optional, a line comment stands before the right neighbour on its line
only if the content comes in before the comment. -/
theorem Aligned.roomOnLeft_of_onEndLine (h : doc.Aligned) (hb : doc.Has b)
    (hends : doc.CommentsEndLines) (hcomment : doc.isLineComment c = true)
    (hfree : doc.parent c = none) (hout : ¬ doc.Around c b)
    (hx : x ∈ doc.leaves c)
    (hy : (doc.clearOptional rule b).rightLeaf? b = some y)
    (hline : (doc.clearOptional rule b).OnEndLine
      ((doc.clearOptional rule b).leavesIn ((doc.clearOptional rule b).trivia b)) x) :
    rule.placement = .spaced ∧ ∃ parent, (doc.clearOptional rule b).RoomOnLeft b parent
      ((doc.clearOptional rule b).trivia b).start := by
  obtain ⟨a, z, hv, hjoins⟩ := h.vacated hb rule
  obtain ⟨hplace, r, parent, hr, hroom, ha, hz, hnot⟩ :=
    hv.space_of_onEndLine h hends hcomment hfree hout hx hy hjoins hline
  have hevolves : Grows doc (doc.clearOptional rule b) :=
    (Evolves.refl h.tree.linked).clearOptional rule b
  exact ⟨hplace, parent, hv.roomOnLeft h hr ha hnot hb (hroom.rewired_clearOptional rule) hroom hz
    hevolves.grammar⟩

end Document

end Lossless
