import Lossless.Proofs.Comments

/-! What leaves the text with an optional: its own tokens, white space, a delimiter of the tuple
that holds it, and in two places tokens that only stand beside these. -/

namespace Lossless

open List Layout Text

theorem Forest.Linked.surroundings_of_mem {f : Forest} (hf : f.Linked) {node : Node} {l : Leaf}
    (hl : l ∈ f.surroundings node) : f.surroundings l = f.surroundings node := by
  revert hl
  induction node using hf.upward with
  | free node hp =>
    intro hl
    have hsame : f.surroundings node = f.leaves node := by
      rw [surroundings, leftLeaves_of_none hp, rightLeaves_of_none hp, nil_append,
        append_nil]
    rw [hsame] at hl
    cases node with
    | leaf m =>
      rw [leaves_leaf, mem_singleton] at hl
      rw [hl]
    | branch b => exact hf.surroundings_of_around (hf.mem_leaves.1 hl)
  | inside node b hp ih =>
    intro hl
    rw [hf.surroundings_of_parent hp] at hl ⊢
    exact ih hl

namespace Document

variable {doc mid : Document} {node : Node} {b optional : Branch} {l mark : Leaf}
  {span range : Span} {i : Nat}

def ink (doc : Document) : List Leaf :=
  doc.order.filter fun l => !Text.isBlank (doc.textOf l)

/-- The ink of a part of the text, by what has gone from it. -/
theorem ink_of_sublist {gone : List Leaf} (hn : doc.order.Nodup) (hs : mid.order <+ doc.order)
    (htext : ∀ l ∈ doc.order, mid.textOf l = doc.textOf l)
    (hgone : ∀ l ∈ doc.order, isBlank (doc.textOf l) = false → (l ∉ mid.order ↔ l ∈ gone)) :
    mid.ink = doc.ink.filter (!gone.contains ·) := by
  have hink : mid.ink = (doc.order.filter mid.order.contains).filter
      fun l => !isBlank (doc.textOf l) := by
    rw [filter_contains_of_sublist hn hs]
    exact filter_congr fun l hl => by rw [htext l (hs.subset hl)]
  rw [hink, ink, filter_filter, filter_filter]
  refine filter_congr fun l hl => ?_
  cases hblank : isBlank (doc.textOf l) with
  | true => simp
  | false =>
    have hiff := hgone l hl hblank
    by_cases hm : l ∈ mid.order
    · simp [hm, mt hiff.2 (not_not.2 hm)]
    · simp [hm, hiff.1 hm]

/-! ### Tokens of a range -/

theorem exists_of_mem_leavesIn (hl : l ∈ doc.leavesIn span) :
    ∃ i, doc.order[i]? = some l ∧ span.start ≤ i ∧ i < span.stop := by
  obtain ⟨k, hk⟩ := mem_iff_getElem?.1 hl
  have hlt := (List.getElem?_eq_some_iff.1 hk).1
  rw [leavesIn, length_take] at hlt
  rw [leavesIn, getElem?_take_of_lt (by omega), getElem?_drop] at hk
  exact ⟨_, hk, Nat.le_add_right _ k, by omega⟩

theorem mem_leavesIn (hn : doc.order.Nodup) (hi : doc.position? l = some i) :
    l ∈ doc.leavesIn span ↔ span.start ≤ i ∧ i < span.stop := by
  have hget := getElem?_of_idxOf? hi
  constructor
  · intro hl
    obtain ⟨k, hk, hle, hlt⟩ := exists_of_mem_leavesIn hl
    cases hi.symm.trans (idxOf?_of_getElem? hn hk)
    exact ⟨hle, hlt⟩
  · rintro ⟨hstart, hstop⟩
    refine mem_of_getElem? (i := i - span.start) ?_
    rw [leavesIn, getElem?_take_of_lt (by omega), getElem?_drop,
      Nat.add_sub_cancel' hstart, hget]

theorem not_mem_cut (hn : doc.order.Nodup) (hl : l ∈ doc.order) :
    l ∉ (doc.cut span).order ↔ l ∈ doc.leavesIn span := by
  obtain ⟨i, hi⟩ := exists_position hl
  rw [mem_cut_iff hn hi, mem_leavesIn hn hi]
  omega

theorem mem_coveredLeaves (hn : doc.order.Nodup) (hs : doc.visibleLeaves node <+ doc.order) :
    l ∈ doc.coveredLeaves node ↔ ∃ x ∈ doc.visibleLeaves node, ∃ y ∈ doc.visibleLeaves node,
      (x = l ∨ Before doc.order x l) ∧ (l = y ∨ Before doc.order l y) := by
  constructor
  · intro hl
    obtain ⟨i, hi⟩ := exists_position (doc.coveredLeaves_subset node hl)
    rw [coveredLeaves] at hl
    split at hl
    · cases hl
    next r hr =>
    rw [mem_leavesIn hn hi] at hl
    obtain ⟨first, last, j, hfirst, hlast, hstart, hj, hstop⟩ := exists_of_range? hr
    have hsame : ∀ {x k}, doc.position? x = some k → k = i → x = l := by
      rintro x k hk rfl
      exact Option.some.inj ((getElem?_of_idxOf? hk).symm.trans (getElem?_of_idxOf? hi))
    refine ⟨first, mem_of_mem_head? hfirst, last, mem_of_getLast? hlast, ?_, ?_⟩
    · rcases hl.1.eq_or_lt with heq | hlt
      · exact .inl (hsame hstart heq)
      · exact .inr (before_of_lt hstart hi hlt)
    · rcases (Nat.le_of_lt_succ (hstop ▸ hl.2)).eq_or_lt with heq | hlt
      · exact .inl (hsame hj heq.symm).symm
      · exact .inr (before_of_lt hi hj hlt)
  · rintro ⟨x, hx, y, hy, hxl, hly⟩
    have hl : l ∈ doc.order := by
      rcases hxl with rfl | hxl
      · exact (mem_visibleLeaves.1 hx).2
      · exact hxl.mem_right
    obtain ⟨i, hi⟩ := exists_position hl
    obtain ⟨r, hr⟩ := exists_range? hx
    obtain ⟨p, hp⟩ := exists_position (mem_visibleLeaves.1 hx).2
    obtain ⟨q, hq⟩ := exists_position (mem_visibleLeaves.1 hy).2
    have hstart := (mem_range_of_sublist hn hs hr hx hp).1
    have hstop := (mem_range_of_sublist hn hs hr hy hq).2
    have hpi : p ≤ i := by
      rcases hxl with rfl | hxl
      · exact (Option.some.inj (hp.symm.trans hi)).le
      · exact (lt_of_before hn hxl hp hi).le
    have hiq : i ≤ q := by
      rcases hly with rfl | hly
      · exact (Option.some.inj (hi.symm.trans hq)).le
      · exact (lt_of_before hn hly hi hq).le
    rw [coveredLeaves, hr]
    exact (mem_leavesIn hn hi).2 ⟨by omega, by omega⟩

theorem Thinned.coveredLeaves_subset (h : Thinned doc mid) (hd : doc.Aligned) (node : Node) :
    mid.coveredLeaves node ⊆ doc.coveredLeaves node := by
  intro l hl
  have hshown : mid.visibleLeaves node ⊆ doc.visibleLeaves node := fun x hx => by
    obtain ⟨hx, ho⟩ := mem_visibleLeaves.1 hx
    have hsub := hd.tree.linked.leaves_sublist h.tree.linked h.children node
    exact mem_visibleLeaves.2 ⟨hsub.subset hx, h.order.subset ho⟩
  rw [mem_coveredLeaves h.tree.order_nodup (h.visible hd.tree (hd.visible node))] at hl
  rw [mem_coveredLeaves hd.tree.order_nodup (hd.visible node)]
  obtain ⟨x, hx, y, hy, hxl, hly⟩ := hl
  exact ⟨x, hshown hx, y, hshown hy, hxl.imp_right (·.mono h.order), hly.imp_right (·.mono h.order)⟩

/-! ### Room beside an optional -/

/-- The delimiter that goes with a slot of a tuple. -/
def slotMark? (doc : Document) (b : Branch) : Option Leaf :=
  (doc.parent b).bind fun parent =>
    match doc.shapeOf parent with
    | .tuple delimiter => doc.slotDelimiter? parent b delimiter
    | _ => none

theorem exists_of_slotMark? (h : doc.slotMark? b = some mark) : ∃ tuple delimiter,
    doc.parent b = some tuple ∧ doc.shapeOf tuple = .tuple delimiter ∧
      doc.textOf mark = delimiter ∧
      (doc.leftLeaf? b = some mark ∨ doc.rightLeaf? b = some mark) := by
  obtain ⟨tuple, htuple, hmark⟩ := Option.bind_eq_some_iff.1 h
  split at hmark
  · next delimiter hshape =>
    rw [slotDelimiter?, Option.or_eq_some_iff] at hmark
    have hfound : ∀ found : Option Leaf, found.filter (fun l =>
        doc.contains tuple (.leaf l) && doc.textOf l == delimiter) = some mark →
          found = some mark ∧ doc.textOf mark = delimiter := by
      intro found hf
      obtain ⟨hf, hd⟩ := Option.filter_eq_some_iff.1 hf
      exact ⟨hf, beq_iff_eq.1 (Bool.and_eq_true_iff.1 hd).2⟩
    rcases hmark with hmark | ⟨-, hmark⟩
    · obtain ⟨hside, htext⟩ := hfound _ hmark
      exact ⟨tuple, delimiter, htuple, hshape, htext, .inl hside⟩
    · obtain ⟨hside, htext⟩ := hfound _ hmark
      exact ⟨tuple, delimiter, htuple, hshape, htext, .inr hside⟩
  · cases hmark

theorem closePlainRoom_cases (doc : Document) (parent b : Branch) :
    doc.closePlainRoom parent b = doc ∨ ∃ r i, doc.range? b = some r ∧
      (i + 1 = r.start ∨ i = r.stop) ∧ isBlank (doc.layout.getD i "") ∧
      doc.closePlainRoom parent b = doc.cut ⟨i, i + 1⟩ := by
  unfold closePlainRoom
  split
  · next outer inner houter hinner =>
    dsimp only
    split
    · next hleft =>
      obtain ⟨hlt, hblank⟩ := Bool.and_eq_true_iff.1 hleft
      have hlt := of_decide_eq_true hlt
      have heq : inner.start - 1 + 1 = inner.start := by omega
      exact .inr ⟨inner, inner.start - 1, hinner, .inl heq, hblank, by rw [heq]⟩
    · split
      · next hright =>
        have hgap := (Bool.and_eq_true_iff.1 hright).2
        exact .inr ⟨inner, inner.stop, hinner, .inr rfl, isBlank_of_isGap hgap, rfl⟩
      · exact .inl rfl
  · exact .inl rfl

/-- A slot loses its delimiter with what stands around that; another node loses at most one token of
white space beside it. -/
theorem closeRoom_cases (doc : Document) (b : Branch) :
    (∃ mark, doc.slotMark? b = some mark ∧
      (doc.closeRoom b = doc.cut (doc.trivia (.leaf mark)) ∨ ∃ p, doc.parent (.leaf mark) = some p ∧
        doc.closeRoom b = (doc.cut (doc.trivia (.leaf mark))).removeChild p (.leaf mark))) ∨
    doc.slotMark? b = none ∧ (doc.closeRoom b = doc ∨ ∃ r i, doc.range? b = some r ∧
      (i + 1 = r.start ∨ i = r.stop) ∧ isBlank (doc.layout.getD i "") ∧
      doc.closeRoom b = doc.cut ⟨i, i + 1⟩) := by
  unfold slotMark? closeRoom
  cases hp : doc.parent b with
  | none => exact .inr ⟨rfl, .inl rfl⟩
  | some parent =>
    dsimp only [Option.bind_some]
    cases hshape : doc.shapeOf parent with
    | tuple delimiter =>
      dsimp only
      unfold closeSlotRoom
      cases hmark : doc.slotDelimiter? parent b delimiter with
      | none => exact .inr ⟨rfl, .inl rfl⟩
      | some mark =>
        refine .inl ⟨mark, rfl, ?_⟩
        dsimp only
        split
        · exact .inl rfl
        · next p hparent => exact .inr ⟨p, hparent, rfl⟩
    | plain spacing =>
      cases spacing with
      | tight => exact .inr ⟨rfl, .inl rfl⟩
      | space =>
        refine .inr ⟨rfl, ?_⟩
        dsimp only
        split
        · exact .inl rfl
        · exact doc.closePlainRoom_cases parent b
    | _ =>
      refine .inr ⟨rfl, ?_⟩
      dsimp only
      split
      · exact .inl rfl
      · exact doc.closePlainRoom_cases parent b

section

variable (h : doc.Aligned)
include h

theorem Aligned.not_mem_leaves_of_beside (hl : l ∈ doc.leftLeaves node ++ doc.rightLeaves node)
    (ho : l ∈ doc.order) : l ∉ doc.leaves node := by
  intro hm
  have hnodup := (h.surroundings node).nodup h.tree.order_nodup
  rw [Forest.surroundings, filter_append, filter_append] at hnodup
  obtain ⟨-, hrest, hleft⟩ := nodup_append.1 hnodup
  have hright := (nodup_append.1 hrest).2.2
  have hin : ∀ {ls : List Leaf}, l ∈ ls → l ∈ ls.filter doc.order.contains := fun hl =>
    mem_filter.2 ⟨hl, contains_iff_mem.2 ho⟩
  rcases mem_append.1 hl with hl | hl
  · exact hleft l (hin hl) l (mem_append_left _ (hin hm)) rfl
  · exact hright l (hin hm) l (hin hl) rfl

theorem Aligned.trivia_apart (hm : mark ∈ doc.leftLeaves node ++ doc.rightLeaves node)
    (ho : mark ∈ doc.order) (hl : l ∈ doc.leaves node) (hi : doc.position? l = some i) :
    i < (doc.trivia mark).start ∨ (doc.trivia mark).stop ≤ i := by
  have hmem : ∀ {x}, x ∈ doc.leftLeaves node ++ doc.rightLeaves node ∨ x ∈ doc.leaves node →
      x ∈ doc.toForest.surroundings node := by
    intro x hx
    simp only [Forest.surroundings, mem_append] at hx ⊢
    tauto
  have hsame := h.tree.linked.surroundings_of_mem (hmem (.inl hm))
  have hl' := hmem (.inr hl)
  rw [← hsame, Forest.surroundings, Forest.leaves_leaf, mem_append, mem_append,
    mem_singleton] at hl'
  rcases hl' with hleft | rfl | hright
  · exact .inl (h.lt_trivia_start hleft hi)
  · exact absurd hl (h.not_mem_leaves_of_beside hm ho)
  · exact .inr (h.trivia_stop_le hright hi)

theorem Aligned.beside_of_slotMark? (hmark : doc.slotMark? b = some mark) :
    mark ∈ doc.leftLeaves b ++ doc.rightLeaves b ∧ mark ∈ doc.order := by
  obtain ⟨-, -, -, -, -, hside | hside⟩ := exists_of_slotMark? hmark
  · rw [leftLeaf?_eq h.tree.linked] at hside
    obtain ⟨hm, ho⟩ := mem_filter.1 (mem_of_getLast? hside)
    exact ⟨mem_append_left _ hm, contains_iff_mem.1 ho⟩
  · rw [rightLeaf?_eq h.tree.linked] at hside
    obtain ⟨hm, ho⟩ := mem_filter.1 (mem_of_mem_head? hside)
    exact ⟨mem_append_right _ hm, contains_iff_mem.1 ho⟩

theorem Aligned.visibleLeaves_cut_of_apart (hleaves : mid.leaves node = doc.leaves node)
    (horder : mid.order = (doc.cut span).order) (hapart : ∀ l ∈ doc.leaves node, ∀ i,
      doc.position? l = some i → i < span.start ∨ span.stop ≤ i) :
    mid.visibleLeaves node = doc.visibleLeaves node := by
  rw [visibleLeaves, visibleLeaves, hleaves, horder]
  refine filter_congr fun l hl => ?_
  have hiff : l ∈ (doc.cut span).order ↔ l ∈ doc.order := by
    refine ⟨fun hm => (cut_sublist ..).subset hm, fun ho => ?_⟩
    obtain ⟨i, hi⟩ := exists_position ho
    exact (mem_cut_iff h.tree.order_nodup hi).2 (hapart l hl i hi)
  simp [hiff]

theorem Aligned.visibleLeaves_closeRoom (b : Branch) :
    (doc.closeRoom b).visibleLeaves b = doc.visibleLeaves b := by
  rcases doc.closeRoom_cases b with ⟨mark, hmark, he⟩ | ⟨-, he | ⟨r, i, hr, hi, -, he⟩⟩
  · obtain ⟨hbeside, ho⟩ := h.beside_of_slotMark? hmark
    have hapart : ∀ l ∈ doc.leaves b, ∀ i, doc.position? l = some i →
        i < (doc.trivia mark).start ∨ (doc.trivia mark).stop ≤ i :=
      fun l hl i hi => h.trivia_apart hbeside ho hl hi
    rcases he with he | ⟨p, hp, he⟩ <;> rw [he]
    · exact h.visibleLeaves_cut_of_apart rfl rfl hapart
    · refine h.visibleLeaves_cut_of_apart ?_ rfl hapart
      have htree := (h.tree.cut (doc.trivia mark)).removeChild p mark
      -- the delimiter is under no container of the node
      refine h.tree.linked.leaves_congr htree.linked b fun c hc => ?_
      have hchildren : ((doc.cut (doc.trivia mark)).removeChild p mark).children c =
          _ := Forest.children_removeChild ..
      rw [hchildren, if_neg]
      · rfl
      · rintro rfl
        exact h.not_mem_leaves_of_beside hbeside ho (h.tree.linked.mem_leaves.2 (.step hp hc))
  · rw [he]
  · rw [he]
    refine h.visibleLeaves_cut_of_apart rfl rfl fun l hl j hj => ?_
    have := mem_range_of_sublist h.tree.order_nodup (h.visible _) hr
      (mem_visibleLeaves.2 ⟨hl, mem_of_idxOf? hj⟩) hj
    dsimp only
    omega

theorem Aligned.mem_around_leaf (hl : l ∈ doc.order) (mark : Leaf) :
    l ∈ doc.leavesIn (doc.trivia mark) ↔
      mark = l ∨ l ∈ (doc.leavesIn (doc.trivia mark)).filter (· != mark) := by
  have hself : l ∈ doc.leavesIn (doc.trivia l) := by
    obtain ⟨i, hi⟩ := exists_position hl
    rw [mem_leavesIn h.tree.order_nodup hi]
    exact h.trivia_bounds (by simp) hi
  rw [mem_filter, bne_iff_ne]
  constructor
  · intro hm
    by_cases heq : mark = l
    · exact .inl heq
    · exact .inr ⟨hm, Ne.symm heq⟩
  · rintro (heq | ⟨hm, -⟩)
    · exact heq.symm ▸ hself
    · exact hm

theorem Aligned.not_mem_closeRoom (b : Branch) (hl : l ∈ doc.order)
    (hink : isBlank (doc.textOf l) = false) : l ∉ (doc.closeRoom b).order ↔
      ∃ mark ∈ doc.slotMark? b, l ∈ doc.leavesIn (doc.trivia (.leaf mark)) := by
  have hn := h.tree.order_nodup
  rcases doc.closeRoom_cases b with ⟨mark, hmark, he⟩ | ⟨hnone, he | ⟨r, i, -, -, hblank, he⟩⟩
  · have hcut : l ∉ (doc.closeRoom b).order ↔ l ∈ doc.leavesIn (doc.trivia (.leaf mark)) := by
      rcases he with he | ⟨p, -, he⟩ <;> rw [he]
      · exact not_mem_cut hn hl
      · exact not_mem_cut hn hl
    rw [hcut, hmark]
    simp
  · rw [he, hnone]
    simp [hl]
  · rw [he, hnone, not_mem_cut hn hl]
    obtain ⟨j, hj⟩ := exists_position hl
    rw [mem_leavesIn hn hj]
    have hne : j ≠ i := by
      rintro rfl
      rw [getD_eq_getElem?_getD, layout_getElem? (getElem?_of_idxOf? hj), Option.getD_some,
        hink] at hblank
      cases hblank
    simp only [Option.mem_def, reduceCtorEq, false_and, exists_false, iff_false]
    omega

end

/-! ### Clearing -/

/-- Nothing but white space stands before a range on its line. -/
def opensLine (doc : Document) (range : Span) : Bool :=
  (doc.layout.take (doc.layout.expandLeft range.start)).getLast?.any Layout.isBreak

def departingMark? (doc : Document) (rule : OptionalRule) (optional : Branch) : Option Leaf :=
  if rule.placement = .spaced ∧ (doc.range? optional).isSome then doc.slotMark? optional
  else none

/-- What goes with an optional although it is neither in it nor a delimiter. A clause that opens its
line takes the token behind it along, be it the break of the line or not; a delimiter takes along
what stands around it, be it white space or comments. -/
def bystanders (doc : Document) (rule : OptionalRule) (optional : Branch) : List Leaf :=
  match rule.placement, doc.range? optional with
  | .multiline, some range | .trailingInline, some range =>
    if doc.opensLine range then doc.order[doc.layout.expandRight range.stop]?.toList else []
  | .spaced, _ => (doc.departingMark? rule optional).toList.flatMap fun mark =>
    (doc.leavesIn (doc.trivia (.leaf mark))).filter (· != mark)
  | _, _ => []

section

variable (h : doc.Aligned) (hl : l ∈ doc.order) (hink : isBlank (doc.textOf l) = false)
include h hl hink

theorem Aligned.mem_clauseSpan (hr : doc.range? optional = some range) :
    l ∈ doc.leavesIn (doc.clauseSpan range) ↔ l ∈ doc.coveredLeaves optional ∨
      doc.opensLine range ∧ doc.order[doc.layout.expandRight range.stop]? = some l := by
  have hn := h.tree.order_nodup
  obtain ⟨i, hi⟩ := exists_position hl
  have hget := getElem?_of_idxOf? hi
  have htext := layout_getElem? hget
  have hlt := range_nonempty hn (h.visible _) hr
  -- white space on either side of the range, and nothing else, lies in the span
  have hleft : i < doc.layout.expandLeft range.start ∨ range.start ≤ i := by
    by_contra hin
    have := holds_of_takeWhile_reverse htext (q := range.start) (by omega)
      (Nat.le_of_not_lt fun hlt => hin (.inl hlt))
    rw [isBlank_of_isGap this] at hink
    cases hink
  have hright : i < range.stop ∨ doc.layout.expandRight range.stop ≤ i := by
    by_contra hin
    have := holds_of_takeWhile_drop htext (q := range.stop) (by omega)
      (Nat.lt_of_not_le fun hle => hin (.inr hle))
    rw [isBlank_of_isGap this] at hink
    cases hink
  have hstart : doc.layout.expandLeft range.start ≤ range.start := Nat.sub_le ..
  have hstop : range.stop ≤ doc.layout.expandRight range.stop := Nat.le_add_right ..
  have hnext : doc.order[doc.layout.expandRight range.stop]? = some l ↔
      i = doc.layout.expandRight range.stop := by
    refine ⟨fun hnext => Option.some.inj (hi.symm.trans (idxOf?_of_getElem? hn hnext)), ?_⟩
    rintro rfl
    exact hget
  have hlength : i < doc.order.length := idxOf?_lt_length hi
  rw [coveredLeaves, hr, mem_leavesIn hn hi, mem_leavesIn hn hi, hnext, clauseSpan, opensLine]
  dsimp only
  cases ((doc.layout.take (doc.layout.expandLeft range.start)).getLast?.any isBreak) with
  | false =>
    simp only [Bool.false_and, Bool.false_eq_true, if_false, false_and, or_false]
    omega
  | true =>
    simp only [Bool.true_and, decide_eq_true_eq, true_and]
    split <;> omega

/-- Of the ink, an optional that its parent made room for takes its own tokens and what stands
around a delimiter along. -/
theorem Aligned.not_mem_cutOptional {rule : OptionalRule}
    (hplace : rule.placement = .spaced) (hr : doc.range? optional = some range) :
    l ∉ (doc.cutOptional rule optional range).order ↔ l ∈ doc.coveredLeaves optional ∨
      ∃ mark ∈ doc.slotMark? optional, l ∈ doc.leavesIn (doc.trivia (.leaf mark)) := by
  have hthin := (Thinned.refl h.tree).closeRoom optional
  have hmid := hthin.aligned h
  have hshown := h.visibleLeaves_closeRoom optional
  obtain ⟨r, hr⟩ : ∃ r, (doc.closeRoom optional).range? optional = some r := by
    refine Option.ne_none_iff_exists'.1 fun hnone => ?_
    rw [range?_eq_none, hshown, ← range?_eq_none, hr] at hnone
    cases hnone
  rw [cutOptional, hplace]
  dsimp only
  rw [hr, ← h.not_mem_closeRoom optional hl hink]
  dsimp only
  by_cases hm : l ∈ (doc.closeRoom optional).order
  · have hcovered : (doc.closeRoom optional).leavesIn r =
        (doc.closeRoom optional).coveredLeaves optional := by rw [coveredLeaves, hr]
    rw [not_mem_cut hmid.tree.order_nodup hm, hcovered, or_iff_left (not_not.2 hm)]
    refine ⟨fun hc => hthin.coveredLeaves_subset h _ hc, fun hc => ?_⟩
    rw [mem_coveredLeaves h.tree.order_nodup (h.visible _)] at hc
    rw [mem_coveredLeaves hmid.tree.order_nodup (hmid.visible _), hshown]
    obtain ⟨x, hx, y, hy, hxl, hly⟩ := hc
    have hin : ∀ {z}, z ∈ doc.visibleLeaves optional →
        z ∈ (doc.closeRoom optional).order := fun hz => (mem_visibleLeaves.1 (hshown ▸ hz)).2
    exact ⟨x, hx, y, hy,
      hxl.imp_right fun hb => hb.of_sublist h.tree.order_nodup hthin.order (hin hx) hm,
      hly.imp_right fun hb => hb.of_sublist h.tree.order_nodup hthin.order hm (hin hy)⟩
  · exact iff_of_true (fun hc => hm ((cut_sublist ..).subset hc)) (.inr hm)

/-- Of the ink, an optional takes its own tokens, a delimiter and the bystanders along. -/
theorem Aligned.not_mem_clearOptional (rule : OptionalRule) (optional : Branch) :
    l ∉ (doc.clearOptional rule optional).order ↔ l ∈ doc.coveredLeaves optional ∨
      doc.departingMark? rule optional = some l ∨ l ∈ doc.bystanders rule optional := by
  have hn := h.tree.order_nodup
  cases hr : doc.range? optional with
  | none =>
    have hsame : (doc.clearOptional rule optional).order = doc.order := by
      rw [Document.clearOptional, hr]
      rfl
    have hcovered : doc.coveredLeaves optional = [] := by rw [coveredLeaves, hr]
    have hmark : doc.departingMark? rule optional = none := by simp [departingMark?, hr]
    have hbystanders : doc.bystanders rule optional = [] := by
      rw [bystanders, hr, hmark]
      cases rule.placement <;> rfl
    simp [hsame, hcovered, hmark, hbystanders, hl]
  | some range =>
    have hsame : (doc.clearOptional rule optional).order =
        (doc.cutOptional rule optional range).order := by
      rw [Document.clearOptional, hr]
      rfl
    have hclause : l ∉ (doc.cut (doc.clauseSpan range)).order ↔
        l ∈ doc.coveredLeaves optional ∨ doc.opensLine range ∧
          doc.order[doc.layout.expandRight range.stop]? = some l :=
      (not_mem_cut hn hl).trans (h.mem_clauseSpan hl hink hr)
    rw [hsame, cutOptional, departingMark?, bystanders, hr]
    cases hplace : rule.placement with
    | multiline =>
      dsimp only
      rw [hclause]
      cases doc.opensLine range <;> simp
    | trailingInline =>
      dsimp only
      rw [hclause]
      cases doc.opensLine range <;> simp
    | adjacent =>
      dsimp only
      rw [not_mem_cut hn hl, coveredLeaves, hr]
      simp
    | spaced =>
      have hmark : doc.departingMark? rule optional = doc.slotMark? optional := by
        simp [departingMark?, hplace, hr]
      have hcut := h.not_mem_cutOptional hl hink hplace hr
      rw [cutOptional, hplace] at hcut
      dsimp only at hcut ⊢
      rw [hcut, hmark, if_pos ⟨rfl, rfl⟩]
      refine or_congr_right ?_
      cases hfound : doc.slotMark? optional with
      | none => simp
      | some mark =>
        simp only [Option.mem_def, Option.some.injEq, exists_eq_left', Option.toList_some,
          flatMap_singleton, h.mem_around_leaf hl mark]

end

end Document

/-- An optional that is made absent takes its own tokens, white space and, out of a tuple, one
delimiter along, and every other token stays with its text where it was. Of the ink, only the
bystanders are no part of that. -/
theorem Edit.ink_clearOptional {doc : Document} {optional : Branch} {rule : OptionalRule}
    (h : doc.IsTree) (ho : doc.Ordered) (hrule : doc.optionalRule? optional = some rule) :
    ∃ after, (Edit.clearOptional optional).run doc = .ok () after ∧ after.order <+ doc.order ∧
      (∀ l ∈ doc.order, after.textOf l = doc.textOf l) ∧
      after.ink = doc.ink.filter (fun l => !(doc.coveredLeaves (.branch optional) ++
        (doc.departingMark? rule optional).toList ++ doc.bystanders rule optional).contains l) ∧
      ∀ mark, doc.departingMark? rule optional = some mark → ∃ tuple delimiter,
        doc.parent (.branch optional) = some tuple ∧ doc.shapeOf tuple = .tuple delimiter ∧
          doc.textOf mark = delimiter := by
  have haligned : doc.Aligned := ⟨h, ho⟩
  have hthin := (Document.Thinned.refl h).clearOptional rule optional
  have hev : Document.Grows doc (doc.clearOptional rule optional) :=
    (Document.Evolves.refl h.linked).clearOptional rule optional
  have htext : ∀ l ∈ doc.order, (doc.clearOptional rule optional).textOf l = doc.textOf l :=
    fun l hl => hev.textOf l (h.order_has l hl)
  refine ⟨doc.clearOptional rule optional, ?_, hthin.order, htext, ?_, fun mark hmark => ?_⟩
  · simp [clearOptional, optionalRule, hrule]
  · refine Document.ink_of_sublist h.order_nodup hthin.order htext fun l hl hink => ?_
    rw [haligned.not_mem_clearOptional hl hink, List.mem_append, List.mem_append,
      Option.mem_toList, or_assoc]
  · rw [Document.departingMark?] at hmark
    split at hmark
    · obtain ⟨tuple, delimiter, hp, hshape, htext, -⟩ := Document.exists_of_slotMark? hmark
      exact ⟨tuple, delimiter, hp, hshape, htext⟩
    · cases hmark

/-- A clause on a line of its own takes the token behind it along in place of a break. -/
theorem Edit.ink_clearOptional_clause :
    let start : Builder := { grammar := .python, source := "x\ny z" }
    let calls : List Builder.Call :=
      [.openNode .ifStatement, .token "x", .openNode .elseClauseOptional, .openNode .elseClause,
        .token "y", .closeNode, .closeNode, .token "z", .closeNode]
    ∃ doc rule, (start.run calls).finish = .ok doc ∧ doc.IsTree ∧ doc.Ordered ∧
      doc.optionalRule? ⟨1⟩ = some rule ∧ doc.ink = [⟨0⟩, ⟨2⟩, ⟨4⟩] ∧
      doc.coveredLeaves (.branch ⟨1⟩) = [⟨2⟩] ∧ doc.departingMark? rule ⟨1⟩ = none ∧
      doc.bystanders rule ⟨1⟩ = [⟨4⟩] ∧
      ∃ after, (Edit.clearOptional ⟨1⟩).run doc = .ok () after ∧ after.ink = [⟨0⟩] := by
  intro start calls
  let doc := (start.run calls).built
  let rule : OptionalRule := { element := .elseClause, placement := .multiline }
  have hfinish : (start.run calls).finish = .ok doc := by decide +kernel
  obtain ⟨htree, hordered⟩ := Builder.isTree_of_run hfinish
  have hrule : doc.optionalRule? ⟨1⟩ = some rule := by decide +kernel
  obtain ⟨after, hrun, -, -, hink, -⟩ := ink_clearOptional htree hordered hrule
  refine ⟨doc, rule, hfinish, htree, hordered, hrule, by decide +kernel, by decide +kernel,
    by decide +kernel, by decide +kernel, after, hrun, hink.trans ?_⟩
  decide +kernel

end Lossless
