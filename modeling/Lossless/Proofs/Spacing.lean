import Lossless.Proofs.FreeLines
import Lossless.Proofs.Lowering

/-! Lines between the neighbours of a padded list. An element that comes in on lines of its own gets
the blank lines that it and its neighbours ask for, and so do the neighbours of one that goes. -/

namespace Lossless

open List Layout Forest Text

theorem infix_neighbours {α : Type} [DecidableEq α] {xs ys : List α} {a e : α}
    (hn : (xs ++ a :: ys).Nodup) : ([e, a] <:+: xs ++ a :: ys → xs.getLast? = some e) ∧
      ([a, e] <:+: xs ++ a :: ys → ys.head? = some e) := by
  have hout : ∀ us vs : List α, (us ++ a :: vs).Nodup → a ∉ us := fun us vs hn hm =>
    (nodup_cons.1 (nodup_middle.1 hn)).1 (mem_append_left _ hm)
  have hsplit : ∀ us vs, us ++ a :: vs = xs ++ a :: ys → us = xs ∧ vs = ys := by
    intro us vs he
    have hlen := congrArg (idxOf? a) he
    rw [idxOf?_append_cons (hout us vs (he ▸ hn)), idxOf?_append_cons (hout xs ys hn)] at hlen
    exact (append_inj he (Option.some.inj hlen)).imp_right fun h => (cons.inj h).2
  refine ⟨fun ⟨us, vs, he⟩ => ?_, fun ⟨us, vs, he⟩ => ?_⟩
  · rw [← (hsplit (us ++ [e]) vs (by simpa using he)).1, getLast?_concat]
  · rw [← (hsplit us (e :: vs) (by simpa using he)).2, head?_cons]

theorem Before.trans {α : Type} [DecidableEq α] {order : List α} {x y z : α} (hn : order.Nodup)
    (h : Before order x y) (h' : Before order y z) : Before order x z := by
  obtain ⟨i, hi⟩ := exists_idxOf? (h.subset (by simp) : x ∈ order)
  obtain ⟨j, hj⟩ := exists_idxOf? h.mem_right
  obtain ⟨k, hk⟩ := exists_idxOf? h'.mem_right
  exact before_of_lt hi hk ((lt_of_before hn h hi hj).trans (lt_of_before hn h' hj hk))

namespace Layout

variable {ts : Layout} {i j n : Nat}

theorem lt_of_lineOf_lt (h : ts.lineOf i < ts.lineOf j) : i < j := by
  by_contra hle
  exact absurd (ts.lineOf_mono (Nat.le_of_not_lt hle)) (Nat.not_le.2 h)

theorem exists_break_of_lineOf_lt (hj : j < ts.length) (h : ts.lineOf i < ts.lineOf j) :
    ∃ k, ts[k]? = some lineBreak ∧ i ≤ k ∧ k < j ∧ ts.lineOf k = ts.lineOf i := by
  have hij := lt_of_lineOf_lt h
  have hle : afterBreaks (ts.lineOf i + 1) ts ≤ j := afterBreaks_le h
  have hlt := lt_afterBreaks (n := ts.lineOf i + 1) (hij.trans hj) (Nat.lt_succ_self _)
  obtain ⟨k, hk, hline, hnext⟩ := exists_break_of_afterBreaks (Nat.zero_lt_of_lt hlt)
    (hle.trans_lt hj)
  exact ⟨k, hk, by omega, by omega, by omega⟩

theorem afterBreaks_lt (hne : ts ≠ []) (h : n < ts.lineCount) :
    afterBreaks n ts < ts.length := by
  have hpos := length_pos_iff.2 hne
  have hle : n ≤ ts.lineOf (ts.length - 1) := by
    rw [lineCount, dropLast_eq_take] at h
    exact Nat.le_of_lt_succ h
  have := afterBreaks_le hle
  omega

theorem lineOf_lineStart (hi : i ≤ ts.length) : ts.lineOf (ts.lineStart i) = ts.lineOf i := by
  have hnone : (lastLine (ts.take i)).countP isBreak = 0 := by
    rw [lastLine, countP_reverse, countP_eq_zero]
    intro t ht
    simpa using all_eq_true.1 (all_takeWhile (l := (ts.take i).reverse)) t ht
  obtain ⟨front, hfront⟩ := lastLine_suffix (ts.take i)
  have hlen := congrArg length hfront
  rw [length_append, length_take_of_le hi] at hlen
  have htake : ts.take (ts.lineStart i) = front := by
    have hle := ts.lineStart_le i
    rw [← Nat.min_eq_left hle, ← take_take, ← hfront, lineStart_eq hi,
      take_left' (by omega)]
  rw [lineOf, lineOf, htake, ← hfront, breaks, breaks, countP_append, hnone, Nat.add_zero]

end Layout

namespace Document

variable {doc low base fragment laid mid : Document} {rule : ListRule}
  {list added element left right : Branch} {node : Node} {x y z w b : Leaf} {p n i j line : Nat}
  {r s lines : Span}

/-! ### Nodes on lines of their own -/

/-- A node ends above the line on which another one starts. A break at its end counts as the start
of the next line. -/
def EndsAbove (doc : Document) (left right : Branch) : Prop :=
  ∃ r ∈ doc.range? left, ∃ s ∈ doc.range? right,
    doc.layout.lineOf r.stop < doc.layout.lineOf s.start

instance (doc : Document) (left right : Branch) : Decidable (doc.EndsAbove left right) :=
  inferInstanceAs (Decidable (∃ _ ∈ _, _))

def Parted (doc : Document) (x y : Leaf) : Prop :=
  ∃ b, Layout.isBreak (doc.textOf b) = true ∧ Before doc.order x b ∧ Before doc.order b y

theorem range_start_lt (hr : doc.range? node = some r) : r.start < doc.layout.length := by
  obtain ⟨_, _, _, -, -, hi, -⟩ := exists_of_range? hr
  rw [layout, length_map]
  exact idxOf?_lt_length hi

theorem exists_break_of_lineOf_lt (hn : doc.order.Nodup) (hj : j < doc.layout.length)
    (h : doc.layout.lineOf i < doc.layout.lineOf j) :
    ∃ b k, isBreak (doc.textOf b) = true ∧ doc.position? b = some k ∧ i ≤ k ∧ k < j ∧
      doc.layout.lineOf k = doc.layout.lineOf i := by
  obtain ⟨k, hk, hle⟩ := Layout.exists_break_of_lineOf_lt hj h
  rw [layout, getElem?_map, Option.map_eq_some_iff] at hk
  obtain ⟨b, hb, htext⟩ := hk
  exact ⟨b, k, by rw [htext]; rfl, idxOf?_of_getElem? hn hb, hle⟩

theorem EndsAbove.parted (h : doc.EndsAbove left right) (hn : doc.order.Nodup) :
    ∃ x y, doc.lastLeaf? left = some x ∧ doc.firstLeaf? right = some y ∧
      doc.Parted x y := by
  obtain ⟨r, hr, s, hs, hlt⟩ := h
  obtain ⟨b, k, hbreak, hb, hle, hks, -⟩ := exists_break_of_lineOf_lt hn (range_start_lt hs) hlt
  obtain ⟨_, x, i, -, hx, -, hi, hstop⟩ := exists_of_range? hr
  obtain ⟨y, _, _, hy, -, hj, -⟩ := exists_of_range? hs
  exact ⟨x, y, hx, hy, b, hbreak, before_of_lt hi hb (by omega), before_of_lt hb hj hks⟩

theorem Parted.lineOf_lt (h : doc.Parted x y) (hn : doc.order.Nodup)
    (hi : doc.position? x = some i) (hj : doc.position? y = some j) :
    doc.layout.lineOf (i + 1) < doc.layout.lineOf j := by
  obtain ⟨b, hbreak, hxb, hby⟩ := h
  obtain ⟨k, hk⟩ := exists_position hxb.mem_right
  have hsucc := lineOf_succ (layout_getElem? (getElem?_of_idxOf? hk))
  rw [if_pos hbreak] at hsucc
  have hmono := doc.layout.lineOf_mono (show i + 1 ≤ k from lt_of_before hn hxb hi hk)
  have hmono' := doc.layout.lineOf_mono (show k + 1 ≤ j from lt_of_before hn hby hk hj)
  omega

theorem Parted.endsAbove (h : doc.Parted x y) (hn : doc.order.Nodup)
    (hx : doc.lastLeaf? left = some x) (hy : doc.firstLeaf? right = some y) :
    doc.EndsAbove left right := by
  obtain ⟨r, hr⟩ := exists_range? (mem_of_getLast? hx)
  obtain ⟨s, hs⟩ := exists_range? (mem_of_head? hy)
  obtain ⟨_, x', i, -, hx', -, hi, hstop⟩ := exists_of_range? hr
  obtain ⟨y', _, _, hy', -, hj, -⟩ := exists_of_range? hs
  cases hx.symm.trans hx'
  cases hy.symm.trans hy'
  exact ⟨r, hr, s, hs, hstop ▸ h.lineOf_lt hn hi hj⟩

theorem Parted.cutLines (h : doc.Parted x y) (hd : doc.IsTree) (hx : x ∈ doc.ink)
    (hy : y ∈ doc.ink) (hblank : ∀ l ∈ doc.leavesIn (doc.layout.linesTokens lines),
      isBlank (doc.textOf l) = true) : (doc.cutLines lines).Parted x y := by
  have hn := hd.order_nodup
  have hretains : Retains doc (doc.cutLines lines) [] := hd.retains_cut fun l hl =>
    Or.inl (hblank l hl)
  have hx' := hretains.kept x hx not_mem_nil
  have hy' := hretains.kept y hy not_mem_nil
  obtain ⟨i, hi⟩ := exists_position (mem_ink.1 hx).1
  obtain ⟨j, hj⟩ := exists_position (mem_ink.1 hy).1
  have hlen : j < doc.layout.length := by
    rw [layout, length_map]
    exact idxOf?_lt_length hj
  -- the break that ends the line of the first token stays with it
  have hline : doc.layout.lineOf (i + 1) = doc.layout.lineOf i := by
    simp [lineOf_succ (layout_getElem? (getElem?_of_idxOf? hi)),
      isBreak_of_ink (mem_ink.1 hx).2]
  obtain ⟨b, k, hbreak, hb, hik, hkj, hsame⟩ :=
    exists_break_of_lineOf_lt hn hlen (h.lineOf_lt hn hi hj)
  have hkept : b ∈ (doc.cutLines lines).order := by
    have hout := (mem_cut_iff hn hi).1 hx'
    rw [Document.cutLines, mem_cut_iff hn hb]
    rcases Nat.lt_or_ge (doc.layout.lineOf i) lines.start with habove | hbelow
    · left
      have hafter : k < (doc.layout.lineTokens lines.start).start :=
        lt_afterBreaks (by omega) (by omega)
      unfold linesTokens
      split <;> exact hafter
    · right
      have hbefore : (doc.layout.lineTokens lines.start).start ≤ i := afterBreaks_le hbelow
      have hstart : (doc.layout.linesTokens lines).start ≤ i := by
        unfold linesTokens
        split <;> exact hbefore
      omega
  have hsub : (doc.cutLines lines).order <+ doc.order := cut_sublist ..
  exact ⟨b, hbreak, (before_of_lt hi hb (by omega)).of_sublist hn hsub hx' hkept,
    (before_of_lt hb hj hkj).of_sublist hn hsub hkept hy'⟩

theorem Parted.withoutPadding (h : doc.Parted x y) (hd : doc.IsTree) (hx : x ∈ doc.ink)
    (hy : y ∈ doc.ink) (rule : ListRule) (list element : Branch) :
    (doc.withoutPadding rule list element).Parted x y := by
  refine (keeps_withoutPadding (P := fun d => d.IsTree ∧ x ∈ d.ink ∧ y ∈ d.ink ∧ d.Parted x y)
    ⟨hd, hx, hy, h⟩ (fun d lines hd hblank => ?_) rule list element).2.2.2
  obtain ⟨hd, hx, hy, h⟩ := hd
  have hretains : Retains d (d.cutLines lines) [] := hd.retains_cut fun l hl =>
    Or.inl (hblank l hl)
  exact ⟨hretains.tree, mem_ink.2 ⟨hretains.kept x hx not_mem_nil, (mem_ink.1 hx).2⟩,
    mem_ink.2 ⟨hretains.kept y hy not_mem_nil, (mem_ink.1 hy).2⟩, h.cutLines hd hx hy hblank⟩

/-! ### Blank lines that come in -/

theorem linesBetween?_of_ranges (hr : doc.range? left = some r)
    (hs : doc.range? right = some s) : doc.linesBetween? left right =
      some (doc.layout.lineOf s.start - (doc.layout.lineOf r.stop + 1)) := by
  rw [linesBetween?, lines?_of_range? hr, lines?_of_range? hs]
  rfl

namespace Lowered

variable (h : Lowered doc low p n) (hl : .branch left ∈ doc.children list)
  (hr : .branch right ∈ doc.children list)
include h

theorem lines_eq (hn : node ∈ doc.children list) (hs : doc.range? node = some s) :
    ∃ s', low.range? node = some s' ∧ (s.start < s.stop → s'.start < s'.stop) ∧
      low.layout.lineOf s'.start = doc.layout.lineOf s.start + (if s.start < p then 0 else n) ∧
      low.layout.lineOf s'.stop = doc.layout.lineOf s.stop + if s.stop ≤ p then 0 else n := by
  obtain ⟨_, _, j, -, -, -, -, hstop⟩ := exists_of_range? hs
  have hrange := h.tracks.range?_eq hn
  rw [hs, Option.map_some] at hrange
  refine ⟨_, hrange, fun hlt => ?_, ?_, ?_⟩
  · exact Nat.lt_succ_of_le (pushed_mono (by omega))
  all_goals rw [h.layout_eq]; unfold pushed
  · split
    · next hlt => rw [lineOf_lowered_above h.le hlt.le, Nat.add_zero]
    · next hge => exact lineOf_lowered_below h.le (Nat.le_of_not_lt hge) n
  · dsimp only
    rw [hstop, Nat.add_sub_cancel]
    by_cases hlt : j < p
    · rw [if_pos hlt, if_pos (Nat.succ_le_of_lt hlt), lineOf_lowered_above h.le hlt]
      rfl
    · rw [if_neg hlt, if_neg (by omega), Nat.add_right_comm,
        lineOf_lowered_below h.le (by omega)]

theorem listElements_eq (rule : ListRule) (list : Branch) :
    low.listElements rule list = doc.listElements rule list := by
  have hforest := h.relaid.retexted
  simp only [listElements, branches, hforest.children, hforest.kindOf]

include hl hr

theorem endsAbove (ha : doc.EndsAbove left right) : low.EndsAbove left right := by
  obtain ⟨r, hr', s, hs', hlt⟩ := ha
  obtain ⟨r', hr'', -, -, hstop⟩ := h.lines_eq hl hr'
  obtain ⟨s', hs'', -, hstart, -⟩ := h.lines_eq hr hs'
  refine ⟨r', hr'', s', hs'', ?_⟩
  have hle := lt_of_lineOf_lt hlt
  rw [hstart, hstop]
  split <;> split <;> omega

theorem linesBetween?_eq (hr' : doc.range? left = some r)
    (hs' : doc.range? right = some s) (hside : r.stop ≤ p ↔ s.start < p) :
    low.linesBetween? left right = doc.linesBetween? left right := by
  obtain ⟨r', hr'', -, -, hstop⟩ := h.lines_eq hl hr'
  obtain ⟨s', hs'', -, hstart, -⟩ := h.lines_eq hr hs'
  rw [linesBetween?_of_ranges hr'' hs'', linesBetween?_of_ranges hr' hs', hstart, hstop]
  congr 1
  simp only [hside]
  split <;> omega

end Lowered

/-- Neighbours that are separated get the lines that they ask for, if they do not have them. The
breaks come in between them. -/
theorem exists_separate (h : doc.IsTree) (hleft : left ∈ doc.listElements rule list)
    (hright : right ∈ doc.listElements rule list) (ha : doc.EndsAbove left right) :
    ∃ p n, Lowered doc (doc.separate rule list left right false) p n ∧
      (∀ r ∈ doc.range? left, r.stop ≤ p) ∧
      (∀ s ∈ doc.range? right, p ≤ s.start) ∧
      (doc.separate rule list left right false).linesBetween? left right =
        (doc.linesBetween? left right).map (max (doc.leastBetween rule list left right)) := by
  obtain ⟨r, hr, s, hs, hlt⟩ := ha
  have hlen := (range_start_lt hs).le
  let p := doc.layout.lineStart s.start
  let n := doc.leastBetween rule list left right -
    (doc.layout.lineOf s.start - (doc.layout.lineOf r.stop + 1))
  have hsep : doc.separate rule list left right false = doc.insertBreaks p n := by
    rw [separate, if_neg (by simp [(mem_listElements.1 hleft).2, (mem_listElements.1 hright).2])]
    simp only [lines?_of_range? hr, lines?_of_range? hs, Option.mem_def.1 hs]
    rfl
  have hlow : Lowered doc (doc.separate rule list left right false) p n := hsep ▸
    lowered_insertBreaks h ((doc.layout.lineStart_le _).trans hlen) (opens_lineStart hlen) n
  have hrp : r.stop ≤ p := by
    by_contra hle
    have hmono := doc.layout.lineOf_mono (Nat.le_of_not_le hle)
    rw [lineOf_lineStart hlen] at hmono
    omega
  have hps : p ≤ s.start := doc.layout.lineStart_le _
  refine ⟨p, n, hlow, fun r' hr' => ?_, fun s' hs' => ?_, ?_⟩
  · cases hr.symm.trans hr'
    exact hrp
  · cases hs.symm.trans hs'
    exact hps
  · obtain ⟨r', hr', -, -, hstop⟩ := hlow.lines_eq (mem_listElements.1 hleft).1 hr
    obtain ⟨s', hs', -, hstart, -⟩ := hlow.lines_eq (mem_listElements.1 hright).1 hs
    rw [linesBetween?_of_ranges hr' hs', linesBetween?_of_ranges hr hs, hstart, hstop, if_pos hrp,
      if_neg (by omega), Option.map_some]
    congr 1
    omega

/-! ### Padding around an element -/

/-- What padding leaves between two neighbours: the lines that were there, or as many as they ask
for. -/
def Spaced (doc after : Document) (rule : ListRule) (list left right : Branch) : Prop :=
  ∃ gap, doc.linesBetween? left right = some gap ∧
    after.linesBetween? left right = some (max (after.leastBetween rule list left right) gap)

theorem EndsAbove.linesBetween? (h : doc.EndsAbove left right) :
    ∃ gap, doc.linesBetween? left right = some gap := by
  obtain ⟨r, hr, s, hs, -⟩ := h
  exact ⟨_, linesBetween?_of_ranges hr hs⟩

/-- Items of a list that are separated: elements get lines between them, and a comment stays where
it is. -/
theorem separate_cases_of_item (h : doc.IsTree)
    (hleft : left ∈ doc.listElements rule list ∨ rule.accepts (doc.kindOf left) = false)
    (hright : right ∈ doc.listElements rule list ∨ rule.accepts (doc.kindOf right) = false)
    (ha : left ∈ doc.listElements rule list → right ∈ doc.listElements rule list →
      doc.EndsAbove left right) :
    ∃ p n, Lowered doc (doc.separate rule list left right false) p n ∧
      (∀ s ∈ doc.range? right, p ≤ s.start) ∧
      ((∀ r ∈ doc.range? left, r.stop ≤ p) ∨
        doc.separate rule list left right false = doc) ∧
      (left ∈ doc.listElements rule list → right ∈ doc.listElements rule list →
        doc.Spaced (doc.separate rule list left right false) rule list left right) := by
  by_cases hboth : left ∈ doc.listElements rule list ∧ right ∈ doc.listElements rule list
  · obtain ⟨p, n, hlow, hl, hr, hlines⟩ := exists_separate h hboth.1 hboth.2 (ha hboth.1 hboth.2)
    obtain ⟨gap, hgap⟩ := (ha hboth.1 hboth.2).linesBetween?
    refine ⟨p, n, hlow, hr, Or.inl hl, fun _ _ => ⟨gap, hgap, ?_⟩⟩
    rw [hlines, hgap, hlow.leastBetween_eq hboth.1]
    rfl
  · have hsame : doc.separate rule list left right false = doc := by
      rw [separate, if_pos]
      rcases hleft with hleft | hleft
      · simp [hright.resolve_left fun hr => hboth ⟨hleft, hr⟩]
      · simp [hleft]
    rw [hsame]
    exact ⟨0, 0, lowered_insertBreaks h (Nat.zero_le _) rfl 0, fun _ _ => Nat.zero_le _, Or.inr rfl,
      fun hl hr => absurd ⟨hl, hr⟩ hboth⟩

theorem shown_of_mem_elementsAndComments {b : Branch} (h : b ∈ doc.elementsAndComments rule list) :
    doc.visibleLeaves (.branch b) ≠ [] := by
  intro hnil
  have hplaced : ∀ bs : List Branch, ∀ item ∈ bs.filterMap fun b =>
      (doc.range? (.branch b)).map fun r => (r, b), item.2 ≠ b := by
    rintro bs item hitem rfl
    obtain ⟨c, -, hc⟩ := mem_filterMap.1 hitem
    obtain ⟨r, hr, rfl⟩ := Option.map_eq_some_iff.1 hc
    rw [range?_eq_none.2 hnil] at hr
    cases hr
  obtain ⟨item, hitem, hb⟩ := mem_map.1 h
  rcases mem_append.1 (mem_mergeSort.1 hitem) with hitem | hitem
  · exact hplaced _ item hitem hb
  · exact hplaced _ item (mem_of_mem_filter hitem) hb

section

variable (h : doc.IsTree) (hc : doc.ListsComments) (haccepts : rule.accepts .comment = false)
  (hadded : added ∈ doc.listElements rule list)
  (hlt : ∀ e ∈ doc.listElements rule list, ∀ r ∈ doc.range? e, r.start < r.stop)
  (hsides : ∀ e ∈ doc.listElements rule list, e ≠ added → doc.visibleLeaves e ≠ [] →
    doc.EndsAbove e added ∨ doc.EndsAbove added e)
include h hc haccepts hadded hlt hsides

/-- Padding gives an element that shares no line with the others the blank lines that it and its
neighbours ask for. -/
theorem spaced_padAround (he : element ∈ doc.listElements rule list) :
    let after := doc.padAround rule list added false
    ([element, added] <:+: doc.elementsAndComments rule list →
      doc.Spaced after rule list element added) ∧
    ([added, element] <:+: doc.elementsAndComments rule list →
      doc.Spaced after rule list added element) := by
  intro after
  obtain ⟨hnodup, hitems⟩ := elementsAndComments_spec h.linked hc haccepts list
  have hsorted := pairwise_elementsAndComments doc rule list
  by_cases hmem : added ∈ doc.elementsAndComments rule list
  swap
  · exact ⟨fun hin => absurd (hin.subset (by simp)) hmem,
      fun hin => absurd (hin.subset (by simp)) hmem⟩
  obtain ⟨xs, ys, heq⟩ := append_of_mem hmem
  have hpad := padAround_of_split heq
  rw [heq] at hnodup hitems hsorted ⊢
  obtain ⟨hxs, hys⟩ : added ∉ xs ∧ added ∉ ys := by
    simpa using (nodup_cons.1 (nodup_middle.1 hnodup)).1
  obtain ⟨-, hbehind, hbefore⟩ := pairwise_append.1 hsorted
  have hchild : ∀ {e}, e ∈ doc.listElements rule list → .branch e ∈ doc.children list := fun he =>
    (mem_listElements.1 he).1
  have hshown : ∀ e, e ∈ xs ∨ e ∈ ys → doc.visibleLeaves e ≠ [] := fun e hm =>
    shown_of_mem_elementsAndComments (heq ▸ mem_append.2 (hm.imp_right (.tail _)))
  have hleft : ∀ e ∈ doc.listElements rule list, e ∈ xs → doc.EndsAbove e added := by
    intro e he hm
    refine (hsides e he (fun heq => hxs (heq ▸ hm)) (hshown e (Or.inl hm))).resolve_right
      fun ⟨a, ha, s, hs, hline⟩ => ?_
    have hle := hbefore e hm added mem_cons_self s hs a ha
    have := hlt added hadded a ha
    have := lt_of_lineOf_lt hline
    omega
  have hright : ∀ e ∈ doc.listElements rule list, e ∈ ys → doc.EndsAbove added e := by
    intro e he hm
    refine (hsides e he (fun heq => hys (heq ▸ hm)) (hshown e (Or.inr hm))).resolve_left
      fun ⟨r, hr, a, ha, hline⟩ => ?_
    have hle := (pairwise_cons.1 hbehind).1 e hm a ha r hr
    have := hlt e he r hr
    have := lt_of_lineOf_lt hline
    omega
  obtain ⟨above, habove⟩ : ∃ above, above = xs.getLast?.elim doc fun left =>
    doc.separate rule list left added false := ⟨_, rfl⟩
  obtain ⟨p, n, hlow, hp, hspaced⟩ : ∃ p n, Lowered doc above p n ∧
      (∀ a ∈ doc.range? added, p ≤ a.start) ∧ ∀ e ∈ doc.listElements rule list,
        xs.getLast? = some e → doc.Spaced above rule list e added := by
    rw [habove]
    cases hlast : xs.getLast? with
    | none => exact ⟨0, 0, lowered_insertBreaks h (Nat.zero_le _) rfl 0, fun _ _ => Nat.zero_le _,
        fun _ _ hx => by cases hx⟩
    | some left =>
      have hx := mem_of_getLast? hlast
      obtain ⟨p, n, hlow, hp, -, hspaced⟩ := separate_cases_of_item h (hitems left (by simp [hx]))
        (Or.inl hadded) fun hl _ => hleft left hl hx
      exact ⟨p, n, hlow, hp, fun e he heq => Option.some.inj heq ▸ hspaced
        (Option.some.inj heq ▸ he) hadded⟩
  have helements := hlow.listElements_eq rule list
  obtain ⟨q, m, hlow', hq, hspaced'⟩ : ∃ q m, Lowered above after q m ∧
      ((∀ a ∈ above.range? added, a.stop ≤ q) ∨ after = above) ∧
      ∀ e ∈ doc.listElements rule list, ys.head? = some e →
        above.Spaced after rule list added e := by
    rw [show after = _ from hpad hxs false, ← habove]
    cases hhead : ys.head? with
    | none => exact ⟨0, 0, lowered_insertBreaks hlow.relaid.tree (Nat.zero_le _) rfl 0, Or.inr rfl,
        fun _ _ hx => by cases hx⟩
    | some right =>
      have hy := mem_of_head? hhead
      have hitem := hitems right (by simp [hy])
      rw [← helements] at hadded hitem ⊢
      obtain ⟨q, m, hlow', -, hq, hspaced'⟩ := separate_cases_of_item hlow.relaid.tree
        (Or.inl hadded) (hlow.relaid.retexted.kindOf right ▸ hitem) fun _ hr =>
          hlow.endsAbove (hchild (helements ▸ hadded)) (hchild (helements ▸ hr))
            (hright right (helements ▸ hr) hy)
      exact ⟨q, m, hlow', hq, fun e he heq => Option.some.inj heq ▸ hspaced' hadded
        (Option.some.inj heq ▸ he)⟩
  refine ⟨fun hin => ?_, fun hin => ?_⟩
  · have hlast := (infix_neighbours hnodup).1 hin
    obtain ⟨gap, hgap, hlines⟩ := hspaced element he hlast
    refine ⟨gap, hgap, ?_⟩
    rw [hlow'.leastBetween_eq (helements.symm ▸ hadded), ← hlines]
    rcases hq with hq | hsame
    · -- both end above what has been separated below them
      obtain ⟨r, hr, a, ha, hline⟩ := hleft element he (mem_of_getLast? hlast)
      obtain ⟨r', hr', -, -, hstop⟩ := hlow.lines_eq (hchild he) hr
      obtain ⟨a', ha', hpos, hstart, -⟩ := hlow.lines_eq (hchild hadded) ha
      have hbounds := hq a' ha'
      have := hpos (hlt added hadded a ha)
      obtain ⟨r'', hr'', a'', ha'', hline'⟩ :=
        hlow.endsAbove (hchild he) (hchild hadded) ⟨r, hr, a, ha, hline⟩
      cases hr'.symm.trans hr''
      cases ha'.symm.trans ha''
      have := lt_of_lineOf_lt hline'
      rw [← hlow.relaid.retexted.children] at hchild
      exact hlow'.linesBetween?_eq (hchild he) (hchild hadded) hr' ha'
        (iff_of_true (by omega) (by omega))
    · rw [hsame]
  · have hhead := (infix_neighbours hnodup).2 hin
    obtain ⟨gap, hgap, hlines⟩ := hspaced' element he hhead
    refine ⟨gap, ?_, hlines⟩
    obtain ⟨a, ha, s, hs, hline⟩ := hright element he (mem_of_head? hhead)
    have := hp a ha
    have := hlt added hadded a ha
    have := lt_of_lineOf_lt hline
    rw [← hgap]
    exact (hlow.linesBetween?_eq (hchild hadded) (hchild he) ha hs
      (iff_of_false (by omega) (by omega))).symm

end

theorem listElements_padAround (h : doc.Linked) (rule : ListRule) (list added : Branch)
    (isComment : Bool) : (doc.padAround rule list added isComment).listElements rule list =
      doc.listElements rule list := by
  obtain ⟨hev, hkids⟩ := Edit.keeps_padAround
    (P := fun d => Grows doc d ∧ d.children list = doc.children list)
    (fun d p n hd => ⟨hd.1.insertBreaks p n, (children_insertBreaks d p n list).trans hd.2⟩)
    ⟨.refl h, rfl⟩ rule list added isComment
  exact hev.listElements_eq hkids

/-! ### Lines that come in -/

theorem exists_break_endLine (hx : x ∈ doc.endLine.order)
    (hnot : isBreak (doc.endLine.textOf x) = false) :
    ∃ b, isBreak (doc.endLine.textOf b) = true ∧ Before doc.endLine.order x b := by
  rcases eq_nil_or_concat' doc.order with hnil | ⟨front, y, hy⟩
  · have hsame : doc.endLine = doc := by simp [endLine, hnil]
    rw [hsame, hnil] at hx
    cases hx
  · by_cases hbreak : isBreak (doc.textOf y) = true
    · have hsame : doc.endLine = doc := by simp [endLine, endsWithBreak, layout, hy, hbreak]
      rw [hsame] at hx hnot ⊢
      rw [hy, mem_append, mem_singleton] at hx
      rw [hy]
      refine ⟨y, hbreak, before_append (hx.resolve_right ?_) (mem_singleton_self y)⟩
      rintro rfl
      exact Bool.false_ne_true (hnot.symm.trans hbreak)
    · obtain ⟨last, horder, htext⟩ := order_endLine hy (Bool.eq_false_iff.2 hbreak)
      rw [horder, append_cons] at hx ⊢
      refine ⟨last, by rw [htext]; rfl, before_append ((mem_append.1 hx).resolve_right ?_)
        (mem_singleton_self last)⟩
      intro hm
      rw [mem_singleton.1 hm, htext] at hnot
      cases hnot

/-- A document that has taken in the lines of a fragment under a list: they stand in one row, and
the other children of the list show what they showed. -/
structure TakesIn (doc base mid laid : Document) (list added : Branch) (p : Nat) : Prop where
  tree : base.IsTree
  order : base.order.take p ++ (laid.order.map base.rehomeLeaf ++ base.order.drop p) <+ mid.order
  shown : mid.visibleLeaves added =
    (laid.visibleLeaves laid.root).map base.rehomeLeaf
  others : ∀ e, .branch e ∈ doc.children list →
    mid.visibleLeaves (.branch e) = doc.visibleLeaves (.branch e)
  old : ∀ l ∈ base.order, mid.textOf l = base.textOf l
  new : ∀ l ∈ laid.order, mid.textOf (base.rehomeLeaf l) = laid.textOf l

theorem exists_takesIn (h : doc.IsTree)
    (hlist : doc.Has list) (hf : fragment.IsTree)
    (hlines : doc.insertLines rule list line fragment false = (added, mid)) : ∃ base p,
      doc.LinePlace line base p ∧
        TakesIn doc base mid (doc.lineFragment list fragment) list added p := by
  obtain ⟨base, p, hplace, he⟩ := doc.insertLines_element rule list line fragment
  have htree := isTree_insertLines h hlist hf rule line false
  have hlaid := (relaid_lineFragment hf doc list).tree
  have hbase : doc.Relaid base ∧ ∀ l, doc.Has (.leaf l) → (l ∈ base.order ↔ l ∈ doc.order) := by
    rcases hplace.base_eq with rfl | rfl
    · exact ⟨.refl h, fun _ _ => Iff.rfl⟩
    · exact ⟨h.endLine, fun l hl => (endLine_spec hl).2⟩
  refine ⟨base, p, hplace, ?_⟩
  generalize doc.lineFragment list fragment = laid at he hlaid ⊢
  have hhas := fun n hn => hbase.1.retexted.has n hn
  obtain ⟨hgrown, hunseated, hnew⟩ := hbase.1.tree.withTokens (hhas _ hlist) hlaid p
  have hlist' : (base.withTokens p laid).Has list :=
    has_graft_iff.2 (Or.inl (hhas _ hlist))
  have hroot := hunseated.outside _ rfl
  have hkids : (base.withTokens p laid).children list = doc.children list :=
    (children_graft_of_has (hhas _ hlist) laid).trans (hbase.1.retexted.children list)
  have hold : ∀ e, .branch e ∈ doc.children list →
      (base.withTokens p laid).visibleLeaves (.branch e) = doc.visibleLeaves (.branch e) := by
    intro e hchild
    have hleaves := leaves_graft_of_has hbase.1.tree.linked hlaid.linked
      (hhas _ (h.linked.has_child hchild))
    refine .trans ?_ (hbase.1.visibleLeaves_eq h (fun l hl => (hbase.2 l (h.order_has l hl)).2 hl)
      (fun l hl hd => (hbase.2 l hd).1 hl) e)
    rw [visibleLeaves, visibleLeaves, ← hleaves]
    refine filter_insertAt p fun l hl hm => ?_
    obtain ⟨l, -, rfl⟩ := mem_map.1 hl
    have hm : base.rehomeLeaf l ∈ (base.graft laid).2.leaves (.branch e) := hm
    exact not_has_rehome base l (hbase.1.tree.linked.has_of_mem_leaves (hleaves ▸ hm))
  have htexts : (∀ l ∈ base.order, (base.withTokens p laid).Has (.leaf l) ∧
        (base.withTokens p laid).textOf l = base.textOf l) ∧
      ∀ l ∈ laid.order, (base.withTokens p laid).Has (.leaf (base.rehomeLeaf l)) ∧
        (base.withTokens p laid).textOf (base.rehomeLeaf l) = laid.textOf l := by
    refine ⟨fun l hl => ?_, fun l hl => ?_⟩
    · have hl := hbase.1.tree.order_has l hl
      exact ⟨has_graft_iff.2 (Or.inl hl), textOf_graft_of_has hl laid⟩
    · exact ⟨has_graft_iff.2 (Or.inr ⟨_, hlaid.order_has l hl, rfl⟩),
        textOf_graft_rehome base laid l⟩
  have horder : (base.withTokens p laid).order =
      base.order.take p ++ (laid.order.map base.rehomeLeaf ++ base.order.drop p) :=
    append_assoc ..
  generalize base.withTokens p laid = grown at *
  generalize base.rehomeBranch laid.root = root at *
  obtain ⟨after, hafter⟩ : ∃ after, after =
    (grown.placeChild list root).addDelimiter rule list root := ⟨_, rfl⟩
  rw [hlines, ← hafter] at he
  rw [hlines] at htree
  obtain ⟨rfl, rfl⟩ := Prod.mk.inj he
  have hshow : ∀ e, ¬ grown.Around e list →
      after.visibleLeaves (.branch e) = grown.visibleLeaves (.branch e) ∧
        grown.order <+ after.order := by
    intro e hout
    have hlinked : after.Linked := htree.linked
    rw [hafter] at hlinked ⊢
    exact visibleLeaves_placeChild hgrown.linked hlist' hlinked hout
  have htext : ∀ l, grown.Has (.leaf l) → after.textOf l = grown.textOf l := by
    intro l hl
    rw [hafter]
    rcases (grown.placeChild list added).addDelimiter_cases rule list added with
      hd | ⟨q, i, hd⟩ <;> rw [hd]
    · exact textOf_insertChild ..
    · exact (textOf_insertChild ..).trans ((textOf_newToken_of_has
        (has_insertChild.2 hl) _).trans (textOf_insertChild ..))
  refine ⟨hbase.1.tree, horder ▸ (hshow _ hroot).2, (hshow _ hroot).1.trans hnew,
    fun e hchild => ?_, fun l hl => ?_, fun l hl => ?_⟩
  · exact (hshow e (hgrown.linked.not_around_of_child (hkids ▸ hchild))).1.trans (hold e hchild)
  · exact (htext l (htexts.1 l hl).1).trans (htexts.1 l hl).2
  · exact (htext _ (htexts.2 l hl).1).trans (htexts.2 l hl).2

section

variable {base mid laid fragment : Document} {line : Nat} (h : TakesIn doc base mid laid list added p)
  (hplace : doc.LinePlace line base p) (hd : doc.IsTree) (hm : mid.IsTree)
  (he : .branch element ∈ doc.children list) (hr : doc.range? element = some r)
include h hplace hd hm he hr

theorem TakesIn.endsAbove (hline : doc.layout.lineOf r.stop < line)
    (hends : ∀ l ∈ doc.lastLeaf? element, isBreak (doc.textOf l) = false)
    (hshown : mid.visibleLeaves added ≠ []) : mid.EndsAbove element added := by
  obtain ⟨_, x, i, -, hx, -, hi, hstop⟩ := exists_of_range? hr
  obtain ⟨b, hbreak, hxb⟩ : ∃ b, isBreak (base.textOf b) = true ∧
      Before (base.order.take p) x b := by
    rcases hplace with ⟨hcount, rfl, hp⟩ | ⟨-, rfl, rfl⟩
    · have hp : p = afterBreaks line base.layout := hp
      have hp' : p < base.layout.length := hp ▸ afterBreaks_lt
        (ne_nil_of_length_pos (Nat.zero_lt_of_lt (range_start_lt hr))) hcount
      have hlt : base.layout.lineOf r.stop < base.layout.lineOf p := by
        rw [hp, lineOf_afterBreaks (hp ▸ hp')]
        exact hline
      obtain ⟨b, k, hbreak, hb, hrk, hkp, -⟩ := exists_break_of_lineOf_lt hd.order_nodup hp' hlt
      have hmem : ∀ {y j}, base.position? y = some j → j < p → y ∈ base.order.take p := by
        intro y j hj hjp
        refine mem_of_getElem? (i := j) ?_
        rw [getElem?_take_of_lt hjp]
        exact getElem?_of_idxOf? hj
      exact ⟨b, hbreak, (before_of_lt hi hb (by omega)).of_sublist hd.order_nodup
        (take_sublist ..) (hmem hi (by omega)) (hmem hb hkp)⟩
    · have hhas := hd.order_has x (mem_of_idxOf? hi)
      rw [take_length]
      refine exists_break_endLine ((endLine_spec hhas).2.2 (mem_of_idxOf? hi)) ?_
      rw [(endLine_spec hhas).1]
      exact hends x hx
  obtain ⟨y, hy⟩ : ∃ y, mid.firstLeaf? added = some y :=
    Option.isSome_iff_exists.1 (isSome_head?.2 hshown)
  have hfresh : y ∈ laid.order.map base.rehomeLeaf := by
    have hy := mem_of_head? hy
    rw [h.shown] at hy
    obtain ⟨y', hy', rfl⟩ := mem_map.1 hy
    exact mem_map_of_mem (mem_visibleLeaves.1 hy').2
  refine Parted.endsAbove ⟨b, ?_, ?_, ?_⟩ hm.order_nodup
    (by rw [lastLeaf?, h.others element he]; exact hx) hy
  · rw [h.old b (mem_of_mem_take hxb.mem_right)]
    exact hbreak
  · exact (hxb.mono (sublist_append_left ..)).mono h.order
  · exact (before_append hxb.mem_right (mem_append_left _ hfresh)).mono h.order

theorem TakesIn.endsAbove_element (hlaid : laid = fragment.endLine)
    (hline : line ≤ doc.layout.lineOf r.start)
    (hends : ∃ z ∈ mid.lastLeaf? added, isBreak (mid.textOf z) = false) :
    mid.EndsAbove added element := by
  obtain ⟨w, _, _, hw, -, hi, -⟩ := exists_of_range? hr
  obtain ⟨z, hz, hnot⟩ := hends
  have hmem := mem_of_getLast? hz
  rw [h.shown] at hmem
  obtain ⟨z', hz', rfl⟩ := mem_map.1 hmem
  have hz' := (mem_visibleLeaves.1 hz').2
  rw [h.new z' hz'] at hnot
  obtain ⟨nl, hbreak, hbefore⟩ : ∃ b, isBreak (laid.textOf b) = true ∧
      Before laid.order z' b := by
    rw [hlaid] at hz' hnot ⊢
    exact exists_break_endLine hz' hnot
  have hbehind : w ∈ base.order.drop p := by
    rcases hplace with ⟨-, rfl, hp⟩ | ⟨hcount, -⟩
    · have hle : p ≤ r.start := hp ▸ afterBreaks_le hline
      refine mem_of_getElem? (i := r.start - p) ?_
      rw [getElem?_drop, Nat.add_sub_cancel' hle]
      exact getElem?_of_idxOf? hi
    · have := lineOf_lt_lineCount (range_start_lt hr)
      omega
  refine Parted.endsAbove ⟨base.rehomeLeaf nl, ?_, ?_, ?_⟩ hm.order_nodup hz
    (by rw [firstLeaf?, h.others element he]; exact hw)
  · rw [h.new nl hbefore.mem_right]
    exact hbreak
  · exact ((hbefore.map base.rehomeLeaf).trans ((sublist_append_left ..).trans
      (sublist_append_right ..))).trans h.order
  · exact ((before_append (mem_map_of_mem hbefore.mem_right) hbehind).mono
      (sublist_append_right ..)).mono h.order

end

theorem TakesIn.visible
    (h : TakesIn doc base mid laid list added p) (hplace : doc.LinePlace line base p)
    (hd : doc.Aligned) (hlaid : laid.Aligned)
    (he : element = added ∨ .branch element ∈ doc.children list) :
    mid.visibleLeaves element <+ mid.order := by
  rcases he with rfl | he
  · rw [h.shown]
    exact (((hlaid.visible _).map _).trans ((sublist_append_left ..).trans
      (sublist_append_right ..))).trans h.order
  · have hbase : doc.order <+ base.order := by
      rcases hplace.base_eq with rfl | rfl
      · exact .refl _
      · rw [endLine]
        split
        · exact .refl _
        · exact sublist_insertAt ..
    rw [h.others element he]
    refine ((hd.visible _).trans (hbase.trans ?_)).trans h.order
    conv_lhs => rw [← take_append_drop p base.order]
    exact (Sublist.refl _).append (sublist_append_right ..)

theorem apart_of_mem_linesFor (hinline : doc.isInline rule list = false)
    (hline : line ∈ doc.linesFor rule list) (hn : node ∈ doc.children list)
    (hr : doc.range? node = some r) :
    doc.layout.lineOf r.stop < line ∨ line ≤ doc.layout.lineOf r.start := by
  rw [linesFor, hinline, if_neg Bool.false_ne_true] at hline
  have hfree := (mem_filter.1 hline).2
  simp only [Bool.not_eq_true', any_eq_false, Bool.and_eq_true, decide_eq_true_eq] at hfree
  have := hfree _ (mem_filterMap.2 ⟨node, hn, lines?_of_range? hr⟩)
  dsimp only at this
  omega

section

variable {fragment mid : Document} {line : Nat} (h : doc.Aligned) (hlist : doc.Has list)
  (hinline : doc.isInline rule list = false) (hline : line ∈ doc.linesFor rule list)
  (hends : ∀ e ∈ doc.listElements rule list, ∀ l ∈ doc.lastLeaf? e,
    isBreak (doc.textOf l) = false)
  (hf : fragment.Aligned) (haccepts : rule.accepts fragment.rootKind = true)
  (hcomment : rule.accepts .comment = false)
  (hlines : doc.insertLines rule list line fragment false = (added, mid))
  (hshown : ∃ l ∈ mid.lastLeaf? added, isBreak (mid.textOf l) = false)
include h hlist hinline hline hends hf haccepts hcomment hlines hshown

/-- An element that has come in on lines of its own is given the blank lines that it and its
neighbours ask for. -/
theorem Aligned.spaced_insertLines (hleft : left ∈ mid.listElements rule list)
    (hright : right ∈ mid.listElements rule list) (hadded : left = added ∨ right = added)
    (hin : [left, right] <:+: mid.elementsAndComments rule list) :
    mid.Spaced (mid.padAround rule list added false) rule list left right := by
  have henlists := enlists_insertLines hlist hf.tree haccepts h.tree.linked line
  have htree := isTree_insertLines h.tree hlist hf.tree rule line false
  have hlists := listsComments_insertLines doc rule list line fragment false
  obtain ⟨base, p, hplace, htakes⟩ := exists_takesIn h.tree hlist hf.tree hlines
  rw [hlines] at henlists htree hlists
  have hlaid : (doc.lineFragment list fragment).Aligned := (hf.increaseIndent _ _).endLine
  have hvisible : mid.visibleLeaves added ≠ [] := by
    obtain ⟨l, hl, -⟩ := hshown
    exact ne_nil_of_mem (mem_of_getLast? hl)
  have hlt : ∀ e ∈ mid.listElements rule list, ∀ r ∈ mid.range? (.branch e), r.start < r.stop :=
    fun e he r hr => range_nonempty htree.order_nodup (htakes.visible hplace h hlaid
      ((henlists.mem_listElements.1 he).imp_right fun he => (mem_listElements.1 he).1)) hr
  have hsides : ∀ e ∈ mid.listElements rule list, e ≠ added → mid.visibleLeaves (.branch e) ≠ [] →
      mid.EndsAbove e added ∨ mid.EndsAbove added e := by
    intro e he hne hshows
    have hold := (henlists.mem_listElements.1 he).resolve_left hne
    have he := (mem_listElements.1 hold).1
    rw [htakes.others e he] at hshows
    obtain ⟨l, hl⟩ := exists_mem_of_ne_nil _ hshows
    obtain ⟨r, hr⟩ := exists_range? hl
    rcases apart_of_mem_linesFor hinline hline he hr with hlt | hle
    · exact Or.inl (htakes.endsAbove hplace h.tree htree he hr hlt (hends e hold) hvisible)
    · exact Or.inr (htakes.endsAbove_element hplace h.tree htree he hr rfl hle hshown)
  have hmem := henlists.mem_listElements.2 (Or.inl rfl)
  rcases hadded with rfl | rfl
  · exact (spaced_padAround htree hlists hcomment hmem hlt hsides hright).2 hin
  · exact (spaced_padAround htree hlists hcomment hmem hlt hsides hleft).1 hin

end

theorem Aligned.ends_unfolded (h : doc.Aligned)
    (hends : ∀ e ∈ doc.listElements rule list, ∀ l ∈ doc.lastLeaf? (.branch e),
      isBreak (doc.textOf l) = false) :
    ∀ e ∈ (doc.unfolded list).listElements rule list, ∀ l ∈ (doc.unfolded list).lastLeaf? (.branch e),
      isBreak ((doc.unfolded list).textOf l) = false := by
  cases hs : doc.isSqueezed list with
  | false => rwa [Document.unfolded, hs, if_neg Bool.false_ne_true]
  | true =>
    intro e he l hl
    rw [listElements_unfolded] at he
    have hchild := (mem_listElements.1 he).1
    have hwidened := h.tree.widened_unfolded list
    have hmem := hwidened.visibleLeaves_subset hchild (mem_of_getLast? hl)
    have ho := (mem_visibleLeaves.1 hmem).2
    rw [hwidened.evolves.textOf l (h.tree.order_has l ho)]
    -- the brackets of the list and all between them stand on one line
    obtain ⟨i, hi⟩ := exists_position ho
    obtain ⟨r, hr⟩ := exists_range? hmem
    obtain ⟨hlow, hhigh⟩ := mem_range_of_sublist h.tree.order_nodup (h.visible _) hr hmem hi
    obtain ⟨s, hs', hstart, hstop⟩ := h.nested _ list r (h.tree.linked.down hchild) hr
    obtain ⟨hfirst, hlast⟩ := h.range_bounds hs'
    have hsame := lineOf_of_isSqueezed hs
    have hmono := doc.layout.lineOf_mono (hfirst.trans (hstart.trans hlow))
    rw [Bool.eq_false_iff]
    intro hbreak
    have htext := layout_getElem? (getElem?_of_idxOf? hi)
    rw [eq_of_beq hbreak] at htext
    have := lineOf_le_iff_of_break (q := (doc.trivia list).stop) htext
    omega

/-! ### An element that goes -/

theorem EndsAbove.withoutPadding (h : doc.EndsAbove left right) (hd : doc.IsTree)
    (hleft : ∀ l ∈ doc.lastLeaf? left, isBlank (doc.textOf l) = false)
    (hright : ∀ l ∈ doc.firstLeaf? right, isBlank (doc.textOf l) = false)
    (rule : ListRule) (list element : Branch) :
    let d := doc.withoutPadding rule list element
    d.EndsAbove left right ∧ d.lastLeaf? left = doc.lastLeaf? left ∧
      d.firstLeaf? right = doc.firstLeaf? right := by
  intro d
  obtain ⟨x, y, hx, hy, hxy⟩ := h.parted hd.order_nodup
  have hxm := mem_visibleLeaves.1 (mem_of_getLast? hx)
  have hym := mem_visibleLeaves.1 (mem_of_head? hy)
  have hxi := mem_ink.2 ⟨hxm.2, hleft x hx⟩
  have hyi := mem_ink.2 ⟨hym.2, hright y hy⟩
  have hparted : d.Parted x y := hxy.withoutPadding hd hxi hyi rule list element
  have hretains : Retains doc d [] := hd.retains_withoutPadding rule list element
  have hthin : Thinned doc d := thinned_withoutPadding hd rule list element
  have hforest : d.toForest = doc.toForest := (doc.withoutPadding_tables rule list element).1
  have hkept : ∀ l ∈ doc.ink, d.order.contains l = true := fun l hl =>
    contains_iff_mem.2 (hretains.kept l hl not_mem_nil)
  have hold : ∀ l, d.order.contains l = true → doc.order.contains l = true := fun l hl =>
    contains_iff_mem.2 (hthin.order.subset (contains_iff_mem.1 hl))
  have hx' : d.lastLeaf? left = some x := by
    rw [lastLeaf?, visibleLeaves, hforest]
    exact getLast?_filter_of_imp hx (hkept x hxi) hold
  have hy' : d.firstLeaf? right = some y := by
    rw [firstLeaf?, visibleLeaves, hforest]
    exact head?_filter_of_imp hy (hkept y hyi) hold
  exact ⟨hparted.endsAbove hretains.tree.order_nodup hx' hy', hx'.trans hx.symm, hy'.trans hy.symm⟩

theorem mem_detachElement_of_break (h : doc.IsTree)
    (hmark : ∀ l ∈ doc.delimiterOf? rule list element, isBreak (doc.textOf l) = false)
    (hx : isBreak (doc.textOf x) = true) (hy : isBreak (doc.textOf y) = true)
    (hbefore : ∀ l ∈ doc.visibleLeaves element, Before doc.order x l)
    (hbehind : ∀ l ∈ doc.visibleLeaves element, Before doc.order l y)
    (helement : .branch element ∈ doc.children list)
    (hxo : x ∈ doc.order) (hyo : y ∈ doc.order) :
    x ∈ (doc.detachElement rule list element).order ∨
      y ∈ (doc.detachElement rule list element).order := by
  have hthin := (Thinned.refl h).dropMark list (doc.delimiterOf? rule list element)
  have hrewired : doc.Rewired (doc.dropMark list (doc.delimiterOf? rule list element)).toForest
      list := rewired_dropMark _ doc list
  have hleft : ∀ b ∈ doc.order, isBreak (doc.textOf b) = true →
      b ∈ (doc.dropMark list (doc.delimiterOf? rule list element)).order := by
    intro b hb hbreak
    rw [order_dropMark]
    refine mem_filter.2 ⟨hb, ?_⟩
    rw [Bool.not_eq_true', Bool.eq_false_iff, ne_eq, contains_iff_mem, Option.mem_toList]
    intro hm
    exact Bool.false_ne_true ((hmark b hm).symm.trans hbreak)
  rw [detachElement_eq]
  dsimp only
  generalize doc.dropMark list (doc.delimiterOf? rule list element) = dropped at *
  have hn := hthin.tree.order_nodup
  have hleaves := hrewired.leaves_child h.linked hthin.tree.linked helement
  have hin : ∀ l ∈ dropped.visibleLeaves element, l ∈ dropped.order ∧
      l ∈ doc.visibleLeaves element := by
    intro l hl
    obtain ⟨hl, ho⟩ := mem_visibleLeaves.1 hl
    exact ⟨ho, mem_visibleLeaves.2 ⟨hleaves ▸ hl, hthin.order.subset ho⟩⟩
  cases hr : dropped.range? element with
  | none => exact Or.inl (hleft x hxo hx)
  | some r =>
    obtain ⟨first, last, j, hfirst, hlast, hi, hj, hstop⟩ := exists_of_range? hr
    obtain ⟨hfo, hfirst⟩ := hin first (mem_of_head? hfirst)
    obtain ⟨hlo, hlast⟩ := hin last (mem_of_getLast? hlast)
    obtain ⟨a, ha⟩ := exists_position (hleft x hxo hx)
    obtain ⟨c, hc⟩ := exists_position (hleft y hyo hy)
    have hlt := lt_of_before hn ((hbefore first hfirst).of_sublist h.order_nodup hthin.order
      (hleft x hxo hx) hfo) ha hi
    have hlt' := lt_of_before hn ((hbehind last hlast).of_sublist h.order_nodup hthin.order hlo
      (hleft y hyo hy)) hj hc
    show x ∈ (dropped.cut _).order ∨ y ∈ (dropped.cut _).order
    rw [mem_cut_iff hn ha, mem_cut_iff hn hc, widenOneSide]
    dsimp only
    split
    · exact Or.inr (Or.inr (by dsimp only; omega))
    · exact Or.inl (Or.inl hlt)

theorem Aligned.endsAbove_detachElement (h : doc.Aligned)
    (he : .branch element ∈ doc.children list) (hl : .branch left ∈ doc.children list)
    (hr : .branch right ∈ doc.children list) (hle : left ≠ element) (hre : right ≠ element)
    (hleft : doc.EndsAbove left element) (hright : doc.EndsAbove element right)
    (hx : ∀ l ∈ doc.lastLeaf? left, isBlank (doc.textOf l) = false)
    (hw : ∀ l ∈ doc.firstLeaf? right, isBlank (doc.textOf l) = false)
    (hmark : ∀ l ∈ doc.delimiterOf? rule list element, isBreak (doc.textOf l) = false) :
    (doc.detachElement rule list element).EndsAbove left right := by
  have hn := h.tree.order_nodup
  obtain ⟨x, y, hx', hy', b, hb, hxb, hby⟩ := hleft.parted hn
  obtain ⟨z, w, hz', hw', c, hc, hzc, hcw⟩ := hright.parted hn
  have hsub := pairwise_before (h.visible element)
  have hfirst : ∀ l ∈ doc.visibleLeaves element, Before doc.order b l := by
    intro l hl
    obtain ⟨rest, hrest⟩ := head?_eq_some_iff.1 hy'
    rw [hrest] at hl hsub
    rcases mem_cons.1 hl with rfl | hl
    · exact hby
    · exact hby.trans hn ((pairwise_cons.1 hsub).1 l hl)
  have hlast : ∀ l ∈ doc.visibleLeaves element, Before doc.order l c := by
    intro l hl
    obtain ⟨front, hfront⟩ := getLast?_eq_some_iff.1 hz'
    rw [hfront] at hl hsub
    rcases mem_append.1 hl with hl | hl
    · exact ((pairwise_append.1 hsub).2.2 l hl z (mem_singleton_self z)).trans hn hzc
    · exact mem_singleton.1 hl ▸ hzc
  have hy := mem_of_head? hy'
  have hbw := ((hfirst y hy).trans hn (hlast y hy)).trans hn hcw
  have hxc := hxb.trans hn ((hfirst y hy).trans hn (hlast y hy))
  have hretains := h.retains_detachElement rule list element
  have hthin := (Thinned.refl h.tree).detachElement rule list element
  have hstay : ∀ {e l}, .branch e ∈ doc.children list → e ≠ element →
      l ∈ doc.visibleLeaves e → isBlank (doc.textOf l) = false →
      l ∈ (doc.detachElement rule list element).order := by
    intro e l hchild hne hl hink
    obtain ⟨hl, ho⟩ := mem_visibleLeaves.1 hl
    exact hretains.kept l (mem_ink.2 ⟨ho, hink⟩)
      (h.not_mem_departs_of_sibling he hchild hne hl)
  have hxm := hstay hl hle (mem_of_getLast? hx') (hx x hx')
  have hwm := hstay hr hre (mem_of_head? hw') (hw w hw')
  have hleaves := fun {n} hm => (rewired_detachElement doc rule list element).leaves_child (n := n)
    h.tree.linked hthin.tree.linked hm
  have hold : ∀ l, (doc.detachElement rule list element).order.contains l = true →
      doc.order.contains l = true := fun l hl =>
    contains_iff_mem.2 (hthin.order.subset (contains_iff_mem.1 hl))
  have hparted : (doc.detachElement rule list element).Parted x w := by
    have key : ∀ b, isBreak (doc.textOf b) = true → Before doc.order x b →
        Before doc.order b w → b ∈ (doc.detachElement rule list element).order →
        (doc.detachElement rule list element).Parted x w := fun b hb hxb hbw hm =>
      ⟨b, by rwa [textOf_detachElement], hxb.of_sublist hn hthin.order hxm hm,
        hbw.of_sublist hn hthin.order hm hwm⟩
    rcases mem_detachElement_of_break h.tree hmark hb hc hfirst hlast he hxb.mem_right
      hzc.mem_right with hm | hm
    · exact key b hb hxb hbw hm
    · exact key c hc hxc hcw hm
  refine hparted.endsAbove hthin.tree.order_nodup ?_ ?_
  · rw [lastLeaf?, visibleLeaves, hleaves hl]
    exact getLast?_filter_of_imp hx' (contains_iff_mem.2 hxm) hold
  · rw [firstLeaf?, visibleLeaves, hleaves hr]
    exact head?_filter_of_imp hw' (contains_iff_mem.2 hwm) hold

end Document

namespace Edit

open Document

variable {doc fragment after : Document} {rule : ListRule} {list added left right element : Branch}
  {line : Nat}

section

variable (hrule : doc.listRule? list = some rule) (hpadded : rule.isPadded = true)
include hrule hpadded

/-- A padded list on lines takes an element, then the placeholder goes and blank lines come in. -/
theorem run_addAtLine_padded (hinline : doc.isInline rule list = false)
    (h : (addAtLine list line fragment).run doc = .ok added after) : ∃ bare mid,
      (placeAtLine rule list line fragment).run doc = .ok added bare ∧
      (dropPlaceholder rule list (doc.placeholder? rule list)).run bare = .ok () mid ∧
      after = mid.padAround rule list added (fragment.rootKind = .comment) := by
  obtain ⟨bare, mid, hplace, hdrop, hafter⟩ := run_addAtLine_ok hrule hinline h
  exact ⟨bare, mid, hplace, hdrop, hafter.trans (if_pos hpadded)⟩

theorem leastBetween_le_of_removeElement (h : doc.Aligned)
    (hin : [left, element, right] <:+: doc.listElements rule list)
    (hleft : doc.EndsAbove left element) (hright : doc.EndsAbove element right)
    (hlast : ∀ e ∈ [left, element], ∀ l ∈ doc.lastLeaf? (.branch e),
      isBlank (doc.textOf l) = false)
    (hfirst : ∀ e ∈ [element, right], ∀ l ∈ doc.firstLeaf? (.branch e),
      isBlank (doc.textOf l) = false)
    (hmark : ∀ l ∈ doc.delimiterOf? rule list element, isBreak (doc.textOf l) = false) :
    ∃ taken after gap, (removeElement list element).run doc = .ok taken after ∧
      after.linesBetween? left right = some gap ∧ after.leastBetween rule list left right ≤ gap := by
  have hmem : ∀ e ∈ [left, element, right], e ∈ doc.listElements rule list := fun e he => hin.subset he
  have hchild : ∀ e ∈ [left, element, right], .branch e ∈ doc.children list := fun e he =>
    (mem_listElements.1 (hmem e he)).1
  have hnodup := (listElements_nodup h.tree.linked rule list).sublist hin.sublist
  simp only [nodup_cons, mem_cons, not_mem_nil, or_false, not_or] at hnodup
  obtain ⟨⟨hle, -⟩, hre, -⟩ := hnodup
  have hl := hmem left (by simp)
  have he := hmem element (by simp)
  have hr := hmem right (by simp)
  obtain ⟨taken, hrun⟩ := run_takeFrom_rejoin he hl hle h.tree.linked
  have hthin := thinned_withoutPadding h.tree rule list element
  have htables := doc.withoutPadding_tables rule list element
  obtain ⟨hleft', hlast', -⟩ := hleft.withoutPadding h.tree (hlast left (by simp))
    (hfirst element (by simp)) rule list element
  obtain ⟨hright', -, hfirst'⟩ := hright.withoutPadding h.tree (hlast element (by simp))
    (hfirst right (by simp)) rule list element
  have hgone : ((doc.withoutPadding rule list element).detachElement rule list element).EndsAbove
      left right := by
    refine (hthin.aligned h).endsAbove_detachElement ?_ ?_ ?_ hle (Ne.symm hre) hleft' hright'
      ?_ ?_ ?_
    · rw [htables.1]; exact hchild element (by simp)
    · rw [htables.1]; exact hchild left (by simp)
    · rw [htables.1]; exact hchild right (by simp)
    · rw [hlast', htables.1]; exact hlast left (by simp)
    · rw [hfirst', htables.1]; exact hfirst right (by simp)
    · unfold Document.delimiterOf? at hmark ⊢
      rw [htables.1]; exact hmark
  obtain ⟨as, bs, hsplit, helements, hindex⟩ := listElements_detach h.tree he
  have htree := (hthin.detachElement rule list element).tree
  have hnodup' := listElements_nodup h.tree.linked rule list
  obtain ⟨front, back, hcut⟩ := hin
  rw [hsplit] at hnodup' hcut
  have hhead := (infix_neighbours hnodup').2 ⟨front ++ [left], back, by simpa using hcut⟩
  have hback := (infix_neighbours hnodup').1 ⟨front, right :: back, by simpa using hcut⟩
  have hrejoin := rejoin_of_split helements
  rw [hback, hhead] at hrejoin
  obtain ⟨p, n, hlow, -, -, hlines⟩ := exists_separate htree
    (helements ▸ mem_append_left _ (mem_of_getLast? hback))
    (helements ▸ mem_append_right _ (mem_of_head? hhead)) hgone
  obtain ⟨gap, hgap⟩ := hgone.linesBetween?
  rw [hpadded, if_pos rfl, hindex, hrejoin] at hrun
  generalize (doc.withoutPadding rule list element).detachElement rule list element = gone at *
  have hrun : (takeFrom rule list element).run doc =
    .ok taken (gone.separate rule list left right false) := hrun
  refine ⟨taken, _, max (gone.leastBetween rule list left right) gap,
    (run_removeElement_eq hrule (h.tree.linked.down (hchild element (by simp)))).trans hrun,
    hlines.trans (congrArg _ hgap), ?_⟩
  rw [hlow.leastBetween_eq (helements ▸ mem_append_left _ (mem_of_getLast? hback))]
  exact le_max_left ..

end

/-- In a padded list on lines, the blank lines that neighbours ask for are there after an element
has come in, and no more of them come in than are missing. They are still there after an element has
gone from between two others. The elements end with no break, the list takes no comments as
elements, and what goes is no white space that its neighbours stand on. -/
theorem padding_between_neighbours (h : doc.IsTree) (ho : doc.Ordered)
    (hlist : doc.Has (.branch list)) (hrule : doc.listRule? list = some rule)
    (hpadded : rule.isPadded = true) (hinline : doc.isInline rule list = false)
    (hends : ∀ e ∈ doc.listElements rule list, ∀ l ∈ doc.lastLeaf? (.branch e),
      Layout.isBreak (doc.textOf l) = false) :
    (∀ line fragment added after, fragment.IsTree → fragment.Ordered →
      fragment.rootKind ≠ .comment → rule.accepts .comment = false →
      (addAtLine list line fragment).run doc = .ok added after → ∃ bare,
        (placeAtLine rule list line fragment).run doc = .ok added bare ∧
        ((∃ l ∈ bare.lastLeaf? (.branch added), Layout.isBreak (bare.textOf l) = false) →
          ∀ left ∈ after.listElements rule list, ∀ right ∈ after.listElements rule list,
            [left, right] <:+: bare.elementsAndComments rule list →
            left = added ∨ right = added → bare.Spaced after rule list left right)) ∧
    ∀ left element right, [left, element, right] <:+: doc.listElements rule list →
      doc.EndsAbove left element → doc.EndsAbove element right →
      (∀ e ∈ [left, element], ∀ l ∈ doc.lastLeaf? (.branch e),
        Text.isBlank (doc.textOf l) = false) →
      (∀ e ∈ [element, right], ∀ l ∈ doc.firstLeaf? (.branch e),
        Text.isBlank (doc.textOf l) = false) →
      (∀ l ∈ doc.delimiterOf? rule list element, Layout.isBreak (doc.textOf l) = false) →
      ∃ taken after gap, (removeElement list element).run doc = .ok taken after ∧
        after.linesBetween? left right = some gap ∧
        after.leastBetween rule list left right ≤ gap := by
  have haligned : doc.Aligned := ⟨h, ho⟩
  refine ⟨fun line fragment added after hf hfo hkind hcomment hrun => ?_,
    fun left element right hin => leastBetween_le_of_removeElement hrule hpadded haligned hin⟩
  obtain ⟨bare, mid, hplace, hdrop, rfl⟩ := run_addAtLine_padded hrule hpadded hinline hrun
  refine ⟨bare, hplace, fun hshown left hleft right hright hin hadded => ?_⟩
  rcases run_placeAtLine (unfolds_of_ordered h ho rule list) line fragment with
    ⟨hline, hplaced⟩ | ⟨-, -, hplaced⟩
  swap
  · rw [hplace] at hplaced
    cases hplaced
  rw [decide_eq_false hkind] at hplaced hleft hright ⊢
  have hunfolded := haligned.unfolded list
  have hlist' : (doc.unfolded list).Has (.branch list) := (doc.retexted_unfolded list).has _ hlist
  have hwrap : (rule.wrap fragment).Aligned := Aligned.wrap ⟨hf, hfo⟩ rule
  have haccepts := accepts_wrap rule hkind
  have henlists := (enlists_insertLines hlist' hwrap.tree haccepts hunfolded.tree.linked
    (doc.entryLine rule list line)).of_unfolded h.linked
  have htree := isTree_insertLines hunfolded.tree hlist' hwrap.tree rule
    (doc.entryLine rule list line) false
  have hlists := listsComments_insertLines (doc.unfolded list) rule list
    (doc.entryLine rule list line) (rule.wrap fragment) false
  generalize hlines : (doc.unfolded list).insertLines rule list (doc.entryLine rule list line)
    (rule.wrap fragment) false = lines at hplaced henlists htree hlists
  obtain ⟨hadd, hbare⟩ := EStateM.Result.ok.inj (hplace.symm.trans hplaced)
  obtain ⟨_, _⟩ := lines
  subst hadd hbare
  obtain ⟨helements, hev, -⟩ := run_dropPlaceholder_eq_ok henlists htree hdrop
  rw [listElements_padAround hev.linked] at hleft hright
  cases hp : doc.placeholder? rule list with
  | none =>
    rw [hp] at hdrop
    cases hdrop
    exact hunfolded.spaced_insertLines hlist' (haligned.isInline_unfolded hinline) hline
      (haligned.ends_unfolded hends) hwrap haccepts hcomment hlines hshown hleft hright hadded hin
  | some placeholder =>
    -- only the element that has come in is left
    have honly : ∀ e ∈ mid.listElements rule list, e = added := by
      intro e he
      refine ((helements e).1 he).resolve_right fun ⟨hmem, hne⟩ => hne ?_
      rw [listElements_of_placeholder? hp, List.mem_singleton] at hmem
      rw [hp, hmem]
    rw [honly left hleft, honly right hright] at hin
    have hnodup := (elementsAndComments_spec htree.linked hlists hcomment list).1.sublist hin.sublist
    simp at hnodup

/-- A call is put between two of three functions, and a blank line comes in behind it. The middle
one of the functions goes, and a blank line stays. -/
theorem padding_between_neighbours_functions :
    let start : Builder := { grammar := .javaScript, source := "f\n\ng\n\nh\n" }
    let define := fun name => [Builder.Call.openNode .statement, .openNode .function, .token name,
      .closeNode, .closeNode]
    let calls : List Builder.Call := [.openNode .program, .openNode .statementList] ++ define "f" ++
      define "g" ++ define "h" ++ [.closeNode, .closeNode]
    let fragment := Document.ofSource .javaScript .call "x"
    ∃ doc rule, (start.run calls).finish = .ok doc ∧ doc.IsTree ∧ doc.Ordered ∧
      doc.Has (.branch ⟨1⟩) ∧ doc.listRule? ⟨1⟩ = some rule ∧ rule.isPadded = true ∧
      doc.isInline rule ⟨1⟩ = false ∧ rule.accepts .comment = false ∧
      (∀ e ∈ doc.listElements rule ⟨1⟩, ∀ l ∈ doc.lastLeaf? (.branch e),
        Layout.isBreak (doc.textOf l) = false) ∧
      fragment.IsTree ∧ fragment.Ordered ∧ fragment.rootKind ≠ .comment ∧
      (∃ added bare after, (addAtLine ⟨1⟩ 2 fragment).run doc = .ok added after ∧
        (placeAtLine rule ⟨1⟩ 2 fragment).run doc = .ok added bare ∧
        (∃ l ∈ bare.lastLeaf? (.branch added), Layout.isBreak (bare.textOf l) = false) ∧
        [added, ⟨4⟩] <:+: bare.elementsAndComments rule ⟨1⟩ ∧
        added ∈ after.listElements rule ⟨1⟩ ∧ ⟨4⟩ ∈ after.listElements rule ⟨1⟩ ∧
        bare.Spaced after rule ⟨1⟩ added ⟨4⟩) ∧
      [⟨2⟩, ⟨4⟩, ⟨6⟩] <:+: doc.listElements rule ⟨1⟩ ∧ doc.EndsAbove ⟨2⟩ ⟨4⟩ ∧
      doc.EndsAbove ⟨4⟩ ⟨6⟩ ∧
      (∀ e ∈ [⟨2⟩, ⟨4⟩], ∀ l ∈ doc.lastLeaf? (.branch e), Text.isBlank (doc.textOf l) = false) ∧
      (∀ e ∈ [⟨4⟩, ⟨6⟩], ∀ l ∈ doc.firstLeaf? (.branch e), Text.isBlank (doc.textOf l) = false) ∧
      (∀ l ∈ doc.delimiterOf? rule ⟨1⟩ ⟨4⟩, Layout.isBreak (doc.textOf l) = false) ∧
      ∃ taken after gap, (removeElement ⟨1⟩ ⟨4⟩).run doc = .ok taken after ∧
        after.linesBetween? ⟨2⟩ ⟨6⟩ = some gap ∧ after.leastBetween rule ⟨1⟩ ⟨2⟩ ⟨6⟩ ≤ gap := by
  intro start define calls fragment
  let doc := (start.run calls).built
  let rule := (doc.listRule? ⟨1⟩).get (by decide +kernel)
  have hfinish : (start.run calls).finish = .ok doc := by decide +kernel
  obtain ⟨htree, hordered⟩ := Builder.isTree_of_run hfinish
  have hf : fragment.Aligned := aligned_ofSource ..
  have hkind : fragment.rootKind ≠ .comment ∧ rule.accepts fragment.rootKind = true := by
    decide +kernel
  have hlist : doc.Has (.branch ⟨1⟩) ∧ doc.listRule? ⟨1⟩ = some rule ∧ rule.isPadded = true ∧
      doc.isInline rule ⟨1⟩ = false ∧ rule.accepts .comment = false ∧
      (∀ e ∈ doc.listElements rule ⟨1⟩, ∀ l ∈ doc.lastLeaf? (.branch e),
        Layout.isBreak (doc.textOf l) = false) ∧ doc.isSqueezed ⟨1⟩ = false ∧
      2 ∈ doc.linesFor rule ⟨1⟩ := by decide +kernel
  obtain ⟨hhas, hrule, hpadded, hinline, hcomment, hends, hopen, hline⟩ := hlist
  obtain ⟨hadds, hremoves⟩ := padding_between_neighbours htree hordered hhas hrule hpadded hinline
    hends
  have hmiddle : [⟨2⟩, ⟨4⟩, ⟨6⟩] <:+: doc.listElements rule ⟨1⟩ ∧ doc.EndsAbove ⟨2⟩ ⟨4⟩ ∧
      doc.EndsAbove ⟨4⟩ ⟨6⟩ ∧
      (∀ e ∈ [⟨2⟩, ⟨4⟩], ∀ l ∈ doc.lastLeaf? (.branch e), Text.isBlank (doc.textOf l) = false) ∧
      (∀ e ∈ [⟨4⟩, ⟨6⟩], ∀ l ∈ doc.firstLeaf? (.branch e), Text.isBlank (doc.textOf l) = false) ∧
      ∀ l ∈ doc.delimiterOf? rule ⟨1⟩ ⟨4⟩, Layout.isBreak (doc.textOf l) = false := by
    decide +kernel
  refine ⟨doc, rule, hfinish, htree, hordered, hhas, hrule, hpadded, hinline, hcomment, hends,
    hf.tree, hf.ordered, hkind.1, ?_, hmiddle.1, hmiddle.2.1, hmiddle.2.2.1, hmiddle.2.2.2.1,
    hmiddle.2.2.2.2.1, hmiddle.2.2.2.2.2, hremoves ⟨2⟩ ⟨4⟩ ⟨6⟩ hmiddle.1 hmiddle.2.1 hmiddle.2.2.1
      hmiddle.2.2.2.1 hmiddle.2.2.2.2.1 hmiddle.2.2.2.2.2⟩
  obtain ⟨added, after, hrun⟩ := exists_run_addAtLine hrule (Or.inr hkind.2) htree hordered hf.tree
    (Or.inl hline)
  obtain ⟨bare, hplace, hspaced⟩ := hadds 2 fragment added after hf.tree hf.ordered hkind.1 hcomment
    hrun
  obtain ⟨bare', mid, hplace', hdrop, hafter⟩ := run_addAtLine_padded hrule hpadded hinline hrun
  cases hplace.symm.trans hplace'
  have hplaced := hplace.symm.trans (run_placeAtLine_of_open htree hordered hopen hline hkind.1)
  have hfacts : let lines := doc.insertLines rule ⟨1⟩ 2 (rule.wrap fragment) false
      (∃ l ∈ lines.2.lastLeaf? (.branch lines.1), Layout.isBreak (lines.2.textOf l) = false) ∧
      lines.1 ∈ lines.2.listElements rule ⟨1⟩ ∧ ⟨4⟩ ∈ lines.2.listElements rule ⟨1⟩ := by
    decide +kernel
  have hin : let lines := doc.insertLines rule ⟨1⟩ 2 (rule.wrap fragment) false
      [lines.1, ⟨4⟩] <:+: lines.2.elementsAndComments rule ⟨1⟩ := by
    intro lines
    dsimp only [elementsAndComments]
    rw [List.mergeSort_of_pairwise (by decide +kernel)]
    decide +kernel
  have hwrap : (rule.wrap fragment).IsTree := ListRule.isTree_wrap hf.tree
  have hlinked := (isTree_insertLines htree hhas hwrap rule 2 false).linked
  have hnone : doc.placeholder? rule ⟨1⟩ = none := by decide +kernel
  generalize doc.insertLines rule ⟨1⟩ 2 (rule.wrap fragment) false = lines
    at hplaced hfacts hin hlinked
  cases hplaced
  rw [hnone] at hdrop
  cases hdrop
  have helements : after.listElements rule ⟨1⟩ = lines.2.listElements rule ⟨1⟩ := by
    rw [hafter]
    exact listElements_padAround hlinked ..
  obtain ⟨hshown, hmem, hmem'⟩ := hfacts
  rw [← helements] at hmem hmem'
  exact ⟨_, _, after, hrun, hplace, hshown, hin, hmem, hmem',
    hspaced hshown _ hmem _ hmem' hin (Or.inl rfl)⟩

end Edit

end Lossless
