import Lossless.Edit.List
import Lossless.Proofs.Bracketed

/-! Bodies moved to lines of their own. The line of the closing bracket of an unfolded body is never
inside an element, so it takes a new one. -/

namespace Lossless

open List Layout Bool

theorem Span.mem_toList {s : Span} {n : Nat} : n ∈ s.toList ↔ s.start ≤ n ∧ n < s.stop := by
  rw [toList, mem_range'_1]
  omega

namespace Layout

variable {ts : Layout} {s e p q : Nat}

theorem lineOf_mono (ts : Layout) (h : p ≤ q) : ts.lineOf p ≤ ts.lineOf q :=
  (take_sublist_take_left h).countP_le

theorem lineOf_succ {t : String} (h : ts[p]? = some t) :
    ts.lineOf (p + 1) = ts.lineOf p + if isBreak t then 1 else 0 := by
  rw [lineOf, lineOf, breaks, breaks, take_add_one, h, Option.toList_some,
    countP_append, countP_singleton]

theorem linesOf_eq (h : 0 < e) (he : e ≤ ts.length) :
    ts.linesOf ⟨s, e⟩ = ⟨ts.lineOf s, ts.lineOf e + 1⟩ := by
  obtain ⟨k, rfl⟩ : ∃ k, e = k + 1 := ⟨e - 1, by omega⟩
  obtain ⟨t, ht⟩ : ∃ t, ts[k]? = some t := ⟨_, getElem?_eq_getElem (by omega)⟩
  have hlast : (ts.take (k + 1)).getLast? = some t := by
    rw [take_add_one, ht, Option.toList_some, getLast?_concat]
  have hne : ts.isEmpty = false := by
    rw [isEmpty_eq_false_iff]
    rintro rfl
    simp at he
  simp only [linesOf, hne, false_eq_true, if_false, hlast, Nat.add_sub_cancel, lineOf_succ ht]
  split <;> rfl

end Layout

namespace Document

variable {doc : Document} {list : Branch} {node : Node} {r x : Leaf} {j : Nat} {span : Span}

/-! ### Where the trivia ends -/

theorem trivia_stop_le (h : doc.IsTree) (hleft : ∀ x ∈ doc.leftLeaves node, doc.Precedes x r)
    {ys zs : List Leaf} (hright : doc.rightLeaves node = ys ++ r :: zs)
    (hys : ∀ y ∈ ys, doc.Precedes y r) (hj : doc.position? r = some j) :
    (doc.trivia node).stop ≤ j := by
  have hn := h.order_nodup
  have hr : doc.order.contains r = true := contains_iff_mem.2 (mem_of_idxOf? hj)
  have hstop : ((doc.rightLeaf? node).bind doc.position?).getD doc.order.length ≤ j := by
    rw [rightLeaf?_eq h.linked, hright, filter_append, filter_cons_of_pos hr,
      head?_append]
    cases hy : (ys.filter doc.order.contains).head? with
    | none => simp [hj]
    | some y =>
      obtain ⟨hmem, hvisible⟩ := mem_filter.1 (mem_of_head? hy)
      obtain ⟨i, hi⟩ := exists_position (contains_iff_mem.1 hvisible)
      simpa [hi] using ((hys y hmem).lt hn hi hj).le
  have hstart : (doc.trivia node).start ≤ j := by
    simp only [trivia]
    cases hl : doc.leftLeaf? node with
    | none => exact Nat.zero_le _
    | some x =>
      rw [leftLeaf?_eq h.linked] at hl
      obtain ⟨hmem, hvisible⟩ := mem_filter.1 (mem_of_getLast? hl)
      obtain ⟨i, hi⟩ := exists_position (contains_iff_mem.1 hvisible)
      simp only [Option.bind_some, hi]
      exact (hleft x hmem).lt hn hi hj
  exact Nat.max_le.2 ⟨hstop, hstart⟩

namespace Bracketed

section

variable (h : doc.Bracketed list) (hr : r ∈ doc.rightLeaves list)
include h hr

theorem trivia_stop_le (hj : doc.position? r = some j) : (doc.trivia list).stop ≤ j := by
  obtain ⟨ys, zs, hyz⟩ := append_of_mem hr
  have hp := h.right
  rw [hyz] at hp
  refine Document.trivia_stop_le h.tree (fun x hx => ?_) hyz (fun y hy => ?_) hj
  · exact h.before x (mem_append_left _ hx) r hr
  · exact (pairwise_append.1 hp).2.2 y hy r (by simp)

theorem exists_right
    (ho : r ∈ doc.order) : ∃ r₀ ∈ doc.rightLeaves list,
      doc.rightLeaf? list = some r₀ ∧
      doc.position? r₀ = some (doc.trivia list).stop := by
  obtain ⟨r₀, hr₀⟩ : ∃ r₀, doc.rightLeaf? list = some r₀ := by
    rw [rightLeaf?_eq h.tree.linked]
    have hne : (doc.rightLeaves list).filter doc.order.contains ≠ [] :=
      ne_nil_of_mem (mem_filter.2 ⟨hr, contains_iff_mem.2 ho⟩)
    exact ⟨_, head?_eq_some_head hne⟩
  have hmem := hr₀
  rw [rightLeaf?_eq h.tree.linked] at hmem
  obtain ⟨hmem, hvisible⟩ := mem_filter.1 (mem_of_head? hmem)
  obtain ⟨j, hj⟩ := exists_position (contains_iff_mem.1 hvisible)
  refine ⟨r₀, hmem, hr₀, ?_⟩
  have hle := h.trivia_stop_le hmem hj
  have hge : j ≤ (doc.trivia list).stop := by
    simp only [trivia, hr₀, Option.bind_some, hj, Option.getD_some]
    exact Nat.le_max_left ..
  rw [hj, Nat.le_antisymm hge hle]

theorem lt_trivia_stop
    (ho : r ∈ doc.order) (hx : x ∈ doc.leftLeaves list ++ doc.leaves list)
    (hj : doc.position? x = some j) : j < (doc.trivia list).stop := by
  obtain ⟨r₀, hmem, -, hpos⟩ := h.exists_right hr ho
  exact (h.before x hx r₀ hmem).lt h.tree.order_nodup hj hpos

end

end Bracketed

/-! ### A break before what is after the list -/

section

variable {tokens : List Leaf} {p : Nat} (hn : (doc.insertAt p tokens).order.Nodup)
include hn

theorem position?_insertAt_left (hj : doc.position? x = some j) (hlt : j < p) :
    (doc.insertAt p tokens).position? x = some j := by
  refine idxOf?_of_getElem? hn ?_
  have hlen : j < (doc.order.take p).length := by
    have := idxOf?_lt_length hj
    rw [length_take]
    omega
  rw [insertAt, append_assoc, getElem?_append_left hlen, getElem?_take_of_lt hlt]
  exact getElem?_of_idxOf? hj

theorem position?_insertAt_right (hj : doc.position? x = some j) (hle : p ≤ j) :
    (doc.insertAt p tokens).position? x = some (j + tokens.length) := by
  refine idxOf?_of_getElem? hn ?_
  have hlen : (doc.order.take p ++ tokens).length = p + tokens.length := by
    have := idxOf?_lt_length hj
    rw [length_append, length_take]
    omega
  rw [insertAt, getElem?_append_right (by omega), hlen, getElem?_drop]
  have hidx : p + (j + tokens.length - (p + tokens.length)) = j := by omega
  rw [hidx]
  exact getElem?_of_idxOf? hj

end

def closeWith (doc : Document) (list : Branch) (tokens : List Leaf) : Document :=
  doc.insertAt (doc.trivia list).stop tokens

/-- New tokens that the list does not know of, the first of them a break. -/
structure Closing (doc : Document) (list : Branch) (tokens : List Leaf) : Prop
    extends Apart doc list tokens where
  nodup : tokens.Nodup
  has : ∀ l ∈ tokens, doc.Has l
  free : ∀ l ∈ tokens, doc.parent l = none
  opens : ∃ l, tokens.head? = some l ∧ doc.textOf l = Layout.lineBreak

theorem filter_insertAt {tokens ls : List Leaf} (p : Nat) (h : ∀ l ∈ tokens, l ∉ ls) :
    ls.filter (doc.insertAt p tokens).order.contains = ls.filter doc.order.contains := by
  refine filter_congr fun l hl => ?_
  have : l ∉ tokens := fun hm => h l hm hl
  simp [mem_insertAt, this]

theorem Closing.isTree {tokens : List Leaf} (hc : Closing doc list tokens) (h : doc.IsTree) :
    (doc.closeWith list tokens).IsTree :=
  h.insertAt hc.nodup hc.has hc.order _

section

variable {tokens : List Leaf} (hc : Closing doc list tokens) (h : doc.Bracketed list)
  (hr : r ∈ doc.rightLeaves list) (ho : r ∈ doc.order)
include hc h hr ho

theorem Closing.position?_eq (hx : x ∈ doc.leftLeaves list ++ doc.leaves list)
    (hj : doc.position? x = some j) : (doc.closeWith list tokens).position? x = some j :=
  position?_insertAt_left (hc.isTree h.tree).order_nodup hj (h.lt_trivia_stop hr ho hx hj)

theorem Closing.lt_of_position?
    (hx : x ∈ doc.leftLeaves list ++ doc.leaves list)
    (hj : (doc.closeWith list tokens).position? x = some j) :
    j < (doc.trivia list).stop := by
  have hmem : x ∈ doc.order :=
    (mem_insertAt.1 (mem_of_idxOf? hj)).resolve_left fun hm => hc.left x hm hx
  obtain ⟨i, hi⟩ := exists_position hmem
  rw [hc.position?_eq h hr ho hx hi] at hj
  cases hj
  exact h.lt_trivia_stop hr ho hx hi

theorem Closing.trivia_eq : (doc.closeWith list tokens).trivia list =
    ⟨(doc.trivia list).start, (doc.trivia list).stop + tokens.length⟩ := by
  have htree := hc.isTree h.tree
  obtain ⟨r₀, hmem, hr₀, hpos⟩ := h.exists_right hr ho
  have hright : (doc.closeWith list tokens).rightLeaf? list = some r₀ := by
    rw [rightLeaf?_eq htree.linked, ← hr₀, rightLeaf?_eq h.tree.linked]
    exact congrArg head? (filter_insertAt _ hc.right)
  have hleft : (doc.closeWith list tokens).leftLeaf? list =
      doc.leftLeaf? list := by
    rw [leftLeaf?_eq htree.linked, leftLeaf?_eq h.tree.linked]
    exact congrArg getLast? (filter_insertAt _ fun l hl hm =>
      hc.left l hl (mem_append_left _ hm))
  have hstart : ((doc.closeWith list tokens).leftLeaf? list).bind
      (doc.closeWith list tokens).position? = (doc.leftLeaf? list).bind doc.position? := by
    rw [hleft]
    cases hl : doc.leftLeaf? list with
    | none => rfl
    | some x =>
      rw [leftLeaf?_eq h.tree.linked] at hl
      obtain ⟨hx, hvisible⟩ := mem_filter.1 (mem_of_getLast? hl)
      obtain ⟨i, hi⟩ := exists_position (contains_iff_mem.1 hvisible)
      rw [Option.bind_some, Option.bind_some, hi]
      exact hc.position?_eq h hr ho (mem_append_left _ hx) hi
  have hpos' : (doc.closeWith list tokens).position? r₀ =
      some ((doc.trivia list).stop + tokens.length) :=
    position?_insertAt_right htree.order_nodup hpos (Nat.le_refl _)
  have hle := doc.trivia_start_le list
  rw [trivia, hright, Option.bind_some, hpos', Option.getD_some, hstart]
  show (⟨(doc.trivia list).start, max _ (doc.trivia list).start⟩ : Span) = _
  congr 1
  omega

/-! ### Lines of an unfolded body -/

theorem Closing.lineOf_lt : (doc.closeWith list tokens).layout.lineOf (doc.trivia list).stop <
    (doc.closeWith list tokens).layout.lineOf
      ((doc.trivia list).stop + tokens.length) := by
  obtain ⟨r₀, -, -, hpos⟩ := h.exists_right hr ho
  obtain ⟨l, hl, hbreak⟩ := hc.opens
  obtain ⟨rest, rfl⟩ := head?_eq_some_iff.1 hl
  have hlen : (doc.order.take (doc.trivia list).stop).length =
      (doc.trivia list).stop := by
    have := idxOf?_lt_length hpos
    rw [length_take]
    omega
  have hget : (doc.closeWith list (l :: rest)).layout[(doc.trivia list).stop]? =
      some lineBreak := by
    rw [layout, closeWith, insertAt, getElem?_map, append_assoc,
      getElem?_append_right (by omega), hlen, Nat.sub_self, cons_append,
      getElem?_cons_zero, ← hbreak]
    rfl
  have hsucc := lineOf_succ hget
  have hmono := (doc.closeWith list (l :: rest)).layout.lineOf_mono
    (p := (doc.trivia list).stop + 1)
    (q := (doc.trivia list).stop + (l :: rest).length) (by simp)
  rw [hsucc, if_pos (by decide)] at hmono
  omega

theorem Closing.stop_lt : (doc.trivia list).stop + tokens.length <
    (doc.closeWith list tokens).order.length := by
  obtain ⟨r₀, -, -, hpos⟩ := h.exists_right hr ho
  exact idxOf?_lt_length (position?_insertAt_right (hc.isTree h.tree).order_nodup hpos (Nat.le_refl _))

theorem Closing.linesOf_eq (start : Nat) :
    (doc.closeWith list tokens).layout.linesOf
      ⟨start, (doc.trivia list).stop + tokens.length⟩ =
      ⟨(doc.closeWith list tokens).layout.lineOf start,
        (doc.closeWith list tokens).layout.lineOf
          ((doc.trivia list).stop + tokens.length) + 1⟩ := by
  have hlt := hc.stop_lt h hr ho
  obtain ⟨l, hl, -⟩ := hc.opens
  obtain ⟨rest, rfl⟩ := head?_eq_some_iff.1 hl
  have hpos : 0 < (l :: rest).length := Nat.zero_lt_succ _
  refine linesOf_eq (by omega) ?_
  rw [layout, length_map]
  omega

theorem Closing.not_squeezed : (doc.closeWith list tokens).isSqueezed list = false := by
  have hlines := hc.linesOf_eq h hr ho (doc.trivia list).start
  have hlt := hc.lineOf_lt h hr ho
  have hmono := (doc.closeWith list tokens).layout.lineOf_mono (doc.trivia_start_le list)
  have hne : (doc.closeWith list tokens).layout.lineOf (doc.trivia list).start + 1 ≠
      (doc.closeWith list tokens).layout.lineOf
        ((doc.trivia list).stop + tokens.length) + 1 := by omega
  simp only [isSqueezed, hc.trivia_eq h hr ho, hlines, beq_eq_false_iff_ne.2 hne, Bool.false_and]

theorem Closing.mem_boundedLines (rule : ListRule) :
    (doc.closeWith list tokens).layout.lineOf ((doc.trivia list).stop + tokens.length) ∈
      ((doc.closeWith list tokens).boundedLines rule list).toList := by
  have hlt := hc.lineOf_lt h hr ho
  have hstop := hc.stop_lt h hr ho
  have hmono := (doc.closeWith list tokens).layout.lineOf_mono (doc.trivia_start_le list)
  simp only [boundedLines, hc.not_squeezed h hr ho, false_eq_true, if_false,
    hc.trivia_eq h hr ho, hc.linesOf_eq h hr ho, Span.mem_toList]
  split
  · dsimp only
    constructor <;> split <;> omega
  · have hle : (((doc.closeWith list tokens).range? list).map Span.start).getD
        ((doc.trivia list).stop + tokens.length) ≤
          (doc.trivia list).stop + tokens.length := by
      cases hrange : (doc.closeWith list tokens).range? list with
      | none => exact Nat.le_refl _
      | some range =>
        obtain ⟨first, -, -, hfirst, -, hpos, -⟩ := exists_of_range? hrange
        have hmem := (mem_visibleLeaves.1 (mem_of_head? hfirst)).1
        have := hc.lt_of_position? h hr ho (mem_append_right _ hmem) hpos
        simp only [Option.map_some, Option.getD_some]
        omega
    exact ⟨(doc.closeWith list tokens).layout.lineOf_mono hle, Nat.lt_succ_self _⟩

theorem Closing.lines_stop_le {lines : Span} (hnode : node ∈ doc.children list)
    (hlines : (doc.closeWith list tokens).lines? node = some lines) :
    lines.stop ≤ (doc.closeWith list tokens).layout.lineOf
      ((doc.trivia list).stop + tokens.length) := by
  have htree := hc.isTree h.tree
  obtain ⟨range, hrange, rfl⟩ := Option.map_eq_some_iff.1 hlines
  obtain ⟨-, last, k, -, hlast, -, hpos, hstop⟩ := exists_of_range? hrange
  have hmem : last ∈ doc.leaves list := by
    rw [h.tree.linked.leaves_branch, mem_flatMap]
    exact ⟨node, hnode, (mem_visibleLeaves.1 (mem_of_getLast? hlast)).1⟩
  have hk := hc.lt_of_position? h hr ho (mem_append_right _ hmem) hpos
  have hlt := hc.lineOf_lt h hr ho
  have hlength := hc.stop_lt h hr ho
  obtain ⟨start, stop⟩ := range
  have hstop : stop = k + 1 := hstop
  rw [Layout.linesOf_eq (by omega) (by rw [layout, length_map]; omega)]
  have hle : stop ≤ (doc.trivia list).stop := by omega
  have := (doc.closeWith list tokens).layout.lineOf_mono hle
  show _ + 1 ≤ _
  omega

theorem Closing.mem_linesFor {rule : ListRule}
    (hinline : (doc.closeWith list tokens).isInline rule list = false) :
    (doc.closeWith list tokens).layout.lineOf ((doc.trivia list).stop + tokens.length) ∈
      (doc.closeWith list tokens).linesFor rule list := by
  rw [linesFor, hinline, if_neg Bool.false_ne_true]
  refine mem_filter.2 ⟨hc.mem_boundedLines h hr ho rule, ?_⟩
  rw [not_eq_true', any_eq_false]
  intro lines hlines
  obtain ⟨node, hnode, hlines⟩ := mem_filterMap.1 hlines
  have := hc.lines_stop_le h hr ho hnode hlines
  simp only [and_eq_true, decide_eq_true_eq]
  omega

theorem Closing.linesFor_ne_nil (rule : ListRule) :
    (doc.closeWith list tokens).linesFor rule list ≠ [] := by
  cases hinline : (doc.closeWith list tokens).isInline rule list with
  | true =>
    rw [linesFor, hinline, if_pos rfl, clauseLines]
    split <;> simp
  | false => exact ne_nil_of_mem (hc.mem_linesFor h hr ho hinline)

end

/-! ### Unfolding -/

theorem mem_cut (hj : doc.position? x = some j) (h : span.stop ≤ j) :
    x ∈ (doc.cut span).order := by
  have hx := getElem?_of_idxOf? hj
  refine mem_append.2 ?_
  by_cases hlt : j < span.start
  · exact Or.inl (mem_of_getElem? ((getElem?_take_of_lt hlt).trans hx))
  · refine Or.inr (mem_of_getElem? (i := j - max span.start span.stop) ?_)
    rw [getElem?_drop, Nat.add_sub_cancel' (Nat.max_le.2 ⟨Nat.le_of_not_lt hlt, h⟩)]
    exact hx

theorem mem_cut_iff (hn : doc.order.Nodup)
    (hj : doc.position? x = some j) :
    x ∈ (doc.cut span).order ↔ j < span.start ∨ span.stop ≤ j := by
  refine ⟨fun hx => ?_, fun h => ?_⟩
  · have hat : ∀ k, doc.order[k]? = some x → j = k := fun k hk =>
      Option.some.inj (hj.symm.trans (idxOf?_of_getElem? hn hk))
    rcases mem_append.1 hx with hx | hx
    · obtain ⟨k, hk⟩ := mem_iff_getElem?.1 hx
      have hlt := (List.getElem?_eq_some_iff.1 hk).1
      rw [length_take] at hlt
      rw [getElem?_take_of_lt (by omega)] at hk
      have := hat k hk
      omega
    · obtain ⟨k, hk⟩ := mem_iff_getElem?.1 hx
      rw [getElem?_drop] at hk
      have := hat _ hk
      omega
  · rcases h with h | h
    · have hx := getElem?_of_idxOf? hj
      exact mem_append_left _ (mem_of_getElem? ((getElem?_take_of_lt h).trans hx))
    · exact mem_cut hj h

namespace Bracketed

theorem mem_cut (h : doc.Bracketed list) (hr : r ∈ doc.rightLeaves list)
    (ho : r ∈ doc.order) (hs : span.stop ≤ (doc.trivia list).stop) :
    r ∈ (doc.cut span).order := by
  obtain ⟨j, hj⟩ := exists_position ho
  exact Document.mem_cut hj (hs.trans (h.trivia_stop_le hr hj))

theorem stripAround (h : doc.Bracketed list) : (doc.stripAround list).Bracketed list ∧
    ∀ r ∈ doc.rightLeaves list, r ∈ doc.order → r ∈ (doc.stripAround list).order := by
  rw [Document.stripAround]
  let trivia := doc.trivia list
  let texts := (doc.layout.drop trivia.start).take (trivia.stop - trivia.start)
  have hle : trivia.start + (texts.takeWhile Text.isBlank).length ≤ trivia.stop := by
    have hblank := (takeWhile_sublist Text.isBlank (l := texts)).length_le
    have htexts : texts.length ≤ trivia.stop - trivia.start := length_take_le ..
    have : trivia.start ≤ trivia.stop := doc.trivia_start_le list
    omega
  have hfirst : (doc.cut ⟨trivia.start,
      trivia.start + (texts.takeWhile Text.isBlank).length⟩).Bracketed list :=
    h.cut _
  refine ⟨hfirst.cut _, fun r hr ho => ?_⟩
  exact hfirst.mem_cut hr (h.mem_cut hr ho hle) (Nat.le_refl _)

end Bracketed

theorem Bracketed.closing (h : doc.Bracketed list) (indent : String) :
    Closing (doc.newIndentedBreak indent).2 list (doc.newIndentedBreak indent).1 := by
  have hf := Fresh.newIndentedBreak h.tree list indent
  refine ⟨hf.apart h.tree h.has, hf.nodup, hf.has, fun l hl => ?_, _, rfl, ?_⟩
  · have hparent : doc.parent l = none := Forest.parent_of_not_has (hf.new l hl)
    rw [newIndentedBreak]
    dsimp only
    rcases newLiteral_cases (doc.newToken lineBreak).2 indent with he | he <;> rw [he]
    · exact (parent_newToken ..).trans hparent
    · exact (parent_newToken ..).trans ((parent_newToken ..).trans hparent)
  · have hnew := textOf_newToken doc lineBreak
    rw [newIndentedBreak]
    dsimp only
    rcases newLiteral_cases (doc.newToken lineBreak).2 indent with he | he <;> rw [he]
    · exact hnew
    · exact (textOf_newToken_of_has (has_newToken ..) indent).trans hnew

def openBody (doc : Document) (list : Branch) : Document :=
  let doc := doc.stripAround list
  let trivia := doc.trivia list
  if trivia.isEmpty then doc
  else
    let (opening, doc) := doc.newIndentedBreak (doc.indent list)
    doc.insertAt trivia.start opening

def closingBreak (doc : Document) (list : Branch) : List Leaf × Document :=
  doc.newIndentedBreak (doc.parentIndent list)

theorem unfoldBody_eq (doc : Document) (list : Branch) :
    doc.unfoldBody list =
      (closingBreak (doc.openBody list) list).2.closeWith list
        (closingBreak (doc.openBody list) list).1 := by
  simp only [unfoldBody, openBody, closeWith, closingBreak]

namespace Bracketed

theorem openBody (h : doc.Bracketed list) : (doc.openBody list).Bracketed list ∧
    ∀ r ∈ doc.rightLeaves list, r ∈ doc.order →
      r ∈ (doc.openBody list).rightLeaves list ∧ r ∈ (doc.openBody list).order := by
  obtain ⟨hstrip, hkept⟩ := h.stripAround
  rw [Document.openBody]
  dsimp only
  split
  · exact ⟨hstrip, fun r hr ho => ⟨hr, hkept r hr ho⟩⟩
  · have hf := Fresh.newIndentedBreak hstrip.tree list
      ((doc.stripAround list).indent list)
    refine ⟨hstrip.insertFresh hf _, fun r hr ho => ⟨?_, mem_insertAt.2 (Or.inr ?_)⟩⟩
    · exact (hf.rewired.beside_eq hstrip.tree.linked hf.tree.linked hstrip.has).2 ▸ hr
    · rw [hf.order_eq]
      exact hkept r hr ho

section

variable (h : doc.Bracketed list) (hr : r ∈ doc.rightLeaves list) (ho : r ∈ doc.order)
include h hr ho

/-- Unfolding ends with a break before the closing bracket. -/
theorem exists_closing : ∃ mid tokens, Closing mid list tokens ∧ mid.Bracketed list ∧
      r ∈ mid.rightLeaves list ∧ r ∈ mid.order ∧
      doc.unfoldBody list = mid.closeWith list tokens := by
  obtain ⟨hopen, hkept⟩ := h.openBody
  obtain ⟨hr, ho⟩ := hkept r hr ho
  have hf := Fresh.newIndentedBreak hopen.tree list ((doc.openBody list).parentIndent list)
  have hright := (hf.rewired.beside_eq hopen.tree.linked hf.tree.linked hopen.has).2
  rw [← hright] at hr
  rw [← hf.order_eq] at ho
  exact ⟨_, _, hopen.closing _, hopen.of_fresh hf, hr, ho, unfoldBody_eq doc list⟩

/-- An unfolded body takes a new element. -/
theorem linesFor_unfoldBody (rule : ListRule) : (doc.unfoldBody list).linesFor rule list ≠ [] := by
  obtain ⟨mid, tokens, hclosing, hmid, hr, ho, he⟩ := h.exists_closing hr ho
  exact he ▸ hclosing.linesFor_ne_nil hmid hr ho rule

theorem isSqueezed_unfoldBody : (doc.unfoldBody list).isSqueezed list = false := by
  obtain ⟨mid, tokens, hclosing, hmid, hr, ho, he⟩ := h.exists_closing hr ho
  exact he ▸ hclosing.not_squeezed hmid hr ho

end

end Bracketed

end Document

end Lossless
