import Lossless.Proofs.Linked
import Lossless.Proofs.Order

/-! Trees whose children follow the text. A document is a tree when its links and its order hold
together; it is ordered when the ranges of siblings follow each other. Then the visible tokens of
every node are a part of the order. -/

namespace Lossless.Document

open List

structure IsTree (doc : Document) : Prop where
  linked : doc.Linked
  root_has : doc.Has doc.root
  root_free : doc.parent doc.root = none
  order_has : ∀ l ∈ doc.order, doc.Has l
  order_nodup : doc.order.Nodup

/-- The visible ranges of the children of every container are disjoint and follow each other in
the order of the children. -/
def Ordered (doc : Document) : Prop :=
  ∀ b, ((doc.children b).filterMap doc.range?).Pairwise fun r s => r.stop ≤ s.start

variable {doc : Document} {node : Node} {l first last : Leaf} {r : Span} {i j : Nat}

theorem mem_visibleLeaves : l ∈ doc.visibleLeaves node ↔ l ∈ doc.leaves node ∧ l ∈ doc.order := by
  simp [visibleLeaves]

@[simp] theorem visibleLeaves_leaf : doc.visibleLeaves l = if l ∈ doc.order then [l] else [] := by
  simp only [visibleLeaves, Forest.leaves_leaf, filter_cons, filter_nil]
  simp

theorem visibleLeaves_branch (h : doc.Linked) (b : Branch) :
    doc.visibleLeaves b = (doc.children b).flatMap doc.visibleLeaves := by
  simp only [visibleLeaves, h.leaves_branch, filter_flatMap]
  rfl

theorem exists_position (h : l ∈ doc.order) : ∃ i, doc.position? l = some i :=
  exists_idxOf? h

/-! ### Ranges -/

theorem range?_eq_some (hf : doc.firstLeaf? node = some first)
    (hl : doc.lastLeaf? node = some last) (hi : doc.position? first = some i)
    (hj : doc.position? last = some j) : doc.range? node = some ⟨i, j + 1⟩ := by
  simp [range?, hf, hl, hi, hj]

theorem exists_of_range? (h : doc.range? node = some r) : ∃ first last j,
    doc.firstLeaf? node = some first ∧ doc.lastLeaf? node = some last ∧
      doc.position? first = some r.start ∧ doc.position? last = some j ∧ r.stop = j + 1 := by
  cases hf : doc.firstLeaf? node with
  | none => simp [range?, hf] at h
  | some first =>
    cases hi : doc.position? first with
    | none => simp [range?, hf, hi] at h
    | some i =>
      cases hl : doc.lastLeaf? node with
      | none => simp [range?, hf, hl] at h
      | some last =>
        cases hj : doc.position? last with
        | none => simp [range?, hf, hl, hj] at h
        | some j =>
          simp only [range?, hf, hi, hl, hj, Option.bind_eq_bind, Option.bind_some,
            Option.pure_def, Option.some.injEq] at h
          exact ⟨first, last, j, rfl, rfl, h ▸ hi, hj, h ▸ rfl⟩

theorem exists_range? (h : l ∈ doc.visibleLeaves node) : ∃ r, doc.range? node = some r := by
  have hne : doc.visibleLeaves node ≠ [] := ne_nil_of_mem h
  have hmem : ∀ m ∈ doc.visibleLeaves node, ∃ k, doc.position? m = some k :=
    fun m hm => exists_position (mem_visibleLeaves.1 hm).2
  obtain ⟨i, hi⟩ := hmem _ (head_mem hne)
  obtain ⟨j, hj⟩ := hmem _ (getLast_mem hne)
  exact ⟨_, range?_eq_some (head?_eq_some_head hne) (getLast?_eq_some_getLast hne) hi hj⟩

theorem range?_eq_none : doc.range? node = none ↔ doc.visibleLeaves node = [] := by
  constructor
  · intro h
    by_contra hne
    obtain ⟨l, hl⟩ := exists_mem_of_ne_nil _ hne
    obtain ⟨r, hr⟩ := exists_range? hl
    rw [h] at hr
    cases hr
  · intro h
    simp [range?, firstLeaf?, h]

/-- The visible tokens of a node lie in its range. -/
theorem mem_range_of_sublist (hn : doc.order.Nodup) (hs : doc.visibleLeaves node <+ doc.order)
    (hr : doc.range? node = some r) (hl : l ∈ doc.visibleLeaves node)
    (hi : doc.position? l = some i) : r.start ≤ i ∧ i < r.stop := by
  obtain ⟨first, last, j, hfirst, hlast, hpf, hpl, hstop⟩ := exists_of_range? hr
  have hp := pairwise_before hs
  constructor
  · obtain ⟨rest, he⟩ : ∃ rest, doc.visibleLeaves node = first :: rest := by
      cases hv : doc.visibleLeaves node with
      | nil => simp [hv] at hl
      | cons a rest => simp [firstLeaf?, hv] at hfirst; exact ⟨rest, by rw [hfirst]⟩
    rw [he] at hl hp
    rcases mem_cons.1 hl with rfl | hl
    · rw [hpf] at hi; cases hi; exact le_rfl
    · exact (lt_of_before hn ((pairwise_cons.1 hp).1 l hl) hpf hi).le
  · obtain ⟨init, he⟩ := getLast?_eq_some_iff.1 hlast
    rw [he] at hl hp
    rcases mem_append.1 hl with hl | hl
    · have := lt_of_before hn ((pairwise_append.1 hp).2.2 l hl last (by simp)) hi hpl
      omega
    · obtain rfl := mem_singleton.1 hl
      rw [hpl] at hi; cases hi; omega

theorem range_nonempty (hn : doc.order.Nodup) (hs : doc.visibleLeaves node <+ doc.order)
    (hr : doc.range? node = some r) : r.start < r.stop := by
  obtain ⟨first, _, _, hfirst, _, hpf, _⟩ := exists_of_range? hr
  have := mem_range_of_sublist hn hs hr (mem_of_head? hfirst) hpf
  omega

/-! ### Order of siblings -/

/-- Ranges of siblings follow each other exactly when all tokens of the one stand before all
tokens of the other. -/
theorem pairwise_range_iff (hn : doc.order.Nodup) {nodes : List Node}
    (hs : ∀ m ∈ nodes, doc.visibleLeaves m <+ doc.order) :
    ((nodes.filterMap doc.range?).Pairwise fun r s => r.stop ≤ s.start) ↔
      nodes.Pairwise fun m n => ∀ x ∈ doc.visibleLeaves m, ∀ y ∈ doc.visibleLeaves n,
        Before doc.order x y := by
  rw [pairwise_filterMap]
  constructor
  · refine fun h => h.imp_of_mem fun {m n} hm hn' hmn x hx y hy => ?_
    obtain ⟨r, hr⟩ := exists_range? hx
    obtain ⟨s, hs'⟩ := exists_range? hy
    obtain ⟨i, hi⟩ := exists_position (mem_visibleLeaves.1 hx).2
    obtain ⟨j, hj⟩ := exists_position (mem_visibleLeaves.1 hy).2
    have h₁ := (mem_range_of_sublist hn (hs m hm) hr hx hi).2
    have h₂ := (mem_range_of_sublist hn (hs n hn') hs' hy hj).1
    have h₃ := hmn r hr s hs'
    exact before_of_lt hi hj (by omega)
  · refine fun h => h.imp fun {m n} hmn r hr s hs' => ?_
    obtain ⟨_, last, j, _, hlast, _, hj, hstop⟩ := exists_of_range? hr
    obtain ⟨first, _, _, hfirst, _, hi, _⟩ := exists_of_range? hs'
    have := lt_of_before hn (hmn last (mem_of_getLast? hlast) first
      (mem_of_head? hfirst)) hj hi
    omega

theorem ordered_iff (h : doc.IsTree) :
    doc.Ordered ↔ ∀ node, doc.visibleLeaves node <+ doc.order := by
  constructor
  · intro ho
    refine h.linked.induction ?_ ?_
    · intro l
      rw [visibleLeaves_leaf]
      split
      · next hl => exact singleton_sublist.2 hl
      · exact nil_sublist _
    · intro b ih
      rw [visibleLeaves_branch h.linked]
      refine sublist_of_before h.order_nodup ?_ (pairwise_flatMap.2 ⟨?_, ?_⟩)
      · intro x hx
        obtain ⟨m, _, hx⟩ := mem_flatMap.1 hx
        exact (mem_visibleLeaves.1 hx).2
      · exact fun m hm => pairwise_before (ih m hm)
      · exact (pairwise_range_iff h.order_nodup ih).1 (ho b)
  · intro hs b
    refine (pairwise_range_iff h.order_nodup fun m _ => hs m).2 ?_
    have hb := pairwise_before (hs b)
    rw [visibleLeaves_branch h.linked] at hb
    exact (pairwise_flatMap.1 hb).2

end Lossless.Document
