import Lossless.Proofs.Calls
import Lossless.Proofs.Departing
import Lossless.Proofs.Refilling

/-! The positions around a node, told from the text alone: among them only the node has tokens of
the tree, and the tokens right beside them are tokens of the tree that the node does not have. -/

namespace Lossless.Document

open List Option Forest

variable {doc : Document} {node : Node} {l : Leaf} {span other : Span} {i : Nat}

/-- A span of positions that holds a node and ends at its neighbours in the tree. -/
structure Encloses (doc : Document) (node : Node) (span : Span) : Prop where
  start_le : span.start ≤ span.stop
  stop_le : span.stop ≤ doc.order.length
  inside : ∀ i l, span.start ≤ i → i < span.stop → doc.order[i]? = some l →
    l ∈ doc.leaves doc.root → l ∈ doc.leaves node
  before : ∀ i l, i + 1 = span.start → doc.order[i]? = some l →
    l ∈ doc.leaves doc.root ∧ l ∉ doc.leaves node
  behind : ∀ l, doc.order[span.stop]? = some l →
    l ∈ doc.leaves doc.root ∧ l ∉ doc.leaves node
  range : ∀ r, doc.range? node = some r → span.start ≤ r.start ∧ r.stop ≤ span.stop

/-- The tokens of the tree before a node stand before a span, and those after it behind the span. -/
structure Flanks (doc : Document) (node : Node) (span : Span) : Prop where
  left : ∀ l ∈ doc.leftLeaves node, ∀ i, doc.position? l = some i → i < span.start
  right : ∀ l ∈ doc.rightLeaves node, ∀ i, doc.position? l = some i → span.stop ≤ i

theorem IsTree.leaves_root (h : doc.IsTree) (hnode : doc.Around doc.root node) :
    doc.leaves doc.root =
      doc.leftLeaves node ++ (doc.leaves node ++ doc.rightLeaves node) := by
  have he := h.linked.surroundings_of_around hnode
  rw [surroundings, surroundings, leftLeaves_of_none h.root_free,
    rightLeaves_of_none h.root_free] at he
  simpa using he.symm

theorem leftLeaf?_of_trivia (hi : i + 1 = (doc.trivia node).start) :
    ∃ l, doc.leftLeaf? node = some l ∧ doc.position? l = some i := by
  cases hleft : (doc.leftLeaf? node).bind doc.position? with
  | none => simp [trivia, hleft] at hi
  | some j =>
    obtain rfl : i = j := by simpa [trivia, hleft] using hi
    exact bind_eq_some_iff.1 hleft

section

variable (h : doc.Aligned)
include h

theorem Aligned.rightLeaf?_of_trivia (hlt : (doc.trivia node).stop < doc.order.length) :
    ∃ l, doc.rightLeaf? node = some l ∧ doc.position? l = some (doc.trivia node).stop := by
  cases hright : (doc.rightLeaf? node).bind doc.position? with
  | none =>
    simp only [trivia, hright, getD_none] at hlt
    omega
  | some j =>
    obtain ⟨l, hl, hj⟩ := bind_eq_some_iff.1 hright
    have hle := h.trivia_stop_le
      (mem_of_mem_filter (mem_of_mem_head? (rightLeaf?_eq h.tree.linked node ▸ hl))) hj
    have hge : j ≤ (doc.trivia node).stop := by simp [trivia, hright]
    exact ⟨l, hl, hj.trans (congrArg some (Nat.le_antisymm hge hle))⟩

theorem Aligned.flanks_trivia (node : Node) : doc.Flanks node (doc.trivia node) where
  left _ hl _ hi := h.lt_trivia_start hl hi
  right _ hl _ hi := h.trivia_stop_le hl hi

theorem Aligned.encloses_trivia (hnode : doc.Around doc.root node) :
    doc.Encloses node (doc.trivia node) where
  start_le := doc.trivia_start_le node
  stop_le := doc.trivia_stop_le_length node
  inside i l hle hlt hl hroot := by
    have hi := idxOf?_of_getElem? h.tree.order_nodup hl
    rw [h.tree.leaves_root hnode] at hroot
    rcases mem_append.1 hroot with hleft | hrest
    · exact absurd (h.lt_trivia_start hleft hi) (Nat.not_lt.2 hle)
    · exact (mem_append.1 hrest).resolve_right fun hright =>
        absurd (h.trivia_stop_le hright hi) (Nat.not_le.2 hlt)
  before i l hi hl := by
    obtain ⟨m, hm, hpos⟩ := leftLeaf?_of_trivia hi
    obtain rfl : m = l := some.inj ((getElem?_of_idxOf? hpos).symm.trans hl)
    rw [leftLeaf?_eq h.tree.linked] at hm
    have hleft := mem_of_mem_filter (mem_of_getLast? hm)
    refine ⟨?_, h.not_mem_leaves_of_beside (mem_append_left _ hleft) (mem_of_idxOf? hpos)⟩
    rw [h.tree.leaves_root hnode]
    exact mem_append_left _ hleft
  behind l hl := by
    obtain ⟨m, hm, hpos⟩ := h.rightLeaf?_of_trivia (List.getElem?_eq_some_iff.1 hl).1
    obtain rfl : m = l := some.inj ((getElem?_of_idxOf? hpos).symm.trans hl)
    rw [rightLeaf?_eq h.tree.linked] at hm
    have hright := mem_of_mem_filter (mem_of_mem_head? hm)
    refine ⟨?_, h.not_mem_leaves_of_beside (mem_append_right _ hright) (mem_of_idxOf? hpos)⟩
    rw [h.tree.leaves_root hnode]
    exact mem_append_right _ (mem_append_right _ hright)
  range _ hr := h.range_bounds hr

/-- A neighbour inside of the span would be a token of the node. -/
theorem Encloses.flanks (he : doc.Encloses node span) (hnode : doc.Around doc.root node)
    (hvisible : doc.isVisible node) : doc.Flanks node span := by
  obtain ⟨first, hfirst⟩ := isSome_iff_exists.1 hvisible
  obtain ⟨r, hr⟩ := exists_range? (mem_of_mem_head? hfirst)
  have hlt := range_nonempty h.tree.order_nodup (h.visible node) hr
  obtain ⟨hstart, hstop⟩ := he.range r hr
  obtain ⟨hleft, hright⟩ := h.range_bounds hr
  have hout : ∀ l ∈ doc.leftLeaves node ++ doc.rightLeaves node, ∀ i, doc.position? l = some i →
      i < span.start ∨ span.stop ≤ i := by
    intro l hl i hi
    by_contra hin
    have hroot : l ∈ doc.leaves doc.root := by
      rw [h.tree.leaves_root hnode]
      exact (mem_append.1 hl).elim (mem_append_left _) fun hr =>
        mem_append_right _ (mem_append_right _ hr)
    exact h.not_mem_leaves_of_beside hl (mem_of_idxOf? hi)
      (he.inside i l (by omega) (by omega) (getElem?_of_idxOf? hi) hroot)
  refine ⟨fun l hl i hi => ?_, fun l hl i hi => ?_⟩
  · have hbefore := h.lt_trivia_start hl hi
    exact (hout l (mem_append_left _ hl) i hi).resolve_right (by omega)
  · have hbehind := h.trivia_stop_le hl hi
    exact (hout l (mem_append_right _ hl) i hi).resolve_left (by omega)

/-- The token at the end of one of two spans would stand inside of the other. -/
theorem Encloses.eq_of_flanks (he : doc.Encloses node span) (hf : doc.Flanks node span)
    (he' : doc.Encloses node other) (hf' : doc.Flanks node other)
    (hnode : doc.Around doc.root node) : span = other := by
  have hbeside : ∀ l, l ∈ doc.leaves doc.root ∧ l ∉ doc.leaves node →
      l ∈ doc.leftLeaves node ∨ l ∈ doc.rightLeaves node := by
    rintro l ⟨hroot, hnot⟩
    rw [h.tree.leaves_root hnode] at hroot
    exact (mem_append.1 hroot).imp_right fun hrest =>
      (mem_append.1 hrest).resolve_left hnot
  have hstart : ∀ {s t : Span}, doc.Flanks node s → doc.Encloses node t → doc.Flanks node t →
      t.start ≤ s.start := by
    intro s t hfs ht hft
    by_contra hlt
    have hle := ht.start_le.trans ht.stop_le
    have hl : doc.order[t.start - 1]? = some _ := getElem?_eq_getElem (by omega)
    have hi := idxOf?_of_getElem? h.tree.order_nodup hl
    rcases hbeside _ (ht.before _ _ (by omega) hl) with hleft | hright
    · have := hfs.left _ hleft _ hi
      omega
    · have := hft.right _ hright _ hi
      have := ht.start_le
      omega
  have hstop : ∀ {s t : Span}, doc.Encloses node s → doc.Flanks node s → doc.Encloses node t →
      doc.Flanks node t → t.stop ≤ s.stop := by
    intro s t hs hfs ht hft
    by_contra hlt
    have hl : doc.order[s.stop]? = some _ :=
      getElem?_eq_getElem (by have := ht.stop_le; omega)
    have hi := idxOf?_of_getElem? h.tree.order_nodup hl
    rcases hbeside _ (hs.behind _ hl) with hleft | hright
    · have := hfs.left _ hleft _ hi
      have := hs.start_le
      omega
    · have := hft.right _ hright _ hi
      omega
  cases span
  cases other
  exact congrArg₂ Span.mk (Nat.le_antisymm (hstart hf' he hf) (hstart hf he' hf'))
    (Nat.le_antisymm (hstop he' hf' he hf) (hstop he hf he' hf'))

end

/-- The positions that the search for neighbours finds around a node are those that the text shows:
the only span that encloses the node, once it is known which tokens stand before the node. A
visible node shows that itself. -/
theorem trivia_iff_encloses (h : doc.IsTree) (ho : doc.Ordered) (hnode : doc.Around doc.root node) :
    doc.Encloses node (doc.trivia node) ∧ doc.Flanks node (doc.trivia node) ∧
      ∀ span, doc.Encloses node span → doc.isVisible node = true ∨ doc.Flanks node span →
        span = doc.trivia node := by
  have ha : doc.Aligned := ⟨h, ho⟩
  refine ⟨ha.encloses_trivia hnode, ha.flanks_trivia node, fun span he hknown => ?_⟩
  have hflanks := hknown.elim (he.flanks ha hnode) id
  exact he.eq_of_flanks ha hflanks (ha.encloses_trivia hnode) (ha.flanks_trivia node) hnode

/-- A class without a base: the place of the base is around the comment before the brace. -/
theorem trivia_iff_encloses_absent :
    let start : Builder := { grammar := .javaScript, source := "class A /* c */ \x7b\x7d\n" }
    let calls : List Builder.Call :=
      [.openNode .program, .openNode .classDefinition, .token "class", .token "A",
        .openNode .extendsOptional, .closeNode, .comment "/* c */", .openNode .enclosedBody,
        .token "\x7b", .token "\x7d", .closeNode, .closeNode, .closeNode]
    ∃ doc, (start.run calls).finish = .ok doc ∧ doc.IsTree ∧ doc.Ordered ∧
      doc.Around doc.root (.branch ⟨2⟩) ∧ doc.isVisible (.branch ⟨2⟩) = false ∧
      doc.trivia (.branch ⟨2⟩) = ⟨3, 10⟩ ∧ doc.Encloses (.branch ⟨2⟩) ⟨3, 10⟩ := by
  intro start calls
  let doc := (start.run calls).built
  have hfinish : (start.run calls).finish = .ok doc := by decide +kernel
  obtain ⟨htree, hordered⟩ := Builder.isTree_of_run hfinish
  have hnode : doc.Around doc.root (.branch ⟨2⟩) := 
    (htree.linked.contains_iff _).1 (by decide +kernel)
  have htrivia : doc.trivia (.branch ⟨2⟩) = ⟨3, 10⟩ := by decide +kernel
  exact ⟨doc, hfinish, htree, hordered, hnode, by decide +kernel, htrivia,
    htrivia ▸ (trivia_iff_encloses htree hordered hnode).1⟩

end Lossless.Document
