import Lossless.Proofs.Refilled

/-! What goes from the text with an element of a list: the tokens that it covers, white space, and
the token that stands beside it as a delimiter. -/

namespace Lossless

open List Layout Document EStateM

namespace Document

variable {doc mid : Document} {rule : ListRule} {list element : Branch} {node : Node}
  {l mark : Leaf}

/-! ### Tokens that an element covers -/

theorem Aligned.visibleLeaves_subset (h : doc.Aligned) (node : Node) :
    doc.visibleLeaves node ⊆ doc.coveredLeaves node := fun x hx =>
  (mem_coveredLeaves h.tree.order_nodup (h.visible node)).2
    ⟨x, hx, x, hx, Or.inl rfl, Or.inl rfl⟩

theorem Thinned.covers (h : Thinned doc mid) (hd : doc.Aligned)
    (hshown : ∀ x ∈ doc.visibleLeaves node, x ∈ mid.visibleLeaves node) (ho : l ∈ mid.order)
    (hl : l ∈ doc.coveredLeaves node) : l ∈ mid.coveredLeaves node := by
  have hn := hd.tree.order_nodup
  rw [mem_coveredLeaves hn (hd.visible node)] at hl
  rw [mem_coveredLeaves h.tree.order_nodup (h.visible hd.tree (hd.visible node))]
  obtain ⟨x, hx, y, hy, hxl, hly⟩ := hl
  have hx' := hshown x hx
  have hy' := hshown y hy
  refine ⟨x, hx', y, hy', hxl.imp_right fun hb => ?_, hly.imp_right fun hb => ?_⟩
  · exact hb.of_sublist hn h.order (mem_visibleLeaves.1 hx').2 ho
  · exact hb.of_sublist hn h.order ho (mem_visibleLeaves.1 hy').2

/-- Lines that end before a node begins, or begin after it ends. -/
def ClearOf (doc : Document) (node : Node) (lines : Span) : Prop :=
  ∀ r, doc.range? node = some r →
    lines.stop ≤ doc.layout.lineOf r.start ∨ doc.layout.lineOf r.stop < lines.start

theorem cutBlankAbove_cases (doc : Document) (list element : Branch) (most : Nat) :
    doc.cutBlankAbove list element most = doc ∨ ∃ lines, doc.ClearOf element lines ∧
      doc.cutBlankAbove list element most = doc.cutLines lines := by
  rw [cutBlankAbove]
  split
  · exact Or.inl rfl
  next lines hlines =>
  split
  · exact Or.inl rfl
  next run hrun =>
  refine Or.inr ⟨_, fun r hr => Or.inl ?_, rfl⟩
  rw [lines?_of_range? hr] at hlines
  cases hlines
  have hstop := find?_some hrun
  exact (eq_of_beq hstop).le

theorem cutBlankBelow_cases (doc : Document) (list element : Branch) (most : Nat) :
    doc.cutBlankBelow list element most = doc ∨ ∃ lines, doc.ClearOf element lines ∧
      doc.cutBlankBelow list element most = doc.cutLines lines := by
  rw [cutBlankBelow]
  split
  · exact Or.inl rfl
  next lines hlines =>
  split
  · exact Or.inl rfl
  next run hrun =>
  refine Or.inr ⟨_, fun r hr => Or.inr ?_, rfl⟩
  rw [lines?_of_range? hr] at hlines
  cases hlines
  have hstart := find?_some hrun
  exact Nat.lt_of_succ_le (eq_of_beq hstart).ge

section

variable (h : doc.Aligned)
include h

theorem Aligned.covers_cutLines {lines : Span} (hclear : doc.ClearOf node lines) :
    doc.coveredLeaves node ⊆ (doc.cutLines lines).coveredLeaves node := by
  have hn := h.tree.order_nodup
  have hkept : ∀ l ∈ doc.coveredLeaves node, l ∈ (doc.cutLines lines).order := by
    intro l hl
    obtain ⟨i, hi⟩ := exists_position (doc.coveredLeaves_subset _ hl)
    rw [coveredLeaves] at hl
    split at hl
    · cases hl
    next r hr =>
    obtain ⟨hle, hlt⟩ := (mem_leavesIn hn hi).1 hl
    refine mem_cutLines hn hi ((hclear r hr).imp (fun hc => ?_) fun hc => ?_)
    · exact hc.trans (lineOf_mono _ hle)
    · exact (lineOf_mono _ hlt).trans_lt hc
  have hthin : Thinned doc (doc.cutLines lines) := (Thinned.refl h.tree).cut _
  intro l hl
  refine hthin.covers h (fun x hx => ?_) (hkept l hl) hl
  exact mem_visibleLeaves.2
    ⟨(mem_visibleLeaves.1 hx).1, hkept x (h.visibleLeaves_subset node hx)⟩

theorem Aligned.covers_withoutPadding (rule : ListRule) (list element : Branch) :
    doc.coveredLeaves element ⊆
      (doc.withoutPadding rule list element).coveredLeaves element := by
  have habove : ∀ (d : Document) most, d.Aligned → d.coveredLeaves element ⊆
      (d.cutBlankAbove list element most).coveredLeaves element := by
    intro d most hd
    rcases d.cutBlankAbove_cases list element most with he | ⟨lines, hclear, he⟩ <;> rw [he]
    · exact Subset.refl _
    · exact hd.covers_cutLines hclear
  have hbelow : ∀ most, (doc.cutBlankBelow list element most).Aligned ∧
      doc.coveredLeaves element ⊆
        (doc.cutBlankBelow list element most).coveredLeaves element := by
    intro most
    rcases doc.cutBlankBelow_cases list element most with he | ⟨lines, hclear, he⟩ <;> rw [he]
    · exact ⟨h, Subset.refl _⟩
    · exact ⟨((Thinned.refl h.tree).cut _).aligned h, h.covers_cutLines hclear⟩
  rw [withoutPadding]
  split
  · rw [withoutBlank]
    split <;> split
    · exact Subset.trans (hbelow _).2 (habove _ _ (hbelow _).1)
    · exact habove _ _ h
    · exact (hbelow _).2
    · exact Subset.refl _
  · exact Subset.refl _

/-! ### Tokens that go -/

section

variable (he : .branch element ∈ doc.children list)
include he

theorem Aligned.not_covered_of_delimiterOf?
    (hmark : doc.delimiterOf? rule list element = some mark) :
    mark ∉ doc.coveredLeaves element := by
  have hlinked := h.tree.linked
  have hn := hlinked.once list
  have hp := hlinked.down he
  refine h.not_mem_coveredLeaves ?_
  obtain ⟨-, ⟨xs, ys, hkids⟩ | ⟨ys, hkids⟩⟩ := (delimiterOf?_eq_some hn).1 hmark
  · have hkids' : doc.children list = (xs ++ [.leaf mark]) ++ .branch element :: ys := by
      rw [hkids, append_assoc]
      rfl
    have hout : .branch element ∉ xs ++ [.leaf mark] := by
      rw [hkids'] at hn
      exact fun hm => (nodup_append.1 hn).2.2 _ hm _ mem_cons_self rfl
    rw [hlinked.leftLeaves_of_parent hp hkids' hout]
    simp [Forest.leaves_leaf]
  · have hkids' : doc.children list = [] ++ .branch element :: .leaf mark :: ys := hkids
    rw [hlinked.rightLeaves_of_parent hp hkids' not_mem_nil]
    simp [Forest.leaves_leaf]

theorem Aligned.not_mem_detachElement (hl : l ∈ doc.departs rule list element) :
    l ∉ (doc.detachElement rule list element).order := by
  have hlinked := h.tree.linked
  have hthin := (Thinned.refl h.tree).dropMark list (doc.delimiterOf? rule list element)
  have hrewired : doc.Rewired (doc.dropMark list (doc.delimiterOf? rule list element)).toForest
      list := rewired_dropMark _ doc list
  have hleft : ∀ x, x ∈ (doc.dropMark list (doc.delimiterOf? rule list element)).order ↔
      x ∈ doc.order ∧ doc.delimiterOf? rule list element ≠ some x := fun x => by
    simp [order_dropMark]
  rw [detachElement_eq]
  dsimp only
  generalize doc.dropMark list (doc.delimiterOf? rule list element) = dropped at *
  have hn := hthin.tree.order_nodup
  have hsub : ((dropped.range? element).elim dropped fun range =>
      dropped.cut (dropped.layout.widenOneSide range)).order ⊆ dropped.order := by
    cases dropped.range? element with
    | none => exact Subset.refl _
    | some r => exact (cut_sublist ..).subset
  by_cases hlo : l ∈ dropped.order
  · have hcovered := (mem_append.1 hl).resolve_right fun hm =>
      ((hleft l).1 hlo).2 (Option.mem_toList.1 hm)
    have hleaves := hrewired.leaves_eq hlinked hthin.tree.linked (hlinked.has_child he)
      (hlinked.not_around_of_child he)
    have hmid := hthin.covers h (fun x hx => ?_) hlo hcovered
    · rw [coveredLeaves] at hmid
      split at hmid
      · cases hmid
      next r hr =>
      obtain ⟨i, hi⟩ := exists_position hlo
      have hin := (mem_leavesIn hn hi).1 hmid
      have hcovers := widenOneSide_covers (range?_stop_le hr)
      rw [hr]
      refine (not_mem_cut hn hlo).2 ((mem_leavesIn hn hi).2 ?_)
      omega
    · have hx' := mem_visibleLeaves.1 hx
      refine mem_visibleLeaves.2 ⟨hleaves ▸ hx'.1, (hleft x).2 ⟨hx'.2, fun hmark => ?_⟩⟩
      exact h.not_covered_of_delimiterOf? he hmark (h.visibleLeaves_subset _ hx)
  · exact fun hm => hlo (hsub hm)

end

omit h in
theorem mem_departs : l ∈ doc.departs rule list element ↔
    l ∈ doc.coveredLeaves element ∨ doc.delimiterOf? rule list element = some l := by
  rw [departs, List.mem_append, Option.mem_toList]

theorem Aligned.mem_departs_withoutPadding (rule : ListRule) (list element : Branch) :
    l ∈ (doc.withoutPadding rule list element).departs rule list element ↔
      l ∈ doc.departs rule list element := by
  have hthin := thinned_withoutPadding h.tree rule list element
  have hmark : (doc.withoutPadding rule list element).delimiterOf? rule list element =
      doc.delimiterOf? rule list element := by
    unfold delimiterOf?
    rw [(doc.withoutPadding_tables rule list element).1]
  rw [mem_departs, mem_departs, hmark]
  exact or_congr_left ⟨fun hl => hthin.coveredLeaves_subset h _ hl,
    fun hl => h.covers_withoutPadding rule list element hl⟩

/-- An element is out of the text with its blank lines. -/
theorem Aligned.parted (he : .branch element ∈ doc.children list) (rule : ListRule) :
    let parted := (doc.withoutPadding rule list element).detachElement rule list element
    Retains doc parted (doc.departs rule list element) ∧ parted.Aligned ∧
      ∀ l ∈ doc.departs rule list element, l ∉ parted.order := by
  have hpadless := h.tree.retains_withoutPadding rule list element
  have haligned := (thinned_withoutPadding h.tree rule list element).aligned h
  have hdeparts := fun l => h.mem_departs_withoutPadding (l := l) rule list element
  have hkids : .branch element ∈ (doc.withoutPadding rule list element).children list := by
    rw [(doc.withoutPadding_tables rule list element).1]
    exact he
  refine ⟨(hpadless.trans (haligned.retains_detachElement rule list element)).mono
    fun l _ hl => (hdeparts l).1 hl, ?_, fun l hl => ?_⟩
  · exact ((Thinned.refl haligned.tree).detachElement rule list element).aligned haligned
  · exact haligned.not_mem_detachElement hkids ((hdeparts l).2 hl)

end

end Document

namespace Edit

variable {doc mid : Document} {rule : ListRule} {list element : Branch} {l : Leaf}

/-- An element goes, its list is given a placeholder if it has none left, and its neighbours are
separated. -/
theorem run_takeFrom_eq (hopt : doc.optionalAround? list = none)
    (hrefill : (refill rule list).run
      ((doc.withoutPadding rule list element).detachElement rule list element) = .ok () mid) :
    ∃ taken, (takeFrom rule list element).run doc = .ok taken
      (if rule.isPadded then
        mid.rejoin rule list ((doc.listElements rule list).idxOf element) else mid) := by
  have htake : ∀ d : Document, d.optionalAround? list = none →
      (refill rule list).run (d.detachElement rule list element) = .ok () mid →
      ∃ taken, (takeElement rule list element).run d = .ok taken mid := by
    intro d hd hrun
    unfold takeElement
    rw [run_get_bind]
    dsimp only
    rw [hd, ite_self]
    dsimp only
    rw [run_bind, run_modify]
    dsimp only
    rw [run_bind, hrun]
    exact ⟨_, run_pure ..⟩
  rw [withoutPadding] at hrefill
  rw [takeFrom]
  split at hrefill
  · next hpadded =>
    have hopt' : (doc.withoutBlank rule list element).optionalAround? list = none := by
      obtain ⟨hforest, hgrammar, -⟩ := doc.withoutBlank_tables rule list element
      rw [← hopt]
      unfold optionalAround? optionalRule?
      rw [hforest, hgrammar]
    obtain ⟨taken, hrun⟩ := htake _ hopt' hrefill
    rw [if_pos hpadded, if_pos hpadded, run_takePadded, hrun]
    exact ⟨taken, rfl⟩
  · next hpadded =>
    obtain ⟨taken, hrun⟩ := htake _ hopt hrefill
    rw [if_neg hpadded, if_neg hpadded, hrun]
    exact ⟨taken, rfl⟩

theorem run_takeFrom_of_refill (hopt : doc.optionalAround? list = none)
    (hrefill : (refill rule list).run
      ((doc.withoutPadding rule list element).detachElement rule list element) = .ok () mid) :
    ∃ taken p n, (takeFrom rule list element).run doc = .ok taken (mid.insertBreaks p n) := by
  obtain ⟨taken, hrun⟩ := run_takeFrom_eq hopt hrefill
  obtain ⟨p, n, hrejoin⟩ := mid.rejoin_cases rule list
    ((doc.listElements rule list).idxOf element)
  rw [hrun]
  split
  · exact ⟨taken, p, n, congrArg _ hrejoin⟩
  · exact ⟨taken, 0, 0, rfl⟩

/-- An element of a list takes with it the tokens that it covers and its delimiter, and no other
ink. -/
theorem retains_takeFrom (h : doc.Aligned) (he : .branch element ∈ doc.children list)
    (hopt : doc.optionalAround? list = none) (rule : ListRule) :
    ∃ taken after, (takeFrom rule list element).run doc = .ok taken after ∧
      doc.Retains after (doc.departs rule list element) ∧
      ∀ l ∈ doc.departs rule list element, l ∈ doc.order → l ∉ after.order := by
  have hpart := h.parted he rule
  obtain ⟨mid, hrefill, hmid⟩ := retains_refill hpart.2.1 (hpart.1.evolves.has _
    (h.tree.linked.has_parent (h.tree.linked.down he))) rule
  obtain ⟨taken, p, n, hrun⟩ := run_takeFrom_of_refill hopt hrefill
  have hrest := hmid.trans (hmid.tree.retains_insertBreaks p n)
  refine ⟨taken, _, hrun, (hpart.1.trans hrest).mono fun l _ hl => ?_, fun l hl ho hafter => ?_⟩
  · simpa using hl
  · exact hpart.2.2 l hl (hrest.old l hafter (hpart.1.evolves.has _ (h.tree.order_has l ho)))

/-- Removing an element takes the tokens that it covers, white space, and the token beside it that
counts as its delimiter. That token is a child of the list, but only its place decides which one it
is, so it need not read like a delimiter. -/
theorem ink_removeElement (h : doc.IsTree) (ho : doc.Ordered)
    (hrule : doc.listRule? list = some rule) (hopt : doc.optionalAround? list = none)
    (he : element ∈ doc.listElements rule list) :
    ∃ taken after, (removeElement list element).run doc = .ok taken after ∧
      (∀ l ∈ doc.order, after.textOf l = doc.textOf l) ∧
      after.order.filter doc.order.contains = doc.order.filter after.order.contains ∧
      (∀ l ∈ doc.ink, l ∉ after.order ↔ l ∈ doc.coveredLeaves (.branch element) ∨
        doc.delimiterOf? rule list element = some l) ∧
      (∀ mark, doc.delimiterOf? rule list element = some mark → .leaf mark ∈ doc.children list) ∧
      ((∃ mark : Option Leaf,
          (∀ m ∈ mark, .leaf m ∈ doc.children list ∧ doc.textOf m = rule.delimiter) ∧
          ∀ l ∈ doc.ink, l ∉ after.order →
            l ∈ doc.coveredLeaves (.branch element) ∨ mark = some l) ↔
        ∀ mark ∈ doc.ink, doc.delimiterOf? rule list element = some mark →
          doc.textOf mark = rule.delimiter) := by
  have haligned : doc.Aligned := ⟨h, ho⟩
  have hchild := (Document.mem_listElements.1 he).1
  obtain ⟨taken, after, hrun, hretains, hgone⟩ := retains_takeFrom haligned hchild hopt rule
  have hlost : ∀ l ∈ doc.ink, l ∉ after.order ↔ l ∈ doc.coveredLeaves (.branch element) ∨
      doc.delimiterOf? rule list element = some l := by
    intro l hl
    rw [← Document.mem_departs]
    exact ⟨fun hout => by_contra fun hnot => hout (hretains.kept l hl hnot),
      fun hm => hgone l hm (Document.mem_ink.1 hl).1⟩
  have hkid : ∀ mark, doc.delimiterOf? rule list element = some mark →
      .leaf mark ∈ doc.children list := fun mark hmark =>
    Document.mem_children_of_delimiterOf? (h.linked.once list) hmark
  refine ⟨taken, after, ?_, fun l hl => hretains.evolves.textOf l (h.order_has l hl),
    hretains.order, hlost, hkid, ?_, ?_⟩
  · simp [removeElement, run_listRule hrule, h.linked.down hchild, hrun]
  · rintro ⟨mark, hmark, hone⟩ m hm hdelimiter
    have hlisted := (hone m hm ((hlost m hm).2 (Or.inr hdelimiter))).resolve_left
      (haligned.not_covered_of_delimiterOf? hchild hdelimiter)
    exact (hmark m hlisted).2
  · intro htext
    refine ⟨(doc.delimiterOf? rule list element).filter doc.ink.contains, fun m hm => ?_,
      fun l hl hout => ((hlost l hl).1 hout).imp_right fun hm => ?_⟩
    · obtain ⟨hm, hink⟩ := Option.filter_eq_some_iff.1 hm
      exact ⟨hkid m hm, htext m (List.contains_iff_mem.1 hink) hm⟩
    · exact Option.filter_eq_some_iff.2 ⟨hm, List.contains_iff_mem.2 hl⟩

/-- The first of two arguments goes with the parenthesis before it, and the comma stays. -/
theorem ink_removeElement_parenthesis :
    let start : Builder := { grammar := .javaScript, source := "f(a, b)" }
    let calls : List Builder.Call := [.openNode .program, .token "f", .openNode .argumentList,
      .token "(", .openNode .argument, .token "a", .closeNode, .token ",", .openNode .argument,
      .token "b", .closeNode, .token ")", .closeNode, .closeNode]
    let rule : ListRule := .delimited .argument ","
    ∃ doc, (start.run calls).finish = .ok doc ∧ doc.IsTree ∧ doc.Ordered ∧
      doc.listRule? ⟨1⟩ = some rule ∧ doc.optionalAround? ⟨1⟩ = none ∧
      (⟨2⟩ : Branch) ∈ doc.listElements rule ⟨1⟩ ∧
      doc.delimiterOf? rule ⟨1⟩ ⟨2⟩ = some ⟨1⟩ ∧ doc.textOf ⟨1⟩ = "(" ∧
      ∃ taken after, (removeElement ⟨1⟩ ⟨2⟩).run doc = .ok taken after ∧
        ⟨1⟩ ∈ doc.ink ∧ ⟨1⟩ ∉ after.order ∧ after.text = "f, b)" := by
  intro start calls rule
  let doc := (start.run calls).built
  have hfinish : (start.run calls).finish = .ok doc := by decide +kernel
  obtain ⟨htree, hordered⟩ := Builder.isTree_of_run hfinish
  have hrule : doc.listRule? ⟨1⟩ = some rule := by decide +kernel
  have hopt : doc.optionalAround? ⟨1⟩ = none := by decide +kernel
  have helement : (⟨2⟩ : Branch) ∈ doc.listElements rule ⟨1⟩ := by decide +kernel
  have hmark : doc.delimiterOf? rule ⟨1⟩ ⟨2⟩ = some ⟨1⟩ := by decide +kernel
  have hink : ⟨1⟩ ∈ doc.ink := by decide +kernel
  obtain ⟨taken, after, hrun, -, -, hlost, -⟩ :=
    ink_removeElement htree hordered hrule hopt helement
  refine ⟨doc, hfinish, htree, hordered, hrule, hopt, helement, hmark, by decide +kernel, taken,
    after, hrun, hink, (hlost _ hink).2 (Or.inr hmark), ?_⟩
  rw [← left_of_ok hrun]
  decide +kernel

end Edit

end Lossless
