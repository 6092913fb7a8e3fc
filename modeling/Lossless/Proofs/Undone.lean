import Lossless.Proofs.Arriving
import Lossless.Proofs.Inserting
import Lossless.Proofs.Placeholders
import Lossless.Proofs.Removing

/-! An element that is put beside the others of a list and taken out again. The delimiter goes
with it, but of the white space around it the removal takes what stands on one side, whoever put it
there. -/

namespace Lossless

open List Option Layout

namespace Document

variable {doc grown fragment : Document} {rule : ListRule} {list element root : Branch}
  {new xs ys block : List Leaf} {texts : Layout} {index : Nat}

section

variable {p i : Nat} {tokens lead trail : List Leaf} {nodes : List Node} {delimiter space : Leaf}

/-- An element that has come in with a delimiter and a space leaves the space behind, or the white
space that was there before. -/
theorem Stocked.layout_detach (hd : doc.IsTree) (hlist : doc.Has list)
    (hst : Stocked doc grown rule list root new texts)
    (hspare : Spare doc grown root new [delimiter, space] [delimiter])
    (htokens : tokens ~ [delimiter, space] ++ new)
    (hnodes : nodes ~ [.leaf delimiter] ++ [.branch root]) (hi : i ≤ (doc.children list).length)
    (hmark : ((grown.insertAt p tokens).insertChildren list i nodes).delimiterOf? rule list root =
      some delimiter)
    (hrest : tokens.filter (fun l => !contains [delimiter] l) = lead ++ (new ++ trail)) :
    (((grown.insertAt p tokens).insertChildren list i nodes).updateComments.detachElement rule list
        root).layout =
      Layout.closeUp (doc.layout.take p ++ lead.map grown.textOf)
        (trail.map grown.textOf ++ doc.layout.drop p) := by
  have hs := hst.house (p := p) hd hlist hspare htokens hnodes hi
  let mid := (grown.insertAt p tokens).insertChildren list i nodes
  have hfills : mid.Fills rule ⟨none, root, new⟩ := hst.fills rfl rfl (kindOf_insertChildren ..)
    hs.leaves_eq (textOf_insertChildren i nodes _) hs.shown
  have hold : ∀ l ∈ doc.order, (!contains [delimiter] l) = true := by
    intro l hl
    have hne : l ≠ delimiter := by
      rintro rfl
      exact hspare.new_new l mem_cons_self (hd.order_has l hl)
    simpa using hne
  have horder : mid.order = doc.order.take p ++ (tokens ++ doc.order.drop p) := by
    rw [order_insertChildren, insertAt, hst.order_eq, append_assoc]
  have hfilter : mid.order.filter
      (!(mid.updateComments.delimiterOf? rule list root).toList.contains ·) =
      (doc.order.take p ++ lead) ++ (new ++ (trail ++ doc.order.drop p)) := by
    have hmark' : mid.updateComments.delimiterOf? rule list root = some delimiter := hmark
    rw [horder, hmark', toList_some, filter_append, filter_append, hrest,
      filter_eq_self.2 fun l hl => hold l (mem_of_mem_take hl),
      filter_eq_self.2 fun l hl => hold l (mem_of_mem_drop hl)]
    simp only [append_assoc]
  have hchild : Node.branch root ∈ mid.children list := by
    rw [hst.children_insert hlist hi, if_pos rfl]
    have hmem : Node.branch root ∈ nodes := hnodes.mem_iff.2 (by simp)
    simp [hmem]
  have htexts : ∀ ls : List Leaf, ls ⊆ doc.order → ls.map mid.textOf = ls.map doc.textOf :=
    fun ls hls => map_congr_left fun l hl =>
      (textOf_insertChildren i nodes _ l).trans (hst.rewired.textOf l (hd.order_has l (hls hl)))
  have hgrown : ∀ ls : List Leaf, ls.map mid.textOf = ls.map grown.textOf := fun ls =>
    map_congr_left fun l _ => textOf_insertChildren i nodes _ l
  refine (layout_detachElement hs.tree.updateComments hchild hfilter hfills.leaves_ne_nil
    hfills.first hfills.last).trans ?_
  show Layout.closeUp ((doc.order.take p ++ lead).map mid.textOf)
    ((trail ++ doc.order.drop p).map mid.textOf) = _
  rw [map_append, map_append, htexts _ (take_subset ..),
    htexts _ (drop_subset ..), hgrown, hgrown, map_take, map_drop]
  rfl

theorem Spare.nodup_append (hspare : Spare doc grown root new [delimiter, space] [delimiter])
    (hst : Stocked doc grown rule list root new texts) : ([delimiter, space] ++ new).Nodup :=
  List.nodup_append.2 ⟨hspare.nodup, hst.nodup, fun a ha _ hb he => hspare.apart a ha (he ▸ hb)⟩

variable (hd : doc.IsTree) (hlist : doc.Has list)
  (hst : Stocked doc grown rule list root new texts)
  (hspare : Spare doc grown root new [delimiter, space] [delimiter])
  (hdelimiter : rule.delimiter.isEmpty = false) (hspace : grown.textOf space = " ")
include hd hlist hst hspare hdelimiter hspace

theorem Stocked.layout_detach_after (hi : i ≤ (doc.children list).length) :
    (((grown.insertAt p (delimiter :: space :: new)).insertChildren list i
        [.leaf delimiter, .branch root]).updateComments.detachElement rule list root).layout =
      Layout.closeUp (doc.layout.take p ++ [" "]) (doc.layout.drop p) := by
  have hs := hst.house (p := p) hd hlist hspare (.refl _) (.refl _) hi
  let mid := (grown.insertAt p (delimiter :: space :: new)).insertChildren list i
    [.leaf delimiter, .branch root]
  have hkids : mid.updateComments.children list = (doc.children list).take i ++
      .leaf delimiter :: .branch root :: (doc.children list).drop i :=
    (hst.children_insert hlist hi list).trans (if_pos rfl)
  have hmark : mid.updateComments.delimiterOf? rule list root = some delimiter :=
    (delimiterOf?_eq_some (hs.tree.linked.once list)).2 ⟨hdelimiter, Or.inl ⟨_, _, hkids⟩⟩
  have hrest : (delimiter :: space :: new).filter (fun l => !contains [delimiter] l) =
      [space] ++ (new ++ []) := by
    rw [append_nil]
    exact @filter_mark delimiter [] (space :: new) (hspare.nodup_append hst)
  refine (hst.layout_detach hd hlist hspare (.refl _) (.refl _) hi hmark hrest).trans ?_
  simp [hspace]

theorem Stocked.layout_detach_first :
    (((grown.insertAt p (new ++ [delimiter, space])).insertChildren list 0
        [.branch root, .leaf delimiter]).updateComments.detachElement rule list root).layout =
      Layout.closeUp (doc.layout.take p) (" " :: doc.layout.drop p) := by
  have htokens : new ++ [delimiter, space] ~ [delimiter, space] ++ new := perm_append_comm
  have hnodes : [.branch root, .leaf delimiter] ~ [Node.leaf delimiter] ++ [.branch root] := .swap ..
  have hs := hst.house (p := p) hd hlist hspare htokens hnodes (Nat.zero_le _)
  let mid := (grown.insertAt p (new ++ [delimiter, space])).insertChildren list 0
    [.branch root, .leaf delimiter]
  have hkids : mid.updateComments.children list =
      .branch root :: .leaf delimiter :: doc.children list :=
    (hst.children_insert hlist (Nat.zero_le _) list).trans (if_pos rfl)
  have hmark : mid.updateComments.delimiterOf? rule list root = some delimiter :=
    (delimiterOf?_eq_some (hs.tree.linked.once list)).2 ⟨hdelimiter, Or.inr ⟨_, hkids⟩⟩
  have hrest : (new ++ [delimiter, space]).filter (fun l => !contains [delimiter] l) =
      [] ++ (new ++ [space]) := filter_mark (htokens.nodup_iff.2 (hspare.nodup_append hst))
  refine (hst.layout_detach hd hlist hspare htokens hnodes (Nat.zero_le _) hmark hrest).trans ?_
  simp [hspace]

end

theorem Stocked.leaves_list (hd : doc.IsTree) (hst : Stocked doc grown rule list root new texts) :
    grown.leaves list = doc.leaves list := by
  rw [hst.tree.linked.leaves_branch, hd.linked.leaves_branch, hst.children_eq]
  exact flatMap_congr fun n hn => hst.rewired.leaves_child hd.linked hst.tree.linked hn

/-- Where an element goes beside others: before the list, or behind the element before it. -/
def seam (doc : Document) (rule : ListRule) (list : Branch) (index : Nat) : Nat :=
  if index = 0 then ((doc.range? list).map Span.start).getD 0
  else
    let previous := (doc.listElements rule list)[index - 1]?
    ((previous.bind fun e => doc.range? e).map Span.stop).getD 0

/-- The text without an element that was put beside others and taken out again. -/
def reclosed (doc : Document) (rule : ListRule) (list : Branch) (index : Nat) : Layout :=
  let before : Layout := doc.layout.take (doc.seam rule list index)
  let after : Layout := doc.layout.drop (doc.seam rule list index)
  if index = 0 then before.closeUp (" " :: after) else Layout.closeUp (before ++ [" "]) after

/-- The white space where an element goes is what taking it out again leaves there. Behind another
element that is none. Before the first one it is a single space, or none at all on either side. -/
def Recloses (doc : Document) (rule : ListRule) (list : Branch) (index : Nat) : Prop :=
  let before : Layout := doc.layout.take (doc.seam rule list index)
  let after : Layout := doc.layout.drop (doc.seam rule list index)
  if index = 0 then
    if before.spaceBefore = [] then after.spaceAfter.join = "" else before.spaceBefore.join = " "
  else before.spaceBefore.join = ""

instance (doc : Document) (rule : ListRule) (list : Branch) (index : Nat) :
    Decidable (doc.Recloses rule list index) :=
  inferInstanceAs (Decidable (ite _ (ite _ _ _) _))

theorem join_reclosed (doc : Document) (rule : ListRule) (list : Branch) (index : Nat) :
    (doc.reclosed rule list index).join = doc.text ↔ doc.Recloses rule list index := by
  have hsplit := take_append_drop (doc.seam rule list index) doc.layout
  rw [text, reclosed, Recloses]
  generalize doc.seam rule list index = p at hsplit
  split
  · conv_lhs => rhs; rw [← hsplit]
    exact join_closeUp_space_right ..
  · conv_lhs => rhs; rw [← hsplit]
    exact join_closeUp_space_left ..

theorem layout_insertBeside_detachElement (hd : doc.IsTree)
    (helements : doc.listElements rule list ≠ [])
    (hvisible : ∀ e ∈ doc.listElements rule list, doc.isVisible (.branch e) = true)
    (hindex : index ≤ (doc.listElements rule list).length)
    (hdelimiter : rule.delimiter.isEmpty = false) (hf : fragment.IsTree)
    (hkind : rule.accepts fragment.rootKind = true)
    (hink : InkedEnds
      ((fragment.coveredLeaves fragment.root).map fragment.textOf)) :
    let beside := doc.insertBeside rule list index fragment
    (beside.2.detachElement rule list beside.1).layout = doc.reclosed rule list index := by
  intro beside
  obtain ⟨first, hfirst⟩ := exists_mem_of_ne_nil _ helements
  have hlist := Forest.has_of_mem_children (mem_listElements.1 hfirst).1
  have hst := Stocked.graft hd hlist hf hkind hink
  obtain ⟨hst₂, hspare, -, hspace⟩ := hst.separators
  have hbeside : beside.1 = (doc.graftVisible fragment).1.root := rfl
  have hrange : ∀ e ∈ doc.listElements rule list, ∃ r, doc.range? e = some r := by
    intro e he
    obtain ⟨l, hl⟩ := isSome_iff_exists.1 (hvisible e he)
    exact exists_range? (mem_of_head? hl)
  cases index with
  | succ k =>
    have hk : k < (doc.listElements rule list).length := hindex
    have hprevious := getElem?_eq_getElem hk
    obtain ⟨r, hr⟩ := hrange _ (getElem_mem hk)
    have hchild := (mem_listElements.1 (getElem_mem hk)).1
    generalize (doc.listElements rule list)[k] = previous at hprevious hr hchild
    have hr₂ := (range?_congr hst₂.order_eq
      (hst₂.rewired.leaves_child hd.linked hst₂.tree.linked hchild)).trans hr
    obtain ⟨xs, ys, hxy, hxs, -⟩ := hd.linked.exists_siblings (hd.linked.down hchild)
    have hseam : doc.seam rule list (k + 1) = r.stop := by
      simp [seam, hprevious, hr]
    rw [hbeside, show beside.2 = _ from insertBeside_after hdelimiter (Nat.succ_ne_zero _) hprevious,
      reclosed, hseam, if_neg (Nat.succ_ne_zero _)]
    simp only [hr₂, getD_some, hst₂.children_eq, hxy, idxOf?_append_cons hxs,
      map_some]
    refine hst₂.layout_detach_after hd hlist hspare hdelimiter hspace ?_
    rw [hxy]
    simp
  | zero =>
    have hshown : ∃ r, doc.range? list = some r := by
      obtain ⟨l, hl⟩ := isSome_iff_exists.1 (hvisible first hfirst)
      refine exists_range? (l := l) ?_
      rw [visibleLeaves_branch hd.linked]
      exact mem_flatMap.2 ⟨_, (mem_listElements.1 hfirst).1, mem_of_head? hl⟩
    obtain ⟨r, hr⟩ := hshown
    have hst₁ := hst.newToken rule.delimiter
    have hr₁ := (range?_congr hst₁.order_eq (hst₁.leaves_list hd)).trans hr
    have hseam : doc.seam rule list 0 = r.start := by
      simp [seam, hr]
    rw [hbeside, show beside.2 = _ from insertBeside_before hdelimiter
      (by simpa using helements) hr₁, reclosed, hseam, if_pos rfl]
    exact hst₂.layout_detach_first hd hlist hspare hdelimiter hspace

end Document

namespace Edit

open Document

variable {doc fragment : Document} {rule : ListRule} {list : Branch} {index : Nat}

theorem run_add_of_free (hrule : doc.listRule? list = some rule)
    (hkind : rule.accepts fragment.rootKind = true)
    (hindex : index ≤ (doc.listElements rule list).length)
    (hfree : doc.placeholder? rule list = none) :
    (add list index fragment).run doc =
      .ok (doc.insertBeside rule list index (rule.wrap fragment)).1
        (doc.insertBeside rule list index (rule.wrap fragment)).2 := by
  simp [add, run_listRule hrule, checkKind, hkind, Nat.not_lt.2 hindex, hfree, dropPlaceholder]

/-- An element put beside others and taken out again leaves the text as it was exactly where the
white space beside it is what the removal leaves. -/
theorem text_add_removeElement (hd : doc.IsTree) (hrule : doc.listRule? list = some rule)
    (hdelimiter : rule.delimiter ≠ "") (hpadding : rule.padding = none)
    (hplaceholder : rule.placeholder = none) (helements : doc.listElements rule list ≠ [])
    (hvisible : ∀ e ∈ doc.listElements rule list, doc.isVisible (.branch e) = true)
    (hindex : index ≤ (doc.listElements rule list).length) (hf : fragment.IsTree)
    (hkind : rule.accepts fragment.rootKind = true) (hcomment : fragment.rootKind ≠ .comment)
    (hink : Layout.InkedEnds
      ((fragment.coveredLeaves (.branch fragment.root)).map fragment.textOf)) :
    ∃ added mid taken after, (add list index fragment).run doc = .ok added mid ∧
      (removeElement list added).run mid = .ok taken after ∧
      after.layout = doc.reclosed rule list index ∧
      (after.text = doc.text ↔ doc.Recloses rule list index) := by
  obtain ⟨first, hfirst⟩ := List.exists_mem_of_ne_nil _ helements
  have hlist := Forest.has_of_mem_children (mem_listElements.1 hfirst).1
  have hempty : rule.delimiter.isEmpty = false := by simpa using hdelimiter
  have hwrap : (rule.wrap fragment).IsTree := ListRule.isTree_wrap hf
  have haccepts := accepts_wrap rule hcomment
  have henlists := enlists_insertBeside hlist hwrap haccepts hd.linked index
  have hadd := run_add_of_free hrule hkind hindex (by simp [placeholder?, hplaceholder])
  generalize hbeside : doc.insertBeside rule list index (rule.wrap fragment) = beside
    at henlists hadd
  have hrule' : beside.2.listRule? list = some rule := by
    rw [listRule?, henlists.evolves.grammar, henlists.evolves.kindOf list hlist]
    exact hrule
  have hmem := henlists.mem_listElements (e := first)
  have hne : first ≠ beside.1 := by
    rintro rfl
    exact henlists.new (hd.linked.has_child (mem_listElements.1 hfirst).1)
  have htake := run_takeElement_of_other (henlists.mem_listElements.2 (Or.inl rfl))
    (hmem.2 (Or.inr hfirst)) hne henlists.evolves.linked
  have hremove := run_removeElement_eq hrule' (henlists.evolves.linked.down henlists.child)
  rw [takeFrom, if_neg (by simp [ListRule.isPadded, hpadding])] at hremove
  have hlayout := layout_insertBeside_detachElement hd helements hvisible hindex hempty hwrap
    haccepts (by
      rw [ListRule.coveredLeaves_wrap hf, List.map_congr_left fun l _ => ListRule.textOf_wrap l]
      exact hink)
  rw [hbeside] at hlayout
  refine ⟨_, _, _, _, hadd, hremove.trans htake, hlayout, ?_⟩
  rw [Document.text, hlayout]
  exact join_reclosed ..

/-- Behind the only argument the text comes back. Before it the break and the indentation of the
argument go, and a space is left in their place. -/
theorem text_add_removeElement_lines :
    let start : Builder := { grammar := .javaScript, source := "f(\n  a\n)\n" }
    let calls : List Builder.Call :=
      [.openNode .call, .token "f", .token "(", .openNode .argumentList, .openNode .argument,
        .token "a", .closeNode, .closeNode, .token ")", .closeNode]
    let fragment := Document.ofSource .javaScript .argument "x"
    ∃ doc rule, (start.run calls).finish = .ok doc ∧ doc.IsTree ∧
      doc.listRule? ⟨1⟩ = some rule ∧ rule.delimiter = "," ∧ rule.padding = none ∧
      rule.placeholder = none ∧ doc.listElements rule ⟨1⟩ = [⟨2⟩] ∧
      doc.isVisible (.branch ⟨2⟩) = true ∧ fragment.IsTree ∧
      rule.accepts fragment.rootKind = true ∧ fragment.rootKind ≠ .comment ∧
      Layout.InkedEnds ((fragment.coveredLeaves (.branch fragment.root)).map fragment.textOf) ∧
      (∃ added mid taken after, (add ⟨1⟩ 1 fragment).run doc = .ok added mid ∧
        (removeElement ⟨1⟩ added).run mid = .ok taken after ∧ after.text = doc.text) ∧
      ∃ added mid taken after, (add ⟨1⟩ 0 fragment).run doc = .ok added mid ∧
        (removeElement ⟨1⟩ added).run mid = .ok taken after ∧
        after.layout = ["f", "(", " ", "a", "\n", ")", "\n"] ∧ after.text ≠ doc.text := by
  intro start calls fragment
  let doc := (start.run calls).built
  let rule : ListRule := { element := .argument, delimiter := "," }
  have hfinish : (start.run calls).finish = .ok doc := by decide +kernel
  obtain ⟨htree, -⟩ := Builder.isTree_of_run hfinish
  have hrule : doc.listRule? ⟨1⟩ = some rule := by decide +kernel
  have helements : doc.listElements rule ⟨1⟩ = [⟨2⟩] := by decide +kernel
  have hvisible : doc.isVisible (.branch ⟨2⟩) = true := by decide +kernel
  have hf : fragment.Aligned := Document.aligned_ofSource ..
  have haccepts : rule.accepts fragment.rootKind = true := by decide +kernel
  have hcomment : fragment.rootKind ≠ .comment := by decide +kernel
  have hink : Layout.InkedEnds
      ((fragment.coveredLeaves (.branch fragment.root)).map fragment.textOf) := by decide +kernel
  have hback : doc.Recloses rule ⟨1⟩ 1 := by decide +kernel
  have hnot : ¬ doc.Recloses rule ⟨1⟩ 0 := by decide +kernel
  have hspace : doc.reclosed rule ⟨1⟩ 0 = ["f", "(", " ", "a", "\n", ")", "\n"] := by decide +kernel
  clear_value doc
  have hrun : ∀ index ≤ 1, ∃ added mid taken after,
      (add ⟨1⟩ index fragment).run doc = .ok added mid ∧
      (removeElement ⟨1⟩ added).run mid = .ok taken after ∧
      after.layout = doc.reclosed rule ⟨1⟩ index ∧
      (after.text = doc.text ↔ doc.Recloses rule ⟨1⟩ index) := by
    intro index hindex
    refine text_add_removeElement htree hrule (by decide) rfl rfl ?_ ?_ ?_ hf.tree haccepts hcomment
      hink
    · simp [helements]
    · simpa [helements] using hvisible
    · simpa [helements] using hindex
  refine ⟨doc, rule, hfinish, htree, hrule, rfl, rfl, rfl, helements, hvisible, hf.tree, haccepts,
    hcomment, hink, ?_, ?_⟩
  · obtain ⟨added, mid, taken, after, hadd, hremove, -, htext⟩ := hrun 1 le_rfl
    exact ⟨added, mid, taken, after, hadd, hremove, htext.2 hback⟩
  · obtain ⟨added, mid, taken, after, hadd, hremove, hlayout, htext⟩ := hrun 0 (by decide)
    exact ⟨added, mid, taken, after, hadd, hremove, hlayout.trans hspace, fun h => hnot (htext.1 h)⟩

end Edit

end Lossless
