import Lossless.Proofs.Lowering

/-! Lists that are cleared twice. The second time finds what the first has left between the
neighbours of the list and leaves the same, as long as it writes the closing bound at the same
indentation. A list that has gone from its optional has no neighbours any more, and all text lies
between them. -/

namespace Lossless

open List

theorem Forest.clearChildren_of_nil {f : Forest} {b : Branch} (h : f.children b = []) :
    f.clearChildren b = f := by
  have hsame : f.containers.modify b.index ({ · with children := [] }) = f.containers := by
    refine Array.ext_getElem? fun i => ?_
    rw [Array.getElem?_modify]
    split
    · next hi =>
      subst hi
      cases hc : f.containers[b.index]? with
      | none => rfl
      | some c =>
        have hnil : c.children = [] := by simpa [children, container, hc] using h
        rw [Option.map_some, ← hnil]
    · rfl
  rw [clearChildren, h, foldl_nil, setChildren, modifyContainer, hsame]

namespace Document

variable {doc after : Document} {rule : ListRule} {list : Branch} {l : Leaf}
  {ls inner inner' rs : List Leaf}

/-! ### What stands on both sides of a list -/

/-- The tokens up to the left neighbour of a list, those between its neighbours, and those from the
right neighbour on. -/
structure Sides (doc : Document) (list : Branch) (ls inner rs : List Leaf) : Prop where
  aligned : doc.Aligned
  has : doc.Has list
  order_eq : doc.order = ls ++ (inner ++ rs)
  left : doc.leftLeaf? list = ls.getLast?
  right : doc.rightLeaf? list = rs.head?

theorem Aligned.exists_sides (h : doc.Aligned) (hlist : doc.Has list) :
    ∃ ls inner rs, doc.Sides list ls inner rs := by
  refine ⟨doc.order.take (doc.trivia list).start, doc.leavesIn (doc.trivia list),
    doc.order.drop (doc.trivia list).stop, h, hlist, ?_, ?_, ?_⟩
  · have hstop : doc.order.drop (doc.trivia list).stop =
        (doc.order.drop (doc.trivia list).start).drop
          ((doc.trivia list).stop - (doc.trivia list).start) := by
      rw [drop_drop, Nat.add_sub_cancel' (doc.trivia_start_le list)]
    rw [hstop, leavesIn, take_append_drop, take_append_drop]
  · rcases h.trivia_start_cases list with ⟨hnone, hstart⟩ | ⟨l, i, hl, -, hi, hstart⟩
    · rw [hnone, hstart]
      rfl
    · rw [hl, hstart, take_add_one, getElem?_of_idxOf? hi, Option.toList_some, getLast?_concat]
  · rcases h.trivia_stop_cases list with ⟨hnone, hstop⟩ | ⟨l, hl, -, hi⟩
    · rw [hnone, hstop, drop_length]
      rfl
    · rw [hl, head?_drop, getElem?_of_idxOf? hi]

namespace Sides

variable (h : doc.Sides list ls inner rs)
include h

theorem trivia_eq : doc.trivia list = ⟨ls.length, ls.length + inner.length⟩ :=
  trivia_of_block h.aligned.tree.order_nodup h.order_eq h.left h.right

theorem triviaText_eq : doc.triviaText list = Layout.join (inner.map doc.textOf) := by
  rw [triviaText, Layout.textOf, h.trivia_eq, layout, ← map_drop, ← map_take, h.order_eq, drop_left,
    Nat.add_sub_cancel_left, take_left]

theorem not_beside (hl : l ∈ inner) : l ∉ doc.leftLeaves list ++ doc.rightLeaves list := by
  intro hm
  have hin : l ∈ doc.leavesIn (doc.trivia list) := by
    rwa [h.trivia_eq, leavesIn, h.order_eq, drop_left, Nat.add_sub_cancel_left, take_left]
  obtain ⟨i, hi⟩ := exists_position (mem_of_mem_drop (mem_of_mem_take hin))
  obtain ⟨hstart, hstop⟩ := (mem_leavesIn h.aligned.tree.order_nodup hi).1 hin
  rcases mem_append.1 hm with hm | hm
  · have := h.aligned.lt_trivia_start hm hi
    omega
  · have := h.aligned.trivia_stop_le hm hi
    omega

/-- The neighbours stay when other tokens come between them. -/
theorem refit (ha : after.Aligned) (hr : doc.Rewired after.toForest list)
    (ho : after.order = ls ++ (inner' ++ rs))
    (hnew : ∀ l ∈ inner', l ∈ inner ∨ ¬ doc.Has l) : after.Sides list ls inner' rs := by
  have hlinked := h.aligned.tree.linked
  have hsame : ∀ l ∈ doc.leftLeaves list ++ doc.rightLeaves list,
      (l ∈ after.order ↔ l ∈ doc.order) := by
    intro l hl
    have hinner : l ∉ inner := fun hm => h.not_beside hm hl
    have hinner' : l ∉ inner' := fun hm =>
      (hnew l hm).elim hinner fun hnot => hnot (hlinked.has_beside _ l hl)
    rw [ho, h.order_eq]
    simp [hinner, hinner']
  obtain ⟨hleft, hright⟩ := neighbours_of_rewired hr hlinked h.has ha.tree.linked hsame
  exact ⟨ha, hr.has _ h.has, ho, hleft.trans h.left, hright.trans h.right⟩

theorem text_eq_iff (h' : after.Sides list ls inner' rs) (hr : doc.Rewired after.toForest list) :
    after.text = doc.text ↔
      Layout.join (inner'.map after.textOf) = Layout.join (inner.map doc.textOf) := by
  have hold : ∀ ks ⊆ doc.order, ks.map after.textOf = ks.map doc.textOf := fun ks hks =>
    map_congr_left fun l hl => hr.textOf l (h.aligned.tree.order_has l (hks hl))
  have hls := hold ls (by simp [h.order_eq])
  have hrs := hold rs (by simp [h.order_eq])
  simp only [text, layout, h.order_eq, h'.order_eq, map_append, Layout.join_append, hls, hrs,
    String.append_right_inj, String.append_left_inj]

end Sides

/-! ### A list goes -/

/-- The texts between the bounds of a list that is emptied: the closing bound goes to a line of its
own. -/
def closingTexts (doc : Document) (rule : ListRule) (list : Branch) : Layout :=
  if doc.isFramed rule list then
    Layout.lineBreak :: if (doc.parentIndent list).isEmpty then [] else [doc.parentIndent list]
  else []

theorem texts_newIndentedBreak (doc : Document) (indent : String) :
    (doc.newIndentedBreak indent).1.map (doc.newIndentedBreak indent).2.textOf =
      Layout.lineBreak :: if indent.isEmpty then [] else [indent] := by
  have hbreak := doc.textOf_newToken Layout.lineBreak
  unfold newIndentedBreak newLiteral
  cases hempty : indent.isEmpty with
  | true => simp [hbreak]
  | false =>
    have hkept := textOf_newToken_of_has (doc.has_newToken Layout.lineBreak) indent
    have hblank := (doc.newToken Layout.lineBreak).2.textOf_newToken indent
    simp [hkept, hbreak, hblank]

theorem clearSpan_eq_trivia (h : rule.multiline = false ∨ doc.isFramed rule list = true) :
    doc.clearSpan rule list = doc.trivia list := by
  rw [clearSpan]
  rcases h with hinline | hframed
  · rw [hinline]
    rfl
  · rw [isFramed, Bool.and_eq_true, Bool.and_eq_true] at hframed
    rw [hframed.1.1, hframed.1.2, hframed.2]
    rfl

/-- A list goes with all that stood between its neighbours. -/
theorem Sides.emptyList (h : doc.Sides list ls inner rs)
    (hspan : rule.multiline = false ∨ doc.isFramed rule list = true) :
    ∃ closing, (doc.emptyList rule list).Sides list ls closing rs ∧
      (∀ l ∈ closing, ¬ doc.Has l) ∧
      closing.map (doc.emptyList rule list).textOf = doc.closingTexts rule list := by
  have haligned := h.aligned.emptyList rule list
  have hrewired := doc.rewired_emptyList rule list
  have hstripped : (doc.stripped rule list).Aligned :=
    (((Thinned.refl h.aligned.tree).clearChildren list).cut _).aligned h.aligned
  have hgone : doc.Rewired (doc.stripped rule list).toForest list :=
    (Forest.Rewired.refl _ list).clearChildren
  have ho : (doc.stripped rule list).order = ls ++ rs := by
    show doc.order.take _ ++ doc.order.drop _ = _
    rw [clearSpan_eq_trivia hspan, h.trivia_eq, Nat.max_eq_right (Nat.le_add_right ..), h.order_eq,
      take_left, ← append_assoc, ← length_append, drop_left]
  have hstart : (doc.clearSpan rule list).start = ls.length := by
    rw [clearSpan_eq_trivia hspan, h.trivia_eq]
  rw [emptyList_eq] at haligned hrewired ⊢
  rw [closingTexts]
  cases hframed : doc.isFramed rule list with
  | true =>
    rw [hframed, if_pos rfl] at haligned hrewired
    have hn := Fresh.newIndentedBreak hstripped.tree list (doc.parentIndent list)
    have htexts := texts_newIndentedBreak (doc.stripped rule list) (doc.parentIndent list)
    rw [if_pos rfl, if_pos rfl]
    generalize (doc.stripped rule list).newIndentedBreak (doc.parentIndent list) = closing
      at haligned hrewired hn htexts ⊢
    have hnew : ∀ l ∈ closing.1, ¬ doc.Has l := fun l hl hd => hn.new l hl (hgone.has _ hd)
    refine ⟨closing.1, h.refit haligned hrewired ?_ fun l hl => .inr (hnew l hl), hnew,
      htexts⟩
    show take (doc.clearSpan rule list).start _ ++ _ ++ drop _ _ = _
    rw [hn.order_eq, ho, hstart, take_left, drop_left, append_assoc]
  | false =>
    rw [hframed, if_neg Bool.false_ne_true] at haligned hrewired
    rw [if_neg Bool.false_ne_true, if_neg Bool.false_ne_true]
    exact ⟨[], h.refit haligned hrewired ho (forall_mem_nil _), forall_mem_nil _, rfl⟩

section

variable (h : doc.Aligned) (hlist : doc.Has list)
  (hspan : rule.multiline = false ∨ doc.isFramed rule list = true)
include h hlist hspan

theorem Aligned.triviaText_emptyList :
    (doc.emptyList rule list).triviaText list = (doc.closingTexts rule list).join := by
  obtain ⟨ls, inner, rs, hs⟩ := h.exists_sides hlist
  obtain ⟨closing, hs', -, htexts⟩ := hs.emptyList hspan
  rw [hs'.triviaText_eq, htexts]

/-- Emptying a list shows where the text between its neighbours is not the one that it writes. -/
theorem Aligned.text_emptyList_iff : (doc.emptyList rule list).text = doc.text ↔
    doc.triviaText list = (doc.closingTexts rule list).join := by
  obtain ⟨ls, inner, rs, hs⟩ := h.exists_sides hlist
  obtain ⟨closing, hs', -, htexts⟩ := hs.emptyList hspan
  rw [hs.text_eq_iff hs' (doc.rewired_emptyList rule list), htexts, hs.triviaText_eq, eq_comm]

/-- A list that nothing holds has no neighbours, and the whole text goes with it. -/
theorem Aligned.not_mem_emptyList_of_free (hfree : doc.parent list = none) (hl : l ∈ doc.order) :
    l ∉ (doc.emptyList rule list).order := by
  obtain ⟨ls, inner, rs, hs⟩ := h.exists_sides hlist
  obtain ⟨closing, hs', hnew, -⟩ := hs.emptyList hspan
  have hlength := congrArg List.length hs.order_eq
  have htrivia := (h.trivia_of_free hfree).symm.trans hs.trivia_eq
  rw [Span.mk.injEq] at htrivia
  rw [length_append, length_append] at hlength
  have hrs : rs = [] := eq_nil_of_length_eq_zero (by omega)
  rw [hs'.order_eq, eq_nil_of_length_eq_zero htrivia.1.symm, hrs, nil_append, append_nil]
  exact fun hin => hnew l hin (h.tree.order_has l hl)

end

theorem range?_of_nil (h : doc.Linked) (hnil : doc.children list = []) :
    doc.range? list = none := by
  refine range?_eq_none.2 ?_
  rw [visibleLeaves, h.leaves_branch, hnil]
  rfl

/-- A list without children that is open on a side has nothing to lose. -/
theorem emptyList_of_open (hd : doc.Linked) (hnil : doc.children list = [])
    (hlines : rule.multiline = true) (hopen : doc.isFramed rule list = false) :
    doc.emptyList rule list = doc.updateComments := by
  have hspan : (doc.clearSpan rule list).stop = (doc.clearSpan rule list).start := by
    rw [clearSpan, range?_of_nil hd hnil, hlines]
    rw [isFramed, hlines, Bool.true_and] at hopen
    cases hbelow : rule.below.applies (doc.isTopLevel list) with
    | false => rfl
    | true =>
      rw [hbelow, Bool.and_true] at hopen
      rw [hopen]
      rfl
  have hclear : doc.clearChildren list = doc := by
    show { doc with toForest := doc.toForest.clearChildren list } = doc
    rw [Forest.clearChildren_of_nil hnil]
  have hcut : doc.stripped rule list = doc := by
    rw [stripped, hclear, Document.cut, hspan, Nat.max_self, take_append_drop]
  rw [emptyList_eq, hopen, if_neg Bool.false_ne_true, hcut]

theorem Aligned.parent_clearOptional {found : Branch × OptionalRule} (h : doc.Aligned)
    (hfound : doc.optionalAround? list = some found) :
    (doc.clearOptional found.2 found.1).parent list = none := by
  have hthin := (Thinned.refl h.tree).clearOptional found.2 found.1
  by_contra hsome
  obtain ⟨p, hp⟩ := Option.ne_none_iff_exists'.1 hsome
  have hchild := hthin.tree.linked.up hp
  have hold := h.tree.linked.down ((hthin.children p).subset hchild)
  obtain rfl : p = found.1 := Option.some.inj (hold.symm.trans (parent_of_optionalAround? hfound))
  rw [children_clearOptional] at hchild
  cases hchild

/-- A list that has been cleared stands in no optional. -/
theorem Aligned.optionalAround?_clearedList (h : doc.Aligned) (rule : ListRule) (list : Branch) :
    (doc.clearedList rule list).optionalAround? list = none := by
  rw [Document.clearedList]
  cases hfound : (doc.emptyList rule list).optionalAround? list with
  | none => exact hfound
  | some found =>
    rw [Option.elim_some, optionalAround?, (h.emptyList rule list).parent_clearOptional hfound]
    rfl

theorem Aligned.optionalAround?_emptyList (h : doc.Aligned) (hlist : doc.Has list)
    (rule : ListRule) : (doc.emptyList rule list).optionalAround? list = doc.optionalAround? list :=
  optionalAround?_of_rewired h.tree.linked (doc.rewired_emptyList rule list)
    ((h.retains_stripped rule list).trans (h.retains_emptyList rule list)).evolves.grammar hlist

theorem Aligned.clearedList_eq (h : doc.Aligned) (hlist : doc.Has list)
    (hopt : doc.optionalAround? list = none) (rule : ListRule) :
    doc.clearedList rule list = doc.emptyList rule list := by
  rw [Document.clearedList, h.optionalAround?_emptyList hlist, hopt]
  rfl

theorem closingTexts_of_framed (h : doc.isFramed rule list = true) :
    (doc.closingTexts rule list).join = Layout.lineBreak ++ doc.parentIndent list := by
  rw [closingTexts, h, if_pos rfl]
  split
  · next hempty =>
    rw [String.isEmpty_iff.1 hempty]
    rfl
  · exact congrArg _ String.append_empty

/-! ### What a second clear does -/

/-- Two clears of a list that keeps no element and has no placeholder. -/
structure Reclears (doc once twice : Document) (rule : ListRule) (list : Branch) : Prop where
  inline : doc.optionalAround? list = none → rule.multiline = false → twice.text = once.text
  /-- Between two bounds the closing one is written again. -/
  framed : doc.optionalAround? list = none → doc.isFramed rule list = true →
    once.isFramed rule list = true →
      (twice.text = once.text ↔ once.parentIndent list = doc.parentIndent list)
  /-- All that stands between the neighbours is written again. -/
  bounded : rule.multiline = false ∨ once.isFramed rule list = true →
    (twice.text = once.text ↔ once.triviaText list = (once.closingTexts rule list).join)
  opened : rule.multiline = true → once.isFramed rule list = false → twice.text = once.text
  /-- Out of its optional the list has no neighbours, and everything goes. -/
  gone : doc.optionalAround? list ≠ none →
    rule.multiline = false ∨ once.isFramed rule list = true → ∀ l ∈ once.order, l ∉ twice.order

theorem Aligned.parent_clearedList (h : doc.Aligned) (hlist : doc.Has list)
    (hopt : doc.optionalAround? list ≠ none) (rule : ListRule) :
    (doc.clearedList rule list).parent list = none := by
  obtain ⟨found, hfound⟩ := Option.ne_none_iff_exists'.1 hopt
  rw [← h.optionalAround?_emptyList hlist rule] at hfound
  rw [Document.clearedList, hfound]
  exact (h.emptyList rule list).parent_clearOptional hfound

theorem Aligned.reclears (h : doc.Aligned) (hlist : doc.Has list) (rule : ListRule) :
    Reclears doc (doc.clearedList rule list)
      ((doc.clearedList rule list).clearedList rule list) rule list := by
  obtain ⟨gone, hgone⟩ := h.retains_clearedList rule list
  have hlist' := hgone.evolves.has _ hlist
  have honce := h.clearedList rule list
  have hcleared : doc.optionalAround? list = none →
      doc.clearedList rule list = doc.emptyList rule list :=
    fun hopt => h.clearedList_eq hlist hopt rule
  have hnil := doc.children_clearedList_eq_nil rule list
  have hfree := fun hopt => h.parent_clearedList hlist hopt rule
  rw [honce.clearedList_eq hlist' (h.optionalAround?_clearedList rule list)]
  have hagain (ho : rule.multiline = false ∨ (doc.clearedList rule list).isFramed rule list) :=
    honce.text_emptyList_iff hlist' ho
  refine ⟨fun hopt hinline => ?_, fun hopt hd ho => ?_, hagain, fun hlines hopen => ?_,
    fun hopt ho l hl => honce.not_mem_emptyList_of_free hlist' ho (hfree hopt) hl⟩
  · have hnone : ∀ d : Document, d.closingTexts rule list = [] := fun d => by
      rw [closingTexts, isFramed, hinline]
      rfl
    refine (hagain (.inl hinline)).2 ?_
    rw [hcleared hopt, h.triviaText_emptyList hlist (.inl hinline), hnone, hnone]
  · rw [hagain (.inr ho), closingTexts_of_framed ho, hcleared hopt,
      h.triviaText_emptyList hlist (.inr hd), closingTexts_of_framed hd, String.append_right_inj,
      eq_comm]
  · rw [emptyList_of_open honce.tree.linked hnil hlines hopen]
    rfl

end Document

namespace Edit

open Document

variable {doc once : Document} {rule : ListRule} {list retained : Branch} {l : Leaf}

theorem run_clearList_plain (hrule : doc.listRule? list = some rule)
    (hplain : rule.placeholder = none) (hfirst : doc.retainedFirst? rule list = none) :
    (clearList list).run doc = .ok () (doc.clearedList rule list) :=
  (run_clearList_none hrule hfirst).trans (run_refill_of_none hplain ..)

/-- A list with no element but one that is kept stays as it is. -/
theorem run_clearList_of_lone (hrule : doc.listRule? list = some rule)
    (hfirst : doc.retainedFirst? rule list = some retained)
    (hlone : ∀ e ∈ doc.listElements rule list, e = retained) :
    (clearList list).run doc = .ok () doc := by
  have hloop : ∀ es : List Branch, (∀ e ∈ es, e = retained) → (es.forM fun e =>
      if e = retained then pure () else discard <| removeElement list e : Edit Unit).run doc =
        .ok () doc := by
    intro es hes
    induction es with
    | nil => rfl
    | cons e es ih =>
      rw [List.forM, if_pos (hes e mem_cons_self)]
      exact ih fun e he => hes e (mem_cons_of_mem _ he)
  rw [run_clearList_some hrule hfirst]
  exact hloop _ fun e he => hlone e (mem_reverse.1 he)

/-- A list on the way to the one element that it keeps, with the elements that are still to go. -/
structure Dwindles (doc : Document) (rule : ListRule) (list retained : Branch) (rest : List Branch)
    (mid : Document) : Prop where
  evolves : Evolves (fun _ _ => True) doc mid
  aligned : mid.Aligned
  left : ∀ e ∈ mid.listElements rule list, e ∈ rest ∨ e = retained
  kept : retained ∈ mid.listElements rule list
  leaves : mid.leaves retained = doc.leaves retained
  shown : ∀ l ∈ doc.leaves retained, l ∈ doc.ink → l ∈ mid.order

theorem Dwindles.takeFrom {mid after taken : Document} {e : Branch} {rest : List Branch}
    (h : Dwindles doc rule list retained (e :: rest) mid) (he : e ∈ mid.listElements rule list)
    (hne : retained ≠ e) (hrun : (takeFrom rule list e).run mid = .ok taken after) :
    Dwindles doc rule list retained rest after := by
  have hchild := (mem_listElements.1 he).1
  have hsibling := (mem_listElements.1 h.kept).1
  have hlinked := h.aligned.tree.linked
  obtain ⟨hpart, hparted, -⟩ := h.aligned.parted hchild rule
  obtain ⟨_, p, n, hrun'⟩ := run_takeFrom_beside he h.kept hne hlinked
  rw [hrun] at hrun'
  cases hrun'
  have hdelists := (delists_detachElement h.aligned.tree rule list e).insertBreaks p n
  have hretains := hpart.trans (hpart.tree.retains_insertBreaks p n)
  refine ⟨h.evolves.trans hdelists.evolves, hparted.insertBreaks p n, fun e' he' => ?_,
    hdelists.mem_listElements.2 ⟨hne, h.kept⟩, ?_, fun l hl hink => ?_⟩
  · obtain ⟨hne', hold⟩ := hdelists.mem_listElements.1 he'
    exact (h.left e' hold).imp_left fun hm => (mem_cons.1 hm).resolve_left hne'
  · have hrewired := rewired_detachElement (mid.withoutPadding rule list e) rule list e
    rw [(mid.withoutPadding_tables rule list e).1] at hrewired
    refine .trans ?_ h.leaves
    refine .trans (hpart.tree.linked.leaves_congr hretains.tree.linked _ fun c _ =>
      children_insertBreaks ..) ?_
    exact hrewired.leaves_child hlinked hpart.tree.linked hsibling
  · have htext := h.evolves.textOf l (h.evolves.start.has_of_mem_leaves hl)
    refine hretains.kept l (mem_ink.2 ⟨h.shown l hl hink, ?_⟩) fun hgone => ?_
    · rw [htext]
      exact (mem_ink.1 hink).2
    rw [append_nil] at hgone
    exact h.aligned.not_mem_departs_of_sibling hchild hsibling hne (h.leaves ▸ hl) hgone

/-- A kept element with one token keeps its text. -/
theorem Dwindles.retainedFirst?_eq (h : Dwindles doc rule list retained [] once)
    (hd : doc.IsTree) (hfirst : doc.retainedFirst? rule list = some retained)
    (hleaves : doc.leaves retained = [l]) (hl : l ∈ doc.ink) :
    once.retainedFirst? rule list = some retained := by
  have hmem : l ∈ doc.leaves retained := hleaves ▸ mem_singleton_self l
  have hhead : (once.listElements rule list).head? = some retained := by
    have hne := ne_nil_of_mem h.kept
    rw [head?_eq_some_head hne, (h.left _ (head_mem hne)).resolve_left not_mem_nil]
  have htext : once.visibleText retained = doc.visibleText retained := by
    rw [visibleText_of_leaves hd hleaves (mem_ink.1 hl).1,
      visibleText_of_leaves h.aligned.tree (h.leaves.trans hleaves) (h.shown l hmem hl)]
    exact h.evolves.textOf l (hd.linked.has_of_mem_leaves hmem)
  refine Option.filter_eq_some_iff.2 ⟨hhead, ?_⟩
  rw [htext]
  exact (Option.filter_eq_some_iff.1 hfirst).2

/-- Around an element that is kept all others go. -/
theorem exists_clearList_some (h : doc.Aligned) (hrule : doc.listRule? list = some rule)
    (hfirst : doc.retainedFirst? rule list = some retained) :
    ∃ after, (clearList list).run doc = .ok () after ∧
      Dwindles doc rule list retained [] after := by
  have hlinked := h.tree.linked
  have hmem := mem_of_head? (Option.filter_eq_some_iff.1 hfirst).1
  have hstart : Dwindles doc rule list retained (doc.listElements rule list).reverse doc :=
    ⟨.refl hlinked, h, fun e he => .inl (mem_reverse.2 he), hmem, rfl,
      fun _ _ hink => (mem_ink.1 hink).1⟩
  have hskip : ∀ d es, Dwindles doc rule list retained (retained :: es) d →
      Dwindles doc rule list retained es d := fun d es hd =>
    ⟨hd.evolves, hd.aligned, fun e he =>
      (hd.left e he).elim (fun hm => (mem_cons.1 hm).symm) .inr, hd.kept, hd.leaves,
      hd.shown⟩
  obtain ⟨after, hrun, hafter⟩ := exists_run_clear_along hskip
    (fun d e es taken mid hd he _ hne hrun => hd.takeFrom he hne hrun) hstart hlinked
    hrule hmem (nodup_reverse.2 (listElements_nodup hlinked rule list))
    fun e he => mem_reverse.1 he
  exact ⟨after, (run_clearList_some hrule hfirst).trans hrun, hafter⟩

end Edit

end Lossless
