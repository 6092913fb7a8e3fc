import Lossless.Proofs.Evolving
import Lossless.Proofs.Grafting
import Lossless.Proofs.Joined
import Lossless.Proofs.OneSide

/-! Elements taken out of a list between brackets. An element goes with the delimiter and the space
on one side of it; the brackets close over an empty list. -/

namespace Lossless.Document

open List Option Layout Forest Text Entry Node

variable {doc : Document} {rule : ListRule} {list : Branch} {s : Brackets}
  {entries pre post entries' : List Entry} {e f : Entry} {delimiter space m : Leaf}
  {mark : Option Leaf} {xs ys block : List Leaf} {element : Branch}

/-! ### Ink beside the entries -/

theorem isBlank_of_mem_enclosures {left right : String}
    (h : enclosures.contains (left, right) = true) :
    isBlank left = false ∧ isBlank right = false := by
  have key : ∀ p ∈ enclosures, isBlank p.1 = false ∧ isBlank p.2 = false := by decide
  exact key _ (contains_iff_mem.1 h)

theorem Joined.inked_before (h : doc.Joined rule list s entries) (hpre : pre <+: entries) :
    ∀ t ∈ ((s.before ++ s.opening :: body pre).map doc.textOf).getLast?,
      isBlank t = false := by
  intro t ht
  rcases eq_nil_or_concat' pre with rfl | ⟨init, e, rfl⟩
  · simp only [body_nil, map_append, map_cons, map_nil,
      getLast?_append, getLast?_singleton, some_or, mem_def,
      some.injEq] at ht
    exact ht ▸ (isBlank_of_mem_enclosures h.enclosed).1
  · have he := h.fills e (hpre.subset (by simp))
    obtain ⟨t', ht', hink⟩ := he.inked.2
    have hsplit : s.before ++ s.opening :: body (init ++ [e]) =
        (s.before ++ s.opening :: (body init ++ e.jointLeaves)) ++ e.leaves := by simp
    rw [hsplit, map_append, getLast?_append, mem_def.1 ht', some_or] at ht
    cases ht
    exact hink

theorem Joined.inked_head (h : doc.Joined rule list s entries) (hf : f ∈ entries)
    (rest : List Leaf) :
    ∀ t ∈ ((f.leaves ++ rest).map doc.textOf).head?, isBlank t = false := by
  intro t ht
  obtain ⟨t', ht', hink⟩ := (h.fills f hf).inked.1
  rw [map_append, head?_append, mem_def.1 ht', some_or] at ht
  cases ht
  exact hink

theorem Joined.inked_closing (h : doc.Joined rule list s entries) :
    ∀ t ∈ ((s.closing :: s.after).map doc.textOf).head?, isBlank t = false := by
  intro t ht
  cases ht
  exact (isBlank_of_mem_enclosures h.enclosed).2

/-! ### Delimiters -/

theorem Joined.delimiterOf?_later (h : doc.Joined rule list s (pre ++ e :: post))
    (hdelimiter : rule.delimiter.isEmpty = false) (hj : e.joint = some (delimiter, space)) :
    doc.delimiterOf? rule list e.element = some delimiter := by
  have hidx := h.row.idxOf?_entry
  simp only [hj, toList_some, map_singleton, length_append,
    length_singleton] at hidx
  have hget : (doc.children list)[(children pre).length]? = some delimiter := by
    rw [h.children_eq, children_append, children_cons, nodes, hj,
      getElem?_append_right (Nat.le_refl _), Nat.sub_self]
    rfl
  simp [delimiterOf?, hdelimiter, hidx, hget, leaf?]

theorem Joined.delimiterOf?_first (h : doc.Joined rule list s (e :: post))
    (hdelimiter : rule.delimiter.isEmpty = false) :
    doc.delimiterOf? rule list e.element = (post.head?.bind Entry.joint).map Prod.fst := by
  have hnone : e.joint = none := h.alternate.first e (by simp)
  have h' : doc.Joined rule list s ([] ++ e :: post) := h
  have hidx := h'.row.idxOf?_entry
  simp only [hnone, toList_none, map_nil, children_nil, append_nil,
    length_nil] at hidx
  have hkids : doc.children list = .branch e.element :: children post := by
    rw [h.children_eq, Entry.children_cons, Entry.nodes, hnone]
    rfl
  have hget : ((doc.children list)[1]?).bind leaf? =
      (post.head?.bind Entry.joint).map Prod.fst := by
    rw [hkids]
    cases post with
    | nil => rfl
    | cons f post =>
      obtain ⟨j, hj⟩ := isSome_iff_exists.1 (h.alternate.later f (by simp))
      simp [Entry.nodes, hj, leaf?]
  simp [delimiterOf?, hdelimiter, hidx, hget]

/-! ### One element -/

section

variable (mark : Option Leaf)

theorem IsTree.dropMark (h : doc.IsTree) (list : Branch) : (doc.dropMark list mark).IsTree := by
  cases mark with
  | none => exact h
  | some m => exact (h.discard [m]).removeChild list m

theorem rewired_dropMark (doc : Document) (list : Branch) :
    doc.Rewired (doc.dropMark list mark).toForest list := by
  cases mark with
  | none => exact Rewired.refl ..
  | some m => exact (Rewired.refl ..).removeChild m

theorem textOf_dropMark (doc : Document) (l : Leaf) :
    (doc.dropMark list mark).textOf l = doc.textOf l := by
  cases mark with
  | none => rfl
  | some m => exact textOf_removeChild ..

theorem grammar_dropMark (doc : Document) : (doc.dropMark list mark).grammar = doc.grammar := by
  cases mark <;> rfl

theorem order_dropMark (doc : Document) :
    (doc.dropMark list mark).order = doc.order.filter (!mark.toList.contains ·) := by
  cases mark with
  | none => simp [Document.dropMark]
  | some m => rfl

theorem children_dropMark (doc : Document) :
    (doc.dropMark list mark).children list =
      mark.elim (doc.children list) fun m => (doc.children list).erase (.leaf m) := by
  cases mark with
  | none => rfl
  | some m => exact (children_removeChild ..).trans (if_pos rfl)

end

/-! ### What is left -/

/-- The tokens that are left when a range between two parts of the text goes. -/
def closeUp (doc : Document) (before after : List Leaf) : List Leaf :=
  if Layout.spaceBefore (before.map doc.textOf) = [] then
    before ++ after.drop (Layout.spaceAfter (after.map doc.textOf)).length
  else before.take (before.length - (Layout.spaceBefore (before.map doc.textOf)).length) ++ after

theorem map_closeUp (doc : Document) (before after : List Leaf) :
    (doc.closeUp before after).map doc.textOf =
      Layout.closeUp (before.map doc.textOf) (after.map doc.textOf) := by
  rw [closeUp, Layout.closeUp, length_map]
  split
  · rw [map_append, map_drop]
  · rw [map_append, map_take]

theorem textOf_detachElement (doc : Document) (rule : ListRule) (list element : Branch) (l : Leaf) :
    (doc.detachElement rule list element).textOf l = doc.textOf l := by
  obtain ⟨mark, late, heq, hlate⟩ := doc.detachElement_cases rule list element
  rw [heq]
  rcases hlate with rfl | ⟨span, rfl⟩
  · exact (textOf_removeChild ..).trans (textOf_dropMark mark doc l)
  · exact (textOf_removeChild ..).trans (textOf_dropMark mark doc l)

section

variable (h : doc.IsTree) (helement : .branch element ∈ doc.children list)
  (horder : doc.order.filter (!(doc.delimiterOf? rule list element).toList.contains ·) =
    xs ++ (block ++ ys))
  (hne : block ≠ []) (hfirst : doc.firstLeaf? element = block.head?)
  (hlast : doc.lastLeaf? element = block.getLast?)
include h helement horder hne hfirst hlast

/-- What is left when an element goes that covers a block of the text, once its delimiter is out of
the way. -/
theorem detachElement_block : ∃ span, doc.detachElement rule list element =
      ((doc.dropMark list (doc.delimiterOf? rule list element)).cut span).updateComments.removeChild
        list element ∧
    ((doc.dropMark list (doc.delimiterOf? rule list element)).cut span).order =
      doc.closeUp xs ys := by
  let mark := doc.delimiterOf? rule list element
  let dropped := doc.dropMark list mark
  have hdropped : dropped.order = xs ++ (block ++ ys) := (order_dropMark mark doc).trans horder
  have htree : dropped.IsTree := h.dropMark mark list
  have hleaves : dropped.leaves element = doc.leaves element :=
    (rewired_dropMark mark doc list).leaves_child h.linked htree.linked helement
  -- the block is still there, and what is shown was shown
  have hshown : ∀ l, dropped.order.contains l = true → doc.order.contains l = true := by
    intro l hl
    rw [contains_iff_mem, order_dropMark] at hl
    exact contains_iff_mem.2 (mem_of_mem_filter hl)
  have hblock : ∀ l ∈ block, dropped.order.contains l = true := fun l hl =>
    contains_iff_mem.2 (by simp [hdropped, hl])
  have hhead := head?_eq_some_head hne
  have hlast' := getLast?_eq_some_getLast hne
  have hrange : dropped.range? element =
      some ⟨xs.length, xs.length + block.length⟩ := by
    refine range?_of_block htree.order_nodup hdropped hne ?_ ?_
    · rw [firstLeaf?, visibleLeaves, hleaves, hhead]
      exact head?_filter_of_imp (hfirst.trans hhead) (hblock _ (head_mem hne)) hshown
    · rw [lastLeaf?, visibleLeaves, hleaves, hlast']
      exact getLast?_filter_of_imp (hlast.trans hlast') (hblock _ (getLast_mem hne)) hshown
  have htext : dropped.layout = (xs ++ (block ++ ys)).map doc.textOf := by
    rw [layout, hdropped]
    exact map_congr_left fun l _ => textOf_dropMark mark doc l
  have hcut := take_widenOneSide_block doc.textOf xs block ys
  rw [← htext] at hcut
  have hlength : (⟨xs.length, xs.length + block.length⟩ : Span).stop ≤ dropped.layout.length := by
    simp [htext]
  have hle := dropped.layout.widenOneSide_covers hlength
  refine ⟨_, ?_, (order_cut dropped ?_).trans (hdropped ▸ hcut)⟩
  · rw [detachElement_eq]
    simp only [show doc.dropMark list (doc.delimiterOf? rule list element) = dropped from rfl,
      hrange, elim_some]
  · exact hle.1.trans ((Nat.le_add_right ..).trans hle.2)

theorem layout_detachElement : (doc.detachElement rule list element).layout =
    Layout.closeUp (xs.map doc.textOf) (ys.map doc.textOf) := by
  obtain ⟨span, heq, hcut⟩ := detachElement_block h helement horder hne hfirst hlast
  rw [← map_closeUp, ← hcut, layout, heq]
  exact map_congr_left fun l _ => heq ▸ textOf_detachElement ..

end

theorem closeUp_of_inked (h : ∀ t ∈ (xs.map doc.textOf).getLast?, isBlank t = false) :
    doc.closeUp xs ys = xs ++ ys.drop (spaceAfter (ys.map doc.textOf)).length :=
  if_pos (spaceBefore_of_inked h)

theorem Joined.detach (h : doc.Joined rule list s entries)
    (he : e ∈ entries) (hmark : doc.delimiterOf? rule list e.element = mark)
    (horder : doc.order.filter (!mark.toList.contains ·) = xs ++ (e.leaves ++ ys))
    (hleft : doc.closeUp xs ys = s.around (body entries'))
    (hchildren : ((doc.dropMark list mark).children list).erase e.element =
      children entries')
    (halternate : Alternate entries')
    (hentries : ∀ f ∈ entries', ∃ f₀ ∈ entries, f₀.element = f.element ∧ f₀.leaves = f.leaves ∧
      (f.joint = none ∨ f₀.joint = f.joint)) :
    (doc.detachElement rule list e.element).Joined rule list s entries' ∧
      (doc.detachElement rule list e.element).entryTexts entries' = doc.entryTexts entries' := by
  have helement : branch e.element ∈ doc.children list := by
    rw [h.children_eq]
    exact element_mem_children he
  have hfills := h.fills e he
  subst hmark
  obtain ⟨span, heq, hcut⟩ := detachElement_block h.tree helement horder hfills.leaves_ne_nil
    hfills.covers.first hfills.covers.last
  refine ⟨?_, map_congr_left fun f _ => congrArg Layout.join (map_congr_left fun l _ =>
    textOf_detachElement ..)⟩
  rw [heq]
  refine h.step ((rewired_dropMark _ doc list).removeChild e.element) (grammar_dropMark _ doc)
    (((h.tree.dropMark _ list).cut _).updateComments.removeChild list _) (hcut.trans hleft) ?_
    halternate (fun l hl _ => ?_) ?_ ?_
  · exact (children_removeChild ..).trans ((if_pos rfl).trans hchildren)
  · have hl := (cut_sublist ..).subset hl
    rw [order_dropMark] at hl
    exact mem_of_mem_filter hl
  · intro f hf
    obtain ⟨f₀, hf₀, h₁, h₂, -⟩ := hentries f hf
    exact Or.inl ⟨f₀, hf₀, h₁, h₂⟩
  · intro f hf j hj
    obtain ⟨f₀, hf₀, -, -, h₃⟩ := hentries f hf
    rw [hj] at h₃
    exact Or.inl ⟨f₀, hf₀, h₃.resolve_left (by simp)⟩

theorem filter_mark (hn : (xs ++ m :: ys).Nodup) :
    (xs ++ m :: ys).filter (fun l => !contains [m] l) = xs ++ ys := by
  rw [nodup_append, nodup_cons] at hn
  obtain ⟨-, ⟨hys, -⟩, hxs⟩ := hn
  rw [filter_append, filter_cons_of_neg (by simp), filter_eq_self.2,
    filter_eq_self.2]
  · intro a ha
    simpa using fun he : a = m => hys (he ▸ ha)
  · intro a ha
    simpa using fun he : a = m => hxs a ha m (by simp) he

theorem Joined.detachLater (h : doc.Joined rule list s (pre ++ e :: post))
    (hdelimiter : rule.delimiter.isEmpty = false) (hj : e.joint = some (delimiter, space)) :
    (doc.detachElement rule list e.element).Joined rule list s (pre ++ post) ∧
      (doc.detachElement rule list e.element).entryTexts (pre ++ post) =
        doc.entryTexts (pre ++ post) := by
  let outer := s.before ++ s.opening :: body pre
  let rest := body post ++ s.closing :: s.after
  have horder : doc.order = outer ++ delimiter :: space :: (e.leaves ++ rest) := by
    rw [h.order_eq]
    simp [Brackets.around, jointLeaves, hj, outer, rest]
  have hkids : doc.children list = children pre ++
      .leaf delimiter :: .branch e.element :: children post := by
    rw [h.children_eq]
    simp [nodes, hj]
  have hdrop : doc.order.filter (!(some delimiter).toList.contains ·) =
      (outer ++ [space]) ++ (e.leaves ++ rest) := by
    rw [horder]
    refine (filter_mark (horder ▸ h.tree.order_nodup)).trans ?_
    simp
  have hclose : doc.closeUp (outer ++ [space]) rest = outer ++ rest := by
    have hspace : spaceBefore ((outer ++ [space]).map doc.textOf) = [" "] := by
      rw [map_append, map_singleton, (h.joint e (by simp) _ hj).2, spaceBefore_space,
        spaceBefore_of_inked (h.inked_before (prefix_append ..))]
      rfl
    rw [closeUp, hspace, if_neg (by simp)]
    simp
  have hnodup := h.tree.linked.once list
  rw [hkids] at hnodup
  refine h.detach (by simp) (h.delimiterOf?_later hdelimiter hj) hdrop (hclose.trans ?_) ?_
    (h.alternate.erase (by rw [hj]; rfl)) ?_
  · simp [Brackets.around, outer, rest]
  · rw [children_dropMark, elim_some, hkids, erase_middle hnodup, erase_middle,
      children_append]
    exact hnodup.sublist ((sublist_cons_self _ _).append_left _)
  · intro f hf
    refine ⟨f, ?_, rfl, rfl, Or.inr rfl⟩
    rcases mem_append.1 hf with hf | hf <;> simp [hf]

theorem Joined.detachFirst (h : doc.Joined rule list s (e :: f :: post))
    (hdelimiter : rule.delimiter.isEmpty = false) :
    (doc.detachElement rule list e.element).Joined rule list s ({ f with joint := none } :: post) ∧
      (doc.detachElement rule list e.element).entryTexts ({ f with joint := none } :: post) =
        doc.entryTexts (f :: post) := by
  have hnone : e.joint = none := h.alternate.first e (by simp)
  obtain ⟨⟨delimiter, space⟩, hj⟩ := isSome_iff_exists.1 (h.alternate.later f (by simp))
  let outer := s.before ++ [s.opening]
  let rest := f.leaves ++ (Entry.body post ++ s.closing :: s.after)
  have horder : doc.order = (outer ++ e.leaves) ++ delimiter :: space :: rest := by
    rw [h.order_eq]
    simp [Brackets.around, jointLeaves, hnone, hj, outer, rest]
  have hkids : doc.children list =
      [.branch e.element] ++ .leaf delimiter :: .branch f.element :: children post := by
    rw [h.children_eq]
    simp [nodes, hnone, hj]
  have hmark : doc.delimiterOf? rule list e.element = some delimiter := by
    rw [h.delimiterOf?_first hdelimiter]
    simp [hj]
  have hdrop : doc.order.filter (!(some delimiter).toList.contains ·) =
      outer ++ (e.leaves ++ space :: rest) := by
    rw [horder]
    refine (filter_mark (horder ▸ h.tree.order_nodup)).trans ?_
    simp
  have hclose : doc.closeUp outer (space :: rest) = outer ++ rest := by
    refine (closeUp_of_inked (h.inked_before nil_prefix)).trans ?_
    rw [map_cons, (h.joint f (by simp) _ hj).2, spaceAfter_space,
      spaceAfter_of_inked (h.inked_head (by simp) _)]
    rfl
  have hnodup := h.tree.linked.once list
  rw [hkids] at hnodup
  refine h.detach (by simp) hmark hdrop (hclose.trans ?_) ?_ h.alternate.eraseFirst ?_
  · simp [Brackets.around, jointLeaves, outer, rest]
  · rw [children_dropMark, elim_some, hkids, erase_middle hnodup]
    simp [nodes]
  · intro g hg
    rcases mem_cons.1 hg with rfl | hg
    · exact ⟨f, by simp, rfl, rfl, Or.inl rfl⟩
    · exact ⟨g, by simp [hg], rfl, rfl, Or.inr rfl⟩

theorem Joined.detachOnly (h : doc.Joined rule list s [e])
    (hdelimiter : rule.delimiter.isEmpty = false) :
    (doc.detachElement rule list e.element).Joined rule list s [] := by
  have hnone : e.joint = none := h.alternate.first e (by simp)
  let outer := s.before ++ [s.opening]
  let rest := s.closing :: s.after
  have hmark : doc.delimiterOf? rule list e.element = none := h.delimiterOf?_first hdelimiter
  have horder : doc.order.filter (!(none : Option Leaf).toList.contains ·) =
      outer ++ (e.leaves ++ rest) := by
    rw [h.order_eq]
    simp [Brackets.around, Entry.jointLeaves, hnone, outer, rest]
  have hclose : doc.closeUp outer rest = outer ++ rest := by
    refine (closeUp_of_inked (h.inked_before nil_prefix)).trans ?_
    rw [spaceAfter_of_inked h.inked_closing]
    rfl
  have halternate : Alternate [] := ⟨by simp, by simp⟩
  refine (h.detach (by simp) hmark horder (hclose.trans ?_) ?_ halternate (by simp)).1
  · simp [Brackets.around, outer, rest]
  · show (doc.children list).erase _ = _
    rw [h.children_eq]
    simp [nodes, hnone]

/-- Without an element at an index, a list consists of the other elements. -/
theorem Joined.detachElement (h : doc.Joined rule list s (pre ++ e :: post))
    (hdelimiter : rule.delimiter.isEmpty = false) :
    ∃ entries', (doc.detachElement rule list e.element).Joined rule list s entries' ∧
      (doc.detachElement rule list e.element).entryTexts entries' =
        (doc.entryTexts (pre ++ e :: post)).eraseIdx pre.length := by
  have hrest : (doc.entryTexts (pre ++ e :: post)).eraseIdx pre.length =
      doc.entryTexts (pre ++ post) := by
    have hlength : (doc.entryTexts pre).length = pre.length := length_map ..
    rw [entryTexts, map_append, map_cons, eraseIdx_append_of_length_le]
    · simp [entryTexts]
    · simp
  rw [hrest]
  cases hj : e.joint with
  | some j => exact ⟨_, h.detachLater hdelimiter hj⟩
  | none =>
    -- only the first entry has nothing before it
    cases pre with
    | cons p pre =>
      have := h.alternate.later e (by simp)
      rw [hj] at this
      cases this
    | nil =>
      rw [nil_append] at h ⊢
      cases post with
      | nil => exact ⟨[], h.detachOnly hdelimiter, by simp only [entryTexts, map_nil]⟩
      | cons f post => exact ⟨_, h.detachFirst hdelimiter⟩

/-! ### All elements -/

theorem Joined.emptyList (h : doc.Joined rule list s entries) (hline : rule.multiline = false) :
    (doc.emptyList rule list).Joined rule list s [] := by
  have heq : doc.emptyList rule list =
      ((doc.clearChildren list).cut (doc.trivia list)).updateComments := by
    simp [Document.emptyList, hline]
  have hle : (doc.trivia list).start ≤ (doc.trivia list).stop := by
    rw [h.trivia_eq]
    exact Nat.le_add_right ..
  have hcut : ((doc.clearChildren list).cut (doc.trivia list)).order <+ doc.order :=
    cut_sublist ..
  rw [heq]
  refine h.step ((Rewired.refl ..).clearChildren) rfl
    ((h.tree.clearChildren list).cut _).updateComments ?_ ?_ ⟨by simp, by simp⟩
    (fun l hl _ => hcut.subset hl) (by simp) (by simp)
  · have hcut := cut_middle (s.before ++ [s.opening]) (body entries) (s.closing :: s.after)
    refine (order_cut (doc.clearChildren list) hle).trans ?_
    show doc.order.take (doc.trivia list).start ++
      doc.order.drop (doc.trivia list).stop = _
    rw [h.trivia_eq, h.order_eq]
    simpa [Brackets.around] using hcut
  · exact (children_clearChildren ..).trans (if_pos rfl)

end Lossless.Document
