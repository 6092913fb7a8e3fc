import Lossless.Proofs.Consistent
import Lossless.Proofs.InOrder
import Lossless.Proofs.Removing

/-! The list of comments of a document against the comments of its text. Tokens that no comment
claims come and go without a change to the list, and so do nodes that show nothing. A comment that
is taken out takes no token of another one along. -/

namespace Lossless

open List Layout Forest

namespace Document

variable {doc after : Document} {b c element optional : Branch} {node : Node} {l x : Leaf}
  {r : Span}

def Current (doc : Document) : Prop :=
  doc.comments = doc.placedComments

theorem commentOf?_eq (doc : Document) (l : Leaf) :
    doc.commentOf? l = (doc.ancestors l).find? (doc.kindOf · == .comment) :=
  rfl

theorem current_updateComments (doc : Document) : doc.updateComments.Current :=
  rfl

theorem commentOf?_of_free (h : doc.parent l = none) : doc.commentOf? l = none := by
  rw [commentOf?_eq, ancestors_of_none h]
  rfl

theorem visibleLeaves_ne_nil (h : doc.Linked) (hl : l ∈ doc.order) (hb : doc.Around b l) :
    doc.visibleLeaves b ≠ [] :=
  ne_nil_of_mem (mem_visibleLeaves.2 ⟨h.mem_leaves.2 hb, hl⟩)

/-- The comments of a text depend on what is around its tokens. -/
theorem placedComments_congr (h : doc.Linked) (h' : after.Linked) (ho : after.order = doc.order)
    (hk : ∀ b, after.kindOf b = doc.kindOf b)
    (hp : ∀ node, doc.visibleLeaves node ≠ [] → after.parent node = doc.parent node) :
    after.placedComments = doc.placedComments := by
  have hkind : after.kindOf = doc.kindOf := funext hk
  have howner : ∀ l ∈ doc.order, after.commentOf? l = doc.commentOf? l := by
    intro l hl
    have hleaf : doc.visibleLeaves l ≠ [] := by simp [hl]
    rw [commentOf?_eq, commentOf?_eq, hkind, h.ancestors_congr h' l (hp _ hleaf)
      fun b hb => hp _ (visibleLeaves_ne_nil h hl hb)]
  rw [placedComments, placedComments, ho, filterMap_congr howner]

namespace Current

theorem congr (hc : doc.Current) (hcomments : after.comments = doc.comments)
    (hplaced : after.placedComments = doc.placedComments) : after.Current :=
  hcomments.trans (Eq.trans hc hplaced.symm)

theorem removeChild (hc : doc.Current) (h : doc.Linked) (hv : doc.visibleLeaves node = [])
    (b : Branch) : (doc.removeChild b node).Current := by
  have h' : (doc.removeChild b node).Linked := h.removeChild b node
  refine hc.congr rfl (placedComments_congr h h' rfl (fun c => kindOf_removeChild ..) ?_)
  intro n hn
  refine (parent_removeChild ..).trans (if_neg ?_)
  rintro ⟨rfl, -⟩
  exact hn hv

theorem clearChildren (hc : doc.Current) (h : doc.Linked)
    (hv : doc.visibleLeaves b = []) : (doc.clearChildren b).Current := by
  have h' : (doc.clearChildren b).Linked := h.clearChildren b
  refine hc.congr rfl (placedComments_congr h h' rfl (fun c => kindOf_clearChildren ..) ?_)
  intro n hn
  refine (parent_clearChildren ..).trans (if_neg fun hm => hn ?_)
  rw [visibleLeaves_branch h] at hv
  exact flatMap_eq_nil_iff.1 hv n hm

theorem insertNew (hc : doc.Current) (text : String) (p : Nat) :
    ((doc.newToken text).2.insertAt p [(doc.newToken text).1]).Current := by
  have howner : ∀ l, ((doc.newToken text).2.insertAt p [(doc.newToken text).1]).commentOf? l =
      doc.commentOf? l := by
    intro l
    have hup : (doc.newToken text).2.ancestors l = doc.ancestors l := by
      rw [ancestors, parent_newToken]
      exact climb_congr (fun b => parent_newToken doc text b) ..
    exact congrArg (List.find? (doc.kindOf · == .comment)) hup
  have hnew : doc.commentOf? (doc.newToken text).1 = none :=
    commentOf?_of_free (parent_of_not_has (doc.not_has_newToken text))
  refine hc.congr rfl ?_
  rw [placedComments, placedComments, funext howner]
  show (filterMap _ (doc.order.take p ++ [_] ++ doc.order.drop p)).eraseDups = _
  rw [filterMap_append, filterMap_append, filterMap_cons_none hnew,
    filterMap_nil, append_nil, ← filterMap_append, take_append_drop]

theorem insertBreaks (hc : doc.Current) (p n : Nat) : (doc.insertBreaks p n).Current := by
  induction n generalizing doc with
  | zero => exact hc
  | succ n ih => exact ih (hc.insertNew ..)

theorem removeHidden (hc : doc.Current) : doc.removeHidden.Current := by
  refine hc.congr rfl ?_
  show (filterMap doc.commentOf? (doc.order.filter _)).eraseDups = _
  rw [placedComments, filterMap_filter]
  congr 1
  refine filterMap_congr fun l _ => ?_
  split
  · rfl
  · next hhidden =>
    refine (commentOf?_of_free ?_).symm
    simp only [Bool.not_eq_true', Bool.not_eq_false, contains_iff_mem] at hhidden
    have := (mem_filter.1 hhidden).2
    rw [Bool.and_eq_true] at this
    exact Option.isNone_iff_eq_none.1 this.1

end Current

theorem current_clearOptional (h : doc.Linked)
    (hc : doc.visibleLeaves optional = [] → doc.Current) (rule : OptionalRule) :
    (doc.clearOptional rule optional).Current := by
  unfold clearOptional
  split
  · next hr =>
    have hv := range?_eq_none.1 hr
    exact (hc hv).clearChildren h hv
  · exact current_updateComments _

theorem current_insertLines (doc : Document) (rule : ListRule) (list : Branch) (line : Nat)
    (fragment : Document) (isComment : Bool) :
    (doc.insertLines rule list line fragment isComment).2.Current :=
  current_updateComments _

theorem current_insertBeside (doc : Document) (rule : ListRule) (list : Branch) (index : Nat)
    (fragment : Document) : (doc.insertBeside rule list index fragment).2.Current :=
  current_updateComments _

/-! ### Cuts -/

theorem mem_cutLines {lines : Span} {j : Nat} (hn : doc.order.Nodup)
    (hj : doc.position? x = some j)
    (h : lines.stop ≤ doc.layout.lineOf j ∨ doc.layout.lineOf (j + 1) < lines.start) :
    x ∈ (doc.cutLines lines).order := by
  rw [cutLines, mem_cut_iff hn hj, linesTokens]
  split
  · exact Nat.lt_or_ge ..
  · next hne =>
    have hlt : lines.start < lines.stop := by simpa [Span.isEmpty] using hne
    rcases h with h | h
    · right
      refine (Nat.min_le_left ..).trans (lineEnd_lt ?_)
      have := doc.layout.lineOf_afterBreaks_le (lines.stop - 1)
      omega
    · left
      refine le_afterBreaks ?_ h
      rw [layout, length_map]
      exact idxOf?_lt_length hj

theorem range?_stop_le (hr : doc.range? node = some r) : r.stop ≤ doc.layout.length := by
  obtain ⟨-, last, j, -, -, -, hj, hstop⟩ := exists_of_range? hr
  rw [layout, length_map, hstop]
  exact idxOf?_lt_length hj

theorem lines?_of_range? (hr : doc.range? node = some r) :
    doc.lines? node = some ⟨doc.layout.lineOf r.start, doc.layout.lineOf r.stop + 1⟩ := by
  obtain ⟨-, -, j, -, -, -, -, hstop⟩ := exists_of_range? hr
  have hle := range?_stop_le hr
  rw [lines?, hr, Option.map_some,
    linesOf_of_ne_nil (ne_nil_of_length_pos (by omega)) hle]

theorem visible_cutBlankAbove (hn : doc.order.Nodup)
    (hv : doc.visibleLeaves element ≠ []) (list : Branch) (most : Nat) :
    (doc.cutBlankAbove list element most).visibleLeaves element ≠ [] := by
  obtain ⟨l, hl⟩ := exists_mem_of_ne_nil _ hv
  obtain ⟨r, hr⟩ := exists_range? hl
  obtain ⟨first, -, -, hfirst, -, hpos, -⟩ := exists_of_range? hr
  rw [cutBlankAbove, lines?_of_range? hr]
  dsimp only
  split
  · exact hv
  · next run hrun =>
    have hstop : run.stop = doc.layout.lineOf r.start := by
      simpa using find?_some hrun
    have hmem := mem_visibleLeaves.1 (mem_of_head? hfirst)
    exact ne_nil_of_mem (mem_visibleLeaves.2 ⟨hmem.1, mem_cutLines hn hpos (.inl hstop.le)⟩)

theorem visible_cutBlankBelow (hn : doc.order.Nodup)
    (hv : doc.visibleLeaves element ≠ []) (list : Branch) (most : Nat) :
    (doc.cutBlankBelow list element most).visibleLeaves element ≠ [] := by
  obtain ⟨l, hl⟩ := exists_mem_of_ne_nil _ hv
  obtain ⟨r, hr⟩ := exists_range? hl
  obtain ⟨-, last, j, -, hlast, -, hpos, hstop⟩ := exists_of_range? hr
  rw [cutBlankBelow, lines?_of_range? hr]
  dsimp only
  split
  · exact hv
  · next run hrun =>
    have hstart : run.start = doc.layout.lineOf r.stop + 1 := by
      simpa using find?_some hrun
    have hmem := mem_visibleLeaves.1 (mem_of_getLast? hlast)
    refine ne_nil_of_mem (mem_visibleLeaves.2 ⟨hmem.1, mem_cutLines hn hpos (.inr ?_)⟩)
    rw [← hstop, hstart]
    exact Nat.lt_succ_self _

/-- An element that shows nothing has no blank lines to lose, and one that shows something goes on
showing it. -/
theorem withoutBlank_cases (hn : doc.order.Nodup) (rule : ListRule) (list element : Branch) :
    doc.withoutBlank rule list element = doc ∨
      (doc.withoutBlank rule list element).visibleLeaves element ≠ [] := by
  by_cases hv : doc.visibleLeaves element = []
  · left
    have hlines : doc.lines? element = none := by rw [lines?, range?_eq_none.2 hv]; rfl
    have habove : ∀ most, doc.cutBlankAbove list element most = doc := fun most => by
      rw [cutBlankAbove, hlines]
    have hbelow : ∀ most, doc.cutBlankBelow list element most = doc := fun most => by
      rw [cutBlankBelow, hlines]
    simp [withoutBlank, habove, hbelow]
  · right
    unfold withoutBlank
    dsimp only
    have hbelow := visible_cutBlankBelow hn hv list (doc.blankLinesFor rule list element)
    split <;> split
    · refine visible_cutBlankAbove ?_ hbelow list _
      unfold cutBlankBelow
      split
      · exact hn
      · split
        · exact hn
        · exact hn.sublist (cut_sublist ..)
    · exact visible_cutBlankAbove hn hv list _
    · exact hbelow
    · exact hv

theorem visibleLeaves_cut_widened (hn : doc.order.Nodup) (hs : doc.visibleLeaves node <+ doc.order)
    (hr : doc.range? node = some r) :
    (doc.cut (doc.layout.widenOneSide r)).visibleLeaves node = [] := by
  rw [eq_nil_iff_forall_not_mem]
  intro l hl
  obtain ⟨hmem, hcut⟩ := mem_visibleLeaves.1 hl
  have ho := (doc.cut_sublist _).subset hcut
  obtain ⟨i, hi⟩ := exists_position ho
  have hin := mem_range_of_sublist hn hs hr (mem_visibleLeaves.2 ⟨hmem, ho⟩) hi
  have hcovers := widenOneSide_covers (range?_stop_le hr)
  have hout := (mem_cut_iff hn hi).1 hcut
  omega

theorem current_detachElement (h : doc.IsTree)
    (hs : doc.visibleLeaves element <+ doc.order) (rule : ListRule) (list : Branch) :
    (doc.detachElement rule list element).Current := by
  rw [detachElement_eq]
  dsimp only
  have hdrop := (Thinned.refl h).dropMark list (doc.delimiterOf? rule list element)
  generalize doc.dropMark list (doc.delimiterOf? rule list element) = dropped at hdrop
  -- the list of comments is made before the element leaves its list, when it shows nothing
  cases hr : dropped.range? element with
  | none =>
    exact (current_updateComments dropped).removeChild hdrop.tree.linked (range?_eq_none.1 hr) list
  | some r =>
    have hgone := visibleLeaves_cut_widened hdrop.tree.order_nodup (hdrop.visible h hs) hr
    have hcut := current_updateComments (dropped.cut (dropped.layout.widenOneSide r))
    exact hcut.removeChild hdrop.tree.linked hgone list

/-! ### Comments that go -/

/-- The comments of a document hold ink, and no two of them share a position of the text. -/
structure CommentsApart (doc : Document) : Prop where
  inked : ∀ c, doc.kindOf c = .comment → ∀ l ∈ doc.visibleLeaves c,
    Text.isBlank (doc.textOf l) = false
  disjoint : ∀ b c r s, doc.kindOf b = .comment → doc.kindOf c = .comment → b ≠ c →
    doc.range? b = some r → doc.range? c = some s →
      r.stop ≤ s.start ∨ s.stop ≤ r.start

theorem mem_visibleLeaves_of_commentOf? (h : doc.Linked) (hl : l ∈ doc.order)
    (hc : doc.commentOf? l = some c) : l ∈ doc.visibleLeaves c := by
  have hmem := mem_of_find?_eq_some hc
  exact mem_visibleLeaves.2 ⟨h.mem_leaves.2 (h.around_of_mem_ancestors hmem), hl⟩

/-- With a comment the text loses its tokens and none of another comment. -/
theorem mem_cut_comment_iff (h : doc.Aligned) (ha : doc.CommentsApart)
    (hb : doc.kindOf b = .comment) (hr : doc.range? b = some r)
    (hl : l ∈ doc.order) (hlc : doc.commentOf? l = some c) :
    l ∈ (doc.cut (doc.layout.widenOneSide r)).order ↔ c ≠ b := by
  have hn := h.tree.order_nodup
  have hc := kindOf_of_commentOf? hlc
  have hvisible := mem_visibleLeaves_of_commentOf? h.tree.linked hl hlc
  obtain ⟨i, hi⟩ := exists_position hl
  rw [mem_cut_iff hn hi]
  constructor
  · rintro hout rfl
    have hin := mem_range_of_sublist hn (h.visible _) hr hvisible hi
    have hcovers := widenOneSide_covers (range?_stop_le hr)
    omega
  · intro hne
    by_contra hin
    have htext : doc.layout[i]? = some (doc.textOf l) := layout_getElem? (getElem?_of_idxOf? hi)
    rcases widenOneSide_blank htext r (by omega) (by omega) with hinside | hblank
    · obtain ⟨s, hs⟩ := exists_range? hvisible
      have hown := mem_range_of_sublist hn (h.visible _) hs hvisible hi
      have := ha.disjoint b c r s hb hc (Ne.symm hne) hr hs
      omega
    · rw [ha.inked c hc l hvisible] at hblank
      cases hblank

theorem Current.removeComment (hc : doc.Current) (h : doc.Aligned) (ha : doc.CommentsApart)
    (hb : doc.kindOf b = .comment) : (doc.removeComment b).Current := by
  have hn := h.tree.order_nodup
  unfold Document.removeComment
  dsimp only
  split
  · next hr =>
    have hr : doc.range? b = none := hr
    show doc.comments.filter (· != b) = doc.placedComments
    rw [hc]
    refine filter_eq_self.2 fun c hmem => bne_iff_ne.2 ?_
    rintro rfl
    obtain ⟨l, hl, hlc⟩ := mem_placedComments.1 hmem
    have hvisible := mem_visibleLeaves_of_commentOf? h.tree.linked hl hlc
    rw [range?_eq_none.1 hr] at hvisible
    cases hvisible
  · next r hr =>
    have hr : doc.range? b = some r := hr
    let span := doc.layout.widenOneSide r
    show doc.comments.filter (· != b) = ((doc.cut span).order.filterMap doc.commentOf?).eraseDups
    rw [hc, placedComments, ← eraseDups_filter, filter_filterMap,
      ← filter_contains_of_sublist hn (doc.cut_sublist span), filterMap_filter]
    refine congrArg _ (filterMap_congr fun l hl => ?_)
    cases hlc : doc.commentOf? l with
    | none => simp
    | some c =>
      have hiff := mem_cut_comment_iff h ha hb hr hl hlc
      by_cases hne : c = b <;> simp [span, hiff, hne]

end Document
end Lossless
