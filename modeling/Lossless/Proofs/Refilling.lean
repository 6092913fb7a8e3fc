import Lossless.Proofs.Beside
import Lossless.Proofs.Fragments
import Lossless.Proofs.Layouts
import Lossless.Proofs.Runs

/-! Lists that lose an element. What is left of the list always takes its placeholder, so an element
of a list goes without failing. -/

namespace Lossless

open List Option Layout Forest Document Bool EStateM

namespace Layout

variable {ts : Layout} {s e : Nat}

theorem linesOf_start_lt (hne : ts ≠ []) (hs : s ≤ e) (he : e ≤ ts.length) :
    (ts.linesOf ⟨s, e⟩).start < (ts.linesOf ⟨s, e⟩).stop := by
  rcases Nat.eq_zero_or_pos e with rfl | hpos
  · obtain rfl := Nat.le_zero.1 hs
    have : ts.isEmpty = false := isEmpty_eq_false_iff.2 hne
    simp [linesOf, this, lineOf, breaks]
  · rw [linesOf_eq hpos he]
    exact Nat.lt_succ_of_le (ts.lineOf_mono hs)

end Layout

namespace Document

variable {doc mid fragment : Document} {rule : ListRule} {list element other : Branch}
  {tokens order : List Leaf}

/-! ### Lines of a list without children -/

theorem trivia_stop_le_length (doc : Document) (node : Node) :
    (doc.trivia node).stop ≤ doc.order.length := by
  have hpos : ∀ o : Option Leaf, ∀ i, o.bind doc.position? = some i → i < doc.order.length := by
    intro o i hi
    obtain ⟨l, -, hl⟩ := bind_eq_some_iff.1 hi
    exact idxOf?_lt_length hl
  refine Nat.max_le.2 ⟨?_, ?_⟩
  · cases hi : (doc.rightLeaf? node).bind doc.position? with
    | none => exact Nat.le_refl _
    | some i => exact (hpos _ i hi).le
  · split
    · exact Nat.zero_le _
    · next i hi => exact hpos _ i hi

theorem linesOf_trivia_start_lt (hne : doc.order ≠ []) (list : Branch) {s : Nat}
    (hs : s ≤ (doc.trivia list).stop) :
    (doc.layout.linesOf ⟨s, (doc.trivia list).stop⟩).start <
      (doc.layout.linesOf ⟨s, (doc.trivia list).stop⟩).stop :=
  linesOf_start_lt (by simpa [layout] using hne) hs
    (by simpa [layout] using doc.trivia_stop_le_length list)

theorem boundedLines_start_lt
    (habove : rule.above.applies (doc.isTopLevel list) = true) :
    (doc.boundedLines rule list).start < (doc.boundedLines rule list).stop := by
  have hle := doc.trivia_start_le list
  have hlength := doc.trivia_stop_le_length list
  rw [boundedLines]
  split
  · exact Nat.lt_succ_self _
  next hsqueezed =>
  dsimp only
  by_cases hempty : doc.order = []
  · have hlines : doc.layout.linesOf (doc.trivia list) = ⟨0, 0⟩ := by
      simp [layout, hempty, linesOf]
    rw [hempty, length_nil] at hlength ⊢
    rw [hlines, if_pos (by omega), if_pos (by omega)]
    exact Nat.zero_lt_one
  · have htrivia : (doc.layout.linesOf (doc.trivia list)).start <
        (doc.layout.linesOf (doc.trivia list)).stop := linesOf_trivia_start_lt hempty list hle
    simp only [isSqueezed, and_eq_true, beq_iff_eq, decide_eq_true_eq] at hsqueezed
    split <;> split <;> omega

/-- A list without children takes a new element in every text but the empty one. -/
theorem linesFor_ne_nil (hnil : doc.children list = []) (hne : doc.order ≠ []) (rule : ListRule) :
    doc.linesFor rule list ≠ [] := by
  have hbounds : (doc.boundedLines rule list).start < (doc.boundedLines rule list).stop := by
    by_cases habove : rule.above.applies (doc.isTopLevel list) = true
    · exact boundedLines_start_lt habove
    · have hrange : doc.range? list = none := by
        rw [range?_eq_none, visibleLeaves, leaves_of_children_nil hnil, filter_nil]
      rw [boundedLines, if_neg habove, hrange]
      split
      · exact Nat.lt_succ_self _
      · exact linesOf_trivia_start_lt hne list (Nat.le_refl _)
  rw [linesFor]
  split
  · rw [clauseLines]
    split <;> simp
  · rw [hnil]
    refine ne_nil_of_mem (mem_filter.2 ⟨Span.mem_toList.2 ⟨Nat.le_refl _, hbounds⟩, ?_⟩)
    rfl

/-! ### Unfolding takes an element -/

/-- Once it is unfolded, a squeezed list takes a new element. -/
def Unfolds (doc : Document) (rule : ListRule) (list : Branch) : Prop :=
  doc.isSqueezed list = true → (doc.unfoldBody list).linesFor rule list ≠ []

theorem exists_right_of_isSqueezed (h : doc.Linked) (hs : doc.isSqueezed list = true) :
    ∃ r ∈ doc.rightLeaves list, r ∈ doc.order := by
  simp only [isSqueezed, and_eq_true, decide_eq_true_eq] at hs
  have hlt : ((doc.rightLeaf? list).bind doc.position?).getD doc.order.length <
      doc.order.length := (Nat.le_max_left ..).trans_lt hs.2
  cases hr : doc.rightLeaf? list with
  | none =>
    rw [hr] at hlt
    exact absurd hlt (Nat.lt_irrefl _)
  | some r =>
    rw [rightLeaf?_eq h] at hr
    obtain ⟨hmem, hvisible⟩ := mem_filter.1 (mem_of_head? hr)
    exact ⟨r, hmem, contains_iff_mem.1 hvisible⟩

theorem Bracketed.unfolds (h : doc.Bracketed list) (rule : ListRule) : doc.Unfolds rule list := by
  intro hs
  obtain ⟨r, hr, ho⟩ := exists_right_of_isSqueezed h.tree.linked hs
  exact h.linesFor_unfoldBody hr ho rule

theorem retexted_newIndentedBreak (doc : Document) (indent : String) :
    doc.Retexted (doc.newIndentedBreak indent).2.toForest := by
  refine (Retexted.addToken doc.toForest lineBreak).trans ?_
  rw [newIndentedBreak]
  dsimp only
  rcases newLiteral_cases (doc.newToken lineBreak).2 indent with he | he <;> rw [he]
  · exact .refl _
  · exact .addToken ..

theorem retexted_unfoldBody (doc : Document) (list : Branch) :
    doc.Retexted (doc.unfoldBody list).toForest := by
  have hopen : doc.Retexted (doc.openBody list).toForest := by
    rw [openBody]
    dsimp only
    split
    · exact .refl _
    · exact retexted_newIndentedBreak (doc.stripAround list)
        ((doc.stripAround list).indent list)
  have hclose : ∀ (d : Document) tokens, (d.closeWith list tokens).toForest = d.toForest :=
    fun _ _ => rfl
  rw [unfoldBody_eq, hclose, closingBreak]
  exact hopen.trans (retexted_newIndentedBreak ..)

theorem order_unfoldBody_ne_nil (doc : Document) (list : Branch) :
    (doc.unfoldBody list).order ≠ [] := by
  have hbreak : ∀ (d : Document) indent,
      (d.newToken lineBreak).1 ∈ (d.newIndentedBreak indent).1 :=
    fun _ _ => mem_cons_self
  rw [unfoldBody_eq, closingBreak]
  exact ne_nil_of_mem (mem_insertAt.2 (Or.inl (hbreak ..)))

theorem unfolds_of_children_nil (hnil : doc.children list = []) (rule : ListRule) :
    doc.Unfolds rule list := fun _ =>
  linesFor_ne_nil (((retexted_unfoldBody doc list).children list).trans hnil)
    (order_unfoldBody_ne_nil doc list) rule

/-! ### An element goes -/

namespace Level

section

variable (h : doc.Level list element)
include h

theorem of_sublist (hs : order <+ doc.order) :
    Level { doc with order } list element := by
  have hnodup := h.bracketed.tree.order_nodup
  refine ⟨h.bracketed.of_sublist hs, h.child, ?_⟩
  refine sublist_of_before (hnodup.sublist hs) (fun x hx => (mem_visibleLeaves.1 hx).2) ?_
  refine pairwise_filter.2 ((pairwise_filter.1 (pairwise_before h.sublist)).imp ?_)
  intro x y hxy hx hy
  rw [contains_iff_mem] at hx hy
  have hbefore := hxy (contains_iff_mem.2 (hs.subset hx)) (contains_iff_mem.2 (hs.subset hy))
  exact hbefore.of_sublist hnodup hs hx hy

theorem cut (span : Span) : (doc.cut span).Level list element :=
  h.of_sublist (cut_sublist doc span)

theorem cutLines (lines : Span) : (doc.cutLines lines).Level list element :=
  h.cut _

theorem cutBlankAbove (b : Branch) (most : Nat) :
    (doc.cutBlankAbove list b most).Level list element := by
  rw [Document.cutBlankAbove]
  split
  · exact h
  · split
    · exact h
    · exact h.cutLines _

theorem cutBlankBelow (b : Branch) (most : Nat) :
    (doc.cutBlankBelow list b most).Level list element := by
  rw [Document.cutBlankBelow]
  split
  · exact h
  · split
    · exact h
    · exact h.cutLines _

theorem removeMark (l : Leaf) : ((doc.discard [l]).removeChild list l).Level list element := by
  have hlevel : (doc.discard [l]).Level list element := h.of_sublist filter_sublist
  have hb := hlevel.bracketed.removeChild l
  have hr := (Rewired.refl (doc.discard [l]).toForest list).removeChild l
  have hlinked := hlevel.bracketed.tree.linked
  refine ⟨hb, ?_, ?_⟩
  · refine (congrArg (Node.branch element ∈ ·) (children_removeChild ..)).mpr ?_
    rw [if_pos rfl]
    exact (mem_erase_of_ne (by simp)).2 h.child
  · refine (congrArg (· <+ _) (congrArg (List.filter _) ?_)).mpr hlevel.sublist
    exact hr.leaves_eq hlinked hb.tree.linked (hlinked.has_child h.child) hlevel.not_around

theorem detachElement (rule : ListRule) : (doc.detachElement rule list element).Bracketed list := by
  obtain ⟨mark, mid, heq, hmid⟩ := doc.detachElement_cases rule list element
  have hmark : (doc.dropMark list mark).Level list element := by
    cases mark with
    | none => exact h
    | some mark => exact h.removeMark mark
  rw [heq]
  refine (Bracketed.updateComments ?_).removeChild _
  rcases hmid with rfl | ⟨span, rfl⟩
  · exact hmark.bracketed
  · exact hmark.bracketed.cut span

end

end Level

/-- The document without the blank lines that an element asked for. -/
def withoutBlank (doc : Document) (rule : ListRule) (list element : Branch) : Document :=
  let most := doc.blankLinesFor rule list element
  let elements := doc.listElements rule list
  let index := elements.idxOf element
  let below := if index + 1 < elements.length then doc.cutBlankBelow list element most else doc
  if index ≠ 0 then below.cutBlankAbove list element most else below

def withoutPadding (doc : Document) (rule : ListRule) (list element : Branch) : Document :=
  if rule.isPadded then doc.withoutBlank rule list element else doc

def rejoin (doc : Document) (rule : ListRule) (list : Branch) (index : Nat) : Document :=
  let elements := doc.listElements rule list
  match if index = 0 then none else elements[index - 1]?, elements[index]? with
  | some left, some right => doc.separate rule list left right false
  | _, _ => doc

theorem Level.withoutBlank (h : doc.Level list element) (rule : ListRule) :
    (doc.withoutBlank rule list element).Level list element := by
  rw [Document.withoutBlank]
  split <;> split
  · exact (h.cutBlankBelow ..).cutBlankAbove ..
  · exact h.cutBlankAbove ..
  · exact h.cutBlankBelow ..
  · exact h

/-! ### What removal leaves -/

theorem mem_children_detachElement (hne : other ≠ element)
    (h : .branch other ∈ doc.children list) (rule : ListRule) :
    .branch other ∈ (doc.detachElement rule list element).children list := by
  have hremove : ∀ (d : Document) (n : Node), .branch other ≠ n →
      .branch other ∈ d.children list → .branch other ∈ (d.removeChild list n).children list := by
    intro d n hn hd
    refine (congrArg (Node.branch other ∈ ·) (children_removeChild ..)).mpr ?_
    rw [if_pos rfl]
    exact (mem_erase_of_ne hn).2 hd
  obtain ⟨mark, mid, heq, hmid⟩ := doc.detachElement_cases rule list element
  have hmark : .branch other ∈ (doc.dropMark list mark).children list := by
    cases mark with
    | none => exact h
    | some mark => exact hremove (doc.discard _) _ (by simp) h
  rw [heq]
  refine hremove _ _ (by simpa using hne) ?_
  rcases hmid with rfl | ⟨span, rfl⟩
  · exact hmark
  · exact hmark

theorem exists_cutBlankAbove (doc : Document) (list element : Branch) (most : Nat) :
    ∃ order, doc.cutBlankAbove list element most = { doc with order } := by
  rw [cutBlankAbove]
  split
  · exact ⟨_, rfl⟩
  · split <;> exact ⟨_, rfl⟩

theorem exists_cutBlankBelow (doc : Document) (list element : Branch) (most : Nat) :
    ∃ order, doc.cutBlankBelow list element most = { doc with order } := by
  rw [cutBlankBelow]
  split
  · exact ⟨_, rfl⟩
  · split <;> exact ⟨_, rfl⟩

theorem withoutBlank_tables (doc : Document) (rule : ListRule) (list element : Branch) :
    (doc.withoutBlank rule list element).toForest = doc.toForest ∧
      (doc.withoutBlank rule list element).grammar = doc.grammar ∧
      (doc.withoutBlank rule list element).root = doc.root := by
  have habove : ∀ (d : Document) most, (d.cutBlankAbove list element most).toForest = d.toForest ∧
      (d.cutBlankAbove list element most).grammar = d.grammar ∧
      (d.cutBlankAbove list element most).root = d.root := by
    intro d most
    obtain ⟨order, horder⟩ := d.exists_cutBlankAbove list element most
    rw [horder]
    exact ⟨rfl, rfl, rfl⟩
  have hbelow : ∀ most, (doc.cutBlankBelow list element most).toForest = doc.toForest ∧
      (doc.cutBlankBelow list element most).grammar = doc.grammar ∧
      (doc.cutBlankBelow list element most).root = doc.root := by
    intro most
    obtain ⟨order, horder⟩ := doc.exists_cutBlankBelow list element most
    rw [horder]
    exact ⟨rfl, rfl, rfl⟩
  unfold withoutBlank
  dsimp only
  split <;> split
  · obtain ⟨hf, hg, hr⟩ := hbelow (doc.blankLinesFor rule list element)
    obtain ⟨hf', hg', hr'⟩ := habove (doc.cutBlankBelow list element
      (doc.blankLinesFor rule list element)) (doc.blankLinesFor rule list element)
    exact ⟨hf'.trans hf, hg'.trans hg, hr'.trans hr⟩
  · exact habove _ _
  · exact hbelow _
  · exact ⟨rfl, rfl, rfl⟩

theorem withoutPadding_tables (doc : Document) (rule : ListRule) (list element : Branch) :
    (doc.withoutPadding rule list element).toForest = doc.toForest ∧
      (doc.withoutPadding rule list element).grammar = doc.grammar ∧
      (doc.withoutPadding rule list element).root = doc.root := by
  rw [withoutPadding]
  split
  · exact withoutBlank_tables ..
  · exact ⟨rfl, rfl, rfl⟩

theorem Evolves.insertBreaks {ok : Kind → Kind → Prop} (h : Evolves ok doc mid) (p n : Nat) :
    Evolves ok doc (mid.insertBreaks p n) := by
  induction n generalizing mid with
  | zero => exact h
  | succ n ih => exact ih ((h.newToken lineBreak).insertAt ..)

theorem children_insertBreaks (doc : Document) (p n : Nat) (b : Branch) :
    (doc.insertBreaks p n).children b = doc.children b := by
  induction n generalizing doc with
  | zero => rfl
  | succ n ih => exact ih _

theorem separate_cases (doc : Document) (rule : ListRule) (list left right : Branch) (added : Bool) :
    ∃ p n, doc.separate rule list left right added = doc.insertBreaks p n := by
  rw [separate]
  split
  · exact ⟨0, 0, rfl⟩
  · split
    · exact ⟨_, _, rfl⟩
    · exact ⟨0, 0, rfl⟩

theorem rejoin_cases (doc : Document) (rule : ListRule) (list : Branch) (index : Nat) :
    ∃ p n, doc.rejoin rule list index = doc.insertBreaks p n := by
  rw [rejoin]
  split
  · exact separate_cases ..
  · exact ⟨0, 0, rfl⟩

def unfolded (doc : Document) (list : Branch) : Document :=
  if doc.isSqueezed list then doc.unfoldBody list else doc

/-- The line to which a request for a line goes. A squeezed list has one place for an element, and
every request goes there. -/
def entryLine (doc : Document) (rule : ListRule) (list : Branch) (line : Nat) : Nat :=
  if doc.isSqueezed list then ((doc.unfoldBody list).linesFor rule list).getLast?.getD line
  else line

end Document

namespace Edit

variable {doc fragment : Document} {rule : ListRule} {list element other e : Branch} {line : Nat}

theorem run_placeAtLine (h : doc.Unfolds rule list) (line : Nat) (fragment : Document) :
    doc.entryLine rule list line ∈ (doc.unfolded list).linesFor rule list ∧
      (placeAtLine rule list line fragment).run doc =
        .ok ((doc.unfolded list).insertLines rule list (doc.entryLine rule list line)
            (rule.wrap fragment) (fragment.rootKind = .comment)).1
          ((doc.unfolded list).insertLines rule list (doc.entryLine rule list line)
            (rule.wrap fragment) (fragment.rootKind = .comment)).2 ∨
    doc.isSqueezed list = false ∧ line ∉ doc.linesFor rule list ∧
      (placeAtLine rule list line fragment).run doc =
        .error (.lineUnavailable line (doc.linesFor rule list)) doc := by
  unfold placeAtLine unfolded entryLine
  rw [run_get_bind]
  cases hs : doc.isSqueezed list with
  | true =>
    obtain ⟨last, hlast⟩ : ∃ last, ((doc.unfoldBody list).linesFor rule list).getLast? = some last :=
      ⟨_, getLast?_eq_some_getLast (h hs)⟩
    have hmem := mem_of_getLast? hlast
    rw [if_pos rfl, if_pos rfl, if_pos rfl, hlast, getD_some]
    refine Or.inl ⟨hmem, ?_⟩
    rw [run_bind, run_modify]
    dsimp only
    rw [run_get_bind, if_pos rfl, hlast, getD_some, if_pos (contains_iff_mem.2 hmem)]
    exact run_modifyGet ..
  | false =>
    rw [if_neg Bool.false_ne_true, if_neg Bool.false_ne_true, if_neg Bool.false_ne_true,
      run_get_bind]
    dsimp only
    rw [if_neg Bool.false_ne_true]
    by_cases hline : line ∈ doc.linesFor rule list
    · rw [if_pos (contains_iff_mem.2 hline)]
      exact Or.inl ⟨hline, run_modifyGet ..⟩
    · rw [if_neg (mt contains_iff_mem.1 hline)]
      exact Or.inr ⟨rfl, hline, run_throw ..⟩

theorem run_placeClause (doc : Document) (rule : ListRule) (list : Branch) (line : Nat)
    (fragment : Document) :
    line ∈ doc.linesFor rule list ∧ (∃ index,
      let clause := (fragment.increaseIndent fragment.root (doc.indent list)).trimStart
      (placeClause rule list line fragment).run doc =
        .ok (doc.insertBeside rule list index (rule.wrap clause)).1
          (doc.insertBeside rule list index (rule.wrap clause)).2) ∨
    line ∉ doc.linesFor rule list ∧ (placeClause rule list line fragment).run doc =
      .error (.lineUnavailable line (doc.linesFor rule list)) doc := by
  unfold placeClause
  rw [run_get_bind]
  dsimp only
  by_cases hline : line ∈ doc.linesFor rule list
  · rw [if_pos (contains_iff_mem.2 hline)]
    exact Or.inl ⟨hline, _, run_modifyGet ..⟩
  · rw [if_neg (mt contains_iff_mem.1 hline)]
    exact Or.inr ⟨hline, run_throw ..⟩

/-- A list that unfolds is given its placeholder. -/
theorem exists_run_refill (h : doc.Unfolds rule list) :
    ∃ doc', (refill rule list).run doc = .ok () doc' := by
  unfold refill
  rw [run_get_bind]
  split
  · next placeholder line _ hline =>
    have hmem := mem_of_head? hline
    split
    · split
      · rcases run_placeClause doc rule list line
          (.ofSource doc.grammar rule.element placeholder.text) with
          ⟨-, _, hrun⟩ | ⟨hnot, -⟩
        · rw [run_discard, hrun]
          exact ⟨_, rfl⟩
        · exact absurd hmem hnot
      · rcases run_placeAtLine h line (.ofSource doc.grammar rule.element placeholder.text) with
          ⟨-, hrun⟩ | ⟨-, hnot, -⟩
        · rw [run_bind, hrun]
          dsimp only
          split
          · exact ⟨_, run_modify ..⟩
          · exact ⟨_, run_pure ..⟩
        · exact absurd hmem hnot
    · exact ⟨_, run_pure ..⟩
  · exact ⟨_, run_pure ..⟩

theorem run_refill_of_mem (h : element ∈ doc.listElements rule list) :
    (refill rule list).run doc = .ok () doc := by
  have hne : ¬ ((doc.listElements rule list).isEmpty = true) :=
    fun he => ne_nil_of_mem h (List.isEmpty_iff.1 he)
  unfold refill
  rw [run_get_bind]
  split
  · rw [if_neg fun hc => hne (and_eq_true_iff.1 hc).1]
    exact run_pure ..
  · exact run_pure ..

/-! ### Elements are taken without failing -/

theorem exists_run_takeElement (h : doc.Level list element) (rule : ListRule) :
    ∃ taken doc', (takeElement rule list element).run doc = .ok taken doc' := by
  obtain ⟨after, hrefill⟩ := exists_run_refill ((h.detachElement rule).unfolds rule)
  unfold takeElement
  rw [run_get_bind]
  dsimp only
  split
  · exact ⟨_, _, rfl⟩
  · exact exists_run_bind (run_modify ..)
      (exists_run_bind hrefill ⟨_, _, run_pure ..⟩)

theorem run_takePadded (doc : Document) (rule : ListRule) (list element : Branch) :
    (takePadded rule list element).run doc =
      match (takeElement rule list element).run (doc.withoutBlank rule list element) with
      | .ok taken after =>
        .ok taken (after.rejoin rule list ((doc.listElements rule list).idxOf element))
      | .error e after => .error e after := by
  let most := doc.blankLinesFor rule list element
  let index := (doc.listElements rule list).idxOf element
  let rest : Edit Document := do
    let taken ← takeElement rule list element
    modify fun d => d.rejoin rule list index
    return taken
  have hrest : ∀ d : Document, rest.run d = match (takeElement rule list element).run d with
      | .ok taken after => .ok taken (after.rejoin rule list index)
      | .error e after => .error e after := by
    intro d
    simp only [rest, run_bind]
    cases (takeElement rule list element).run d <;> rfl
  have hdo : (takePadded rule list element).run doc = run (do
      if index + 1 < (doc.listElements rule list).length then
        modify fun d => d.cutBlankBelow list element most
      if index ≠ 0 then modify fun d => d.cutBlankAbove list element most
      rest) doc := by
    rw [takePadded, run_bind, run_get]
    rfl
  rw [hdo, run_modify_modify, hrest, withoutBlank]

theorem exists_run_takeFrom (h : doc.Level list element) (rule : ListRule) :
    ∃ taken doc', (takeFrom rule list element).run doc = .ok taken doc' := by
  rw [takeFrom]
  split
  · obtain ⟨taken, after, hrun⟩ := exists_run_takeElement (h.withoutBlank rule) rule
    rw [run_takePadded, hrun]
    exact ⟨_, _, rfl⟩
  · exact exists_run_takeElement h rule

structure Leaves (doc after : Document) (list element : Branch) : Prop where
  evolves : doc.Evolves (fun _ _ => False) after
  children : ∀ c, c ≠ element → .branch c ∈ doc.children list → .branch c ∈ after.children list

theorem run_takeElement_of_other (he : element ∈ doc.listElements rule list)
    (ho : other ∈ doc.listElements rule list) (hne : other ≠ element) (hd : doc.Linked) :
    (takeElement rule list element).run doc =
      .ok (doc.extract element (doc.coveredLeaves element))
        (doc.detachElement rule list element) := by
  have hlast : ¬ (doc.listElements rule list).length = 1 := by
    intro hone
    obtain ⟨x, hx⟩ := length_eq_one_iff.1 hone
    rw [hx, mem_singleton] at he ho
    exact hne (ho.trans he.symm)
  have hmem := mem_listElements.1 ho
  have hleft : other ∈ (doc.detachElement rule list element).listElements rule list := by
    refine mem_listElements.2 ⟨mem_children_detachElement hne hmem.1 rule, ?_⟩
    have hev : doc.Evolves (fun _ _ => False) (doc.detachElement rule list element) :=
      evolves_detachElement hd rule list element
    rw [hev.kindOf other (hd.has_child hmem.1)]
    exact hmem.2
  unfold takeElement
  rw [run_get_bind]
  dsimp only
  rw [if_neg hlast]
  dsimp only
  rw [run_bind, run_modify]
  dsimp only
  rw [run_bind, run_refill_of_mem hleft]
  exact run_pure ..

theorem mem_listElements_withoutPadding (he : e ∈ doc.listElements rule list)
    (element : Branch) : e ∈ (doc.withoutPadding rule list element).listElements rule list := by
  rw [mem_listElements, (doc.withoutPadding_tables rule list element).1]
  exact mem_listElements.1 he

section

variable (he : element ∈ doc.listElements rule list) (ho : other ∈ doc.listElements rule list)
  (hne : other ≠ element) (hd : doc.Linked)
include he ho hne hd

/-- Beside another element, an element goes with its blank lines, and its neighbours are
separated. -/
theorem run_takeFrom_rejoin : ∃ taken, (takeFrom rule list element).run doc = .ok taken
    (let gone := (doc.withoutPadding rule list element).detachElement rule list element
     if rule.isPadded then gone.rejoin rule list ((doc.listElements rule list).idxOf element)
     else gone) := by
  have hlinked : (doc.withoutPadding rule list element).Linked :=
    (doc.withoutPadding_tables rule list element).1 ▸ hd
  have hrun := run_takeElement_of_other (mem_listElements_withoutPadding he element)
    (mem_listElements_withoutPadding ho element) hne hlinked
  rw [withoutPadding] at hrun ⊢
  rw [takeFrom]
  split at hrun
  · next hpadded =>
    rw [if_pos hpadded, if_pos hpadded, run_takePadded, hrun]
    exact ⟨_, by rw [if_pos hpadded]⟩
  · next hpadded =>
    rw [if_neg hpadded, if_neg hpadded, hrun]
    exact ⟨_, by rw [if_neg hpadded]⟩

theorem run_takeFrom_beside : ∃ taken p n, (takeFrom rule list element).run doc =
    .ok taken (((doc.withoutPadding rule list element).detachElement rule list element).insertBreaks
      p n) := by
  obtain ⟨taken, hrun⟩ := run_takeFrom_rejoin he ho hne hd
  obtain ⟨p, n, hrejoin⟩ := ((doc.withoutPadding rule list element).detachElement rule list
    element).rejoin_cases rule list ((doc.listElements rule list).idxOf element)
  rw [hrun]
  dsimp only
  split
  · exact ⟨taken, p, n, congrArg _ hrejoin⟩
  · exact ⟨taken, 0, 0, rfl⟩

theorem run_takeFrom_of_other : ∃ taken after,
    (takeFrom rule list element).run doc = .ok taken after ∧ Leaves doc after list element := by
  obtain ⟨taken, p, n, hrun⟩ := run_takeFrom_beside he ho hne hd
  obtain ⟨hforest, hgrammar, hroot⟩ := doc.withoutPadding_tables rule list element
  have hcut : doc.Evolves (fun _ _ => False) (doc.withoutPadding rule list element) :=
    .congr (.refl hd) hforest hgrammar hroot
  refine ⟨taken, _, hrun, ?_, fun c hc hm => ?_⟩
  · exact (hcut.trans (evolves_detachElement hcut.linked ..)).insertBreaks p n
  · rw [children_insertBreaks]
    rw [← hforest] at hm
    exact mem_children_detachElement hc hm rule

end

end Edit

end Lossless
