import Lossless.Proofs.Attaching
import Lossless.Proofs.Seating

/-! Elements on lines of their own. A line that a list offers starts at a position that parts the
children of the list and what stands beside it. -/

namespace Lossless

open List Layout Forest Bool

namespace Layout

variable {ts : Layout} {n p q : Nat}

theorem afterBreaks_le_length (n : Nat) (ts : Layout) : afterBreaks n ts ≤ ts.length := by
  induction ts generalizing n with
  | nil => cases n <;> exact Nat.zero_le _
  | cons t ts ih =>
    cases n with
    | zero => exact Nat.zero_le _
    | succ n =>
      have := ih (if isBreak t then n else n + 1)
      simp only [afterBreaks, length_cons]
      omega

theorem lineOf_cons (t : String) (ts : Layout) (q : Nat) :
    lineOf (t :: ts) (q + 1) = lineOf ts q + if isBreak t then 1 else 0 := by
  simp [lineOf, breaks, countP_cons]

/-- A line starts before every position of it and of the lines below. -/
theorem afterBreaks_le (h : n ≤ ts.lineOf q) : afterBreaks n ts ≤ q := by
  induction ts generalizing n q with
  | nil =>
    have hn : n = 0 := by simpa [lineOf, breaks] using h
    simp [hn, afterBreaks]
  | cons t ts ih =>
    cases n with
    | zero => exact Nat.zero_le _
    | succ n =>
      cases q with
      | zero => simp [lineOf, breaks] at h
      | succ q =>
        rw [lineOf_cons] at h
        have hle : (if isBreak t then n else n + 1) ≤ lineOf ts q := by
          split at h <;> simp [*] <;> omega
        have := ih hle
        simp only [afterBreaks]
        omega

/-- A line starts behind every position of the lines above. -/
theorem lt_afterBreaks (hq : q < ts.length) (h : ts.lineOf q < n) : q < afterBreaks n ts := by
  induction ts generalizing n q with
  | nil => cases hq
  | cons t ts ih =>
    cases n with
    | zero => omega
    | succ n =>
      cases q with
      | zero =>
        simp only [afterBreaks]
        omega
      | succ q =>
        rw [lineOf_cons] at h
        have hlt : lineOf ts q < if isBreak t then n else n + 1 := by
          split at h <;> simp [*] <;> omega
        have := ih (Nat.lt_of_succ_lt_succ hq) hlt
        simp only [afterBreaks]
        omega

theorem le_afterBreaks (hq : q ≤ ts.length) (h : ts.lineOf q < n) : q ≤ afterBreaks n ts := by
  cases q with
  | zero => exact Nat.zero_le _
  | succ q => exact lt_afterBreaks hq ((ts.lineOf_mono (Nat.le_succ q)).trans_lt h)

theorem lineOf_afterBreaks_le (n : Nat) (ts : Layout) : ts.lineOf (afterBreaks n ts) ≤ n := by
  induction ts generalizing n with
  | nil => simp [lineOf, breaks]
  | cons t ts ih =>
    cases n with
    | zero => simp [afterBreaks, lineOf, breaks]
    | succ n =>
      rw [afterBreaks, Nat.add_comm, lineOf_cons]
      have := ih (if isBreak t then n else n + 1)
      split at this <;> simp [*]

theorem lineEnd_lt (h : ts.lineOf q < ts.lineOf p) : ts.lineEnd q < p := by
  have hle : q ≤ p := by
    by_contra hlt
    exact absurd (ts.lineOf_mono (Nat.le_of_not_le hlt)) (Nat.not_le.2 h)
  obtain ⟨k, rfl⟩ := Nat.exists_eq_add_of_le hle
  have hcount : 0 < ((ts.drop q).take k).countP isBreak := by
    rw [lineOf, lineOf, take_add, breaks, breaks, countP_append] at h
    omega
  have hex := countP_pos_iff.1 hcount
  have hidx : (ts.drop q).findIdx isBreak < k := by
    have hlt := findIdx_lt_length_of_exists hex
    have happend : ((ts.drop q).take k ++ (ts.drop q).drop k).findIdx isBreak = _ :=
      findIdx_append
    rw [take_append_drop, if_pos hlt] at happend
    have hle := length_take_le k (ts.drop q)
    omega
  have hfound : (ts.drop q).findIdx? isBreak = some ((ts.drop q).findIdx isBreak) :=
    findIdx?_eq_some_of_exists (hex.imp fun t ht => ⟨mem_of_mem_take ht.1, ht.2⟩)
  rw [lineEnd, nextBreak?, hfound]
  exact Nat.add_lt_add_left hidx q

theorem linesOf_of_ne_nil {span : Span} (hne : ts ≠ []) (hstop : span.stop ≤ ts.length) :
    ts.linesOf span = ⟨ts.lineOf span.start, ts.lineOf span.stop + 1⟩ := by
  rcases span with ⟨start, _ | stop⟩
  · simp [linesOf, hne, lineOf, breaks]
  · exact linesOf_eq (Nat.succ_pos stop) hstop

theorem lineOf_lt_lineCount (hq : q < ts.length) : ts.lineOf q < ts.lineCount := by
  have hsub : ts.take q <+ ts.dropLast := by
    rw [dropLast_eq_take]
    exact take_sublist_take_left (by omega)
  have := hsub.countP_le (p := isBreak)
  unfold lineOf lineCount breaks
  omega

end Layout

namespace Document

variable {doc base laid mid : Document} {rule : ListRule} {list : Branch} {line p : Nat}
  {tokens : List Leaf}

/-- A position that parts what stands beside a list, and inside no child of the list. -/
structure Gap (doc : Document) (list : Branch) (p : Nat) : Prop where
  le : p ≤ doc.order.length
  parts : Parts doc p (doc.leftLeaves list) (doc.rightLeaves list)
  children : ∀ n ∈ doc.children list, Parts doc p (doc.leaves n) [] ∨ Parts doc p [] (doc.leaves n)

/-! ### Available lines -/

/-- A line at which an element may come in: what stands before the list is above the line, what
stands after the list is not, and no child lies across it. -/
structure Enters (doc : Document) (list : Branch) (line : Nat) : Prop where
  left : ∀ l ∈ doc.leftLeaves list, ∀ i, doc.position? l = some i →
    doc.layout.lineOf i < line
  right : (doc.trivia list).stop < doc.order.length →
    line ≤ doc.layout.lineOf (doc.trivia list).stop
  apart : ∀ n ∈ doc.children list, ∀ r, doc.range? n = some r →
    line ≤ doc.layout.lineOf r.start ∨ doc.layout.lineOf r.stop < line

/-- Where a list starts that is open above: at its first token, or else at what stands after it. -/
def listStart (doc : Document) (list : Branch) : Nat :=
  ((doc.range? list).map Span.start).getD (doc.trivia list).stop

/-- A list with a bound above it, or one that starts below all that stands before it. -/
def ClearAbove (doc : Document) (rule : ListRule) (list : Branch) : Prop :=
  rule.above.applies (doc.isTopLevel list) = true ∨
    ∀ l ∈ doc.leftLeaves list, ∀ i, doc.position? l = some i →
      doc.layout.lineOf i < doc.layout.lineOf (doc.listStart list)

theorem bounds_of_mem_boundedLines (hopen : doc.isSqueezed list = false) (hne : doc.order ≠ [])
    (hline : line ∈ (doc.boundedLines rule list).toList) :
    (0 < (doc.trivia list).start →
      doc.layout.lineOf (doc.trivia list).start < line ∨
        rule.above.applies (doc.isTopLevel list) = false ∧
          doc.layout.lineOf (doc.listStart list) ≤ line) ∧
    ((doc.trivia list).stop < doc.order.length →
      line ≤ doc.layout.lineOf (doc.trivia list).stop) := by
  have hlines : ∀ start, doc.layout.linesOf ⟨start, (doc.trivia list).stop⟩ =
      ⟨doc.layout.lineOf start, doc.layout.lineOf (doc.trivia list).stop + 1⟩ := fun _ =>
    linesOf_of_ne_nil (by simpa [layout] using hne)
      (by simpa [layout] using doc.trivia_stop_le_length list)
  rw [Span.mem_toList, boundedLines, hopen, if_neg Bool.false_ne_true] at hline
  dsimp only at hline
  split at hline
  · have htrivia := hlines (doc.trivia list).start
    rw [htrivia] at hline
    dsimp only at hline
    refine ⟨fun hpos => Or.inl ?_, fun hlt => ?_⟩
    · rw [if_neg hpos.ne'] at hline
      omega
    · rw [if_neg hlt.ne] at hline
      omega
  · next habove =>
    rw [hlines] at hline
    exact ⟨fun _ => Or.inr ⟨eq_false_of_ne_true habove, hline.1⟩,
      fun _ => Nat.le_of_lt_succ hline.2⟩

section

variable (h : doc.Aligned) (hinline : doc.isInline rule list = false)
  (hopen : doc.isSqueezed list = false) (hline : line ∈ doc.linesFor rule list)
include h hinline hopen hline

theorem enters_of_left (hleft : ∀ l ∈ doc.leftLeaves list, ∀ i, doc.position? l = some i →
    doc.layout.lineOf i < line) : doc.Enters list line := by
  rw [linesFor, hinline, if_neg Bool.false_ne_true] at hline
  obtain ⟨hmem, hfree⟩ := mem_filter.1 hline
  refine ⟨hleft, fun hlt => ?_, fun n hn r hr => ?_⟩
  · refine (bounds_of_mem_boundedLines hopen ?_ hmem).2 hlt
    exact ne_nil_of_length_pos (by omega)
  · have hlt := range_nonempty h.tree.order_nodup (h.visible n) hr
    have hle := (h.range_bounds hr).2.trans (doc.trivia_stop_le_length n)
    have hlines : doc.lines? n =
        some ⟨doc.layout.lineOf r.start, doc.layout.lineOf r.stop + 1⟩ := by
      rw [lines?, hr]
      exact congrArg some (linesOf_eq (by omega) (by simpa [layout] using hle))
    simp only [not_eq_true', any_eq_false, and_eq_true, decide_eq_true_eq] at hfree
    have := hfree _ (mem_filterMap.2 ⟨n, hn, hlines⟩)
    dsimp only at this
    omega

/-- Every line that a list offers takes an element, if nothing stands beside the first of them. -/
theorem enters_of_mem_linesFor (habove : doc.ClearAbove rule list) : doc.Enters list line := by
  refine enters_of_left h hinline hopen hline fun l hl i hi => ?_
  rw [linesFor, hinline, if_neg Bool.false_ne_true] at hline
  have hlt := h.lt_trivia_start hl hi
  have hmono := doc.layout.lineOf_mono hlt.le
  obtain ⟨hstart, -⟩ := bounds_of_mem_boundedLines hopen (ne_nil_of_mem (mem_of_idxOf? hi))
    (mem_of_mem_filter hline)
  rcases hstart (by omega) with hstart | ⟨hnone, hstart⟩
  · omega
  · have := habove.resolve_left (by rw [hnone]; exact false_ne_true) l hl i hi
    omega

end

theorem Enters.gap (h : doc.Aligned) (henters : doc.Enters list line) :
    Gap doc list (doc.layout.lineTokens line).start := by
  have hlayout : doc.layout.length = doc.order.length := by simp [layout]
  have hbehind : ∀ q, line ≤ doc.layout.lineOf q → (doc.layout.lineTokens line).start ≤ q :=
    fun _ hq => afterBreaks_le hq
  refine ⟨hlayout ▸ afterBreaks_le_length .., ⟨fun l hl i hi => ?_, fun r hr i hi => ?_⟩,
    fun n hn => ?_⟩
  · exact lt_afterBreaks (hlayout ▸ idxOf?_lt_length hi) (henters.left l hl i hi)
  · have hle := h.trivia_stop_le hr hi
    have hlt : i < doc.order.length := idxOf?_lt_length hi
    have := hbehind _ (henters.right (by omega))
    omega
  · cases hr : doc.range? n with
    | none =>
      refine Or.inl ⟨fun x hx i hi => ?_, forall_mem_nil _⟩
      have hvisible := mem_visibleLeaves.2 ⟨hx, mem_of_idxOf? hi⟩
      rw [range?_eq_none.1 hr] at hvisible
      cases hvisible
    | some r =>
      have hrange : ∀ x ∈ doc.leaves n, ∀ i, doc.position? x = some i → r.start ≤ i ∧ i < r.stop :=
        fun x hx i hi => mem_range_of_sublist h.tree.order_nodup (h.visible n) hr
          (mem_visibleLeaves.2 ⟨hx, mem_of_idxOf? hi⟩) hi
      have hstop := (h.range_bounds hr).2.trans (doc.trivia_stop_le_length n)
      rcases henters.apart n hn r hr with hle | hlt
      · refine Or.inr ⟨forall_mem_nil _, fun x hx i hi => ?_⟩
        exact (hbehind _ hle).trans (hrange x hx i hi).1
      · refine Or.inl ⟨fun x hx i hi => ?_, forall_mem_nil _⟩
        exact (hrange x hx i hi).2.trans_le (le_afterBreaks (hlayout ▸ hstop) hlt)

theorem Enters.not_mem_of_lineCount_le (h : doc.Aligned) (henters : doc.Enters list line)
    (hle : doc.layout.lineCount ≤ line) {r : Leaf} (hr : r ∈ doc.rightLeaves list) :
    r ∉ doc.order := by
  intro ho
  obtain ⟨i, hi⟩ := exists_position ho
  have hstop := h.trivia_stop_le hr hi
  have hi : i < doc.order.length := idxOf?_lt_length hi
  have hbound := henters.right (by omega)
  have hcount : doc.layout.lineOf (doc.trivia list).stop < doc.layout.lineCount := by
    refine lineOf_lt_lineCount ?_
    simp only [layout, length_map]
    omega
  omega

theorem LinePlace.gap (h : doc.Aligned) (hlist : doc.Has list)
    (henters : doc.Enters list line) (hplace : doc.LinePlace line base p) :
    base.Aligned ∧ Gap base list p := by
  rcases hplace with ⟨-, rfl, rfl⟩ | ⟨hle, rfl, rfl⟩
  · exact ⟨h, henters.gap h⟩
  · have hend := h.endLine
    have hright : ∀ r ∈ doc.endLine.rightLeaves list, r ∉ doc.endLine.order := by
      have hout := fun r => henters.not_mem_of_lineCount_le h hle (r := r)
      rcases doc.endLine_cases with he | he <;> rw [he] at hend ⊢
      · exact hout
      · intro r hr ho
        have hgrown := (Rewired.refl doc.toForest list).addToken lineBreak
        have hbeside := hgrown.beside_eq h.tree.linked hend.tree.linked hlist
        have hr : r ∈ doc.rightLeaves list := hbeside.2 ▸ hr
        rcases mem_insertAt.1 ho with hm | ho
        · have hhas := h.tree.linked.has_beside list r (mem_append_right _ hr)
          rw [mem_singleton.1 hm] at hhas
          exact not_has_newToken _ _ hhas
        · exact hout r hr ho
    have hbefore : ∀ ls : List Leaf, ∀ l ∈ ls, ∀ i, doc.endLine.position? l = some i →
        i < doc.endLine.order.length := fun _ _ _ _ hi => idxOf?_lt_length hi
    refine ⟨hend, le_rfl, ⟨hbefore _, fun r hr i hi => ?_⟩, fun n _ => Or.inl ⟨hbefore _, ?_⟩⟩
    · exact absurd (mem_of_idxOf? hi) (hright r hr)
    · exact forall_mem_nil _

/-! ### Lines come in -/

theorem Gap.of_fresh (hgap : Gap doc list p) (h : doc.Linked)
    (hlist : doc.Has list) (hf : Fresh doc mid list tokens) : Gap mid list p := by
  obtain ⟨hleft, hright⟩ := hf.rewired.beside_eq h hf.tree.linked hlist
  have hparts : ∀ {ls rs}, Parts doc p ls rs → Parts mid p ls rs := fun hparts =>
    ⟨fun l hl i hi => hparts.left l hl i (by rwa [position?, hf.order_eq] at hi),
      fun r hr i hi => hparts.right r hr i (by rwa [position?, hf.order_eq] at hi)⟩
  refine ⟨hf.order_eq ▸ hgap.le, ?_, fun n hn => ?_⟩
  · rw [hleft, hright]
    exact hparts hgap.parts
  · rw [hf.children_eq] at hn
    rw [hf.rewired.leaves_child h hf.tree.linked hn]
    exact (hgap.children n hn).imp hparts hparts

theorem Gap.placeChild {node : Node} (hgap : Gap doc list p)
    (hlist : doc.Has list) (hw : doc.Waits tokens) (ha : Apart doc list tokens)
    (hn : doc.Unseated list node) (hhidden : ∀ y ∈ doc.leaves node, y ∉ doc.order) :
    ((doc.insertAt p tokens).placeChild list node).Aligned := by
  have hnone : ∀ x ∈ ([] : List Leaf), x ∉ tokens := forall_mem_nil _
  have hinside : ∀ n ∈ doc.children list, ∀ x ∈ doc.leaves n, x ∉ tokens := by
    intro n hn x hx hm
    refine ha.left x hm (mem_append_right _ ?_)
    rw [hw.aligned.tree.linked.leaves_branch]
    exact mem_flatMap.2 ⟨n, hn, hx⟩
  refine (hw.insertAt p).placeChild (fun n hn => ?_) hlist (hn.insertAt p tokens) ?_
  · exact (hgap.children n hn).imp (·.between (hinside n hn) hnone hhidden)
      (·.between hnone (hinside n hn) hhidden)
  · exact hgap.parts.between (fun x hx hm => ha.left x hm (mem_append_left _ hx))
      (fun x hx hm => ha.right x hm hx) hhidden

theorem Aligned.gap_behind (h : doc.Aligned) {n : Node} {r : Span} (hn : n ∈ doc.children list)
    (hr : doc.range? n = some r) : Gap doc list r.stop := by
  have hparent := h.tree.linked.down hn
  obtain ⟨xs, ys, hxy, hxs, -⟩ := h.tree.linked.exists_siblings hparent
  have hparts := h.parts_behind hparent hxy hxs
  rw [hr, Option.getD_some] at hparts
  refine ⟨(h.range_bounds hr).2.trans (doc.trivia_stop_le_length n),
    ⟨fun l hl => hparts.left l (mem_append_left _ hl),
      fun l hl => hparts.right l (mem_append_right _ hl)⟩, fun m hm => ?_⟩
  rw [hxy, append_cons, mem_append] at hm
  refine hm.imp (fun hm => ⟨fun x hx => ?_, forall_mem_nil _⟩)
    fun hm => ⟨forall_mem_nil _, fun x hx => ?_⟩
  · exact hparts.left x (mem_append_right _ (mem_flatMap.2 ⟨m, hm, hx⟩))
  · exact hparts.right x (mem_append_left _ (mem_flatMap.2 ⟨m, hm, hx⟩))

section

variable (h : doc.Aligned) (hlist : doc.Has list)
include h

theorem Aligned.withTokens (hl : laid.Aligned) (p : Nat) : (doc.withTokens p laid).Aligned :=
  (waits_graft h hl (.refl _)).insertAt p

include hlist

theorem Gap.placeRoot (hgap : Gap doc list p) (hl : laid.Aligned) :
    ((doc.withTokens p laid).placeChild list (doc.rehomeBranch laid.root)).Aligned := by
  have hf : Fresh doc (doc.graft laid).2 list (laid.order.map doc.rehomeLeaf) :=
    .graft h.tree hlist hl.tree hl.tree.order_nodup (List.Subset.refl _)
  exact (hgap.of_fresh h.tree.linked hlist hf).placeChild (hf.rewired.has _ hlist)
    (waits_graft h hl (.refl _)) (hf.apart h.tree hlist) (unseated_graft h.tree hlist hl.tree)
    fun _ => not_mem_of_mem_graft h.tree hl.tree.linked

theorem Aligned.addDelimiter (rule : ListRule) (element : Branch) :
    (doc.addDelimiter rule list element).Aligned := by
  unfold Document.addDelimiter
  dsimp only
  split
  · exact h
  · next range hrange =>
    obtain ⟨anchor, hanchor, hrange⟩ := Option.bind_eq_some_iff.1 hrange
    have hmem : anchor ∈ doc.listElements rule list := by
      obtain ⟨index, hindex, hanchor⟩ := Option.bind_eq_some_iff.1 hanchor
      split at hanchor
      · cases hanchor
      · split at hanchor
        · exact mem_of_getElem? hanchor
        · exact Option.some.inj hanchor ▸ mem_of_idxOf? hindex
    have hgap := h.gap_behind (mem_listElements.1 hmem).1 hrange
    rcases doc.newLiteral_cases rule.delimiter with he | he <;> rw [he]
    · exact h
    · have hf := (Fresh.nil h.tree list).newToken rule.delimiter
      have hloose := h.loose_newToken rule.delimiter
      refine (hgap.of_fresh h.tree.linked hlist hf).placeChild (hf.rewired.has _ hlist)
        ((Waits.nil hloose.aligned).extend (nil_sublist _) hloose.nodup fun l hl =>
          Or.inr ⟨hloose.has l hl, hloose.new l hl, hloose.free l hl⟩)
        (hf.apart h.tree hlist)
        (unseated_leaf (hloose.has _ (by simp)) (hloose.free _ (by simp)) list) fun y hy => ?_
      rw [leaves_leaf] at hy
      exact hloose.new y hy

/-- An element comes in at a gap with its delimiter. -/
theorem Gap.insertElement (hgap : Gap doc list p) (hl : laid.Aligned) (rule : ListRule) :
    (((doc.withTokens p laid).placeChild list (doc.rehomeBranch laid.root)).addDelimiter
      rule list (doc.rehomeBranch laid.root)).Aligned := by
  refine (hgap.placeRoot h hlist hl).addDelimiter ?_ rule _
  exact has_insertChild.2 (has_graft_iff.2 (Or.inl hlist))

end

end Document

end Lossless
