import Lossless.Proofs.Comments

/-! Edits and the list of comments. Whatever a request does, the list of comments is that of the
text when it ends. -/

namespace Lossless

open List Document Forest Edit ListRule

namespace Document

variable {doc fragment : Document} {rule : ListRule} {list element root : Branch}

structure Seated (doc : Document) (list element : Branch) : Prop where
  tree : doc.IsTree
  child : .branch element ∈ doc.children list
  sublist : doc.visibleLeaves element <+ doc.order

theorem Level.seated (h : doc.Level list element) : doc.Seated list element :=
  ⟨h.bracketed.tree, h.child, h.sublist⟩

theorem Aligned.seated (h : doc.Aligned) (hc : .branch element ∈ doc.children list) :
    doc.Seated list element :=
  ⟨h.tree, hc, h.visible _⟩

theorem thinned_withoutBlank (h : doc.IsTree) (rule : ListRule) (list element : Branch) :
    Thinned doc (doc.withoutBlank rule list element) :=
  keeps_withoutBlank (fun _ _ hd => hd.cut _) (.refl h) rule list element

theorem thinned_withoutPadding (h : doc.IsTree) (rule : ListRule) (list element : Branch) :
    Thinned doc (doc.withoutPadding rule list element) := by
  rw [withoutPadding]
  split
  · exact thinned_withoutBlank h rule list element
  · exact .refl h

theorem Seated.withoutBlank (h : doc.Seated list element) (rule : ListRule) :
    (doc.withoutBlank rule list element).Seated list element := by
  have hthin := thinned_withoutBlank h.tree rule list element
  refine ⟨hthin.tree, ?_, hthin.visible h.tree h.sublist⟩
  rw [(doc.withoutBlank_tables rule list element).1]
  exact h.child

/-- An element and its delimiter come in under a list, and the other children keep their tokens. -/
theorem visibleLeaves_placeChild (h : doc.Linked) (hlist : doc.Has list)
    (h' : ((doc.placeChild list root).addDelimiter rule list root).Linked)
    (hout : ¬ doc.Around element list) :
    let placed := (doc.placeChild list root).addDelimiter rule list root
    placed.visibleLeaves element = doc.visibleLeaves element ∧
      doc.order <+ placed.order := by
  intro placed
  have hput : ∀ c, c ≠ list →
      (doc.placeChild list root).children c = doc.children c := fun c hc =>
    (children_insertChild hlist ..).trans (if_neg hc)
  have hhas : (doc.placeChild list root).Has list :=
    has_insertChild.2 hlist
  have hchildren : ∀ c, c ≠ list → placed.children c = doc.children c := by
    intro c hc
    rcases (doc.placeChild list root).addDelimiter_cases rule list root with
      he | ⟨p, i, he⟩ <;> simp only [placed, he]
    · exact hput c hc
    · exact ((children_insertChild (has_newToken_of_has hhas _) ..).trans
        (if_neg hc)).trans (hput c hc)
  have hleaves : placed.leaves element = doc.leaves element :=
    h.leaves_congr h' element fun c hc => hchildren c fun he => hout (he ▸ hc)
  rw [visibleLeaves, hleaves]
  rcases (doc.placeChild list root).addDelimiter_cases rule list root with
    he | ⟨p, i, he⟩ <;> simp only [placed, he]
  · exact ⟨rfl, .refl _⟩
  · refine ⟨filter_insertAt p fun l hl hm => ?_, sublist_insertAt _ p _⟩
    rw [mem_singleton.1 hl] at hm
    refine not_has_newToken (doc.placeChild list root) rule.delimiter ?_
    exact has_insertChild.2 (h.has_of_mem_leaves hm)

theorem isTree_insertLines (h : doc.IsTree) (hlist : doc.Has list) (hf : fragment.IsTree)
    (rule : ListRule) (line : Nat) (isComment : Bool) :
    (doc.insertLines rule list line fragment isComment).2.IsTree := by
  have hlines : Grows doc
      (doc.insertLines rule list line fragment isComment).2 :=
    evolves_insertLines h.linked hlist hf (fun _ _ _ => trivial) (fun _ => trivial) rule line
  have hlisted := h.listed.insertLines hf.listed rule list line isComment
  generalize (doc.insertLines rule list line fragment isComment).2 = after at hlines hlisted
  exact hlines.isTree h hlisted.has hlisted.nodup

theorem Level.insertElement (h : doc.Level list element) (hf : fragment.IsTree) (rule : ListRule)
    (line : Nat) : (doc.insertLines rule list line fragment false).2.Seated list element := by
  have hlist := h.bracketed.has
  have htree := isTree_insertLines h.bracketed.tree hlist hf rule line false
  have hchild := (mem_insertLines h.bracketed.tree.linked hlist hf rule line).2.2.2 _ h.child
  obtain ⟨base, p, hbase, he⟩ := doc.insertLines_element rule list line fragment
  have hlevel : base.Level list element := by
    rcases hbase.base_eq with rfl | rfl
    · exact h
    · exact h.endLine
  have hplaced := hlevel.withTokens (relaid_lineFragment hf doc list).tree p
  generalize base.withTokens p (doc.lineFragment list fragment) = placed at he hplaced
  generalize base.rehomeBranch (doc.lineFragment list fragment).root = root at he
  generalize hafter : (placed.placeChild list root).addDelimiter rule list root = after
    at he
  rw [he] at htree hchild ⊢
  have hlinked : after.Linked := htree.linked
  obtain ⟨hvisible, hsub⟩ := visibleLeaves_placeChild hplaced.bracketed.tree.linked
    hplaced.bracketed.has (hafter.symm ▸ hlinked) hplaced.not_around
  rw [hafter] at hvisible hsub
  have hsorted : after.visibleLeaves element <+ after.order :=
    hvisible ▸ hplaced.sublist.trans hsub
  exact ⟨htree, hchild, hsorted⟩

end Document

namespace Edit

variable {α β : Type} {P : Document → Prop} {doc mid fragment after taken : Document}
  {rule : ListRule} {list element other : Branch} {line : Nat}

def Yields (P : Document → Prop) (x : Edit α) (doc : Document) : Prop :=
  ∀ a after, x.run doc = .ok a after → P after

namespace Yields

theorem pure (h : P doc) (a : α) : Yields P (Pure.pure a) doc := by
  rintro _ _ ⟨⟩
  exact h

theorem throw (e : Error) : Yields P (MonadExcept.throw e : Edit α) doc :=
  nofun

theorem modifyGet {f : Document → α × Document} (h : P (f doc).2) :
    Yields P (MonadState.modifyGet f) doc := by
  rintro _ _ ⟨⟩
  exact h

theorem modify {g : Document → Document} {f : Unit → Edit α} (h : Yields P (f ()) (g doc)) :
    Yields P (MonadState.modifyGet (fun d => ((), g d)) >>= f) doc :=
  h

theorem get {f : Document → Edit α} (h : Yields P (f doc) doc) :
    Yields P (MonadState.get >>= f) doc :=
  h

theorem bind {x : Edit α} {f : α → Edit β}
    (h : ∀ a mid, x.run doc = .ok a mid → Yields P (f a) mid) : Yields P (x >>= f) doc := by
  intro b after hrun
  obtain ⟨a, mid, hx, hf⟩ := run_bind_eq_ok hrun
  exact h a mid hx b after hf

theorem discard {x : Edit α} (h : Yields P x doc) : Yields P (Functor.discard x) doc := by
  intro _ after hrun
  obtain ⟨a, ha⟩ := exists_run_of_discard hrun
  exact h a after ha

/-- An edit that fails without a change leaves what it yields. -/
theorem left {x : Edit α} (h : Yields P x doc) (hx : x.Refuses doc) (hdoc : P doc) :
    P (x.left doc) := by
  cases hrun : x.run doc with
  | ok a after =>
    rw [left_of_ok hrun]
    exact h a after hrun
  | error e after =>
    have hleft : x.left doc = after := by
      rw [Edit.left, hrun]
    rw [hleft, (hx e after hrun).1]
    exact hdoc

end Yields

/-! ### Elements that come in -/

theorem yields_placeAtLine (rule : ListRule) (list : Branch) (line : Nat) (fragment : Document) :
    Yields Current (placeAtLine rule list line fragment) doc := by
  unfold placeAtLine
  refine .get ?_
  have hrest : ∀ (choose : List Nat → Nat) (mid : Document), Yields Current
      (MonadState.get >>= fun d : Document =>
      if (d.linesFor rule list).contains (choose (d.linesFor rule list)) then
        MonadState.modifyGet fun doc => doc.insertLines rule list (choose (d.linesFor rule list))
          (rule.wrap fragment) (fragment.rootKind = .comment)
      else MonadExcept.throw
        (.lineUnavailable (choose (d.linesFor rule list)) (d.linesFor rule list))) mid := by
    intro choose mid
    refine .get ?_
    split
    · exact .modifyGet (current_insertLines ..)
    · exact .throw _
  dsimp only
  split
  · exact .bind fun _ mid _ => hrest (·.getLast?.getD line) mid
  · exact hrest (fun _ => line) doc

theorem yields_placeClause (rule : ListRule) (list : Branch) (line : Nat) (fragment : Document) :
    Yields Current (placeClause rule list line fragment) doc := by
  unfold placeClause
  refine .get ?_
  dsimp only
  split
  · exact .modifyGet (current_insertBeside ..)
  · exact .throw _

theorem yields_refill (hc : doc.Current) (rule : ListRule) (list : Branch) :
    Yields Current (refill rule list) doc := by
  unfold refill
  refine .get ?_
  split
  · split
    · split
      · exact Yields.discard (yields_placeClause rule list _ _)
      · refine .bind fun added mid hrun => ?_
        have hmid : mid.Current := yields_placeAtLine rule list _ _ added mid hrun
        split
        · exact .modifyGet (keeps_padAround (fun d p n hd => hd.insertBreaks p n) hmid ..)
        · exact .pure hmid _
    · exact .pure hc _
  · exact .pure hc _

/-! ### Elements that go -/

theorem yields_takeElement (h : doc.Seated list element)
    (hc : doc.visibleLeaves element = [] → doc.Current) (rule : ListRule) :
    Yields Current (takeElement rule list element) doc := by
  have hlinked := h.tree.linked
  unfold takeElement
  refine .get ?_
  dsimp only
  split
  · next optional optionalRule hlast =>
    have hfound : doc.optionalAround? list = some (optional, optionalRule) := by
      split at hlast
      · exact hlast
      · cases hlast
    -- the element shows nothing unless the optional shows it
    refine .modify (.pure (current_clearOptional hlinked (fun hv => hc ?_) optionalRule) _)
    have hlist := hlinked.up (parent_of_optionalAround? hfound)
    rw [visibleLeaves_branch hlinked] at hv
    have hv := flatMap_eq_nil_iff.1 hv _ hlist
    rw [visibleLeaves_branch hlinked] at hv
    exact flatMap_eq_nil_iff.1 hv _ h.child
  · refine .modify (.bind fun _ after hrefill => .pure ?_ _)
    exact yields_refill (current_detachElement h.tree h.sublist rule list) rule list _ after hrefill

theorem yields_takeFrom (h : doc.Seated list element) (hc : doc.Current) (rule : ListRule) :
    Yields Current (takeFrom rule list element) doc := by
  unfold takeFrom
  split
  · intro taken after hrun
    have hcut : (doc.withoutBlank rule list element).visibleLeaves element = [] →
        (doc.withoutBlank rule list element).Current := by
      intro hv
      rcases withoutBlank_cases h.tree.order_nodup rule list element with he | hne
      · exact he.symm ▸ hc
      · exact absurd hv hne
    rw [run_takePadded] at hrun
    split at hrun
    · next mid hmid =>
      cases hrun
      obtain ⟨p, n, hrejoin⟩ := mid.rejoin_cases rule list
        ((doc.listElements rule list).idxOf element)
      rw [hrejoin]
      exact (yields_takeElement (h.withoutBlank rule) hcut rule _ mid hmid).insertBreaks p n
    · cases hrun
  · exact yields_takeElement h (fun _ => hc) rule

theorem Yields.withRule {f : ListRule → Edit α}
    (h : ∀ rule, doc.listRule? list = some rule → Yields P (f rule) doc) :
    Yields P (listRule list >>= f) doc := by
  refine .bind fun rule mid hrun => ?_
  obtain ⟨hmid, hrule⟩ := run_listRule_eq_ok hrun
  exact hmid ▸ h rule hrule

theorem exists_listRule_of_run {f : ListRule → Edit α} {a : α}
    (h : (listRule list >>= f).run doc = .ok a after) : ∃ rule, doc.listRule? list = some rule := by
  obtain ⟨rule, mid, hrun, -⟩ := run_bind_eq_ok h
  exact ⟨rule, (run_listRule_eq_ok hrun).2⟩

theorem yields_removeElement (h : doc.Aligned) (hc : doc.Current) (list element : Branch) :
    Yields Current (removeElement list element) doc := by
  unfold removeElement
  refine .withRule fun rule hrule => .get ?_
  split
  · next hp => exact yields_takeFrom (h.seated (h.tree.linked.up hp)) hc rule
  · split
    · exact .throw _
    · exact .throw _

theorem yields_dropPlaceholder {placeholder : Option Branch}
    (h : ∀ p ∈ placeholder, doc.Seated list p) (hc : doc.Current) (rule : ListRule) :
    Yields Current (dropPlaceholder rule list placeholder) doc := by
  cases placeholder with
  | none => exact .pure hc _
  | some p => exact Yields.discard (yields_takeFrom (h p rfl) hc rule)

/-! ### Requests -/

section

variable (h : doc.Aligned) (hf : fragment.IsTree)
include h hf

theorem seated_placeholder_beside (rule : ListRule) (list : Branch) (index : Nat) :
    ∀ p ∈ doc.placeholder? rule list,
      (doc.insertBeside rule list index (rule.wrap fragment)).2.Seated list p := by
  intro p hp
  have hchild := (mem_listElements.1 (mem_of_placeholder? hp)).1
  exact ((level_of_ordered h.tree h.ordered hchild).insertBeside
    (isTree_wrap hf) rule index).seated

theorem seated_placeholder_lines (rule : ListRule) (list : Branch) (line : Nat) (isComment : Bool) :
    ∀ p ∈ doc.placeholder? rule list, ((doc.unfolded list).insertLines rule list line
      (rule.wrap fragment) isComment).2.Seated list p := by
  intro p hp
  have hchild := (mem_listElements.1 (mem_of_placeholder? hp)).1
  have hlevel := (level_of_ordered h.tree h.ordered hchild).unfolded
  cases isComment with
  | true => exact (hlevel.insertLines (isTree_wrap hf) rule line).seated
  | false => exact hlevel.insertElement (isTree_wrap hf) rule line

theorem yields_add (list : Branch) (index : Nat) :
    Yields Current (add list index fragment) doc := by
  intro added after hrun
  obtain ⟨rule, hrule⟩ := exists_listRule_of_run hrun
  exact yields_dropPlaceholder (seated_placeholder_beside h hf rule list index)
    (current_insertBeside ..) rule _ after (run_add_eq_ok hrule hrun)

theorem yields_addAtLine (list : Branch) (line : Nat) :
    Yields Current (addAtLine list line fragment) doc := by
  intro added after hrun
  obtain ⟨rule, hrule⟩ := exists_listRule_of_run hrun
  cases hinline : doc.isInline rule list with
  | true =>
    obtain ⟨index, hdrop⟩ := run_addAtLine_eq_ok hrule hinline hrun
    have hindent := hf.increaseIndent fragment.root (doc.indent list)
    have hseated := seated_placeholder_beside h hindent.tree.trimStart.tree rule list index
    exact yields_dropPlaceholder hseated (current_insertBeside ..) rule _ after hdrop
  | false =>
    obtain ⟨placed, dropped, hplace, hdrop, rfl⟩ := run_addAtLine_ok hrule hinline hrun
    have hdropped : dropped.Current := by
      refine yields_dropPlaceholder ?_ (yields_placeAtLine rule list line fragment _ placed hplace)
        rule _ dropped hdrop
      rcases run_placeAtLine (unfolds_of_ordered h.tree h.ordered rule list) line fragment with
        ⟨-, hlines⟩ | ⟨-, -, hlines⟩
      · have hseated := seated_placeholder_lines h hf rule list (doc.entryLine rule list line)
          (fragment.rootKind = .comment)
        generalize (doc.unfolded list).insertLines rule list _ _ _ = lines at hseated hlines
        rw [hplace] at hlines
        cases hlines
        exact hseated
      · rw [hplace] at hlines
        cases hlines
    split
    · exact keeps_padAround (fun d p n hd => hd.insertBreaks p n) hdropped ..
    · exact hdropped

end

theorem aligned_takeFrom (h : doc.Aligned)
    (he : element ∈ doc.listElements rule list) (ho : other ∈ doc.listElements rule list)
    (hne : other ≠ element) (hrun : (takeFrom rule list element).run doc = .ok taken after) :
    after.Aligned := by
  obtain ⟨_, p, n, hrun'⟩ := run_takeFrom_beside he ho hne h.tree.linked
  rw [hrun] at hrun'
  cases hrun'
  exact (((thinned_withoutPadding h.tree rule list element).detachElement rule list
    element).aligned h).insertBreaks p n

theorem yields_clearList (h : doc.Aligned) (hc : doc.Current) (list : Branch) :
    Yields Current (clearList list) doc := by
  unfold clearList
  refine .withRule fun rule hrule => .get ?_
  split
  · next retained hretained =>
    have hmem := mem_of_head? (Option.filter_eq_some_iff.1 hretained).1
    have hstep : ∀ d e taken mid, d.Aligned ∧ d.Current → e ∈ d.listElements rule list →
        retained ∈ d.listElements rule list → retained ≠ e →
          (takeFrom rule list e).run d = .ok taken mid → mid.Aligned ∧ mid.Current := by
      rintro d e taken mid ⟨ha, hcurrent⟩ he hkept hne hrun
      have hseated := ha.seated (mem_listElements.1 he).1
      exact ⟨aligned_takeFrom ha he hkept hne hrun,
        yields_takeFrom hseated hcurrent rule taken mid hrun⟩
    obtain ⟨after, hrun, hafter⟩ := exists_run_clear hstep ⟨h, hc⟩ h.tree.linked hrule hmem
      (nodup_reverse.2 (listElements_nodup h.tree.linked rule list))
      fun e he => mem_reverse.1 he
    intro _ last hlast
    rw [hrun] at hlast
    cases hlast
    exact hafter.2
  · have hempty : (doc.emptyList rule list).Current := current_updateComments _
    refine .modify (yields_refill ?_ rule list)
    dsimp only
    split
    · exact hempty
    · exact current_clearOptional (h.emptyList rule list).tree.linked (fun _ => hempty) _

theorem yields_replace (node : Branch) (fragment : Document) :
    Yields Current (replace node fragment) doc := by
  have hswap : ∀ parent placed, Yields Current (replace.swap node parent placed) doc := by
    intro parent placed
    unfold replace.swap
    refine .bind fun added mid _ => .get ?_
    split
    · exact .modify (.pure (current_updateComments _) _)
    · exact .throw _
  unfold replace
  refine .get ?_
  dsimp only
  split
  · exact .bind fun _ _ hthrow => nomatch hthrow
  · split
    · exact .throw _
    · split
      · split
        · exact .throw _
        · exact hswap _ _
      · exact hswap _ _

end Edit

/-- A request leaves the list of comments as the text has it. -/
theorem Request.current_left {doc : Document} (h : doc.Aligned) (ha : doc.CommentsApart)
    (hc : doc.Current) (request : Request)
    (hf : ∀ fragment ∈ request.fragment?, fragment.IsTree) : (request.run.left doc).Current := by
  obtain ⟨htree, hordered⟩ := h
  have h : doc.Aligned := ⟨htree, hordered⟩
  have hremove : ∀ list element, ((Edit.removeElement list element).left doc).Current :=
    fun list element => (yields_removeElement h hc list element).left
      (refuses_removeElement htree hordered list element) hc
  cases request with
  | openList list =>
    unfold run
    rw [left_discard, left_listRule]
    exact hc
  | openOptional optional =>
    unfold run
    rw [left_discard, left_optionalRule]
    exact hc
  | addAtLine list line fragment =>
    unfold run
    rw [left_discard]
    exact (yields_addAtLine h (hf fragment rfl) list line).left
      (refuses_addAtLine htree hordered (hf fragment rfl) list line) hc
  | add list index fragment =>
    unfold run
    rw [left_discard]
    exact (yields_add h (hf fragment rfl) list index).left
      (refuses_add htree hordered (hf fragment rfl) list index) hc
  | removeElement list element =>
    unfold run
    rw [left_discard]
    exact hremove list element
  | clearList list =>
    exact (yields_clearList h hc list).left (refuses_clearList htree.linked list) hc
  | set optional fragment =>
    unfold run
    rw [left_discard]
    exact left_set hc fun _ _ _ => current_updateComments _
  | clearOptional optional =>
    exact left_clearOptional hc (current_clearOptional htree.linked fun _ => hc)
  | remove node =>
    refine left_remove hc node (fun b hb => ?_)
      (fun rule optional => current_clearOptional htree.linked (fun _ => hc) rule) hremove
      fun _ _ => current_updateComments _
    exact hc.removeComment h ha (kindOf_of_removal hb)
  | replace node fragment =>
    unfold run
    rw [left_discard]
    exact (yields_replace node fragment).left
      (refuses_replace htree.linked node fragment) hc

theorem Builder.current_finish {b : Builder} {doc : Document} (h : b.finish = .ok doc) :
    doc.Current := by
  obtain ⟨-, root, -, rfl⟩ := finish_eq h
  exact current_updateComments _

theorem Converter.current_convert {converter : Converter} {source : String} {tree : ParseTree}
    {doc : Document} (h : converter.convert source tree = .ok doc) : doc.Current := by
  obtain ⟨built, hfinish, hdoc⟩ := exists_finish h
  have hbuilt := Builder.current_finish hfinish
  rcases hdoc with rfl | rfl
  · exact hbuilt.removeHidden
  · exact hbuilt

/-- The list of comments of an ordered tree is that of its text: what is built or converted starts
with it, and no request and no removal of comments or hidden tokens leaves another one, whether it
goes through or not. -/
theorem Document.comments_eq_placed {doc : Document} (h : doc.IsTree) (ho : doc.Ordered)
    (ha : doc.CommentsApart) (hc : doc.comments = doc.placedComments) :
    (∀ request : Request, (∀ fragment ∈ request.fragment?, fragment.IsTree) →
      (request.run.left doc).comments = (request.run.left doc).placedComments) ∧
    (∀ c ∈ doc.comments, (doc.removeComment c).comments = (doc.removeComment c).placedComments) ∧
    doc.removeHidden.comments = doc.removeHidden.placedComments ∧
    (∀ (b : Builder) built, b.finish = .ok built → built.comments = built.placedComments) ∧
    (∀ (converter : Converter) source tree converted,
      converter.convert source tree = .ok converted →
        converted.comments = converted.placedComments) := by
  have hcurrent : doc.Current := hc
  refine ⟨fun request hf => request.current_left ⟨h, ho⟩ ha hcurrent hf, fun c hmem => ?_,
    hcurrent.removeHidden, fun b built hb => Builder.current_finish hb,
    fun converter source tree converted hv => Converter.current_convert hv⟩
  rw [hc] at hmem
  obtain ⟨l, -, hl⟩ := mem_placedComments.1 hmem
  exact hcurrent.removeComment ⟨h, ho⟩ ha (kindOf_of_commentOf? hl)

/-- The comment among the arguments goes with them, and the one before the call stays listed. -/
theorem Document.comments_eq_placed_cleared :
    let start : Builder := { grammar := .javaScript, source := "/* m */ f(a, /* n */ b)" }
    let calls : List Builder.Call :=
      [.openNode .program, .comment "/* m */", .openNode .call, .openNode .identifier, .token "f",
        .closeNode, .token "(", .openNode .argumentList, .openNode .argument, .token "a",
        .closeNode, .token ",", .comment "/* n */", .openNode .argument, .token "b", .closeNode,
        .closeNode, .token ")", .closeNode, .closeNode]
    let request : Request := .clearList ⟨5⟩
    ∃ doc, (start.run calls).finish = .ok doc ∧ doc.IsTree ∧ doc.Ordered ∧ doc.CommentsApart ∧
      doc.comments = doc.placedComments ∧ doc.comments = [⟨1⟩, ⟨7⟩] ∧
      (request.run.left doc).text = "/* m */ f()" ∧ (request.run.left doc).comments = [⟨1⟩] ∧
      (request.run.left doc).comments = (request.run.left doc).placedComments := by
  intro start calls request
  let doc := (start.run calls).built
  have hfinish : (start.run calls).finish = .ok doc := by decide +kernel
  obtain ⟨htree, hordered⟩ := Builder.isTree_of_run hfinish
  have hplaced : doc.comments = doc.placedComments := by decide +kernel
  have hsize : doc.containers.size = 10 := by decide +kernel
  have honly : ∀ c, doc.kindOf c = .comment → c = ⟨1⟩ ∨ c = ⟨7⟩ := by
    have hin : ∀ i < 10, doc.kindOf ⟨i⟩ = .comment → i = 1 ∨ i = 7 := by decide +kernel
    intro ⟨i⟩ hc
    by_cases hi : i < 10
    · simpa using hin i hi hc
    · have hnot : ¬ doc.Has (.branch ⟨i⟩) := fun h => hi (Nat.lt_of_lt_of_eq h hsize)
      rw [Forest.kindOf, Forest.container_of_not_has hnot] at hc
      cases hc
  have hfirst : doc.range? (.branch ⟨1⟩) = some ⟨0, 5⟩ := by decide +kernel
  have hsecond : doc.range? (.branch ⟨7⟩) = some ⟨11, 16⟩ := by decide +kernel
  have hapart : doc.CommentsApart := by
    refine ⟨fun c hc => ?_, fun b c r s hb hc hne hr hs => ?_⟩
    · rcases honly c hc with rfl | rfl <;> decide +kernel
    · rcases honly b hb with rfl | rfl <;> rcases honly c hc with rfl | rfl
      · exact absurd rfl hne
      · cases hfirst.symm.trans hr
        cases hsecond.symm.trans hs
        decide
      · cases hsecond.symm.trans hr
        cases hfirst.symm.trans hs
        decide
      · exact absurd rfl hne
  obtain ⟨hrequests, -⟩ := comments_eq_placed htree hordered hapart hplaced
  exact ⟨doc, hfinish, htree, hordered, hapart, hplaced, by decide +kernel, by decide +kernel,
    by decide +kernel, hrequests request fun _ hm => by cases hm⟩

end Lossless
