import Lossless.Proofs.Kinds
import Lossless.Proofs.OnLines

/-! Edits that keep the children of every container in the order of the text. Everything but an
addition to a list does, in a grammar whose lists with placeholders are bounded above and take
elements on lines of their own. -/

namespace Lossless

open Edit

/-- A rule whose placeholder stands on lines of its own, below a bound. -/
def ListRule.Bounded (rule : ListRule) : Prop :=
  rule.placeholder.isSome = true → rule.above = .always ∧ rule.trailing = false

instance (rule : ListRule) : Decidable rule.Bounded :=
  inferInstanceAs (Decidable (_ → _))

theorem Grammar.bounded_of_listRule? {language : Language} {kind : Kind} {rule : ListRule}
    (h : language.grammar.listRule? kind = some rule) : rule.Bounded := by
  have key : ∀ kind ∈ Kind.all, ∀ rule ∈ (language.grammar.listRule? kind).toList, rule.Bounded := by
    cases language <;> decide +kernel
  exact key kind (mem_all kind) rule (Option.mem_toList.2 h)

namespace Document

variable {doc mid fragment : Document} {rule : ListRule} {list optional : Branch} {line : Nat}

/-! ### What goes -/

theorem Thinned.closeRoom (h : Thinned doc mid) (b : Branch) : Thinned doc (mid.closeRoom b) := by
  unfold Document.closeRoom
  split
  · exact h
  · split
    · unfold closeSlotRoom
      split
      · exact h
      · dsimp only
        split
        · exact h.cut _
        · exact (h.cut _).removeChild ..
    · exact h
    · split
      · exact h
      · unfold closePlainRoom
        split
        · dsimp only
          split
          · exact h.cut _
          · split
            · exact h.cut _
            · exact h
        · exact h

theorem Thinned.clearOptional (h : Thinned doc mid) (rule : OptionalRule) (optional : Branch) :
    Thinned doc (mid.clearOptional rule optional) := by
  unfold Document.clearOptional
  split
  · exact h.clearChildren _
  · refine (Thinned.clearChildren ?_ _).updateComments
    unfold cutOptional
    split
    · exact h.cut _
    · exact h.cut _
    · exact h.cut _
    · dsimp only
      split
      · exact h.closeRoom _
      · exact (h.closeRoom _).cut _

theorem Thinned.dropMark (h : Thinned doc mid) (list : Branch) (mark : Option Leaf) :
    Thinned doc (mid.dropMark list mark) := by
  cases mark with
  | none => exact h
  | some mark => exact (h.discard _).removeChild ..

theorem Thinned.detachElement (h : Thinned doc mid) (rule : ListRule) (list element : Branch) :
    Thinned doc (mid.detachElement rule list element) := by
  obtain ⟨mark, late, heq, hlate⟩ := mid.detachElement_cases rule list element
  rw [heq]
  refine Thinned.removeChild (Thinned.updateComments ?_) ..
  rcases hlate with rfl | ⟨span, rfl⟩
  · exact h.dropMark list mark
  · exact (h.dropMark list mark).cut span

theorem Thinned.detachChild (h : Thinned doc mid) (parent : Branch) (node : Node) :
    Thinned doc (mid.detachChild parent node) :=
  ((h.discard _).removeChild ..).updateComments

theorem Thinned.removeComment (h : Thinned doc mid) (comment : Branch) :
    Thinned doc (mid.removeComment comment) := by
  have hcomments : Thinned doc { mid with comments := mid.comments.filter (· != comment) } :=
    ⟨h.tree.congr rfl rfl rfl, h.order, h.children⟩
  unfold Document.removeComment
  dsimp only
  split
  · exact hcomments
  · exact hcomments.cut _

theorem Aligned.clearOptional (h : doc.Aligned) (rule : OptionalRule) (optional : Branch) :
    (doc.clearOptional rule optional).Aligned :=
  ((Thinned.refl h.tree).clearOptional rule optional).aligned h

theorem Aligned.emptyList (h : doc.Aligned) (rule : ListRule) (list : Branch) :
    (doc.emptyList rule list).Aligned := by
  unfold Document.emptyList
  dsimp only
  have hcut := fun span => (((Thinned.refl h.tree).clearChildren list).cut span).aligned h
  split
  · exact ((hcut _).loose_newIndentedBreak _ |>.insertAt _).updateComments
  · exact (hcut _).updateComments

/-! ### What comes -/

theorem Aligned.unfoldBody (h : doc.Aligned) (list : Branch) : (doc.unfoldBody list).Aligned := by
  have hstrip : (doc.stripAround list).Aligned := (h.cut _).cut _
  have hopen : (doc.openBody list).Aligned := by
    unfold openBody
    dsimp only
    split
    · exact hstrip
    · exact (hstrip.loose_newIndentedBreak _).insertAt _
  rw [unfoldBody_eq]
  exact (hopen.loose_newIndentedBreak _).insertAt _

theorem Aligned.wrap (h : fragment.Aligned) (rule : ListRule) : (rule.wrap fragment).Aligned := by
  unfold ListRule.wrap
  split
  · exact h
  · exact h.wrapRoot _

theorem Aligned.setOptional (h : doc.Aligned) (hf : fragment.Aligned)
    (hb : doc.Has optional) (rule : OptionalRule) :
    (doc.setOptional rule optional fragment).2.Aligned := by
  have hclear := h.clearOptional rule optional
  have hev : Grows doc (doc.clearOptional rule optional) :=
    (Evolves.refl h.tree.linked).clearOptional rule optional
  refine hclear.fillOptional (hev.has _ hb) (doc.children_clearOptional rule optional) ?_ rule
  split
  · exact hf
  · exact hf.wrapRoot _

theorem isSqueezed_unfolded (h : doc.Aligned) (hlist : doc.Has list) :
    (doc.unfolded list).isSqueezed list = false := by
  unfold unfolded
  split
  · next hs =>
    obtain ⟨r, hr, ho⟩ := exists_right_of_isSqueezed h.tree.linked hs
    exact (bracketed_of_ordered h.tree h.ordered hlist).isSqueezed_unfoldBody hr ho
  · next hs => exact eq_false_of_ne_true hs

theorem Aligned.insertLines (h : doc.Aligned) (hlist : doc.Has list)
    (henters : doc.Enters list line) (hf : fragment.Aligned) (rule : ListRule) (isComment : Bool) :
    (doc.insertLines rule list line fragment isComment).2.Aligned := by
  have hlaid : (doc.lineFragment list fragment).Aligned := (hf.increaseIndent _ _).endLine
  have hbase : ∀ {base p}, doc.LinePlace line base p → base.Has list := by
    intro base p hplace
    have hend : Grows doc doc.endLine := (Evolves.refl h.tree.linked).endLine
    rcases hplace.base_eq with rfl | rfl
    · exact hlist
    · exact hend.has _ hlist
  cases isComment with
  | true =>
    obtain ⟨base, p, hplace, he⟩ := doc.insertLines_comment rule list line fragment
    obtain ⟨haligned, -⟩ := hplace.gap h hlist henters
    rw [he]
    exact (haligned.withTokens hlaid p).updateComments
  | false =>
    obtain ⟨base, p, hplace, he⟩ := doc.insertLines_element rule list line fragment
    obtain ⟨haligned, hgap⟩ := hplace.gap h hlist henters
    rw [he]
    exact (hgap.insertElement haligned (hbase hplace) hlaid rule).updateComments

theorem Aligned.unfolded (h : doc.Aligned) (list : Branch) : (doc.unfolded list).Aligned := by
  unfold Document.unfolded
  split
  · exact h.unfoldBody list
  · exact h

end Document

namespace Edit

variable {doc : Document} {rule : ListRule} {list : Branch}

open Document

theorem aligned_refill (h : doc.Aligned) (hlist : doc.Has list) (hrule : rule.Bounded) :
    ((refill rule list).left doc).Aligned := by
  unfold refill
  rw [left_get_bind]
  split
  · next placeholder line hplaceholder hline =>
    obtain ⟨habove, htrailing⟩ := hrule (by rw [hplaceholder]; rfl)
    have hinline : ∀ d : Document, d.isInline rule list = false := fun d => by
      rw [isInline, htrailing, Bool.false_and]
    split
    · rw [if_neg (by rw [hinline]; exact Bool.false_ne_true)]
      have hsource := (aligned_ofSource doc.grammar rule.element placeholder.text).wrap rule
      rcases run_placeAtLine (unfolds_of_ordered h.tree h.ordered rule list) line
        (.ofSource doc.grammar rule.element placeholder.text) with ⟨hmem, hrun⟩ | ⟨-, hnot, -⟩
      · have henters := enters_of_mem_linesFor (h.unfolded list) (hinline _)
          (isSqueezed_unfolded h hlist) hmem (.inl (by rw [habove]; rfl))
        have hplaced := (h.unfolded list).insertLines
          (((Evolves.refl h.tree.linked).unfolded list : Grows _ _).has _ hlist)
          henters hsource rule
          ((ofSource doc.grammar rule.element placeholder.text).rootKind = .comment)
        rw [left_bind_of_ok hrun]
        split
        · exact keeps_padAround (fun _ p n hd => hd.insertBreaks p n) hplaced ..
        · exact hplaced
      · exact absurd (List.mem_of_head? hline) hnot
    · exact h
  · exact h

/-- What edits around the elements of a list keep: nodes that are there, and their order. -/
theorem survives_aligned (hlist : doc.Has list) (hrule : rule.Bounded) :
    Survives (fun d => Grows doc d ∧ d.Aligned) rule list := by
  have hev : Survives (Grows doc) rule list := survives_evolves hlist trivial
  exact {
    unfold := fun d hd => ⟨hev.unfold d hd.1, hd.2.unfoldBody list⟩
    cutLines := fun d lines hd => ⟨hev.cutLines d lines hd.1, hd.2.cut _⟩
    breaks := fun d p n hd => ⟨hev.breaks d p n hd.1, hd.2.insertBreaks p n⟩
    clear := fun d optional rule hd hc =>
      ⟨hev.clear d optional rule hd.1 hc, hd.2.clearOptional rule optional⟩
    refill := fun d hd => ⟨hev.refill d hd.1, aligned_refill hd.2 (hd.1.has _ hlist) hrule⟩ }

end Edit

/-! ### Requests -/

def Request.adds : Request → Bool
  | .addAtLine .. | .add .. => true
  | _ => false

def Document.Nested (doc : Document) : Prop :=
  ∀ node b r, doc.parent node = some b → doc.range? node = some r →
    ∃ s, doc.range? b = some s ∧ s.start ≤ r.start ∧ r.stop ≤ s.stop

theorem Document.Aligned.nested {doc : Document} (h : doc.Aligned) : doc.Nested := by
  intro node b r hp hr
  obtain ⟨first, last, j, hfirst, hlast, hi, hj, hstop⟩ := exists_of_range? hr
  have hmem : ∀ x ∈ doc.visibleLeaves node, x ∈ doc.visibleLeaves b := by
    intro x hx
    rw [visibleLeaves_branch h.tree.linked]
    exact List.mem_flatMap.2 ⟨node, h.tree.linked.up hp, hx⟩
  have hfirst := hmem _ (List.mem_of_mem_head? hfirst)
  have hlast := hmem _ (List.mem_of_getLast? hlast)
  obtain ⟨s, hs⟩ := exists_range? hfirst
  have hlow := mem_range_of_sublist h.tree.order_nodup (h.visible _) hs hfirst hi
  have hhigh := mem_range_of_sublist h.tree.order_nodup (h.visible _) hs hlast hj
  exact ⟨s, hs, hlow.1, by omega⟩

namespace Request

variable {doc : Document}

open Document

theorem aligned_left (request : Request) (hadds : request.adds = false) (h : doc.Aligned)
    (hb : ∀ b ∈ request.container?, doc.Has (.branch b))
    (hrules : ∀ kind rule, doc.grammar.listRule? kind = some rule → rule.Bounded)
    (hf : ∀ fragment ∈ request.fragment?, fragment.Aligned) : (request.run.left doc).Aligned := by
  let P := fun d => Grows doc d ∧ d.Aligned
  have hrefl : P doc := ⟨.refl h.tree.linked, h⟩
  have hsurvives : ∀ {list rule}, doc.Has (.branch list) → doc.listRule? list = some rule →
      Survives P rule list := fun hlist hrule => survives_aligned hlist (hrules _ _ hrule)
  have hdetach : ∀ list (rule : ListRule) (d : Document) (element : Branch), P d →
      P (d.detachElement rule list element) := fun list rule d element hd =>
    ⟨hd.1.trans (evolves_detachElement hd.1.linked rule list element),
      ((Thinned.refl hd.2.tree).detachElement rule list element).aligned hd.2⟩
  have hremove : ∀ list element, P ((Edit.removeElement list element).left doc) := by
    intro list element
    refine left_removeElement hrefl element fun rule hrule hparent => ?_
    exact ⟨hsurvives (h.tree.linked.has_parent hparent) hrule, fun d => hdetach list rule d element⟩
  cases request with
  | openList list =>
    unfold run
    rw [left_discard, left_listRule]
    exact h
  | openOptional optional =>
    unfold run
    rw [left_discard, left_optionalRule]
    exact h
  | addAtLine | add => cases hadds
  | removeElement list element =>
    unfold run
    rw [left_discard]
    exact (hremove list element).2
  | clearList list =>
    have hlist := hb list rfl
    have hkeeps : P ((Edit.clearList list).left doc) := by
      refine keeps_clearList
        (fun rule d hd hrule => hsurvives hlist (hd.1.listRule?_eq hlist ▸ hrule))
        (hdetach list) (fun d rule hd => ?_) doc hrefl
      exact ⟨hd.1.trans (evolves_emptyList hd.1.linked rule list), hd.2.emptyList rule list⟩
    exact hkeeps.2
  | set optional fragment =>
    unfold run
    rw [left_discard]
    exact left_set h fun rule _ _ => h.setOptional (hf fragment rfl) (hb optional rfl) rule
  | clearOptional optional =>
    exact left_clearOptional h fun rule => h.clearOptional rule optional
  | remove node =>
    refine left_remove h node (fun b _ => ?_) (fun rule b => h.clearOptional rule b)
      (fun list element => (hremove list element).2) fun parent child => ?_
    · exact ((Thinned.refl h.tree).removeComment b).aligned h
    · exact ((Thinned.refl h.tree).detachChild parent child).aligned h
  | replace node fragment =>
    unfold run
    rw [left_discard]
    refine left_replace h node fun parent hp _ _ => ?_
    have hfragment := hf fragment rfl
    have hplaced : (placedIn doc parent fragment).Aligned := by
      unfold placedIn
      split
      · split
        · exact hfragment
        · exact hfragment.wrapRoot _
      · exact hfragment
    exact ⟨h.substitute hplaced hp, h.swapped hplaced hp⟩

end Request

/-- Whatever is left by a request that brings no element to a list, or by the removal of a comment,
is a tree in the order of the text, and each visible node lies inside its container. -/
theorem Request.ordered_of_left {doc after : Document} (request : Request) (comment : Branch)
    (h : doc.IsTree) (ho : doc.Ordered) (hadds : request.adds = false)
    (hb : ∀ b ∈ request.container?, doc.Has (.branch b))
    (hrules : ∀ kind rule, doc.grammar.listRule? kind = some rule → rule.Bounded)
    (hf : ∀ fragment ∈ request.fragment?, fragment.IsTree ∧ fragment.Ordered)
    (hafter : after = request.run.left doc ∨ after = doc.removeComment comment) :
    after.IsTree ∧ after.Ordered ∧ after.Nested := by
  have hdoc : doc.Aligned := ⟨h, ho⟩
  have haligned : after.Aligned := by
    rcases hafter with rfl | rfl
    · exact request.aligned_left hadds hdoc hb hrules fun f hm => ⟨(hf f hm).1, (hf f hm).2⟩
    · exact ((Document.Thinned.refl h).removeComment comment).aligned hdoc
  exact ⟨haligned.tree, haligned.ordered, haligned.nested⟩

/-- The only statement of a body makes way for a placeholder. -/
theorem Request.ordered_of_left_pass :
    let start : Builder := { grammar := .python, source := "def f():\n    x\n" }
    let calls : List Builder.Call :=
      [.openNode .program, .openNode .statementList, .openNode .statement, .openNode .function,
        .token "def", .token "f", .token "(", .token ")", .token ":", .openNode .enclosedBody,
        .openNode .statementList, .openNode .statement, .token "x", .closeNode, .closeNode,
        .closeNode, .closeNode, .closeNode, .closeNode, .closeNode]
    let request : Request := .removeElement ⟨5⟩ ⟨6⟩
    ∃ doc after, (start.run calls).finish = .ok doc ∧ request.run.run doc = .ok () after ∧
      after.text = "def f():\n    pass\n" ∧ after.IsTree ∧ after.Ordered ∧ after.Nested := by
  intro start calls request
  let doc := (start.run calls).built
  have hfinish : (start.run calls).finish = .ok doc := by decide +kernel
  obtain ⟨htree, hordered⟩ := Builder.isTree_of_run hfinish
  have hresult : (match request.run.run doc with
    | .ok _ after => decide (after.text = "def f():\n    pass\n")
    | .error _ _ => false) = true := by decide +kernel
  split at hresult
  · next after hrun =>
    refine ⟨doc, after, hfinish, hrun, of_decide_eq_true hresult, ?_⟩
    refine request.ordered_of_left ⟨0⟩ htree hordered (by decide +kernel) ?_
      (fun kind rule hrule => ?_) ?_
      (.inl (left_of_ok hrun).symm)
    · rintro _ ⟨⟩
      decide +kernel
    · have hpython : doc.grammar = Language.python.grammar := by decide +kernel
      exact Grammar.bounded_of_listRule? (hpython ▸ hrule)
    · rintro _ ⟨⟩
  · cases hresult

end Lossless
