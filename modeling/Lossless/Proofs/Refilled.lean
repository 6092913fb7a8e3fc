import Lossless.Proofs.Arriving
import Lossless.Proofs.Refreshed

/-! What a list without elements is given. The placeholder comes in on lines of its own or beside
what stands before it, and the ink of the text stays as it is. -/

namespace Lossless

open Document EStateM

namespace Document

variable {doc mid after fragment : Document} {rule : ListRule} {list element : Branch}
  {placeholder : Placeholder} {gone : List Leaf} {line : Nat}

/-- A list without elements that is to get a placeholder at a line. -/
structure Bare (doc : Document) (rule : ListRule) (list : Branch) (placeholder : Placeholder)
    (line : Nat) : Prop where
  declared : rule.placeholder = some placeholder
  offered : (doc.linesFor rule list).head? = some line
  empty : doc.listElements rule list = []
  applies : placeholder.scope.applies (doc.isTopLevel list) = true

def refilled (doc : Document) (rule : ListRule) (list : Branch) (line : Nat) (text : String) :
    Document :=
  let placed := (doc.unfolded list).insertLines rule list (doc.entryLine rule list line)
    (ofSource doc.grammar rule.element text) (rule.element = .comment)
  if rule.isPadded then placed.2.padAround rule list placed.1 (rule.element = .comment)
  else placed.2

/-! ### The ink around it -/

theorem Retains.relink (h : Retains doc mid gone) (hev : Grows doc after)
    (ha : after.IsTree) (ho : after.order = mid.order) : Retains doc after gone :=
  ⟨hev, h.start, ha, ho ▸ h.old, ho ▸ h.order, ho ▸ h.kept⟩

theorem Retains.updateComments (h : Retains doc mid gone) : Retains doc mid.updateComments gone :=
  h.relink h.evolves.updateComments h.tree.updateComments rfl

section

variable (h : doc.IsTree)
include h

theorem IsTree.retains_endLine : Retains doc doc.endLine [] := by
  rcases doc.endLine_cases with he | he <;> rw [he]
  · exact h.retains
  · exact ((Fresh.nil h doc.root).newToken Layout.lineBreak).retains h
      ((Evolves.refl h.linked).newToken _) _

theorem IsTree.retains_insertLines (hlist : doc.Has list) (hf : fragment.IsTree)
    (rule : ListRule) (line : Nat) (isComment : Bool) :
    Retains doc (doc.insertLines rule list line fragment isComment).2 [] := by
  have hlaid := (relaid_lineFragment hf doc list).tree
  have hplaced : ∀ base p, doc.LinePlace line base p →
      Retains doc (base.withTokens p (doc.lineFragment list fragment)) [] := by
    intro base p hplace
    have hbase : Retains doc base [] := by
      rcases hplace.base_eq with rfl | rfl
      · exact h.retains
      · exact h.retains_endLine
    have hgraft := Fresh.graft hbase.tree (hbase.evolves.has _ hlist) hlaid hlaid.order_nodup
      (List.Subset.refl _)
    exact hbase.trans (hgraft.retains hbase.tree
      ((Evolves.refl hbase.tree.linked).graft hlaid.linked fun _ _ _ => trivial) p)
  cases isComment with
  | true =>
    obtain ⟨base, p, hplace, he⟩ := doc.insertLines_comment rule list line fragment
    rw [he]
    exact (hplaced base p hplace).updateComments
  | false =>
    obtain ⟨base, p, hplace, he⟩ := doc.insertLines_element rule list line fragment
    obtain ⟨hev, hhas, hfree, -, hnew, -⟩ : Grows doc _ ∧ _ :=
      evolves_lineFragment h.linked hlist hf hplace.base_eq (fun _ _ _ => trivial) p
    have hmid := hplaced base p hplace
    have hlist' := hev.has _ hlist
    have hout := hev.not_around hlist hnew
    have hput : Retains doc ((base.withTokens p (doc.lineFragment list fragment)).placeChild list
        (base.rehomeBranch (doc.lineFragment list fragment).root)) [] :=
      hmid.relink
        (hev.insertChild hlist' hhas hfree (by rintro c ⟨⟩; exact ⟨hnew, trivial, hout⟩) _)
        (hmid.tree.insertChild hlist' hhas hfree
          (fun hr => hnew (hr ▸ hev.root.symm ▸ h.root_has)) (by rintro c ⟨⟩; exact hout)) rfl
    rw [he]
    exact (hput.trans (widened_addDelimiter hput.tree (hput.evolves.has _ hlist) rule _).toRetains
      ).updateComments

end

theorem Aligned.retains_refilled (h : doc.Aligned) (hlist : doc.Has list)
    (rule : ListRule) (line : Nat) (text : String) :
    Retains doc (doc.refilled rule list line text) [] := by
  have hunfold := h.tree.retains_unfolded list
  have hplaced := hunfold.trans (hunfold.tree.retains_insertLines (hunfold.evolves.has _ hlist)
    (isTree_ofSource doc.grammar rule.element text) rule (doc.entryLine rule list line)
    (rule.element = .comment))
  unfold refilled
  split
  · exact Edit.keeps_padAround (P := fun d => Retains doc d [])
      (fun d p n hd => hd.trans (hd.tree.retains_insertBreaks p n)) hplaced ..
  · exact hplaced

end Document

namespace Edit

variable {doc : Document} {rule : ListRule} {list : Branch}

theorem run_refill_of_none (h : rule.placeholder = none) (doc : Document) (list : Branch) :
    (refill rule list).run doc = .ok () doc := by
  unfold refill
  rw [run_get_bind, h]
  rfl

/-- A list that lacks its placeholder is given it, on lines or beside what stands before it. Any
other list is left alone. -/
theorem run_refill (h : doc.Unfolds rule list) :
    (∀ placeholder line, ¬ doc.Bare rule list placeholder line) ∧
        (refill rule list).run doc = .ok () doc ∨
      ∃ placeholder line, doc.Bare rule list placeholder line ∧
        (doc.isInline rule list = false ∧
            (refill rule list).run doc = .ok () (doc.refilled rule list line placeholder.text) ∨
          doc.isInline rule list = true ∧ ∃ index,
            let fragment : Document := .ofSource doc.grammar rule.element placeholder.text
            let clause :=
              (fragment.increaseIndent fragment.root (doc.indent list)).trimStart
            (refill rule list).run doc =
              .ok () (doc.insertBeside rule list index (rule.wrap clause)).2) := by
  unfold refill
  rw [run_get_bind]
  split
  · next placeholder line hdeclared hline =>
    have hmem := List.mem_of_head? hline
    split
    · next hc =>
      rw [Bool.and_eq_true, List.isEmpty_iff] at hc
      refine Or.inr ⟨placeholder, line, ⟨hdeclared, hline, hc.1, hc.2⟩, ?_⟩
      cases doc.isInline rule list with
      | true =>
        rcases run_placeClause doc rule list line
          (.ofSource doc.grammar rule.element placeholder.text) with ⟨-, index, hrun⟩ | ⟨hnot, -⟩
        · rw [if_pos rfl, run_discard, hrun]
          exact Or.inr ⟨rfl, index, rfl⟩
        · exact absurd hmem hnot
      | false =>
        rcases run_placeAtLine h line (.ofSource doc.grammar rule.element placeholder.text) with
          ⟨-, hrun⟩ | ⟨-, hnot, -⟩
        · refine Or.inl ⟨rfl, ?_⟩
          rw [if_neg Bool.false_ne_true, run_bind, hrun, refilled]
          dsimp only
          rw [ListRule.wrap_of_element rfl]
          split
          · exact run_modify ..
          · exact run_pure ..
        · exact absurd hmem hnot
    · next hc =>
      refine Or.inl ⟨fun placeholder' line' hb => hc ?_, run_pure ..⟩
      obtain rfl : placeholder = placeholder' := Option.some.inj (hdeclared.symm.trans hb.declared)
      rw [hb.empty, hb.applies]
      rfl
  · next hnone =>
    exact Or.inl ⟨fun placeholder line hb => hnone placeholder line hb.declared hb.offered,
      run_pure ..⟩

/-- A list keeps all ink around it when it is given its placeholder. -/
theorem retains_refill (h : doc.Aligned) (hlist : doc.Has list) (rule : ListRule) :
    ∃ after, (refill rule list).run doc = .ok () after ∧ doc.Retains after [] := by
  rcases run_refill (unfolds_of_ordered h.tree h.ordered rule list) with ⟨-, hrun⟩ |
    ⟨placeholder, line, -, ⟨-, hrun⟩ | ⟨-, index, hrun⟩⟩
  · exact ⟨doc, hrun, h.tree.retains⟩
  · exact ⟨_, hrun, h.retains_refilled hlist ..⟩
  · have hclause := ((aligned_ofSource doc.grammar rule.element placeholder.text
      ).increaseIndent (ofSource doc.grammar rule.element placeholder.text).root
        (doc.indent list)).trimStart
    exact ⟨_, hrun, (h.lands_insertBeside hlist (hclause.wrap rule) rule index).1.toRetains⟩

end Edit

end Lossless
