import Lossless.Proofs.Refilling

/-! Fragments put on lines of their own in a list. -/

namespace Lossless.Document

open List Forest

variable {doc mid fragment base : Document} {ok : Kind → Kind → Prop} {rule : ListRule}
  {list element b : Branch} {line p i : Nat} {tokens : List Leaf} {isComment : Bool}

/-! ### What the steps do -/

theorem toForest_updateComments (doc : Document) : doc.updateComments.toForest = doc.toForest :=
  rfl

theorem endLine_cases (doc : Document) : doc.endLine = doc ∨
    doc.endLine = (doc.newToken Layout.lineBreak).2.insertAt doc.order.length
      [(doc.newToken Layout.lineBreak).1] := by
  rw [endLine]
  split
  · exact Or.inl rfl
  · exact Or.inr rfl

/-- A delimiter of a new element: none, or a new token in the text and under the list. -/
theorem addDelimiter_cases (doc : Document) (rule : ListRule) (list element : Branch) :
    doc.addDelimiter rule list element = doc ∨ ∃ p i, doc.addDelimiter rule list element =
      ((doc.newToken rule.delimiter).2.insertAt p [(doc.newToken rule.delimiter).1]).insertChild
        list i (.leaf (doc.newToken rule.delimiter).1) := by
  rw [addDelimiter]
  split
  · exact Or.inl rfl
  · rcases newLiteral_cases doc rule.delimiter with he | he <;> rw [he]
    · exact Or.inl rfl
    · exact Or.inr ⟨_, _, rfl⟩

/-- A fragment that goes on lines of its own, laid out for them. -/
def lineFragment (doc : Document) (list : Branch) (fragment : Document) : Document :=
  (fragment.increaseIndent fragment.root (doc.indent list)).endLine

theorem relaid_lineFragment (hf : fragment.IsTree) (doc : Document) (list : Branch) :
    fragment.Relaid (doc.lineFragment list fragment) := by
  have hindent := hf.increaseIndent fragment.root (doc.indent list)
  exact hindent.trans hindent.tree.endLine

def withTokens (doc : Document) (p : Nat) (fragment : Document) : Document :=
  (doc.graft fragment).2.insertAt p (fragment.order.map doc.rehomeLeaf)

/-- The position at which tokens come in for a line, and the document that takes them. -/
def LinePlace (doc : Document) (line : Nat) (base : Document) (p : Nat) : Prop :=
  line < doc.layout.lineCount ∧ base = doc ∧ p = (doc.layout.lineTokens line).start ∨
    doc.layout.lineCount ≤ line ∧ base = doc.endLine ∧ p = base.order.length

theorem LinePlace.base_eq (h : doc.LinePlace line base p) :
    base = doc ∨ base = doc.endLine := by
  rcases h with ⟨-, h, -⟩ | ⟨-, h, -⟩
  · exact Or.inl h
  · exact Or.inr h

theorem addTokensAtLine_eq (doc : Document) (line : Nat) (fragment : Document) :
    ∃ base p, doc.LinePlace line base p ∧ doc.addTokensAtLine line fragment =
      (base.rehomeBranch fragment.endLine.root, base.withTokens p fragment.endLine) := by
  rw [addTokensAtLine]
  split
  · next hlt => exact ⟨doc, _, Or.inl ⟨hlt, rfl, rfl⟩, rfl⟩
  · next hge => exact ⟨doc.endLine, _, Or.inr ⟨Nat.le_of_not_lt hge, rfl, rfl⟩, rfl⟩

theorem insertLines_comment (doc : Document) (rule : ListRule) (list : Branch) (line : Nat)
    (fragment : Document) : ∃ base p, doc.LinePlace line base p ∧
      doc.insertLines rule list line fragment true =
        (base.rehomeBranch (doc.lineFragment list fragment).root,
          (base.withTokens p (doc.lineFragment list fragment)).updateComments) := by
  obtain ⟨base, p, hbase, he⟩ := doc.addTokensAtLine_eq line
    (fragment.increaseIndent fragment.root (doc.indent list))
  refine ⟨base, p, hbase, ?_⟩
  rw [insertLines, he]
  rfl

theorem insertLines_element (doc : Document) (rule : ListRule) (list : Branch) (line : Nat)
    (fragment : Document) : ∃ base p, doc.LinePlace line base p ∧
      doc.insertLines rule list line fragment false =
        (base.rehomeBranch (doc.lineFragment list fragment).root,
          (((base.withTokens p (doc.lineFragment list fragment)).placeChild list
            (.branch (base.rehomeBranch (doc.lineFragment list fragment).root))).addDelimiter rule
            list (base.rehomeBranch (doc.lineFragment list fragment).root)).updateComments) := by
  obtain ⟨base, p, hbase, he⟩ := doc.addTokensAtLine_eq line
    (fragment.increaseIndent fragment.root (doc.indent list))
  refine ⟨base, p, hbase, ?_⟩
  simp only [insertLines, he, lineFragment, Bool.false_eq_true, if_false]

/-! ### Comments among the elements -/

namespace Level

section

variable (h : doc.Level list element)
include h

theorem insertFresh (hf : Fresh doc mid list tokens) (p : Nat) :
    (mid.insertAt p tokens).Level list element :=
  (h.of_fresh hf).insertAt (hf.apart h.bracketed.tree h.bracketed.has) hf.nodup hf.has p

theorem endLine : doc.endLine.Level list element := by
  rcases doc.endLine_cases with he | he <;> rw [he]
  · exact h
  · exact h.insertFresh ((Fresh.nil h.bracketed.tree list).newToken _) _

theorem withTokens (hf : fragment.IsTree) (p : Nat) :
    (doc.withTokens p fragment).Level list element :=
  h.insertFresh (.graft h.bracketed.tree h.bracketed.has hf hf.order_nodup (Subset.refl _)) p

theorem unfoldBody : (doc.unfoldBody list).Level list element := by
  have hstrip : (doc.stripAround list).Level list element :=
    (h.cut _).cut _
  have hopen : (doc.openBody list).Level list element := by
    rw [openBody]
    dsimp only
    split
    · exact hstrip
    · exact hstrip.insertFresh (.newIndentedBreak hstrip.bracketed.tree list _) _
  rw [unfoldBody_eq]
  exact hopen.insertFresh (.newIndentedBreak hopen.bracketed.tree list _) _

theorem unfolded : (doc.unfolded list).Level list element := by
  rw [Document.unfolded]
  split
  · exact h.unfoldBody
  · exact h

theorem insertLines (hf : fragment.IsTree) (rule : ListRule)
    (line : Nat) : (doc.insertLines rule list line fragment true).2.Level list element := by
  obtain ⟨base, p, hbase, he⟩ := doc.insertLines_comment rule list line fragment
  rw [he]
  have hlevel : base.Level list element := by
    rcases hbase.base_eq with rfl | rfl
    · exact h
    · exact h.endLine
  exact (hlevel.withTokens (relaid_lineFragment hf doc list).tree p).updateComments

end

end Level

/-! ### Elements on lines of their own -/

theorem Evolves.endLine (h : Evolves ok doc mid) : Evolves ok doc mid.endLine := by
  rcases mid.endLine_cases with he | he <;> rw [he]
  · exact h
  · exact (h.newToken _).insertAt ..

theorem Evolves.unfoldBody (h : Evolves ok doc mid) (list : Branch) :
    Evolves ok doc (mid.unfoldBody list) := by
  have hstrip : Evolves ok doc (mid.stripAround list) := (h.cut _).cut _
  have hopen : Evolves ok doc (mid.openBody list) := by
    rw [openBody]
    dsimp only
    split
    · exact hstrip
    · exact (hstrip.newIndentedBreak _).insertAt ..
  rw [unfoldBody_eq]
  exact (hopen.newIndentedBreak _).insertAt ..

theorem Evolves.unfolded (h : Evolves ok doc mid) (list : Branch) :
    Evolves ok doc (mid.unfolded list) := by
  rw [Document.unfolded]
  split
  · exact h.unfoldBody list
  · exact h

theorem Evolves.addDelimiter (h : Evolves ok doc mid) (hlist : mid.Has list)
    (rule : ListRule) (element : Branch) :
    Evolves ok doc (mid.addDelimiter rule list element) := by
  rcases mid.addDelimiter_cases rule list element with he | ⟨p, i, he⟩ <;> rw [he]
  · exact h
  · refine ((h.newToken rule.delimiter).insertAt p _).insertLeaf (has_newToken_of_has hlist _)
      (has_newToken ..) ?_ i
    exact (parent_newToken ..).trans (parent_of_not_has (not_has_newToken mid _))

theorem mem_children_insertChild {node n : Node}
    (hb : doc.Has b) : n ∈ (doc.insertChild b i node).children b ↔
      n = node ∨ n ∈ doc.children b := by
  have hchildren : (doc.insertChild b i node).children b = _ :=
    children_insertChild hb i node b
  rw [hchildren, if_pos rfl, mem_append, mem_cons, or_left_comm, ← mem_append,
    take_append_drop]

theorem mem_children_addDelimiter {n : Node} (hlist : doc.Has list)
    (hn : n ∈ doc.children list) (rule : ListRule) (element : Branch) :
    n ∈ (doc.addDelimiter rule list element).children list := by
  rcases doc.addDelimiter_cases rule list element with he | ⟨p, i, he⟩ <;> rw [he]
  · exact hn
  · exact (mem_children_insertChild (has_newToken_of_has hlist _)).2 (Or.inr hn)

theorem mem_placeChild (root : Branch) (hlist : doc.Has list) (rule : ListRule) :
    let placed := (doc.placeChild list root).addDelimiter rule list root
    .branch root ∈ placed.children list ∧ placed.kindOf root = doc.kindOf root ∧
      ∀ n ∈ doc.children list, n ∈ placed.children list := by
  intro placed
  have hlist' : (doc.placeChild list root).Has list :=
    has_insertChild.2 hlist
  refine ⟨?_, ?_, fun n hn => ?_⟩
  · exact mem_children_addDelimiter hlist' ((mem_children_insertChild hlist).2 (Or.inl rfl)) ..
  · have hkind : (doc.placeChild list root).kindOf root = doc.kindOf root :=
      kindOf_insertChild ..
    rcases (doc.placeChild list root).addDelimiter_cases rule list root with
      he | ⟨p, i, he⟩ <;> simp only [placed, he]
    · exact hkind
    · exact (kindOf_insertChild ..).trans hkind
  · exact mem_children_addDelimiter hlist' ((mem_children_insertChild hlist).2 (Or.inr hn)) ..

section

variable (h : doc.Linked) (hlist : doc.Has list) (hf : fragment.IsTree)
include h hf

theorem evolves_withTokens (hbase : mid = doc ∨ mid = doc.endLine)
    (hedges : ∀ p c, Node.branch c ∈ fragment.children p →
      ok (fragment.kindOf p) (fragment.kindOf c)) (p : Nat) :
    Evolves ok doc mid ∧ Evolves ok doc (mid.withTokens p fragment) := by
  have hmid : Evolves ok doc mid := by
    rcases hbase with rfl | rfl
    · exact .refl h
    · exact (Evolves.refl h).endLine
  exact ⟨hmid, (hmid.graft hf.linked hedges).insertAt ..⟩

include hlist

theorem evolves_lineFragment (hbase : mid = doc ∨ mid = doc.endLine)
    (hedges : ∀ p c, Node.branch c ∈ fragment.children p →
      ok (fragment.kindOf p) (fragment.kindOf c)) (p : Nat) :
    let laid := doc.lineFragment list fragment
    let root := mid.rehomeBranch laid.root
    let placed := mid.withTokens p laid
    Evolves ok doc placed ∧ placed.Has root ∧ placed.parent root = none ∧
      placed.kindOf root = fragment.rootKind ∧ ¬ doc.Has root ∧
      placed.children list = doc.children list := by
  intro laid root placed
  have hlaid := relaid_lineFragment hf doc list
  have hw := waiting_graft hlaid.tree mid
  obtain ⟨hmid, hplaced⟩ := evolves_withTokens h hlaid.tree hbase (fun p c hc => by
    rw [hlaid.retexted.children] at hc
    rw [hlaid.retexted.kindOf, hlaid.retexted.kindOf]
    exact hedges p c hc) p
  refine ⟨hplaced, hw.root_has, hw.root_free, hw.root_kind.trans hlaid.rootKind,
    fun hd => not_has_rehome mid (.branch _) (hmid.has _ hd), ?_⟩
  refine (children_graft_of_has (hmid.has _ hlist) laid).trans ?_
  rcases hbase with rfl | rfl
  · rfl
  · rcases doc.endLine_cases with he | he <;> rw [he]
    rfl

theorem evolves_insertLines (hedges : ∀ p c, Node.branch c ∈ fragment.children p →
      ok (fragment.kindOf p) (fragment.kindOf c))
    (hok : isComment = false → ok (doc.kindOf list) fragment.rootKind) (rule : ListRule)
    (line : Nat) : Evolves ok doc (doc.insertLines rule list line fragment isComment).2 := by
  cases isComment with
  | true =>
    obtain ⟨base, p, hbase, he⟩ := doc.insertLines_comment rule list line fragment
    rw [he]
    exact (evolves_lineFragment h hlist hf hbase.base_eq hedges p).1.updateComments
  | false =>
    obtain ⟨base, p, hbase, he⟩ := doc.insertLines_element rule list line fragment
    obtain ⟨hplaced, hhas, hfree, hkind, hnew, -⟩ := evolves_lineFragment h hlist hf hbase.base_eq hedges p
    rw [he]
    refine (Evolves.addDelimiter ?_ (has_insertChild.2 (hplaced.has _ hlist)) rule
      _).updateComments
    refine hplaced.insertChild (hplaced.has _ hlist) hhas hfree ?_ _
    rintro c ⟨⟩
    refine ⟨hnew, ?_, hplaced.not_around hlist hnew⟩
    rw [hplaced.kindOf list hlist, hkind]
    exact hok rfl

/-- An element on lines of its own is a new child of the list, beside all that were there. -/
theorem mem_insertLines (rule : ListRule) (line : Nat) :
    .branch (doc.insertLines rule list line fragment false).1 ∈
      (doc.insertLines rule list line fragment false).2.children list ∧
    (doc.insertLines rule list line fragment false).2.kindOf
      (doc.insertLines rule list line fragment false).1 = fragment.rootKind ∧
    ¬ doc.Has (.branch (doc.insertLines rule list line fragment false).1) ∧
    ∀ n ∈ doc.children list,
      n ∈ (doc.insertLines rule list line fragment false).2.children list := by
  obtain ⟨base, p, hbase, he⟩ := doc.insertLines_element rule list line fragment
  obtain ⟨hplaced, -, -, hkind, hnew, hchildren⟩ : Grows doc _ ∧ _ :=
    evolves_lineFragment h hlist hf hbase.base_eq (fun _ _ _ => trivial) p
  obtain ⟨hmem, hkind', hold⟩ := mem_placeChild (base.rehomeBranch (doc.lineFragment list
    fragment).root) (hplaced.has _ hlist) rule
  rw [he]
  dsimp only
  rw [toForest_updateComments]
  exact ⟨hmem, hkind'.trans hkind, hnew, fun n hn => hold n (hchildren.symm ▸ hn)⟩

end

end Lossless.Document
