import Lossless.Document.Comments
import Lossless.Proofs.Linking
import Lossless.Proofs.Ordered

/-! Steps that keep a document a tree: new tokens, tokens put into the order and taken out of it,
children put in and taken out, and grafts. -/

namespace Lossless.Document

open List Forest

variable {doc fragment doc' : Document} {b : Branch} {node : Node} {leaves order : List Leaf}
  {span : Span} {l : Leaf}

/-- Only the links, the root and the order count. -/
theorem IsTree.congr (h : doc.IsTree) (hf : doc'.toForest = doc.toForest)
    (hr : doc'.root = doc.root) (ho : doc'.order = doc.order) : doc'.IsTree := by
  refine ⟨?_, ?_, ?_, ?_, ?_⟩
  · rw [hf]; exact h.linked
  · rw [hf, hr]; exact h.root_has
  · rw [hf, hr]; exact h.root_free
  · rw [hf, ho]; exact h.order_has
  · rw [ho]; exact h.order_nodup

theorem IsTree.updateComments (h : doc.IsTree) : doc.updateComments.IsTree :=
  h.congr rfl rfl rfl

/-! ### The order -/

theorem IsTree.of_sublist (h : doc.IsTree) (hs : order <+ doc.order) :
    IsTree { doc with order } :=
  ⟨h.linked, h.root_has, h.root_free, fun l hl => h.order_has l (hs.subset hl),
    h.order_nodup.sublist hs⟩

theorem cut_sublist (doc : Document) (span : Span) : (doc.cut span).order <+ doc.order := by
  have hdrop : doc.order.drop (max span.start span.stop) <+ doc.order.drop span.start :=
    drop_sublist_drop_left doc.order (Nat.le_max_left ..)
  have hcut := (Sublist.refl (doc.order.take span.start)).append hdrop
  rwa [take_append_drop] at hcut

theorem order_cut (doc : Document) (h : span.start ≤ span.stop) :
    (doc.cut span).order = doc.order.take span.start ++ doc.order.drop span.stop := by
  rw [cut, Nat.max_eq_right h]

theorem order_eq_leavesIn (doc : Document) (h : span.start ≤ span.stop) :
    doc.order = doc.order.take span.start ++ (doc.leavesIn span ++ doc.order.drop span.stop) := by
  have hdrop : doc.order.drop span.stop =
      (doc.order.drop span.start).drop (span.stop - span.start) := by
    rw [drop_drop, Nat.add_sub_cancel' h]
  rw [leavesIn, hdrop, take_append_drop, take_append_drop]

theorem trivia_start_le (doc : Document) (node : Node) :
    (doc.trivia node).start ≤ (doc.trivia node).stop :=
  Nat.le_max_right ..

theorem IsTree.cut (h : doc.IsTree) (span : Span) : (doc.cut span).IsTree :=
  h.of_sublist (cut_sublist doc span)

theorem IsTree.discard (h : doc.IsTree) (leaves : List Leaf) : (doc.discard leaves).IsTree :=
  h.of_sublist filter_sublist

theorem mem_insertAt {p : Nat} :
    l ∈ (doc.insertAt p leaves).order ↔ l ∈ leaves ∨ l ∈ doc.order := by
  simp only [insertAt, mem_append]
  rw [or_comm (b := l ∈ leaves), or_assoc, ← mem_append, take_append_drop]

theorem sublist_insertAt (doc : Document) (p : Nat) (leaves : List Leaf) :
    doc.order <+ (doc.insertAt p leaves).order := by
  have h : doc.order.take p ++ doc.order.drop p <+ doc.order.take p ++ leaves ++ doc.order.drop p :=
    (sublist_append_left _ _).append (Sublist.refl _)
  rwa [take_append_drop] at h

theorem IsTree.insertAt (h : doc.IsTree) (hn : leaves.Nodup) (hhas : ∀ l ∈ leaves, doc.Has (.leaf l))
    (hnew : ∀ l ∈ leaves, l ∉ doc.order) (p : Nat) : (doc.insertAt p leaves).IsTree := by
  refine ⟨h.linked, h.root_has, h.root_free, fun l hl => ?_, ?_⟩
  · rcases mem_insertAt.1 hl with hl | hl
    · exact hhas l hl
    · exact h.order_has l hl
  · have hperm : (doc.insertAt p leaves).order ~ leaves ++ doc.order := by
      have : doc.order.take p ++ leaves ++ doc.order.drop p ~
          leaves ++ doc.order.take p ++ doc.order.drop p :=
        perm_append_comm.append_right _
      rwa [append_assoc leaves, take_append_drop] at this
    exact hperm.nodup_iff.2 (nodup_append.2 ⟨hn, h.order_nodup, fun a ha b hb he =>
      hnew a ha (he ▸ hb)⟩)

/-! ### The tables -/

theorem has_newToken_of_has (h : doc.Has node) (text : String) : (doc.newToken text).2.Has node :=
  has_addToken h _

theorem parent_newToken (doc : Document) (text : String) (node : Node) :
    (doc.newToken text).2.parent node = doc.parent node :=
  parent_addToken _ rfl node

theorem leaves_newToken (h : doc.Linked) (text : String) (b : Branch) :
    (doc.newToken text).2.leaves b = doc.leaves b :=
  h.leaves_congr (h.addToken rfl) b fun _ _ => rfl

theorem IsTree.newToken (h : doc.IsTree) (text : String) : (doc.newToken text).2.IsTree :=
  ⟨h.linked.addToken rfl, h.root_has, h.root_free,
    fun l hl => has_newToken_of_has (h.order_has l hl) text, h.order_nodup⟩

theorem has_newToken (doc : Document) (text : String) :
    (doc.newToken text).2.Has (.leaf (doc.newToken text).1) :=
  has_new_token ..

theorem not_has_newToken (doc : Document) (text : String) :
    ¬ doc.Has (.leaf (doc.newToken text).1) :=
  not_has_addToken doc.toForest { text }

theorem textOf_newToken (doc : Document) (text : String) :
    (doc.newToken text).2.textOf (doc.newToken text).1 = text := by
  simp [textOf, newToken, token_addToken]

theorem textOf_newToken_of_has (h : doc.Has l) (text : String) :
    (doc.newToken text).2.textOf l = doc.textOf l :=
  textOf_addToken_of_has h _

theorem IsTree.insertChild (h : doc.IsTree) {i : Nat} (hb : doc.Has b) (hn : doc.Has node)
    (hfree : doc.parent node = none) (hroot : node ≠ .branch doc.root)
    (hac : ∀ c, node = .branch c → ¬ doc.Around c b) :
    (doc.insertChild b i node).IsTree := by
  refine ⟨h.linked.insertChild hb hn hfree hac, has_insertChild.2 h.root_has, ?_,
    fun l hl => has_insertChild.2 (h.order_has l hl), h.order_nodup⟩
  exact (parent_insertChild hn b i _).trans
    ((if_neg (Ne.symm hroot)).trans h.root_free)

theorem IsTree.removeChild (h : doc.IsTree) (b : Branch) (node : Node) :
    (doc.removeChild b node).IsTree := by
  refine ⟨h.linked.removeChild b node, has_removeChild.2 h.root_has, ?_,
    fun l hl => has_removeChild.2 (h.order_has l hl), h.order_nodup⟩
  refine (parent_removeChild ..).trans ?_
  split
  · rfl
  · exact h.root_free

theorem IsTree.clearChildren (h : doc.IsTree) (b : Branch) : (doc.clearChildren b).IsTree := by
  refine ⟨h.linked.clearChildren b, has_clearChildren.2 h.root_has, ?_,
    fun l hl => has_clearChildren.2 (h.order_has l hl), h.order_nodup⟩
  refine (parent_clearChildren ..).trans ?_
  split
  · rfl
  · exact h.root_free

theorem IsTree.graft (h : doc.IsTree) (hf : fragment.Linked) : (doc.graft fragment).2.IsTree :=
  ⟨linked_graft h.linked hf, has_graft_iff.2 (Or.inl h.root_has),
    (parent_graft_of_has h.root_has fragment).trans h.root_free,
    fun l hl => has_graft_iff.2 (Or.inl (h.order_has l hl)), h.order_nodup⟩

theorem IsTree.wrapRoot (h : doc.IsTree) (kind : Kind) : (doc.wrapRoot kind).IsTree := by
  have hroot : (doc.toForest.addContainer { kind }).2.Has doc.root :=
    has_addContainer _ kind _ h.root_has
  have hnew := has_new_container doc.toForest kind
  have hpar := parent_addContainer doc.toForest kind
  have hnone : (doc.toForest.addContainer { kind }).2.parent
      (.branch (doc.toForest.addContainer { kind }).1) = none := by
    rw [hpar]
    exact parent_of_not_has (not_has_addContainer _ _)
  have hne : doc.root ≠ (doc.toForest.addContainer { kind }).1 := by
    intro he
    exact not_has_addContainer doc.toForest { kind } (he ▸ h.root_has)
  refine ⟨(h.linked.addContainer kind).pushChild hnew hroot ((hpar _).trans h.root_free) ?_, ?_, ?_,
    ?_, h.order_nodup⟩
  · rintro _ ⟨⟩
    exact not_around_free hnone hne
  · exact has_pushChild.2 hnew
  · refine (parent_pushChild hroot _ _).trans ((if_neg ?_).trans hnone)
    intro he
    exact hne (Node.branch.inj he).symm
  · intro l hl
    exact has_pushChild.2 (has_addContainer _ kind _ (h.order_has l hl))

end Lossless.Document
