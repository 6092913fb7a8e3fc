import Lossless.Proofs.Neighbours
import Lossless.Proofs.Trees

/-! Changes to the children of one container. New nodes may come in under it and old ones may leave
it; all else that was there stays as it was, and so does what stands beside the container. -/

namespace Lossless

open List Forest Document

namespace Forest

/-- A forest grown from another one, in which of the old containers only `list` has other children.
No old node comes in under it. -/
structure Rewired (f g : Forest) (list : Branch) : Prop where
  has : ∀ node, f.Has node → g.Has node
  kindOf : ∀ b, f.Has (.branch b) → g.kindOf b = f.kindOf b
  textOf : ∀ l, f.Has (.leaf l) → g.textOf l = f.textOf l
  children : ∀ b, f.Has (.branch b) → b ≠ list → g.children b = f.children b
  parent : ∀ node, f.Has node → node ∉ f.children list → g.parent node = f.parent node
  old : ∀ node ∈ g.children list, f.Has node → node ∈ f.children list

namespace Rewired

variable {f g k : Forest} {list b : Branch}

theorem refl (f : Forest) (list : Branch) : Rewired f f list :=
  ⟨fun _ h => h, fun _ _ => rfl, fun _ _ => rfl, fun _ _ _ => rfl, fun _ _ _ => rfl,
    fun _ h _ => h⟩

theorem trans (h : Rewired f g list) (h' : Rewired g k list) : Rewired f k list where
  has node hn := h'.has node (h.has node hn)
  kindOf b hb := (h'.kindOf b (h.has _ hb)).trans (h.kindOf b hb)
  textOf l hl := (h'.textOf l (h.has _ hl)).trans (h.textOf l hl)
  children b hb hne := (h'.children b (h.has _ hb) hne).trans (h.children b hb hne)
  parent node hn hc := (h'.parent node (h.has _ hn) fun hg => hc (h.old node hg hn)).trans
    (h.parent node hn hc)
  old node hk hn := h.old node (h'.old node hk (h.has _ hn)) hn

theorem addToken (h : Rewired f g list) (text : String) :
    Rewired f (g.addToken { text }).2 list where
  has node hn := has_addToken (h.has node hn) _
  kindOf := h.kindOf
  textOf l hl := by rw [textOf_addToken_of_has (h.has _ hl), h.textOf l hl]
  children := h.children
  parent node hn hc := by rw [parent_addToken g rfl, h.parent node hn hc]
  old := h.old

theorem insertChild (h : Rewired f g list) {node : Node} (hlist : g.Has list)
    (hnew : ¬ f.Has node) (hn : g.Has node) (i : Nat) :
    Rewired f (g.insertChild list i node) list where
  has n hn := has_insertChild.2 (h.has n hn)
  kindOf b hb := by rw [kindOf_insertChild, h.kindOf b hb]
  textOf l hl := by rw [textOf_insertChild, h.textOf l hl]
  children b hb hne := by rw [children_insertChild hlist, if_neg hne, h.children b hb hne]
  parent m hm hc := by
    have hne : m ≠ node := fun he => hnew (he ▸ hm)
    rw [parent_insertChild hn, if_neg hne, h.parent m hm hc]
  old m hm hf := by
    rw [children_insertChild hlist, if_pos rfl] at hm
    have hne : m ≠ node := fun he => hnew (he ▸ hf)
    refine h.old m ?_ hf
    rw [mem_append, mem_cons] at hm
    rcases hm with hm | hm | hm
    · exact mem_of_mem_take hm
    · exact absurd hm hne
    · exact mem_of_mem_drop hm

theorem removeChild (h : Rewired f g list) (node : Node) :
    Rewired f (g.removeChild list node) list where
  has n hn := has_removeChild.2 (h.has n hn)
  kindOf b hb := by rw [kindOf_removeChild, h.kindOf b hb]
  textOf l hl := by rw [textOf_removeChild, h.textOf l hl]
  children b hb hne := by rw [children_removeChild, if_neg hne, h.children b hb hne]
  parent m hm hc := by
    rw [parent_removeChild, if_neg, h.parent m hm hc]
    rintro ⟨rfl, hg⟩
    exact hc (h.old m hg hm)
  old m hm hf := by
    rw [children_removeChild, if_pos rfl] at hm
    exact h.old m (mem_of_mem_erase hm) hf

theorem clearChildren (h : Rewired f g list) : Rewired f (g.clearChildren list) list where
  has n hn := has_clearChildren.2 (h.has n hn)
  kindOf b hb := by rw [kindOf_clearChildren, h.kindOf b hb]
  textOf l hl := by rw [textOf_clearChildren, h.textOf l hl]
  children b hb hne := by rw [children_clearChildren, if_neg hne, h.children b hb hne]
  parent m hm hc := by
    rw [parent_clearChildren, if_neg (fun hg => hc (h.old m hg hm)), h.parent m hm hc]
  old m hm := by
    rw [children_clearChildren, if_pos rfl] at hm
    cases hm

theorem graft {doc fragment : Document} (hlist : doc.Has list) :
    Rewired doc.toForest (doc.graft fragment).2.toForest list where
  has n hn := has_graft_iff.2 (Or.inl hn)
  kindOf b hb := kindOf_graft_of_has hb fragment
  textOf l hl := textOf_graft_of_has hl fragment
  children b hb _ := children_graft_of_has hb fragment
  parent n hn _ := parent_graft_of_has hn fragment
  old n hn _ := by rwa [children_graft_of_has hlist] at hn

/-! ### What stays -/

section

variable (h : Rewired f g list) (hf : f.Linked) (hg : g.Linked)
include h hf

theorem parent_of_around (hl : f.Has list)
    (hb : f.Around b list) : g.parent b = f.parent b := by
  exact h.parent _ (hb.has_outside hf hl) fun hc => hf.not_around_of_child hc hb

theorem not_around (hl : f.Has list) (hb : ¬ f.Has b) :
    ¬ g.Around b list := fun ha =>
  hb ((Around.of_parent_eq (fun _ hc => h.parent_of_around hf hl hc) ha).has_outside hf hl)

include hg

theorem beside_eq (hl : f.Has list) :
    g.leftLeaves list = f.leftLeaves list ∧
      g.rightLeaves list = f.rightLeaves list := by
  refine hf.beside_congr hg (fun b hb hout => h.children b hb ?_) fun b hb => ?_
  · rintro rfl
    exact hout .self
  · exact h.parent_of_around hf hl hb

/-- What is under another container stays, unless the list is. -/
theorem leaves_eq (hb : f.Has b) (hout : ¬ f.Around b list) :
    g.leaves b = f.leaves b := by
  refine hf.leaves_congr hg b fun c hc => h.children c (hc.has_inside hb) ?_
  rintro rfl
  exact hout hc

theorem leaves_child {n : Node} (hn : n ∈ f.children list) : g.leaves n = f.leaves n := by
  cases n with
  | leaf l => rw [leaves_leaf, leaves_leaf]
  | branch c => exact h.leaves_eq hf hg (hf.has_child hn) (hf.not_around_of_child hn)

end

end Rewired

end Forest

namespace Document

variable {doc grown : Document} {list : Branch} {node : Node} {i : Nat} {nodes : List Node}

/-- Nodes put in one before the other, all at the same index. -/
def insertChildren (doc : Document) (list : Branch) (i : Nat) (nodes : List Node) : Document :=
  nodes.reverse.foldl (·.insertChild list i ·) doc

theorem insertChildren_cons (doc : Document) (list : Branch) (i : Nat) (n : Node)
    (nodes : List Node) : doc.insertChildren list i (n :: nodes) =
      (doc.insertChildren list i nodes).insertChild list i n := by
  rw [insertChildren, reverse_cons, foldl_append]
  rfl

section

variable (i : Nat) (nodes : List Node)

@[simp] theorem order_insertChildren (doc : Document) :
    (doc.insertChildren list i nodes).order = doc.order := by
  induction nodes with
  | nil => rfl
  | cons n nodes ih => rw [insertChildren_cons]; exact ih

@[simp] theorem root_insertChildren (doc : Document) :
    (doc.insertChildren list i nodes).root = doc.root := by
  induction nodes with
  | nil => rfl
  | cons n nodes ih => rw [insertChildren_cons]; exact ih

@[simp] theorem grammar_insertChildren (doc : Document) :
    (doc.insertChildren list i nodes).grammar = doc.grammar := by
  induction nodes with
  | nil => rfl
  | cons n nodes ih => rw [insertChildren_cons]; exact ih

@[simp] theorem kindOf_insertChildren (doc : Document) (b : Branch) :
    (doc.insertChildren list i nodes).kindOf b = doc.kindOf b := by
  induction nodes with
  | nil => rfl
  | cons n nodes ih =>
    rw [insertChildren_cons]
    exact (kindOf_insertChild ..).trans ih

@[simp] theorem textOf_insertChildren (doc : Document) (l : Leaf) :
    (doc.insertChildren list i nodes).textOf l = doc.textOf l := by
  induction nodes with
  | nil => rfl
  | cons n nodes ih =>
    rw [insertChildren_cons]
    exact (textOf_insertChild ..).trans ih

@[simp] theorem has_insertChildren :
    (doc.insertChildren list i nodes).Has node ↔ doc.Has node := by
  induction nodes with
  | nil => rfl
  | cons n nodes ih =>
    rw [insertChildren_cons]
    exact has_insertChild.trans ih

end

theorem children_insertChildren (hlist : doc.Has list)
    (hi : i ≤ (doc.children list).length) (nodes : List Node) (b : Branch) :
    (doc.insertChildren list i nodes).children b =
      if b = list then (doc.children list).take i ++ (nodes ++ (doc.children list).drop i)
      else doc.children b := by
  induction nodes generalizing b with
  | nil =>
    split
    · next h =>
      rw [h, nil_append, take_append_drop]
      rfl
    · rfl
  | cons n nodes ih =>
    rw [insertChildren_cons]
    refine (children_insertChild ((has_insertChildren i nodes).2 hlist) i n b).trans ?_
    split
    · have hlen : ((doc.children list).take i).length = i := by
        rw [List.length_take]; omega
      rw [ih, if_pos rfl, take_left' hlen, drop_left' hlen]
      rfl
    · next h => rw [ih, if_neg h]

theorem parent_insertChildren
    (hhas : ∀ n ∈ nodes, doc.Has n) (hnode : node ∉ nodes) :
    (doc.insertChildren list i nodes).parent node = doc.parent node := by
  induction nodes with
  | nil => rfl
  | cons n nodes ih =>
    obtain ⟨hn, hhas⟩ := forall_mem_cons.1 hhas
    rw [mem_cons, not_or] at hnode
    rw [insertChildren_cons]
    refine (parent_insertChild ((has_insertChildren i nodes).2 hn) list i node).trans ?_
    rw [if_neg hnode.1]
    exact ih hhas hnode.2

theorem IsTree.insertChildren (hd : doc.Linked)
    (hlist : doc.Has list) (hroot : doc.Has grown.root) (h : grown.IsTree)
    (hr : doc.Rewired grown.toForest list) (hnew : ∀ n ∈ nodes, ¬ doc.Has n)
    (hhas : ∀ n ∈ nodes, grown.Has n) (hfree : ∀ n ∈ nodes, grown.parent n = none)
    (hnodup : nodes.Nodup) :
    (grown.insertChildren list i nodes).IsTree ∧
      doc.Rewired (grown.insertChildren list i nodes).toForest list := by
  induction nodes with
  | nil => exact ⟨h, hr⟩
  | cons n nodes ih =>
    obtain ⟨hn, hnodup⟩ := nodup_cons.1 hnodup
    obtain ⟨hn', hnew⟩ := forall_mem_cons.1 hnew
    obtain ⟨hhas', hhas⟩ := forall_mem_cons.1 hhas
    obtain ⟨hfree', hfree⟩ := forall_mem_cons.1 hfree
    obtain ⟨htree, hrew⟩ := ih hnew hhas hfree hnodup
    have hnhas : (grown.insertChildren list i nodes).Has n := (has_insertChildren i nodes).2 hhas'
    have hlist' := hrew.has _ hlist
    rw [insertChildren_cons]
    refine ⟨htree.insertChild hlist' hnhas ((parent_insertChildren hhas hn).trans hfree') ?_ ?_,
      hrew.insertChild hlist' hn' hnhas i⟩
    · rintro rfl
      rw [root_insertChildren] at hn'
      exact hn' hroot
    · rintro c rfl
      exact hrew.not_around hd hlist hn'

end Document

end Lossless
