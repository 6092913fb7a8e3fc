import Lossless.Document.Graft
import Mathlib.Tactic.Common

/-! What the changes to the tables of a forest do to every look-up. A change reads or writes an
entry only when its key is in the table, so most statements ask for that. -/

namespace Lossless

open List Forest Node

namespace Forest

def Has (f : Forest) : Node → Prop
  | .leaf l => l.index < f.tokens.size
  | .branch b => b.index < f.containers.size

instance (f : Forest) : DecidablePred f.Has
  | .leaf l => inferInstanceAs (Decidable (l.index < f.tokens.size))
  | .branch b => inferInstanceAs (Decidable (b.index < f.containers.size))

theorem container_of_not_has {f : Forest} {b : Branch} (h : ¬ f.Has b) :
    f.container b = ⟨.program, none, []⟩ := by
  have hb : f.containers.size ≤ b.index := Nat.le_of_not_lt h
  simp [container, hb]

theorem token_of_not_has {f : Forest} {l : Leaf} (h : ¬ f.Has l) : f.token l = ⟨"", none⟩ := by
  have hl : f.tokens.size ≤ l.index := Nat.le_of_not_lt h
  simp [token, hl]

theorem has_of_mem_children {f : Forest} {b : Branch} {node : Node} (h : node ∈ f.children b) :
    f.Has b := by
  by_contra hb
  simp [children, container_of_not_has hb] at h

theorem parent_of_not_has {f : Forest} {node : Node} (h : ¬ f.Has node) : f.parent node = none := by
  cases node with
  | leaf l => simp [parent, token_of_not_has h]
  | branch c => simp [parent, container_of_not_has h]

theorem has_of_parent {f : Forest} {node : Node} {b : Branch} (h : f.parent node = some b) :
    f.Has node := by
  by_contra hn
  simp [parent_of_not_has hn] at h

/-! ### New entries -/

theorem token_addToken (f : Forest) (t : Token) (l : Leaf) :
    (f.addToken t).2.token l = if l = (f.addToken t).1 then t else f.token l := by
  obtain ⟨i⟩ := l
  simp only [addToken, token, Array.getD_eq_getD_getElem?, Array.getElem?_push, Leaf.mk.injEq]
  split <;> rfl

theorem container_addContainer (f : Forest) (c : Container) (b : Branch) :
    (f.addContainer c).2.container b =
      if b = (f.addContainer c).1 then c else f.container b := by
  obtain ⟨i⟩ := b
  simp only [addContainer, container, Array.getD_eq_getD_getElem?, Array.getElem?_push,
    Branch.mk.injEq]
  split <;> rfl

/-! ### Changed entries -/

theorem container_modifyContainer (f : Forest) (b c : Branch) (change : Container → Container) :
    (f.modifyContainer b change).container c =
      if b = c ∧ f.Has b then change (f.container c) else f.container c := by
  obtain ⟨i⟩ := b
  obtain ⟨j⟩ := c
  simp only [modifyContainer, container, Array.getD_eq_getD_getElem?, Array.getElem?_modify,
    Branch.mk.injEq, Has]
  by_cases hij : i = j
  · subst hij
    by_cases hi : i < f.containers.size
    · simp [hi]
    · simp [hi]
  · simp [hij]

theorem token_modifyToken (f : Forest) (l m : Leaf) (change : Token → Token) :
    (f.modifyToken l change).token m =
      if l = m ∧ f.Has l then change (f.token m) else f.token m := by
  obtain ⟨i⟩ := l
  obtain ⟨j⟩ := m
  simp only [modifyToken, token, Array.getD_eq_getD_getElem?, Array.getElem?_modify,
    Leaf.mk.injEq, Has]
  by_cases hij : i = j
  · subst hij
    by_cases hi : i < f.tokens.size
    · simp [hi]
    · simp [hi]
  · simp [hij]

@[simp] theorem size_containers_setParent (f : Forest) (node : Node) (p : Option Branch) :
    (f.setParent node p).containers.size = f.containers.size := by
  cases node <;> simp [setParent, modifyToken, modifyContainer]

@[simp] theorem size_tokens_setParent (f : Forest) (node : Node) (p : Option Branch) :
    (f.setParent node p).tokens.size = f.tokens.size := by
  cases node <;> simp [setParent, modifyToken, modifyContainer]

@[simp] theorem children_setParent (f : Forest) (node : Node) (p : Option Branch) (b : Branch) :
    (f.setParent node p).children b = f.children b := by
  cases node with
  | leaf l => rfl
  | branch c =>
    simp only [setParent, children, container_modifyContainer]
    split <;> rfl

@[simp] theorem kindOf_setParent (f : Forest) (node : Node) (p : Option Branch) (b : Branch) :
    (f.setParent node p).kindOf b = f.kindOf b := by
  cases node with
  | leaf l => rfl
  | branch c =>
    simp only [setParent, kindOf, container_modifyContainer]
    split <;> rfl

@[simp] theorem textOf_setParent (f : Forest) (node : Node) (p : Option Branch) (l : Leaf) :
    (f.setParent node p).textOf l = f.textOf l := by
  cases node with
  | leaf m =>
    simp only [setParent, textOf, token_modifyToken]
    split <;> rfl
  | branch c => rfl

theorem parent_setParent (f : Forest) (node m : Node) (p : Option Branch) :
    (f.setParent node p).parent m = if m = node ∧ f.Has node then p else f.parent m := by
  cases node with
  | leaf l =>
    cases m with
    | leaf k =>
      simp only [setParent, parent, token_modifyToken, leaf.injEq, eq_comm]
      split <;> rfl
    | branch c => simp [setParent, parent, container, modifyToken]
  | branch b =>
    cases m with
    | leaf k => simp [setParent, parent, token, modifyContainer]
    | branch c =>
      simp only [setParent, parent, container_modifyContainer, branch.injEq, eq_comm]
      split <;> rfl

@[simp] theorem size_containers_setChildren (f : Forest) (b : Branch) (cs : List Node) :
    (f.setChildren b cs).containers.size = f.containers.size := by
  simp [setChildren, modifyContainer]

@[simp] theorem size_tokens_setChildren (f : Forest) (b : Branch) (cs : List Node) :
    (f.setChildren b cs).tokens.size = f.tokens.size := rfl

@[simp] theorem kindOf_setChildren (f : Forest) (b c : Branch) (cs : List Node) :
    (f.setChildren b cs).kindOf c = f.kindOf c := by
  simp only [setChildren, kindOf, container_modifyContainer]
  split <;> rfl

@[simp] theorem textOf_setChildren (f : Forest) (b : Branch) (cs : List Node) (l : Leaf) :
    (f.setChildren b cs).textOf l = f.textOf l := rfl

@[simp] theorem parent_setChildren (f : Forest) (b : Branch) (cs : List Node) (node : Node) :
    (f.setChildren b cs).parent node = f.parent node := by
  cases node with
  | leaf l => rfl
  | branch c =>
    simp only [setChildren, parent, container_modifyContainer]
    split <;> rfl

theorem children_setChildren (f : Forest) (b c : Branch) (cs : List Node) :
    (f.setChildren b cs).children c =
      if c = b ∧ f.Has b then cs else f.children c := by
  simp only [setChildren, children, container_modifyContainer, eq_comm]
  split <;> rfl

theorem has_setParent {f : Forest} {node m : Node} {p : Option Branch} :
    (f.setParent node p).Has m ↔ f.Has m := by
  cases m <;> simp [Has]

theorem has_setChildren {f : Forest} {b : Branch} {cs : List Node} {m : Node} :
    (f.setChildren b cs).Has m ↔ f.Has m := by
  cases m <;> simp [Has]

/-! ### Children put in -/

theorem children_insertChild {f : Forest} {b : Branch} (hb : f.Has b) (i : Nat)
    (node : Node) (c : Branch) :
    (f.insertChild b i node).children c =
      if c = b then (f.children b).take i ++ node :: (f.children b).drop i else f.children c := by
  simp only [insertChild, children_setParent, children_setChildren, hb, and_true]

theorem children_pushChild {f : Forest} {b : Branch} (hb : f.Has b) (node : Node)
    (c : Branch) :
    (f.pushChild b node).children c =
      if c = b then f.children b ++ [node] else f.children c := by
  simp only [pushChild, children_setParent, children_setChildren, hb, and_true]

theorem parent_insertChild {f : Forest} {node : Node} (hn : f.Has node) (b : Branch) (i : Nat)
    (m : Node) :
    (f.insertChild b i node).parent m = if m = node then some b else f.parent m := by
  simp only [insertChild, parent_setParent, has_setChildren, parent_setChildren, hn, and_true]

theorem parent_pushChild {f : Forest} {node : Node} (hn : f.Has node) (b : Branch) (m : Node) :
    (f.pushChild b node).parent m = if m = node then some b else f.parent m := by
  simp only [pushChild, parent_setParent, has_setChildren, parent_setChildren, hn, and_true]

@[simp] theorem kindOf_insertChild (f : Forest) (b c : Branch) (i : Nat) (node : Node) :
    (f.insertChild b i node).kindOf c = f.kindOf c := by
  simp [insertChild]

@[simp] theorem kindOf_pushChild (f : Forest) (b c : Branch) (node : Node) :
    (f.pushChild b node).kindOf c = f.kindOf c := by
  simp [pushChild]

@[simp] theorem textOf_insertChild (f : Forest) (b : Branch) (i : Nat) (node : Node) (l : Leaf) :
    (f.insertChild b i node).textOf l = f.textOf l := by
  simp [insertChild]

@[simp] theorem textOf_pushChild (f : Forest) (b : Branch) (node : Node) (l : Leaf) :
    (f.pushChild b node).textOf l = f.textOf l := by
  simp [pushChild]

@[simp] theorem has_insertChild {f : Forest} {b : Branch} {i : Nat} {node m : Node} :
    (f.insertChild b i node).Has m ↔ f.Has m := by
  simp only [insertChild, has_setParent, has_setChildren]

@[simp] theorem has_pushChild {f : Forest} {b : Branch} {node m : Node} :
    (f.pushChild b node).Has m ↔ f.Has m := by
  simp only [pushChild, has_setParent, has_setChildren]

/-! ### Children taken out -/

theorem children_removeChild (f : Forest) (b : Branch) (node : Node) (c : Branch) :
    (f.removeChild b node).children c =
      if c = b then (f.children b).erase node else f.children c := by
  by_cases hm : node ∈ f.children b
  · have hb := has_of_mem_children hm
    simp only [removeChild, contains_iff_mem, hm, if_true, children_setParent,
      children_setChildren, hb, and_true]
  · simp only [removeChild, contains_iff_mem, hm, if_false]
    split
    · next h => rw [h, erase_of_not_mem hm]
    · rfl

theorem parent_removeChild (f : Forest) (b : Branch) (node m : Node) :
    (f.removeChild b node).parent m =
      if m = node ∧ node ∈ f.children b then none else f.parent m := by
  by_cases hm : node ∈ f.children b
  · simp only [removeChild, contains_iff_mem, hm, if_true, parent_setParent,
      has_setChildren, parent_setChildren, and_true]
    by_cases hn : f.Has node
    · simp [hn]
    · by_cases he : m = node
      · subst he
        simp [parent_of_not_has hn]
      · simp [he]
  · simp only [removeChild, contains_iff_mem, hm, and_false, if_false]

@[simp] theorem kindOf_removeChild (f : Forest) (b c : Branch) (node : Node) :
    (f.removeChild b node).kindOf c = f.kindOf c := by
  simp only [removeChild]
  split <;> simp

@[simp] theorem textOf_removeChild (f : Forest) (b : Branch) (node : Node) (l : Leaf) :
    (f.removeChild b node).textOf l = f.textOf l := by
  simp only [removeChild]
  split <;> simp

@[simp] theorem has_removeChild {f : Forest} {b : Branch} {node m : Node} :
    (f.removeChild b node).Has m ↔ f.Has m := by
  simp only [removeChild]
  split
  · simp only [has_setParent, has_setChildren]
  · rfl

theorem children_replaceChild {f : Forest} {b : Branch} (hb : f.Has b)
    (old new : Node) (c : Branch) :
    (f.replaceChild b old new).children c =
      if c = b then (f.children b).replace old new else f.children c := by
  simp only [replaceChild, children_setParent, children_setChildren, hb, and_true]

@[simp] theorem kindOf_replaceChild (f : Forest) (b c : Branch) (old new : Node) :
    (f.replaceChild b old new).kindOf c = f.kindOf c := by
  simp [replaceChild]

@[simp] theorem textOf_replaceChild (f : Forest) (b : Branch) (old new : Node) (l : Leaf) :
    (f.replaceChild b old new).textOf l = f.textOf l := by
  simp [replaceChild]

@[simp] theorem has_replaceChild {f : Forest} {b : Branch} {old new m : Node} :
    (f.replaceChild b old new).Has m ↔ f.Has m := by
  simp only [replaceChild, has_setParent, has_setChildren]

section Orphans

def orphan (f : Forest) (nodes : List Node) : Forest :=
  nodes.foldl (·.setParent · none) f

theorem clearChildren_eq (f : Forest) (b : Branch) :
    f.clearChildren b = (f.setChildren b []).orphan (f.children b) := rfl

theorem children_orphan (nodes : List Node) (f : Forest) (c : Branch) :
    (f.orphan nodes).children c = f.children c := by
  induction nodes generalizing f with
  | nil => rfl
  | cons n ns ih => exact (ih (f.setParent n none)).trans (children_setParent ..)

theorem kindOf_orphan (nodes : List Node) (f : Forest) (c : Branch) :
    (f.orphan nodes).kindOf c = f.kindOf c := by
  induction nodes generalizing f with
  | nil => rfl
  | cons n ns ih => exact (ih (f.setParent n none)).trans (kindOf_setParent ..)

theorem textOf_orphan (nodes : List Node) (f : Forest) (l : Leaf) :
    (f.orphan nodes).textOf l = f.textOf l := by
  induction nodes generalizing f with
  | nil => rfl
  | cons n ns ih => exact (ih (f.setParent n none)).trans (textOf_setParent ..)

theorem has_orphan (nodes : List Node) (f : Forest) (m : Node) :
    (f.orphan nodes).Has m ↔ f.Has m := by
  induction nodes generalizing f with
  | nil => rfl
  | cons n ns ih => exact (ih (f.setParent n none)).trans has_setParent

theorem parent_setParent_none (f : Forest) (n m : Node) :
    (f.setParent n none).parent m = if m = n then none else f.parent m := by
  rw [parent_setParent]
  by_cases hn : f.Has n
  · simp [hn]
  · by_cases he : m = n
    · subst he
      simp [parent_of_not_has hn]
    · simp [he]

theorem parent_orphan (nodes : List Node) (f : Forest) (m : Node) :
    (f.orphan nodes).parent m = if m ∈ nodes then none else f.parent m := by
  induction nodes generalizing f with
  | nil => simp [orphan]
  | cons n ns ih =>
    refine (ih (f.setParent n none)).trans ?_
    rw [parent_setParent_none]
    by_cases hn : m = n <;> by_cases hs : m ∈ ns <;> simp [hn, hs]

end Orphans

theorem children_clearChildren (f : Forest) (b c : Branch) :
    (f.clearChildren b).children c = if c = b then [] else f.children c := by
  rw [clearChildren_eq, children_orphan, children_setChildren]
  by_cases hb : f.Has b
  · simp [hb]
  · by_cases hc : c = b
    · simp [hc, children, container_of_not_has hb]
    · simp [hc]

theorem parent_clearChildren (f : Forest) (b : Branch) (m : Node) :
    (f.clearChildren b).parent m = if m ∈ f.children b then none else f.parent m := by
  rw [clearChildren_eq, parent_orphan, parent_setChildren]

@[simp] theorem kindOf_clearChildren (f : Forest) (b c : Branch) :
    (f.clearChildren b).kindOf c = f.kindOf c := by
  rw [clearChildren_eq, kindOf_orphan, kindOf_setChildren]

@[simp] theorem textOf_clearChildren (f : Forest) (b : Branch) (l : Leaf) :
    (f.clearChildren b).textOf l = f.textOf l := by
  rw [clearChildren_eq, textOf_orphan, textOf_setChildren]

@[simp] theorem has_clearChildren {f : Forest} {b : Branch} {m : Node} :
    (f.clearChildren b).Has m ↔ f.Has m := by
  rw [clearChildren_eq, has_orphan, has_setChildren]

end Forest

/-! ### Grafts -/

namespace Document

@[simp] theorem order_graft (doc fragment : Document) :
    (doc.graft fragment).2.order = doc.order := rfl

theorem container_graft_of_has {doc : Document} {b : Branch} (hb : doc.Has b)
    (fragment : Document) : (doc.graft fragment).2.container b = doc.container b := by
  have hb : b.index < doc.containers.size := hb
  simp [graft, container, Array.getElem?_append_left hb]

theorem token_graft_of_has {doc : Document} {l : Leaf} (hl : doc.Has l)
    (fragment : Document) : (doc.graft fragment).2.token l = doc.token l := by
  have hl : l.index < doc.tokens.size := hl
  simp [graft, token, Array.getElem?_append_left hl]

theorem container_graft_rehome (doc fragment : Document) (b : Branch) :
    (doc.graft fragment).2.container (doc.rehomeBranch b) =
      { kind := fragment.kindOf b
        parent := (fragment.container b).parent.map doc.rehomeBranch
        children := (fragment.children b).map doc.rehome } := by
  simp only [graft, container, kindOf, children, rehomeBranch,
    Array.getD_eq_getD_getElem?]
  rw [Array.getElem?_append_right (Nat.le_add_left ..), Nat.add_sub_cancel, Array.getElem?_map]
  cases fragment.containers[b.index]? <;> rfl

theorem token_graft_rehome (doc fragment : Document) (l : Leaf) :
    (doc.graft fragment).2.token (doc.rehomeLeaf l) =
      { text := fragment.textOf l
        owner := (fragment.token l).owner.map doc.rehomeBranch } := by
  simp only [graft, token, textOf, rehomeLeaf, Array.getD_eq_getD_getElem?]
  rw [Array.getElem?_append_right (Nat.le_add_left ..), Nat.add_sub_cancel, Array.getElem?_map]
  cases fragment.tokens[l.index]? <;> rfl

theorem has_graft_iff {doc fragment : Document} {node : Node} :
    (doc.graft fragment).2.Has node ↔
      doc.Has node ∨ ∃ n, fragment.Has n ∧ doc.rehome n = node := by
  cases node with
  | leaf l =>
    simp only [graft, Has, Array.size_append, Array.size_map]
    constructor
    · intro h
      by_cases hl : l.index < doc.tokens.size
      · exact Or.inl hl
      · refine Or.inr ⟨.leaf ⟨l.index - doc.tokens.size⟩, ?_, ?_⟩
        · simp only; omega
        · simp only [rehome, rehomeLeaf, Nat.sub_add_cancel (Nat.le_of_not_lt hl)]
    · rintro (h | ⟨n, hn, he⟩)
      · omega
      · cases n with
        | leaf m => cases he; simp only at hn; simp only [rehomeLeaf]; omega
        | branch c => cases he
  | branch b =>
    simp only [graft, Has, Array.size_append, Array.size_map]
    constructor
    · intro h
      by_cases hb : b.index < doc.containers.size
      · exact Or.inl hb
      · refine Or.inr ⟨.branch ⟨b.index - doc.containers.size⟩, ?_, ?_⟩
        · simp only; omega
        · simp only [rehome, rehomeBranch, Nat.sub_add_cancel (Nat.le_of_not_lt hb)]
    · rintro (h | ⟨n, hn, he⟩)
      · omega
      · cases n with
        | leaf m => cases he
        | branch c => cases he; simp only at hn; simp only [rehomeBranch]; omega

theorem not_has_rehome (doc : Document) (node : Node) : ¬ doc.Has (doc.rehome node) := by
  cases node <;> simp [Has, rehome, rehomeLeaf, rehomeBranch]

theorem rehomeLeaf_injective (doc : Document) : Function.Injective doc.rehomeLeaf := by
  rintro ⟨i⟩ ⟨j⟩ h
  simpa [rehomeLeaf] using h

theorem rehomeBranch_injective (doc : Document) : Function.Injective doc.rehomeBranch := by
  rintro ⟨i⟩ ⟨j⟩ h
  simpa [rehomeBranch] using h

theorem rehome_injective (doc : Document) : Function.Injective doc.rehome := by
  intro m n h
  cases m with
  | leaf l =>
    cases n with
    | leaf k => exact congrArg leaf (doc.rehomeLeaf_injective (leaf.inj h))
    | branch c => cases h
  | branch b =>
    cases n with
    | leaf k => cases h
    | branch c => exact congrArg branch (doc.rehomeBranch_injective (branch.inj h))

theorem parent_graft_of_has {doc : Document} {node : Node} (hn : doc.Has node)
    (fragment : Document) : (doc.graft fragment).2.parent node = doc.parent node := by
  cases node with
  | leaf l => simp only [parent, token_graft_of_has hn]
  | branch b => simp only [parent, container_graft_of_has hn]

theorem parent_graft_rehome (doc fragment : Document) (node : Node) :
    (doc.graft fragment).2.parent (doc.rehome node) =
      (fragment.parent node).map doc.rehomeBranch := by
  cases node with
  | leaf l => simp only [parent, rehome, token_graft_rehome]
  | branch b => simp only [parent, rehome, container_graft_rehome]

theorem children_graft_of_has {doc : Document} {b : Branch} (hb : doc.Has b)
    (fragment : Document) : (doc.graft fragment).2.children b = doc.children b := by
  simp only [children, container_graft_of_has hb]

theorem children_graft_rehome (doc fragment : Document) (b : Branch) :
    (doc.graft fragment).2.children (doc.rehomeBranch b) =
      (fragment.children b).map doc.rehome := by
  simp only [children, container_graft_rehome]

theorem kindOf_graft_of_has {doc : Document} {b : Branch} (hb : doc.Has b)
    (fragment : Document) : (doc.graft fragment).2.kindOf b = doc.kindOf b := by
  simp only [kindOf, container_graft_of_has hb]

theorem kindOf_graft_rehome (doc fragment : Document) (b : Branch) :
    (doc.graft fragment).2.kindOf (doc.rehomeBranch b) = fragment.kindOf b := by
  simp only [kindOf, container_graft_rehome]

theorem textOf_graft_of_has {doc : Document} {l : Leaf} (hl : doc.Has l)
    (fragment : Document) : (doc.graft fragment).2.textOf l = doc.textOf l := by
  simp only [textOf, token_graft_of_has hl]

theorem textOf_graft_rehome (doc fragment : Document) (l : Leaf) :
    (doc.graft fragment).2.textOf (doc.rehomeLeaf l) = fragment.textOf l := by
  simp only [textOf, token_graft_rehome]

end Document

end Lossless
