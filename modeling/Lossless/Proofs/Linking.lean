import Lossless.Proofs.Linked
import Mathlib.Data.List.Perm.Basic

/-! Changes that keep a forest linked: new entries, children put in and taken out, and grafts. -/

namespace Lossless

open List Forest

namespace Forest

variable {f g : Forest} {t : Token} {node : Node} {b : Branch}

theorem Linked.of_eq (hf : f.Linked) (hc : ∀ b, g.children b = f.children b)
    (hp : ∀ node, g.parent node = f.parent node) : g.Linked where
  down h := by rw [hp]; exact hf.down (hc _ ▸ h)
  up h := by rw [hc]; exact hf.up (hp _ ▸ h)
  once b := by rw [hc]; exact hf.once b
  acyclic := by
    obtain ⟨h, hh⟩ := hf.acyclic
    exact ⟨h, fun hl => hh (hp _ ▸ hl)⟩

theorem parent_addToken (f : Forest) (ht : t.owner = none) (node : Node) :
    (f.addToken t).2.parent node = f.parent node := by
  cases node with
  | branch b => rfl
  | leaf l =>
    simp only [parent, token_addToken]
    split
    · next h =>
      have hl : ¬ f.Has l := by simp [h, Has, addToken]
      rw [ht, token_of_not_has hl]
    · rfl

theorem Linked.addToken (hf : f.Linked) (ht : t.owner = none) :
    (f.addToken t).2.Linked :=
  hf.of_eq (fun _ => rfl) (parent_addToken f ht)

theorem not_has_addContainer (f : Forest) (c : Container) :
    ¬ f.Has (.branch (f.addContainer c).1) := by
  simp [Has, addContainer]

theorem not_has_addToken (f : Forest) (t : Token) : ¬ f.Has (.leaf (f.addToken t).1) := by
  simp [Has, addToken]

theorem has_addToken (h : f.Has node) (t : Token) : (f.addToken t).2.Has node := by
  cases node with
  | branch b => exact h
  | leaf l =>
    have : l.index < f.tokens.size := h
    simp only [Has, addToken, Array.size_push]
    omega

theorem has_new_token (f : Forest) (t : Token) : (f.addToken t).2.Has (.leaf (f.addToken t).1) := by
  simp [Has, addToken]

theorem textOf_addToken_of_has {l : Leaf} (h : f.Has l) (t : Token) :
    (f.addToken t).2.textOf l = f.textOf l := by
  have hne : l ≠ (f.addToken t).1 := by
    rintro rfl
    exact not_has_addToken f t h
  rw [textOf, token_addToken, if_neg hne, textOf]

theorem parent_addContainer (f : Forest) (kind : Kind) (node : Node) :
    (f.addContainer { kind }).2.parent node = f.parent node := by
  cases node with
  | leaf l => rfl
  | branch b =>
    simp only [parent, container_addContainer]
    split
    · next h =>
      have hb : ¬ f.Has b := h ▸ not_has_addContainer f _
      simp [container_of_not_has hb]
    · rfl

theorem children_addContainer (f : Forest) (kind : Kind) (b : Branch) :
    (f.addContainer { kind }).2.children b = f.children b := by
  simp only [children, container_addContainer]
  split
  · next h =>
    have hb : ¬ f.Has b := h ▸ not_has_addContainer f _
    simp [container_of_not_has hb]
  · rfl

theorem has_addContainer (f : Forest) (kind : Kind) (node : Node) (h : f.Has node) :
    (f.addContainer { kind }).2.Has node := by
  cases node with
  | leaf l => exact h
  | branch b =>
    have : b.index < f.containers.size := h
    simp [Has, addContainer]; omega

theorem has_new_container (f : Forest) (kind : Kind) :
    (f.addContainer { kind }).2.Has (.branch (f.addContainer { kind }).1) := by
  simp [Has, addContainer]

theorem Linked.addContainer (hf : f.Linked) (kind : Kind) : (f.addContainer { kind }).2.Linked :=
  hf.of_eq (children_addContainer f kind) (parent_addContainer f kind)

/-! ### Children -/

theorem Linked.exists_height_under (hf : f.Linked) {b r : Branch}
    (hr : ¬ f.Around r b) : ∃ height : Branch → Nat, height r < height b ∧
      ∀ {p c : Branch}, f.parent c = some p → height c < height p := by
  classical
  obtain ⟨h, hh⟩ := hf.acyclic
  refine ⟨fun c => if f.Around c b then h c + h r + 1 else h c, ?_, ?_⟩
  · simp only [hr, if_false, Around.self, if_true]
    omega
  · intro p c hp
    have hlt := hh hp
    by_cases hc : f.Around c b
    · -- whatever is around `c` is around `b` as well, so both heights are raised
      have : f.Around p b := hc.trans (.step hp .self)
      simp only [hc, this, if_true]
      omega
    · simp only [hc, if_false]
      split <;> omega

theorem Linked.insertChild (hf : f.Linked) {i : Nat}
    (hb : f.Has b) (hn : f.Has node) (hfree : f.parent node = none)
    (hac : ∀ c, node = .branch c → ¬ f.Around c b) : (f.insertChild b i node).Linked := by
  have hnot : ∀ c, node ∉ f.children c := by
    intro c h
    rw [hf.down h] at hfree
    cases hfree
  have hmem : ∀ n c, n ∈ (f.insertChild b i node).children c ↔
      n ∈ f.children c ∨ c = b ∧ n = node := by
    intro n c
    rw [children_insertChild hb]
    split
    · next h =>
      subst h
      rw [mem_append, mem_cons, or_left_comm, ← mem_append, take_append_drop]
      simp [or_comm]
    · next h => simp [h]
  refine ⟨?_, ?_, ?_, ?_⟩
  · intro c n h
    rw [parent_insertChild hn]
    rcases (hmem n c).1 h with h | ⟨rfl, rfl⟩
    · have : n ≠ node := fun he => hnot c (he ▸ h)
      simp [this, hf.down h]
    · simp
  · intro n c h
    rw [parent_insertChild hn] at h
    rw [hmem]
    split at h
    · next he =>
      cases h
      exact .inr ⟨rfl, he⟩
    · exact .inl (hf.up h)
  · intro c
    rw [children_insertChild hb]
    split
    · rw [perm_middle.nodup_iff, take_append_drop]
      exact nodup_cons.2 ⟨hnot b, hf.once b⟩
    · exact hf.once c
  · cases node with
    | leaf l =>
      obtain ⟨h, hh⟩ := hf.acyclic
      refine ⟨h, fun {p c} hp => hh ?_⟩
      rwa [parent_insertChild hn, if_neg (by simp)] at hp
    | branch r =>
      obtain ⟨h, hr, hh⟩ := hf.exists_height_under (hac r rfl)
      refine ⟨h, fun {p c} hp => ?_⟩
      rw [parent_insertChild hn] at hp
      split at hp
      · next he =>
        cases hp
        cases he
        exact hr
      · exact hh hp

theorem pushChild_eq_insertChild (f : Forest) (b : Branch) (node : Node) :
    f.pushChild b node = f.insertChild b (f.children b).length node := by
  simp [pushChild, insertChild]

theorem Linked.pushChild (hf : f.Linked) (hb : f.Has b)
    (hn : f.Has node) (hfree : f.parent node = none)
    (hac : ∀ c, node = .branch c → ¬ f.Around c b) : (f.pushChild b node).Linked := by
  rw [pushChild_eq_insertChild]
  exact hf.insertChild hb hn hfree hac

theorem Linked.removeChild (hf : f.Linked) (b : Branch) (node : Node) :
    (f.removeChild b node).Linked := by
  have hmem : ∀ n c, n ∈ (f.removeChild b node).children c ↔
      n ∈ f.children c ∧ ¬ (n = node ∧ c = b) := by
    intro n c
    rw [children_removeChild]
    split
    · next h =>
      subst h
      rw [(hf.once c).mem_erase_iff]
      tauto
    · next h => simp [h]
  refine ⟨?_, ?_, ?_, ?_⟩
  · intro c n h
    obtain ⟨hc, hne⟩ := (hmem n c).1 h
    rw [parent_removeChild, if_neg, hf.down hc]
    rintro ⟨rfl, hb⟩
    have := (hf.down hc).symm.trans (hf.down hb)
    exact hne ⟨rfl, Option.some.inj this⟩
  · intro n c h
    rw [parent_removeChild] at h
    split at h
    · cases h
    · next hne =>
      refine (hmem n c).2 ⟨hf.up h, ?_⟩
      rintro ⟨rfl, rfl⟩
      exact hne ⟨rfl, hf.up h⟩
  · intro c
    rw [children_removeChild]
    split
    · exact (hf.once b).erase node
    · exact hf.once c
  · obtain ⟨h, hh⟩ := hf.acyclic
    refine ⟨h, fun {p c} hp => hh ?_⟩
    rw [parent_removeChild] at hp
    split at hp
    · cases hp
    · exact hp

theorem Linked.clearChildren (hf : f.Linked) (b : Branch) : (f.clearChildren b).Linked := by
  refine ⟨?_, ?_, ?_, ?_⟩
  · intro c n h
    rw [children_clearChildren] at h
    split at h
    · cases h
    · next hc =>
      rw [parent_clearChildren, if_neg, hf.down h]
      intro hb
      exact hc (Option.some.inj ((hf.down h).symm.trans (hf.down hb)))
  · intro n c h
    rw [parent_clearChildren] at h
    split at h
    · cases h
    · next hn =>
      have hc : c ≠ b := fun he => hn (he ▸ hf.up h)
      rw [children_clearChildren, if_neg hc]
      exact hf.up h
  · intro c
    rw [children_clearChildren]
    split
    · exact nodup_nil
    · exact hf.once c
  · obtain ⟨h, hh⟩ := hf.acyclic
    refine ⟨h, fun {p c} hp => hh ?_⟩
    rw [parent_clearChildren] at hp
    split at hp
    · cases hp
    · exact hp

end Forest

/-! ### Grafts -/

namespace Document

theorem has_or_rehome (doc : Document) (node : Node) : doc.Has node ∨ ∃ n, node = doc.rehome n := by
  cases node with
  | leaf l =>
    by_cases h : l.index < doc.tokens.size
    · exact .inl h
    · refine .inr ⟨.leaf ⟨l.index - doc.tokens.size⟩, ?_⟩
      simp only [rehome, rehomeLeaf, Nat.sub_add_cancel (Nat.le_of_not_lt h)]
  | branch b =>
    by_cases h : b.index < doc.containers.size
    · exact .inl h
    · refine .inr ⟨.branch ⟨b.index - doc.containers.size⟩, ?_⟩
      simp only [rehome, rehomeBranch, Nat.sub_add_cancel (Nat.le_of_not_lt h)]

theorem has_or_rehomeBranch (doc : Document) (b : Branch) :
    doc.Has b ∨ ∃ c, b = doc.rehomeBranch c := by
  rcases doc.has_or_rehome b with h | ⟨n, hn⟩
  · exact .inl h
  · cases n with
    | leaf l => cases hn
    | branch c => exact .inr ⟨c, Node.branch.inj hn⟩

theorem rehome_mem_map {doc : Document} {node : Node} {nodes : List Node} :
    doc.rehome node ∈ nodes.map doc.rehome ↔ node ∈ nodes :=
  mem_map_of_injective doc.rehome_injective

theorem linked_graft {doc fragment : Document} (hd : doc.Linked) (hf : fragment.Linked) :
    (doc.graft fragment).2.Linked := by
  refine ⟨?_, ?_, ?_, ?_⟩
  · intro b n h
    rcases doc.has_or_rehomeBranch b with hb | ⟨c, rfl⟩
    · rw [children_graft_of_has hb] at h
      rw [parent_graft_of_has (hd.has_child h)]
      exact hd.down h
    · rw [children_graft_rehome, mem_map] at h
      obtain ⟨m, hm, rfl⟩ := h
      rw [parent_graft_rehome, hf.down hm]
      rfl
  · intro n b h
    rcases doc.has_or_rehome n with hn | ⟨m, rfl⟩
    · rw [parent_graft_of_has hn] at h
      rw [children_graft_of_has (hd.has_parent h)]
      exact hd.up h
    · rw [parent_graft_rehome, Option.map_eq_some_iff] at h
      obtain ⟨c, hc, rfl⟩ := h
      rw [children_graft_rehome, rehome_mem_map]
      exact hf.up hc
  · intro b
    rcases doc.has_or_rehomeBranch b with hb | ⟨c, rfl⟩
    · rw [children_graft_of_has hb]
      exact hd.once b
    · rw [children_graft_rehome]
      exact (hf.once c).map doc.rehome_injective
  · obtain ⟨h₁, hh₁⟩ := hd.acyclic
    obtain ⟨h₂, hh₂⟩ := hf.acyclic
    refine ⟨fun b => if b.index < doc.containers.size then h₁ b
      else h₂ ⟨b.index - doc.containers.size⟩, fun {b c} hp => ?_⟩
    rcases doc.has_or_rehomeBranch c with hc | ⟨c, rfl⟩
    · rw [parent_graft_of_has hc] at hp
      have hb : b.index < doc.containers.size := hd.has_parent hp
      have hc : c.index < doc.containers.size := hc
      simp only [hb, hc, if_true]
      exact hh₁ hp
    · have hp' := (parent_graft_rehome doc fragment c).symm.trans hp
      rw [Option.map_eq_some_iff] at hp'
      obtain ⟨p, hp', rfl⟩ := hp'
      simp only [rehomeBranch, Nat.not_lt.2 (Nat.le_add_left ..), if_false, Nat.add_sub_cancel]
      exact hh₂ hp'

end Document

end Lossless
