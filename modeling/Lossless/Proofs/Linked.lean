import Lossless.Proofs.Tables
import Mathlib.Data.Finset.Card
import Mathlib.Data.Finset.Range
import Mathlib.Data.List.Nodup

/-! Linked forests: parents and children agree and no container is around itself. In such a forest
the bounds of the walks over the tables are never reached, so leaves and ancestors obey their
plain recursions. -/

namespace Lossless.Forest

open List Node

structure Linked (f : Forest) : Prop where
  down : ∀ {b : Branch} {node : Node}, node ∈ f.children b → f.parent node = some b
  up : ∀ {node : Node} {b : Branch}, f.parent node = some b → node ∈ f.children b
  once : ∀ b, (f.children b).Nodup
  acyclic : ∃ height : Branch → Nat,
    ∀ {b c : Branch}, f.parent c = some b → height c < height b

/-- A container is the node, or stands around it. -/
inductive Around (f : Forest) (b : Branch) : Node → Prop
  | self : Around f b b
  | step {node : Node} {c : Branch} : f.parent node = some c → Around f b c →
      Around f b node

variable {f g : Forest} {b c : Branch} {node : Node} {l : Leaf}

namespace Linked

theorem has_child (hf : f.Linked) (h : node ∈ f.children b) :
    f.Has node :=
  has_of_parent (hf.down h)

theorem has_parent (hf : f.Linked) (h : f.parent node = some b) :
    f.Has b :=
  has_of_mem_children (hf.up h)

/-- Heights can be chosen below the size of the table: count the containers that are lower. -/
theorem exists_height (hf : f.Linked) : ∃ height : Branch → Nat,
    (∀ {b c : Branch}, f.parent c = some b → height c < height b) ∧
      ∀ b, f.Has (.branch b) → height b < f.containers.size := by
  obtain ⟨h, hh⟩ := hf.acyclic
  let lower (b : Branch) : Finset Nat :=
    (Finset.range f.containers.size).filter fun i => h ⟨i⟩ < h b
  refine ⟨fun b => (lower b).card, ?_, ?_⟩
  · intro b c hp
    have hc : f.Has c := has_of_parent hp
    have hlt := hh hp
    refine Finset.card_lt_card ⟨fun i hi => ?_, fun hsub => ?_⟩
    · simp only [lower, Finset.mem_filter] at hi ⊢
      exact ⟨hi.1, hi.2.trans hlt⟩
    · have : c.index ∈ lower c := hsub (by
        simp only [lower, Finset.mem_filter, Finset.mem_range]
        exact ⟨hc, hlt⟩)
      simp [lower] at this
  · intro b hb
    have hsub : lower b ⊆ (Finset.range f.containers.size).erase b.index := by
      intro i hi
      simp only [lower, Finset.mem_filter] at hi
      refine Finset.mem_erase.2 ⟨?_, hi.1⟩
      rintro rfl
      exact lt_irrefl _ hi.2
    have hmem : b.index ∈ Finset.range f.containers.size := Finset.mem_range.2 hb
    calc (lower b).card ≤ ((Finset.range f.containers.size).erase b.index).card :=
          Finset.card_le_card hsub
      _ < (Finset.range f.containers.size).card := Finset.card_erase_lt_of_mem hmem
      _ = f.containers.size := Finset.card_range _

/-- Induction over a node and all that is under it. -/
theorem induction (hf : f.Linked) {P : Node → Prop} (leaf : ∀ l, P (.leaf l))
    (branch : ∀ b, (∀ node ∈ f.children b, P node) → P (.branch b)) : ∀ node, P node := by
  obtain ⟨h, hh⟩ := hf.acyclic
  have lower : ∀ n b, h b < n → P b := by
    intro n
    induction n with
    | zero => intro b hb; omega
    | succ n ih =>
      intro b hb
      refine branch b fun node hnode => ?_
      cases node with
      | leaf l => exact leaf l
      | branch c => exact ih c (by have := hh (hf.down hnode); omega)
  intro node
  cases node with
  | leaf l => exact leaf l
  | branch b => exact lower (h b + 1) b (Nat.lt_succ_self _)

end Linked

/-! ### Leaves -/

theorem leavesWithin_leaf (f : Forest) (n : Nat) (l : Leaf) : f.leavesWithin n l = [l] := by
  cases n <;> rfl

@[simp] theorem leaves_leaf (f : Forest) (l : Leaf) : f.leaves l = [l] :=
  leavesWithin_leaf f _ l

theorem leaves_of_children_nil (h : f.children b = []) : f.leaves b = [] := by
  unfold leaves
  cases f.containers.size with
  | zero => rfl
  | succ n => simp [leavesWithin, h]

namespace Linked

theorem leavesWithin_eq {height : Branch → Nat}
    (hh : ∀ {b c : Branch}, f.parent c = some b → height c < height b) (hf : f.Linked) :
    ∀ n m b, height b < n → height b < m →
      f.leavesWithin n (.branch b) = f.leavesWithin m (.branch b) := by
  intro n
  induction n with
  | zero => intro m b hn; omega
  | succ n ih =>
    intro m b hn hm
    obtain ⟨m, rfl⟩ : ∃ k, m = k + 1 := ⟨m - 1, by omega⟩
    simp only [leavesWithin]
    refine flatMap_congr fun node hnode => ?_
    cases node with
    | leaf l => rw [leavesWithin_leaf, leavesWithin_leaf]
    | branch c =>
      have := hh (hf.down hnode)
      exact ih m c (by omega) (by omega)

theorem leaves_branch (hf : f.Linked) (b : Branch) :
    f.leaves b = (f.children b).flatMap f.leaves := by
  obtain ⟨height, hh, hsize⟩ := hf.exists_height
  by_cases hb : f.Has b
  · have hlt := hsize b hb
    obtain ⟨n, hn⟩ : ∃ n, f.containers.size = n + 1 := ⟨f.containers.size - 1, by omega⟩
    unfold leaves
    rw [hn]
    simp only [leavesWithin]
    refine flatMap_congr fun node hnode => ?_
    cases node with
    | leaf l => rw [leavesWithin_leaf, leavesWithin_leaf]
    | branch c =>
      have := hh (hf.down hnode)
      exact leavesWithin_eq hh hf n (n + 1) c (by omega) (by omega)
  · have hnil : f.children b = [] := by simp [children, container_of_not_has hb]
    rw [leaves_of_children_nil hnil, hnil, flatMap_nil]

end Linked

/-! ### Ancestors -/

theorem climb_congr (h : ∀ b, g.parent (.branch b) = f.parent (.branch b)) (n : Nat)
    (b : Option Branch) : g.climb n b = f.climb n b := by
  induction n generalizing b with
  | zero => rfl
  | succ n ih =>
    cases b with
    | none => rfl
    | some b => exact congrArg (b :: ·) ((ih _).trans (congrArg (f.climb n) (h b)))

@[simp] theorem chain_none (f : Forest) : f.chain none = [] := by
  unfold chain
  cases f.containers.size <;> rfl

namespace Linked

theorem climb_eq {height : Branch → Nat}
    (hh : ∀ {b c : Branch}, f.parent c = some b → height c < height b)
    (hsize : ∀ b, f.Has (.branch b) → height b < f.containers.size) (hf : f.Linked) :
    ∀ n m b, f.Has (.branch b) → f.containers.size ≤ height b + n →
      f.containers.size ≤ height b + m → f.climb n (some b) = f.climb m (some b) := by
  intro n
  induction n with
  | zero => intro m b hb hn; have := hsize b hb; omega
  | succ n ih =>
    intro m b hb hn hm
    have hlt := hsize b hb
    obtain ⟨m, rfl⟩ : ∃ k, m = k + 1 := ⟨m - 1, by omega⟩
    simp only [climb]
    congr 1
    cases hp : (f.container b).parent with
    | none => cases n <;> cases m <;> rfl
    | some p =>
      have hp' : f.parent b = some p := hp
      have := hh hp'
      exact ih m p (hf.has_parent hp') (by omega) (by omega)

theorem chain_some (hf : f.Linked) (hb : f.Has b) :
    f.chain (some b) = b :: f.ancestors b := by
  obtain ⟨height, hh, hsize⟩ := hf.exists_height
  have hlt := hsize b hb
  obtain ⟨n, hn⟩ : ∃ n, f.containers.size = n + 1 := ⟨f.containers.size - 1, by omega⟩
  unfold ancestors chain
  rw [hn]
  simp only [climb]
  congr 1
  cases hp : (f.container b).parent with
  | none => simp only [parent, hp]; cases n <;> rfl
  | some p =>
    have hp' : f.parent b = some p := hp
    have := hh hp'
    rw [hp']
    exact climb_eq hh hsize hf n (n + 1) p (hf.has_parent hp') (by omega) (by omega)

theorem ancestors_of_parent (hf : f.Linked)
    (h : f.parent node = some b) : f.ancestors node = b :: f.ancestors b := by
  rw [ancestors, h, hf.chain_some (hf.has_parent h)]

end Linked

theorem ancestors_of_none (h : f.parent node = none) : f.ancestors node = [] := by
  rw [ancestors, h, chain_none]

/-! ### Containment -/

namespace Around

theorem trans {a b : Branch} (hb : f.Around b node) (ha : f.Around a b) :
    f.Around a node := by
  induction hb with
  | self => exact ha
  | step hp _ ih => exact .step hp ih

theorem of_child (hf : f.Linked) (h : node ∈ f.children b) :
    f.Around b node :=
  .step (hf.down h) .self

theorem has_inside (h : f.Around b node) (hb : f.Has b) :
    f.Has node := by
  cases h with
  | self => exact hb
  | step hp _ => exact has_of_parent hp

theorem has_outside (hf : f.Linked) (h : f.Around b node)
    (hn : f.Has node) : f.Has b := by
  induction h with
  | self => exact hn
  | step hp _ ih => exact ih (hf.has_parent hp)

theorem of_parent_eq {a b : Branch}
    (h : ∀ c, f.Around c b → g.parent (.branch c) = f.parent (.branch c))
    (hg : g.Around a b) : f.Around a b := by
  have key : ∀ node, g.Around a node → ∀ c, node = .branch c → f.Around c b →
      f.Around a b := by
    intro node ha
    induction ha with
    | self =>
      rintro _ ⟨⟩ hc
      exact hc
    | step hp _ ih =>
      rintro c rfl hc
      rw [h c hc] at hp
      exact ih _ rfl (hc.trans (.step hp .self))
  exact key _ hg b rfl .self

theorem height_le {height : Branch → Nat}
    (hh : ∀ {b c : Branch}, f.parent c = some b → height c < height b)
    (h : f.Around b c) : height c ≤ height b := by
  generalize hn : branch c = node at h
  induction h generalizing c with
  | self => cases hn; exact le_rfl
  | step hp _ ih =>
    subst hn
    exact (hh hp).le.trans (ih rfl)

end Around

theorem not_around_free (hp : f.parent c = none) (hne : b ≠ c) : ¬ f.Around b c := by
  intro h
  generalize hn : branch c = node at h
  cases h with
  | self => exact hne (branch.inj hn).symm
  | step hp' _ =>
    rw [← hn, hp] at hp'
    cases hp'

namespace Linked

theorem not_around_of_child (hf : f.Linked) (h : branch c ∈ f.children b) :
    ¬ f.Around c b := by
  intro ha
  obtain ⟨height, hh⟩ := hf.acyclic
  have := Around.height_le hh ha
  have := hh (hf.down h)
  omega

/-- Two children of one container are around the same node only if they are equal. -/
theorem eq_of_around (hf : f.Linked) {p a b : Branch}
    (ha : branch a ∈ f.children p) (hb : branch b ∈ f.children p)
    (hna : f.Around a node) (hnb : f.Around b node) : a = b := by
  induction hna with
  | self =>
    cases hnb with
    | self => rfl
    | step hp hc =>
      rw [hf.down ha] at hp
      cases hp
      exact absurd hc (hf.not_around_of_child hb)
  | step hp hc ih =>
    cases hnb with
    | self =>
      rw [hf.down hb] at hp
      cases hp
      exact absurd hc (hf.not_around_of_child ha)
    | step hp' hc' =>
      rw [hp] at hp'
      cases hp'
      exact ih hc'

theorem not_around_leaf (hf : f.Linked) {p a : Branch}
    (ha : branch a ∈ f.children p) (hl : leaf l ∈ f.children p) :
    ¬ f.Around a l := by
  intro h
  cases h with
  | step hp hc =>
    rw [hf.down hl] at hp
    cases hp
    exact hf.not_around_of_child ha hc

theorem mem_leaves (hf : f.Linked) : l ∈ f.leaves b ↔ f.Around b l := by
  constructor
  · have key : ∀ node, ∀ a, f.Around a node → l ∈ f.leaves node → f.Around a l := by
      refine hf.induction ?_ ?_
      · intro m a ha hl
        rw [leaves_leaf, mem_singleton] at hl
        exact hl ▸ ha
      · intro c ih a ha hl
        rw [hf.leaves_branch, mem_flatMap] at hl
        obtain ⟨node, hnode, hl⟩ := hl
        exact ih node hnode a ((Around.of_child hf hnode).trans ha) hl
    exact key b b .self
  · intro h
    have key : ∀ node, f.Around b node → ∀ l, l ∈ f.leaves node → l ∈ f.leaves b := by
      intro node ha
      induction ha with
      | self => exact fun l hl => hl
      | step hp _ ih =>
        intro l hl
        apply ih
        rw [hf.leaves_branch, mem_flatMap]
        exact ⟨_, hf.up hp, hl⟩
    exact key l h l (by simp)

theorem has_of_mem_leaves (hf : f.Linked)
    (h : l ∈ f.leaves b) : f.Has l := by
  cases hf.mem_leaves.1 h with
  | step hp _ => exact has_of_parent hp

/-- What is under a container depends on the children of the containers in it only. -/
theorem leaves_congr (hf : f.Linked) (hg : g.Linked) (b : Branch)
    (h : ∀ c, f.Around b (.branch c) → g.children c = f.children c) :
    g.leaves b = f.leaves b := by
  have key : ∀ node, f.Around b node → g.leaves node = f.leaves node := by
    refine hf.induction ?_ ?_
    · intro l _
      rw [leaves_leaf, leaves_leaf]
    · intro c ih hc
      rw [hf.leaves_branch, hg.leaves_branch, h c hc]
      exact flatMap_congr fun node hnode =>
        ih node hnode ((Around.of_child hf hnode).trans hc)
  exact key _ .self

end Linked

end Lossless.Forest
