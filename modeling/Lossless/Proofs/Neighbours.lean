import Lossless.Proofs.Ordered

/-! What stands beside a node in its tree: the tokens before it and those after it. The visible ones
nearest to it are its neighbours in the text. -/

namespace Lossless

open List Forest

namespace Forest

variable {f g : Forest} {node : Node} {b : Branch} {xs ys : List Node} {l : Leaf}

/-- The tokens that stand before a node under the given containers around it, nearest first. -/
def leftAlong (f : Forest) (node : Node) : List Branch → List Leaf
  | [] => []
  | b :: outer =>
    f.leftAlong b outer ++ ((f.children b).takeWhile (· != node)).flatMap f.leaves

def rightAlong (f : Forest) (node : Node) : List Branch → List Leaf
  | [] => []
  | b :: outer =>
    ((f.children b).dropWhile (· != node)).tail.flatMap f.leaves ++ f.rightAlong b outer

def leftLeaves (f : Forest) (node : Node) : List Leaf :=
  f.leftAlong node (f.ancestors node)

def rightLeaves (f : Forest) (node : Node) : List Leaf :=
  f.rightAlong node (f.ancestors node)

theorem leftLeaves_of_none (h : f.parent node = none) : f.leftLeaves node = [] := by
  rw [leftLeaves, ancestors_of_none h, leftAlong]

theorem rightLeaves_of_none (h : f.parent node = none) : f.rightLeaves node = [] := by
  rw [rightLeaves, ancestors_of_none h, rightAlong]

namespace Linked

section

variable (hf : f.Linked)
include hf

theorem exists_siblings (h : f.parent node = some b) :
    ∃ xs ys, f.children b = xs ++ node :: ys ∧ node ∉ xs ∧ node ∉ ys := by
  obtain ⟨xs, ys, hxy⟩ := append_of_mem (hf.up h)
  have hnd := hf.once b
  rw [hxy, List.nodup_append, nodup_cons] at hnd
  exact ⟨xs, ys, hxy, fun hm => hnd.2.2 _ hm _ (by simp) rfl, hnd.2.1.1⟩

theorem leftLeaves_of_parent
    (h : f.parent node = some b) (hxy : f.children b = xs ++ node :: ys) (hxs : node ∉ xs) :
    f.leftLeaves node = f.leftLeaves b ++ xs.flatMap f.leaves := by
  have htake : (f.children b).takeWhile (· != node) = xs := by
    have hne : ∀ a ∈ xs, (a != node) = true := fun a ha => bne_iff_ne.2 fun he => hxs (he ▸ ha)
    rw [hxy, takeWhile_append_of_pos hne]
    simp
  rw [leftLeaves, hf.ancestors_of_parent h, leftAlong, htake]
  rfl

theorem rightLeaves_of_parent
    (h : f.parent node = some b) (hxy : f.children b = xs ++ node :: ys) (hxs : node ∉ xs) :
    f.rightLeaves node = ys.flatMap f.leaves ++ f.rightLeaves b := by
  have hdrop : (f.children b).dropWhile (· != node) = node :: ys := by
    have hne : ∀ a ∈ xs, (a != node) = true := fun a ha => bne_iff_ne.2 fun he => hxs (he ▸ ha)
    rw [hxy, dropWhile_append_of_pos hne]
    simp
  rw [rightLeaves, hf.ancestors_of_parent h, rightAlong, hdrop]
  rfl

/-- Induction from a node to the containers around it. -/
theorem upward {P : Node → Prop} (free : ∀ node, f.parent node = none → P node)
    (inside : ∀ node b, f.parent node = some b → P (.branch b) → P node) : ∀ node, P node := by
  obtain ⟨height, hh, hsize⟩ := hf.exists_height
  have key : ∀ n b, f.containers.size ≤ height b + n → P b := by
    intro n
    induction n with
    | zero =>
      intro b hb
      refine free _ ?_
      by_contra hp
      obtain ⟨p, hp⟩ := Option.ne_none_iff_exists'.1 hp
      have := hsize p (hf.has_parent hp)
      have := hh hp
      omega
    | succ n ih =>
      intro b hb
      cases hp : f.parent b with
      | none => exact free _ hp
      | some p =>
        have := hh hp
        exact inside _ p hp (ih p (by omega))
  intro node
  cases hp : f.parent node with
  | none => exact free node hp
  | some p => exact inside node p hp (key f.containers.size p (Nat.le_add_left ..))

theorem ancestors_congr (hg : g.Linked) (node : Node)
    (hnode : g.parent node = f.parent node)
    (hup : ∀ b, f.Around b node → g.parent (.branch b) = f.parent (.branch b)) :
    g.ancestors node = f.ancestors node := by
  induction node using hf.upward with
  | free node hp => rw [ancestors_of_none hp, ancestors_of_none (hnode.trans hp)]
  | inside node b hp ih =>
    rw [hf.ancestors_of_parent hp, hg.ancestors_of_parent (hnode.trans hp),
      ih (hup b (.step hp .self)) fun c hc => hup c (.step hp hc)]

theorem around_of_mem_ancestors
    (h : b ∈ f.ancestors node) : f.Around b node := by
  induction node using hf.upward with
  | free node hp =>
    rw [ancestors_of_none hp] at h
    cases h
  | inside node c hp ih =>
    rw [hf.ancestors_of_parent hp, mem_cons] at h
    rcases h with rfl | h
    · exact .step hp .self
    · exact .step hp (ih h)

theorem exists_leaves_top (node : Node) : ∃ top,
    f.leaves top = f.leftLeaves node ++ (f.leaves node ++ f.rightLeaves node) := by
  revert node
  refine hf.upward ?_ ?_
  · intro n hn
    exact ⟨n, by rw [leftLeaves_of_none hn, rightLeaves_of_none hn, nil_append,
      append_nil]⟩
  · rintro n b hn ⟨top, htop⟩
    obtain ⟨xs, ys, hxy, hxs, -⟩ := hf.exists_siblings hn
    refine ⟨top, ?_⟩
    rw [htop, hf.leaves_branch, hf.leftLeaves_of_parent hn hxy hxs,
      hf.rightLeaves_of_parent hn hxy hxs, hxy]
    simp [flatMap_append, append_assoc]

theorem held (hc : node ∈ f.children b)
    (hl : l ∈ f.leaves node) : ∃ c, f.parent l = some c := by
  cases node with
  | leaf m =>
    rw [leaves_leaf, mem_singleton] at hl
    exact ⟨b, hl ▸ hf.down hc⟩
  | branch c =>
    cases hf.mem_leaves.1 hl with
    | step hp _ => exact ⟨_, hp⟩

theorem has_of_mem_flatMap {nodes : List Node}
    (hs : nodes ⊆ f.children b) (hl : l ∈ nodes.flatMap f.leaves) : f.Has l := by
  obtain ⟨n, hn, hl⟩ := mem_flatMap.1 hl
  obtain ⟨c, hp⟩ := hf.held (hs hn) hl
  exact has_of_parent hp

theorem held_beside (node : Node) :
    ∀ l ∈ f.leftLeaves node ++ f.rightLeaves node, ∃ c, f.parent (.leaf l) = some c := by
  revert node
  refine hf.upward ?_ ?_
  · intro n hn l hl
    rw [leftLeaves_of_none hn, rightLeaves_of_none hn] at hl
    cases hl
  · intro n b hn ih l hl
    obtain ⟨xs, ys, hxy, hxs, -⟩ := hf.exists_siblings hn
    rw [hf.leftLeaves_of_parent hn hxy hxs, hf.rightLeaves_of_parent hn hxy hxs] at hl
    have hside : ∀ ns ⊆ f.children b, l ∈ ns.flatMap f.leaves → ∃ c, f.parent l = some c := by
      intro ns hns hl
      obtain ⟨m, hm, hl⟩ := mem_flatMap.1 hl
      exact hf.held (hns hm) hl
    rcases mem_append.1 hl with hl | hl <;> rcases mem_append.1 hl with hl | hl
    · exact ih l (by simp [hl])
    · exact hside xs (fun m hm => by simp [hxy, hm]) hl
    · exact hside ys (fun m hm => by simp [hxy, hm]) hl
    · exact ih l (by simp [hl])

theorem has_beside (node : Node) (l : Leaf) (hl : l ∈ f.leftLeaves node ++ f.rightLeaves node) :
    f.Has l := by
  obtain ⟨c, hp⟩ := hf.held_beside node l hl
  exact has_of_parent hp

/-! ### Changes elsewhere -/

theorem beside_congr (hg : g.Linked) {list : Branch}
    (hc : ∀ b, f.Has (.branch b) → ¬ f.Around list (.branch b) → g.children b = f.children b)
    (hp : ∀ b, f.Around b list → g.parent (.branch b) = f.parent (.branch b)) :
    g.leftLeaves list = f.leftLeaves list ∧
      g.rightLeaves list = f.rightLeaves list := by
  have key : ∀ node, ∀ b, node = .branch b → f.Around b list →
      g.leftLeaves node = f.leftLeaves node ∧ g.rightLeaves node = f.rightLeaves node := by
    refine hf.upward ?_ ?_
    · rintro _ hpb b rfl hb
      have hgb := (hp b hb).trans hpb
      rw [leftLeaves_of_none hpb, leftLeaves_of_none hgb, rightLeaves_of_none hpb,
        rightLeaves_of_none hgb]
      exact ⟨rfl, rfl⟩
    · rintro _ p hpb ih b rfl hb
      obtain ⟨ihl, ihr⟩ := ih p rfl (hb.trans (.step hpb .self))
      obtain ⟨xs, ys, hxy, hxs, hys⟩ := hf.exists_siblings hpb
      have hout : ¬ f.Around list p := by
        intro ha
        exact hf.not_around_of_child (hf.up hpb) (ha.trans hb)
      have hgxy := (hc p (hf.has_parent hpb) hout).trans hxy
      have hgpb := (hp b hb).trans hpb
      -- a sibling does not hold the container, so nothing under it has changed
      have hside : ∀ n ∈ f.children p, n ≠ .branch b → g.leaves n = f.leaves n := by
        intro n hn hne
        cases n with
        | leaf l => rw [leaves_leaf, leaves_leaf]
        | branch s =>
          refine hf.leaves_congr hg s fun c hsc => hc c (hsc.has_inside (hf.has_child hn)) ?_
          intro hlc
          exact hne (congrArg Node.branch (hf.eq_of_around hn (hf.up hpb) hsc (hlc.trans hb)))
      have hleft : xs.flatMap g.leaves = xs.flatMap f.leaves :=
        flatMap_congr fun n hn => hside n (by simp [hxy, hn]) fun he => hxs (he ▸ hn)
      have hright : ys.flatMap g.leaves = ys.flatMap f.leaves :=
        flatMap_congr fun n hn => hside n (by simp [hxy, hn]) fun he => hys (he ▸ hn)
      rw [hf.leftLeaves_of_parent hpb hxy hxs, hf.rightLeaves_of_parent hpb hxy hxs,
        hg.leftLeaves_of_parent hgpb hgxy hxs, hg.rightLeaves_of_parent hgpb hgxy hxs, ihl, ihr,
        hleft, hright]
      exact ⟨rfl, rfl⟩
  exact key _ list rfl .self

end

end Linked

end Forest

namespace Document

variable {doc : Document} {node : Node}

theorem getLast?_flatMap_visibleLeaves (doc : Document) (xs : List Node) :
    (xs.flatMap doc.visibleLeaves).getLast? = xs.reverse.findSome? doc.lastLeaf? := by
  induction xs with
  | nil => rfl
  | cons x xs ih =>
    rw [flatMap_cons, getLast?_append, ih, reverse_cons, findSome?_append]
    simp [lastLeaf?]

theorem head?_flatMap_visibleLeaves (doc : Document) (xs : List Node) :
    (xs.flatMap doc.visibleLeaves).head? = xs.findSome? doc.firstLeaf? := by
  induction xs with
  | nil => rfl
  | cons x xs ih =>
    rw [flatMap_cons, head?_append, ih, findSome?_cons]
    cases h : doc.firstLeaf? x <;> simp only [firstLeaf?] at h <;> simp [h]

theorem filter_flatMap_leaves (doc : Document) (xs : List Node) :
    (xs.flatMap doc.leaves).filter doc.order.contains = xs.flatMap doc.visibleLeaves := by
  rw [filter_flatMap]
  rfl

/-- The left neighbour is the last visible token before a node. -/
theorem leftLeaf?_eq (h : doc.Linked) (node : Node) :
    doc.leftLeaf? node = ((doc.leftLeaves node).filter doc.order.contains).getLast? := by
  revert node
  refine h.upward ?_ ?_
  · intro n hn
    rw [leftLeaf?, ancestors_of_none hn, leftLeaves_of_none hn]
    rfl
  · intro n b hn ih
    obtain ⟨xs, ys, hxy, hxs, -⟩ := h.exists_siblings hn
    rw [h.leftLeaves_of_parent hn hxy hxs, filter_append, filter_flatMap_leaves,
      getLast?_append, ← ih, getLast?_flatMap_visibleLeaves]
    simp only [leftLeaf?, h.ancestors_of_parent hn, leftAlong, hxy, idxOf?_append_cons hxs]
    simp

theorem rightLeaf?_eq (h : doc.Linked) (node : Node) :
    doc.rightLeaf? node = ((doc.rightLeaves node).filter doc.order.contains).head? := by
  revert node
  refine h.upward ?_ ?_
  · intro n hn
    rw [rightLeaf?, ancestors_of_none hn, rightLeaves_of_none hn]
    rfl
  · intro n b hn ih
    obtain ⟨xs, ys, hxy, hxs, -⟩ := h.exists_siblings hn
    rw [h.rightLeaves_of_parent hn hxy hxs, filter_append, filter_flatMap_leaves,
      head?_append, ← ih, head?_flatMap_visibleLeaves]
    simp only [rightLeaf?, h.ancestors_of_parent hn, rightAlong, hxy, idxOf?_append_cons hxs]
    simp

/-- In an ordered tree the visible tokens before, in and after a node follow each other. -/
theorem surroundings_sublist (h : doc.IsTree) (ho : doc.Ordered) (node : Node) :
    (doc.leftLeaves node ++ (doc.leaves node ++ doc.rightLeaves node)).filter doc.order.contains
      <+ doc.order := by
  obtain ⟨top, htop⟩ := h.linked.exists_leaves_top node
  rw [← htop]
  exact (ordered_iff h).1 ho top

end Document

end Lossless
