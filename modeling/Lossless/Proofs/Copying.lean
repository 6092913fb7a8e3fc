import Lossless.Proofs.Listed

/-! Copies of containers. A container that is copied gets its children when all of them are copied;
storing them one by one gives the same forest, and there each step keeps the links together. -/

namespace Lossless

open List Option Forest

namespace Forest

variable {f g : Forest} {b c p : Branch}

theorem setChildren_setChildren (f : Forest) (b : Branch) (cs ds : List Node) :
    (f.setChildren b cs).setChildren b ds = f.setChildren b ds := by
  simp only [setChildren, modifyContainer, mk.injEq, true_and]
  ext1
  · simp
  · simp [Array.getElem_modify]
    grind

theorem setChildren_comm (h : b ≠ c) (f : Forest) (cs ds : List Node) :
    (f.setChildren b cs).setChildren c ds = (f.setChildren c ds).setChildren b cs := by
  have hne : b.index ≠ c.index := fun he => h (by cases b; cases c; cases he; rfl)
  simp only [setChildren, modifyContainer, mk.injEq, true_and]
  ext1
  · simp
  · simp only [Array.getElem_modify]
    grind

theorem addContainer_setChildren (hb : f.Has b) (c : Container) (cs : List Node) :
    (f.setChildren b cs).addContainer c =
      ((f.addContainer c).1, (f.addContainer c).2.setChildren b cs) := by
  have hb : b.index < f.containers.size := hb
  simp only [setChildren, modifyContainer, addContainer, Array.size_modify, Prod.mk.injEq, mk.injEq,
    true_and]
  ext1
  · simp
  · simp [Array.getElem_modify, Array.getElem_push]
    grind

/-- A new container of a kind, under another one if that is given. -/
def sprout (f : Forest) (kind : Kind) : Option Branch → Forest
  | none => (f.addContainer { kind }).2
  | some p => (f.addContainer { kind }).2.pushChild p (.branch (f.addContainer { kind }).1)

theorem sprout_some (hp : f.Has p) (kind : Kind) :
    f.sprout kind (some p) = (f.addContainer { kind, parent := some p }).2.setChildren p
      (f.children p ++ [.branch (f.addContainer { kind }).1]) := by
  have hp : p.index < f.containers.size := hp
  simp only [sprout, pushChild, setChildren, setParent, modifyContainer, addContainer, mk.injEq,
    true_and]
  ext1
  · simp
  · simp [Array.getElem_modify, Array.getElem_push, children, container]
    grind

theorem has_sprout (f : Forest) (kind : Kind) (parent : Option Branch) :
    (f.sprout kind parent).Has (.branch ⟨f.containers.size⟩) := by
  cases parent with
  | none => exact has_new_container f kind
  | some p => exact has_pushChild.2 (has_new_container f kind)

theorem children_sprout {parent : Option Branch} (hp : ∀ p ∈ parent, f.Has (.branch p)) (kind : Kind) :
    (f.sprout kind parent).children ⟨f.containers.size⟩ = [] := by
  have hempty : (f.addContainer { kind }).2.children ⟨f.containers.size⟩ = [] := by
    rw [children_addContainer, children,
      container_of_not_has (show ¬ f.Has (.branch ⟨f.containers.size⟩) from Nat.lt_irrefl _)]
  cases parent with
  | none => exact hempty
  | some p =>
    refine (children_pushChild (has_addContainer f kind _ (hp p rfl)) _ _).trans
      ((if_neg ?_).trans hempty)
    rintro ⟨⟩
    exact Nat.lt_irrefl _ (hp _ rfl)

theorem setChildren_of_eq {cs : List Node} (h : f.children b = cs) : f.setChildren b cs = f := by
  subst h
  cases f
  simp only [setChildren, modifyContainer, mk.injEq, true_and]
  ext1
  · simp
  · simp only [Array.getElem_modify, children, container]
    split
    · next h =>
      subst h
      simp [*]
    · rfl

theorem container_addContainer_of_has (hb : f.Has b) (c : Container) :
    (f.addContainer c).2.container b = f.container b := by
  rw [container_addContainer, if_neg]
  rintro rfl
  exact not_has_addContainer f c hb

theorem has_addContainer_of_has (c : Container) {node : Node} (h : f.Has node) :
    (f.addContainer c).2.Has node := by
  cases node with
  | leaf l => exact h
  | branch b => exact (Nat.lt_succ_of_lt h).trans_eq (Array.size_push _).symm

theorem Linked.nodup_leaves (hf : f.Linked) (node : Node) : (f.leaves node).Nodup := by
  refine hf.induction (P := fun node => (f.leaves node).Nodup) ?_ ?_ node
  · intro l
    rw [leaves_leaf]
    exact nodup_singleton l
  · intro b ih
    rw [hf.leaves_branch]
    refine nodup_flatMap.2 ⟨ih, (hf.once b).imp_of_mem fun {m n} hm hn hne => ?_⟩
    intro l hl hl'
    cases m with
    | leaf k =>
      rw [leaves_leaf, mem_singleton] at hl
      cases n with
      | leaf j =>
        rw [leaves_leaf, mem_singleton] at hl'
        exact hne (by rw [← hl, hl'])
      | branch a => exact hf.not_around_leaf hn (hl ▸ hm) (hf.mem_leaves.1 hl')
    | branch a =>
      cases n with
      | leaf j =>
        rw [leaves_leaf, mem_singleton] at hl'
        exact hf.not_around_leaf hm (hl' ▸ hn) (hf.mem_leaves.1 hl)
      | branch c =>
        exact hne (congrArg _ (hf.eq_of_around hm hn (hf.mem_leaves.1 hl) (hf.mem_leaves.1 hl')))

end Forest

namespace Document

variable {doc : Document} {copied : List Leaf} {f g : Forest} {b c x : Branch} {n : Nat} {l : Leaf}

def copyStep (doc : Document) (copied : List Leaf) (n : Nat) (copy : Branch)
    (state : List Node × Forest) : Node → List Node × Forest
  | .leaf l =>
    match copyOf? copied l with
    | none => state
    | some l => (state.1 ++ [.leaf l], state.2.setParent l (some copy))
  | .branch c =>
    let inner := doc.copyWithin copied n (some copy) c state.2
    (state.1 ++ [.branch inner.1], inner.2)

theorem copyStep_none (h : copyOf? copied l = none) (copy : Branch)
    (state : List Node × Forest) : doc.copyStep copied n copy state l = state := by
  rw [copyStep, h]

theorem copyStep_some {l k : Leaf} (h : copyOf? copied l = some k) (copy : Branch)
    (state : List Node × Forest) : doc.copyStep copied n copy state l =
      (state.1 ++ [.leaf k], state.2.setParent k (some copy)) := by
  rw [copyStep, h]

theorem copyWithin_succ (doc : Document) (copied : List Leaf) (n : Nat) (parent : Option Branch)
    (b : Branch) (f : Forest) :
    doc.copyWithin copied (n + 1) parent b f =
      let start := f.addContainer { kind := doc.kindOf b, parent }
      let done := (doc.children b).foldl (doc.copyStep copied n start.1) ([], start.2)
      (start.1, done.2.setChildren start.1 done.1) := by
  rw [copyWithin]
  dsimp only
  congr 3

theorem fst_copyWithin (doc : Document) (copied : List Leaf) (n : Nat) (parent : Option Branch)
    (b : Branch) (f : Forest) :
    (doc.copyWithin copied n parent b f).1 = ⟨f.containers.size⟩ := by
  cases n with
  | zero => rfl
  | succ n =>
    rw [copyWithin_succ]
    rfl

theorem has_copyStep (hn : ∀ parent b f, f.Has x →
      (doc.copyWithin copied n parent b f).2.Has x) (copy : Branch) (node : Node)
    (state : List Node × Forest) (h : state.2.Has x) :
    (doc.copyStep copied n copy state node).2.Has x := by
  cases node with
  | leaf l =>
    cases hk : copyOf? copied l with
    | none => rwa [copyStep_none hk]
    | some k =>
      rw [copyStep_some hk]
      exact has_setParent.2 h
  | branch c => exact hn _ _ _ h

theorem has_foldl_copyStep (hn : ∀ parent b f, f.Has x →
      (doc.copyWithin copied n parent b f).2.Has x) (copy : Branch) (nodes : List Node)
    (state : List Node × Forest) (h : state.2.Has x) :
    (nodes.foldl (doc.copyStep copied n copy) state).2.Has x := by
  induction nodes generalizing state with
  | nil => exact h
  | cons node nodes ih => exact ih _ (has_copyStep hn copy node state h)

theorem has_copyWithin (doc : Document) (copied : List Leaf) (n : Nat) (parent : Option Branch)
    (b : Branch) (f : Forest) (h : f.Has x) :
    (doc.copyWithin copied n parent b f).2.Has x := by
  induction n generalizing parent b f with
  | zero => exact has_addContainer_of_has _ h
  | succ n ih =>
    rw [copyWithin_succ]
    refine has_setChildren.2 (has_foldl_copyStep ih _ _ _ ?_)
    exact has_addContainer_of_has _ h

theorem foldl_copyStep_setChildren {cs : List Node} (hn : ∀ parent b f, f.Has x →
      doc.copyWithin copied n parent b (f.setChildren x cs) =
        ((doc.copyWithin copied n parent b f).1,
          (doc.copyWithin copied n parent b f).2.setChildren x cs))
    (copy : Branch) (nodes : List Node) (ds : List Node) (f : Forest) (h : f.Has x) :
    nodes.foldl (doc.copyStep copied n copy) (ds, f.setChildren x cs) =
      ((nodes.foldl (doc.copyStep copied n copy) (ds, f)).1,
        (nodes.foldl (doc.copyStep copied n copy) (ds, f)).2.setChildren x cs) := by
  induction nodes generalizing ds f with
  | nil => rfl
  | cons node nodes ih =>
    have hstep : doc.copyStep copied n copy (ds, f.setChildren x cs) node =
        ((doc.copyStep copied n copy (ds, f) node).1,
          (doc.copyStep copied n copy (ds, f) node).2.setChildren x cs) := by
      cases node with
      | leaf l =>
        cases hk : copyOf? copied l with
        | none => rw [copyStep_none hk, copyStep_none hk]
        | some k =>
          rw [copyStep_some hk, copyStep_some hk]
          rfl
      | branch c =>
        rw [copyStep, hn _ _ _ h]
        rfl
    rw [foldl_cons, foldl_cons, hstep]
    exact ih _ _ (has_copyStep (has_copyWithin doc copied n) copy node _ h)

theorem copyWithin_setChildren (doc : Document) (copied : List Leaf) (n : Nat) (cs : List Node)
    (parent : Option Branch) (b : Branch) (f : Forest) (h : f.Has x) :
    doc.copyWithin copied n parent b (f.setChildren x cs) =
      ((doc.copyWithin copied n parent b f).1,
        (doc.copyWithin copied n parent b f).2.setChildren x cs) := by
  induction n generalizing parent b f with
  | zero => exact addContainer_setChildren h _ cs
  | succ n ih =>
    have hne : (f.addContainer { kind := doc.kindOf b, parent }).1 ≠ x := by
      rintro rfl
      exact not_has_addContainer f _ h
    rw [copyWithin_succ, copyWithin_succ, addContainer_setChildren h]
    dsimp only
    rw [foldl_copyStep_setChildren ih _ _ _ _
      (has_addContainer_of_has _ h), setChildren_comm hne]

/-- A copy that is a child of its parent already. -/
def copyUnder (doc : Document) (copied : List Leaf) (n : Nat) (parent : Option Branch) (b : Branch)
    (f : Forest) : Forest :=
  let copy := doc.copyWithin copied n parent b f
  match parent with
  | none => copy.2
  | some p => copy.2.setChildren p (f.children p ++ [.branch copy.1])

def copyChild (doc : Document) (copied : List Leaf) (n : Nat) (copy : Branch) (f : Forest) :
    Node → Forest
  | .leaf l =>
    match copyOf? copied l with
    | none => f
    | some l => f.pushChild copy l
  | .branch c => doc.copyUnder copied n (some copy) c f

theorem copyChild_none (h : copyOf? copied l = none) (copy : Branch) (f : Forest) :
    doc.copyChild copied n copy f l = f := by
  rw [copyChild, h]

theorem copyChild_some {l k : Leaf} (h : copyOf? copied l = some k) (copy : Branch) (f : Forest) :
    doc.copyChild copied n copy f l = f.pushChild copy k := by
  rw [copyChild, h]

/-- Children that are stored at the end might as well have been stored one by one. -/
theorem foldl_copyStep (doc : Document) (copied : List Leaf) (n : Nat) (copy : Branch)
    (nodes cs : List Node) (h : f.Has copy) :
    let done := nodes.foldl (doc.copyStep copied n copy) (cs, f)
    done.2.setChildren copy done.1 =
      nodes.foldl (doc.copyChild copied n copy) (f.setChildren copy cs) := by
  induction nodes generalizing cs f with
  | nil => rfl
  | cons node nodes ih =>
    have hchildren : (f.setChildren copy cs).children copy = cs := by
      rw [children_setChildren, if_pos ⟨rfl, h⟩]
    have hstep : (doc.copyStep copied n copy (cs, f) node).2.setChildren copy
        (doc.copyStep copied n copy (cs, f) node).1 =
          doc.copyChild copied n copy (f.setChildren copy cs) node := by
      cases node with
      | leaf l =>
        cases hk : copyOf? copied l with
        | none => rw [copyStep_none hk, copyChild_none hk]
        | some k =>
          rw [copyStep_some hk, copyChild_some hk, Forest.pushChild, hchildren,
            Forest.setChildren_setChildren]
          rfl
      | branch c =>
        rw [copyStep, copyChild, copyUnder, copyWithin_setChildren _ _ _ _ _ _ _ h, hchildren]
        exact (Forest.setChildren_setChildren ..).symm
    have hhas := has_copyStep (has_copyWithin doc copied n) copy node (cs, f) h
    rw [foldl_cons, foldl_cons, ← hstep]
    exact ih _ hhas

theorem copyUnder_zero (parent : Option Branch) (h : ∀ p ∈ parent, f.Has (.branch p)) :
    doc.copyUnder copied 0 parent b f = f.sprout (doc.kindOf b) parent := by
  cases parent with
  | none => rfl
  | some p => exact (sprout_some (h p rfl) _).symm

theorem copyUnder_succ (parent : Option Branch) (h : ∀ p ∈ parent, f.Has (.branch p)) :
    doc.copyUnder copied (n + 1) parent b f =
      (doc.children b).foldl (doc.copyChild copied n ⟨f.containers.size⟩)
        (f.sprout (doc.kindOf b) parent) := by
  have hdone := foldl_copyStep doc copied n ⟨f.containers.size⟩ (doc.children b) []
    (f.has_sprout (doc.kindOf b) parent)
  rw [setChildren_of_eq (children_sprout h _)] at hdone
  unfold copyUnder
  rw [copyWithin_succ]
  dsimp only
  cases parent with
  | none => exact hdone
  | some p =>
    have hp : p.index < f.containers.size := h p rfl
    have hne : (⟨f.containers.size⟩ : Branch) ≠ p := fun he => by
      rw [← he] at hp
      exact Nat.lt_irrefl _ hp
    have hframe := foldl_copyStep_setChildren (copyWithin_setChildren doc copied n
      (f.children p ++ [.branch (f.addContainer { kind := doc.kindOf b }).1]))
      ⟨f.containers.size⟩ (doc.children b) [] _ (has_addContainer_of_has
        { kind := doc.kindOf b, parent := some p } (h p rfl))
    rw [← sprout_some (h p rfl) (doc.kindOf b)] at hframe
    rw [hframe] at hdone
    dsimp only at hdone ⊢
    rw [← hdone]
    exact setChildren_comm hne ..

end Document

/-! ### What a copy adds -/

namespace Forest

/-- A forest with more containers. One of those that were there may have new children, and the
given tokens may have new owners. -/
structure Adds (parent : Option Branch) (taken : List Leaf) (f g : Forest) : Prop where
  has : ∀ node, f.Has node → g.Has node
  kindOf : ∀ b, f.Has (.branch b) → g.kindOf b = f.kindOf b
  children : ∀ b, f.Has (.branch b) → parent ≠ some b → g.children b = f.children b
  owner : ∀ node, f.Has node → (∀ k ∈ taken, node ≠ .leaf k) → g.parent node = f.parent node

structure Sound (f : Forest) : Prop where
  linked : f.Linked
  comments_free : ∀ b, f.kindOf b = .comment → f.parent b = none

variable {f g k : Forest} {b p : Branch} {parent other : Option Branch} {taken more : List Leaf}

theorem Retexted.adds (h : f.Retexted g) : Adds none [] f g :=
  ⟨h.has, fun b _ => h.kindOf b, fun b _ _ => h.children b, fun node _ _ => h.parent node⟩

namespace Adds

theorem refl (parent : Option Branch) (f : Forest) : Adds parent [] f f :=
  ⟨fun _ h => h, fun _ _ => rfl, fun _ _ _ => rfl, fun _ _ _ => rfl⟩

theorem trans (h : Adds parent taken f g) (h' : Adds other more g k)
    (hnew : ∀ p ∈ other, other = parent ∨ ¬ f.Has (.branch p)) :
    Adds parent (taken ++ more) f k where
  has node hn := h'.has node (h.has node hn)
  kindOf b hb := (h'.kindOf b (h.has _ hb)).trans (h.kindOf b hb)
  children b hb hne := by
    refine (h'.children b (h.has _ hb) ?_).trans (h.children b hb hne)
    rintro rfl
    rcases hnew b rfl with he | he
    · exact hne he.symm
    · exact he hb
  owner node hn ht := by
    refine (h'.owner node (h.has node hn) fun l hl => ht l (by simp [hl])).trans ?_
    exact h.owner node hn fun l hl => ht l (by simp [hl])

theorem weaken (h : Adds parent taken f g) (hs : taken ⊆ more) : Adds parent more f g :=
  ⟨h.has, h.kindOf, h.children, fun node hn ht => h.owner node hn fun k hk => ht k (hs hk)⟩

theorem pushLeaf (hp : f.Has p) (l : Leaf) : Adds (some p) [l] f (f.pushChild p l) where
  has _ hn := has_pushChild.2 hn
  kindOf _ _ := kindOf_pushChild ..
  children b _ hne := by
    rw [children_pushChild hp, if_neg]
    rintro rfl
    exact hne rfl
  owner node _ ht := by
    rw [pushChild, parent_setParent, if_neg fun he => ht l (by simp) he.1, parent_setChildren]

theorem sprout (hp : ∀ p ∈ parent, f.Has (.branch p)) (kind : Kind) :
    Adds parent [] f (f.sprout kind parent) := by
  have hadd : Adds parent [] f (f.addContainer { kind }).2 := by
    refine ⟨has_addContainer f kind, fun b hb => ?_, fun b _ _ => ?_, fun node _ _ => ?_⟩
    · exact congrArg Container.kind (container_addContainer_of_has hb _)
    · exact children_addContainer f kind b
    · exact parent_addContainer f kind node
  cases parent with
  | none => exact hadd
  | some p =>
    have hhas := has_addContainer f kind _ (hp p rfl)
    refine ⟨fun node hn => has_pushChild.2 (hadd.has node hn), fun b hb => ?_, fun b hb hne => ?_,
      fun node hn ht => ?_⟩
    · exact (kindOf_pushChild ..).trans (hadd.kindOf b hb)
    · refine (children_pushChild hhas _ b).trans ((if_neg ?_).trans (hadd.children b hb hne))
      rintro rfl
      exact hne rfl
    · refine (parent_pushChild (has_new_container f kind) p node).trans
        ((if_neg ?_).trans (hadd.owner node hn ht))
      rintro rfl
      exact not_has_addContainer f _ hn

end Adds

theorem kindOf_sprout (f : Forest) (kind : Kind) (parent : Option Branch) :
    (f.sprout kind parent).kindOf ⟨f.containers.size⟩ = kind := by
  have hkind : (f.addContainer { kind }).2.kindOf ⟨f.containers.size⟩ = kind := by
    rw [kindOf, container_addContainer]
    exact congrArg Container.kind (if_pos rfl)
  cases parent with
  | none => exact hkind
  | some p => exact (kindOf_pushChild ..).trans hkind

theorem Sound.addContainer (h : f.Sound) (kind : Kind) : (f.addContainer { kind }).2.Sound where
  linked := h.linked.addContainer kind
  comments_free b hb := by
    rw [parent_addContainer]
    by_cases hhas : f.Has b
    · rw [kindOf, container_addContainer_of_has hhas] at hb
      exact h.comments_free b hb
    · exact parent_of_not_has hhas

theorem Sound.sprout (h : f.Sound) {kind : Kind}
    (hp : ∀ p ∈ parent, f.Has (.branch p) ∧ kind ≠ .comment) : (f.sprout kind parent).Sound := by
  have hadd := h.addContainer kind
  cases parent with
  | none => exact hadd
  | some p =>
    obtain ⟨hhas, hkind⟩ := hp p rfl
    have hnew := has_new_container f kind
    have hfree : (f.addContainer { kind }).2.parent (.branch (f.addContainer { kind }).1) = none := by
      rw [parent_addContainer]
      exact parent_of_not_has (not_has_addContainer f _)
    refine ⟨hadd.linked.pushChild (has_addContainer f kind _ hhas) hnew hfree ?_, fun b hb => ?_⟩
    · -- whatever is around the parent has been there before
      rintro c ⟨⟩ ha
      have ha' : f.Around (f.addContainer { kind }).1 p :=
        ha.of_parent_eq fun c _ => parent_addContainer f kind c
      exact not_has_addContainer f _ (ha'.has_outside h.linked hhas)
    · refine (parent_pushChild hnew p b).trans ?_
      have hb : (f.addContainer { kind }).2.kindOf b = .comment := (kindOf_pushChild ..).symm.trans hb
      rw [if_neg]
      · exact hadd.comments_free b hb
      · rintro ⟨⟩
        exact hkind ((kindOf_sprout f kind none).symm.trans hb)

theorem Sound.pushLeaf (h : f.Sound) (hp : f.Has p) {l : Leaf} (hl : f.Has l)
    (hfree : f.parent l = none) : (f.pushChild p l).Sound where
  linked := h.linked.pushChild hp hl hfree fun c hc => by cases hc
  comments_free b hb := by
    rw [kindOf_pushChild] at hb
    rw [parent_pushChild hl, if_neg (by simp)]
    exact h.comments_free b hb

end Forest

namespace Document

variable {doc : Document} {copied : List Leaf} {f g : Forest} {b c copy : Branch} {n : Nat}
  {k l : Leaf}

def copiesOf (doc : Document) (copied : List Leaf) (node : Node) : List Leaf :=
  (doc.leaves node).filterMap (copyOf? copied)

theorem copyOf?_inj {l m k : Leaf} (hl : copyOf? copied l = some k)
    (hm : copyOf? copied m = some k) : l = m := by
  obtain ⟨i, hi, rfl⟩ := map_eq_some_iff.1 hl
  obtain ⟨j, hj, he⟩ := map_eq_some_iff.1 hm
  cases he
  exact some.inj ((getElem?_of_idxOf? hi).symm.trans (getElem?_of_idxOf? hj))

theorem nodup_copiesOf (h : doc.Linked) (copied : List Leaf) (node : Node) :
    (doc.copiesOf copied node).Nodup :=
  (h.nodup_leaves node).filterMap fun _ _ _ hl hm => copyOf?_inj hl hm

theorem copiesOf_none (h : copyOf? copied l = none) : doc.copiesOf copied l = [] := by
  simp [copiesOf, h]

theorem copiesOf_some (h : copyOf? copied l = some k) :
    doc.copiesOf copied l = [k] := by
  simp [copiesOf, h]

theorem copiesOf_branch (h : doc.Linked) (copied : List Leaf) (b : Branch) :
    doc.copiesOf copied b = (doc.children b).flatMap (doc.copiesOf copied) := by
  rw [copiesOf, h.leaves_branch, filterMap_flatMap]
  rfl

theorem has_of_mem_copiesOf {node : Node} (hsize : f.tokens.size = copied.length)
    (h : k ∈ doc.copiesOf copied node) : f.Has k := by
  obtain ⟨l, -, hk⟩ := mem_filterMap.1 h
  obtain ⟨i, hi, rfl⟩ := map_eq_some_iff.1 hk
  exact (idxOf?_lt_length hi).trans_eq hsize.symm

section

variable (hn : ∀ c f, f.Has copy →
  Adds (some copy) (doc.copiesOf copied (.branch c)) f (doc.copyUnder copied n (some copy) c f))
include hn

theorem adds_copyChild (node : Node) (h : f.Has copy) :
    Adds (some copy) (doc.copiesOf copied node) f (doc.copyChild copied n copy f node) := by
  cases node with
  | leaf l =>
    cases hl : copyOf? copied l with
    | none =>
      rw [copyChild_none hl, copiesOf_none hl]
      exact .refl ..
    | some k =>
      rw [copyChild_some hl, copiesOf_some hl]
      exact .pushLeaf h k
  | branch c => exact hn c f h

theorem adds_copyChildren (nodes : List Node) (h : f.Has copy) :
    Adds (some copy) (nodes.flatMap (doc.copiesOf copied)) f
      (nodes.foldl (doc.copyChild copied n copy) f) := by
  induction nodes generalizing f with
  | nil => exact .refl ..
  | cons node nodes ih =>
    have hnode := adds_copyChild hn node h
    exact hnode.trans (ih (hnode.has _ h)) fun _ _ => .inl rfl

end

theorem adds_copyUnder (hd : doc.Linked) (copied : List Leaf) (n : Nat) (parent : Option Branch)
    (b : Branch) (f : Forest) (hp : ∀ p ∈ parent, f.Has (.branch p)) :
    Adds parent (doc.copiesOf copied b) f (doc.copyUnder copied n parent b f) := by
  induction n generalizing parent b f with
  | zero =>
    rw [copyUnder_zero parent hp]
    exact (Adds.sprout hp (doc.kindOf b)).weaken (nil_subset _)
  | succ n ih =>
    rw [copyUnder_succ parent hp, copiesOf_branch hd]
    refine (Adds.sprout hp (doc.kindOf b)).trans (adds_copyChildren ?_ _ (f.has_sprout ..)) ?_
    · intro c f hf
      exact ih _ c f fun p hp => by
        cases hp
        exact hf
    · rintro p ⟨⟩
      exact .inr (Nat.lt_irrefl _)

theorem adds_copyUnder_some (hd : doc.Linked) (copied : List Leaf) (n : Nat) (c : Branch)
    (f : Forest) (hf : f.Has copy) :
    Adds (some copy) (doc.copiesOf copied c) f
      (doc.copyUnder copied n (some copy) c f) := by
  refine adds_copyUnder hd copied n _ c f ?_
  rintro p ⟨⟩
  exact hf

theorem adds_sprout_copyUnder (hd : doc.Linked) (copied : List Leaf) (n : Nat)
    (parent : Option Branch) (b : Branch) (f : Forest) (hp : ∀ p ∈ parent, f.Has (.branch p)) :
    Adds (some ⟨f.containers.size⟩) (doc.copiesOf copied b)
      (f.sprout (doc.kindOf b) parent) (doc.copyUnder copied n parent b f) := by
  cases n with
  | zero =>
    rw [copyUnder_zero parent hp]
    exact (Adds.refl ..).weaken (nil_subset _)
  | succ n =>
    rw [copyUnder_succ parent hp, copiesOf_branch hd]
    exact adds_copyChildren (adds_copyUnder_some hd copied n) _ (f.has_sprout ..)

/-! Tokens that are copied get owners among the new containers, if the copy is deep enough. -/

section

variable {start : Forest} {k : Leaf}

theorem owned_copyChildren (hd : doc.Linked) (nodes : List Node)
    (hn : ∀ c f, f.Has copy → .branch c ∈ nodes → ∀ k ∈ doc.copiesOf copied (.branch c),
      f.Has (.leaf k) → ∃ y, ¬ f.Has (.branch y) ∧
        (doc.copyUnder copied n (some copy) c f).parent (.leaf k) = some y)
    (hstart : ∀ node, start.Has node → f.Has node) (hnew : ¬ start.Has copy)
    (h : f.Has copy) (hk : k ∈ nodes.flatMap (doc.copiesOf copied))
    (hhas : f.Has (.leaf k)) : ∃ y, ¬ start.Has (.branch y) ∧
      (nodes.foldl (doc.copyChild copied n copy) f).parent (.leaf k) = some y := by
  induction nodes generalizing f with
  | nil => cases hk
  | cons node nodes ih =>
    have hnode := adds_copyChild (adds_copyUnder_some hd copied n) node h
    by_cases hrest : k ∈ nodes.flatMap (doc.copiesOf copied)
    · exact ih (fun c f hf hc => hn c f hf (mem_cons_of_mem _ hc))
        (fun m hm => hnode.has m (hstart m hm)) (hnode.has _ h) hrest (hnode.has _ hhas)
    · -- the children that follow leave the token alone
      have hlater : (nodes.foldl (doc.copyChild copied n copy)
          (doc.copyChild copied n copy f node)).parent k =
            (doc.copyChild copied n copy f node).parent k := by
        refine (adds_copyChildren (adds_copyUnder_some hd copied n) nodes (hnode.has _ h)).owner _
          (hnode.has _ hhas) ?_
        rintro m hm ⟨⟩
        exact hrest hm
      rw [foldl_cons, hlater]
      have hk := (mem_append.1 (flatMap_cons ▸ hk)).resolve_right hrest
      cases node with
      | leaf l =>
        cases hl : copyOf? copied l with
        | none =>
          rw [copiesOf_none hl] at hk
          cases hk
        | some m =>
          rw [copiesOf_some hl, mem_singleton] at hk
          subst hk
          rw [copyChild_some hl, parent_pushChild hhas, if_pos rfl]
          exact ⟨copy, hnew, rfl⟩
      | branch c =>
        obtain ⟨y, hy, howner⟩ := hn c f h (by simp) k hk hhas
        exact ⟨y, fun hs => hy (hstart _ hs), howner⟩

theorem owned_copyUnder (hd : doc.Linked) {height : Branch → Nat}
    (hh : ∀ {b c : Branch}, doc.parent c = some b → height c < height b)
    (copied : List Leaf) (n : Nat) (parent : Option Branch) (b : Branch) (f : Forest)
    (hdeep : height b < n) (hp : ∀ p ∈ parent, f.Has (.branch p))
    (hk : k ∈ doc.copiesOf copied b) (hhas : f.Has k) :
    ∃ y, ¬ f.Has (.branch y) ∧
      (doc.copyUnder copied n parent b f).parent k = some y := by
  induction n generalizing parent b f k with
  | zero => cases hdeep
  | succ n ih =>
    have hsprout := Adds.sprout hp (doc.kindOf b)
    rw [copyUnder_succ parent hp]
    rw [copiesOf_branch hd] at hk
    refine owned_copyChildren hd _ ?_ hsprout.has (Nat.lt_irrefl _) (f.has_sprout ..) hk
      (hsprout.has _ hhas)
    intro c g hg hc k hk hhas
    have hlt := hh (hd.down hc)
    refine ih _ c g (by omega) ?_ hk hhas
    rintro p ⟨⟩
    exact hg

end

/-! ### Sound copies -/

theorem sound_copyChildren (hd : doc.Linked) (nodes : List Node)
    (hn : ∀ c f, Sound f → f.Has copy → .branch c ∈ nodes →
      (∀ k ∈ doc.copiesOf copied (.branch c), f.Has (.leaf k) ∧ f.parent (.leaf k) = none) →
      (doc.copyUnder copied n (some copy) c f).Sound)
    (hf : f.Sound) (h : f.Has copy) (hnodup : (nodes.flatMap (doc.copiesOf copied)).Nodup)
    (hfree : ∀ k ∈ nodes.flatMap (doc.copiesOf copied),
      f.Has (.leaf k) ∧ f.parent (.leaf k) = none) :
    (nodes.foldl (doc.copyChild copied n copy) f).Sound := by
  induction nodes generalizing f with
  | nil => exact hf
  | cons node nodes ih =>
    have hnode := adds_copyChild (adds_copyUnder_some hd copied n) node h
    rw [flatMap_cons] at hnodup hfree
    obtain ⟨-, hrest, hdisjoint⟩ := List.nodup_append.1 hnodup
    have hsound : (doc.copyChild copied n copy f node).Sound := by
      cases node with
      | leaf l =>
        cases hl : copyOf? copied l with
        | none => rwa [copyChild_none hl]
        | some k =>
          rw [copiesOf_some hl] at hfree
          obtain ⟨hhas, howner⟩ := hfree k (by simp)
          rw [copyChild_some hl]
          exact hf.pushLeaf h hhas howner
      | branch c => exact hn c f hf h (by simp) fun k hk => hfree k (mem_append_left _ hk)
    refine ih (fun c f hf h hc => hn c f hf h (mem_cons_of_mem _ hc)) hsound (hnode.has _ h)
      hrest fun k hk => ?_
    obtain ⟨hhas, howner⟩ := hfree k (mem_append_right _ hk)
    refine ⟨hnode.has _ hhas, (hnode.owner _ hhas ?_).trans howner⟩
    rintro m hm ⟨⟩
    exact hdisjoint k hm k hk rfl

theorem sound_copyUnder (hd : doc.Sound) (copied : List Leaf) (n : Nat) (parent : Option Branch)
    (b : Branch) (f : Forest) (hf : f.Sound)
    (hp : ∀ p ∈ parent, f.Has (.branch p) ∧ doc.kindOf b ≠ .comment)
    (hfree : ∀ k ∈ doc.copiesOf copied b, f.Has (.leaf k) ∧ f.parent (.leaf k) = none) :
    (doc.copyUnder copied n parent b f).Sound := by
  induction n generalizing parent b f with
  | zero =>
    rw [copyUnder_zero parent fun p h => (hp p h).1]
    exact hf.sprout hp
  | succ n ih =>
    have hsprout := Adds.sprout (fun p h => (hp p h).1) (doc.kindOf b)
    have hnodup := nodup_copiesOf hd.linked copied b
    rw [copiesOf_branch hd.linked] at hnodup hfree
    rw [copyUnder_succ parent fun p h => (hp p h).1]
    refine sound_copyChildren hd.linked _ ?_ (hf.sprout hp) (f.has_sprout ..) hnodup fun k hk => ?_
    · intro c g hg hcopy hc hfree
      refine ih _ c g hg ?_ hfree
      rintro p ⟨⟩
      refine ⟨hcopy, fun hcomment => ?_⟩
      have hparent := hd.linked.down hc
      rw [hd.comments_free c hcomment] at hparent
      cases hparent
    · obtain ⟨hhas, howner⟩ := hfree k hk
      exact ⟨hsprout.has _ hhas, (hsprout.owner _ hhas fun _ h => by cases h).trans howner⟩

/-! ### Containers with all that is under them -/

theorem adds_copyBranch (hd : doc.Linked) (copied : List Leaf) (b : Branch) (f : Forest) :
    Adds none (doc.copiesOf copied b) f (doc.copyBranch copied b f).2 :=
  adds_copyUnder hd copied _ none b f fun _ h => by cases h

theorem fst_copyBranch (doc : Document) (copied : List Leaf) (b : Branch) (f : Forest) :
    (doc.copyBranch copied b f).1 = ⟨f.containers.size⟩ :=
  fst_copyWithin ..

theorem copyBranch_free (hd : doc.Linked) (copied : List Leaf) (b : Branch) (f : Forest) :
    let copy := doc.copyBranch copied b f
    copy.2.Has copy.1 ∧ copy.2.kindOf copy.1 = doc.kindOf b ∧
      copy.2.parent copy.1 = none := by
  have hadds := adds_sprout_copyUnder hd copied doc.containers.size none b f fun _ h => by cases h
  have hhas := f.has_sprout (doc.kindOf b) none
  dsimp only
  rw [fst_copyBranch]
  refine ⟨hadds.has _ hhas, (hadds.kindOf _ hhas).trans (f.kindOf_sprout ..), ?_⟩
  refine (hadds.owner _ hhas fun _ _ h => by cases h).trans ((f.parent_addContainer ..).trans ?_)
  exact parent_of_not_has (Nat.lt_irrefl _)

/-- The copy owns the copies of all tokens that have one. -/
theorem owned_copyBranch (hd : doc.Linked) (hb : doc.Has b)
    (hk : k ∈ doc.copiesOf copied b) (hhas : f.Has k) :
    ∃ y, ¬ f.Has (.branch y) ∧ (doc.copyBranch copied b f).2.parent k = some y := by
  obtain ⟨height, hh, hsize⟩ := hd.exists_height
  exact owned_copyUnder hd hh copied _ none b f (hsize b hb) (fun _ h => by cases h) hk hhas

theorem sound_copyBranch (hd : doc.Sound) (hf : f.Sound)
    (hfree : ∀ k ∈ doc.copiesOf copied b, f.Has (.leaf k) ∧ f.parent (.leaf k) = none) :
    (doc.copyBranch copied b f).2.Sound :=
  sound_copyUnder hd copied _ none b f hf (fun _ h => by cases h) hfree

end Document

end Lossless
