import Lossless.Proofs.Linking

/-! Forests that grow from left to right. New nodes are only ever added behind all others, to a
container that is still open, so the tokens under every container keep the order in which they
were made. -/

namespace Lossless.Forest

open List

structure Grown (f : Forest) : Prop where
  linked : f.Linked
  later : ∀ {b c : Branch}, f.parent c = some b → b.index < c.index
  rising : ∀ b, (f.leaves (.branch b)).Pairwise fun l m => l.index < m.index

/-- Open containers, the innermost first: each is the last child of the next one, and the
outermost is free. -/
def OpenPath (f : Forest) : List Branch → Prop
  | [] => True
  | [b] => f.Has b ∧ f.parent b = none
  | b :: p :: rest => (f.children p).getLast? = some b ∧ f.OpenPath (p :: rest)

variable {f g : Forest} {b c a : Branch} {path : List Branch} {node : Node}

theorem OpenPath.tail (h : f.OpenPath (b :: path)) : f.OpenPath path := by
  cases path with
  | nil => trivial
  | cons p rest => exact h.2

theorem OpenPath.has (hf : f.Linked) (h : f.OpenPath path) (hb : b ∈ path) : f.Has b := by
  induction path with
  | nil => cases hb
  | cons a rest ih =>
    rcases mem_cons.1 hb with rfl | hb
    · cases rest with
      | nil => exact h.1
      | cons p rest => exact hf.has_child (mem_of_getLast? h.1)
    · exact ih h.tail hb

theorem OpenPath.of_parent (hf : f.Linked) (h : f.OpenPath path) (hc : c ∈ path)
    (hp : f.parent c = some b) :
    b ∈ path.tail ∧ (f.children b).getLast? = some c := by
  induction path with
  | nil => cases hc
  | cons a rest ih =>
    rcases mem_cons.1 hc with rfl | hc
    · cases rest with
      | nil => rw [h.2] at hp; cases hp
      | cons p rest =>
        have := hf.down (mem_of_getLast? h.1)
        rw [hp] at this
        cases this
        exact ⟨by simp, h.1⟩
    · obtain ⟨h₁, h₂⟩ := ih h.tail hc
      exact ⟨mem_of_mem_tail h₁, h₂⟩

theorem OpenPath.exists_last (h : f.OpenPath path) (hb : b ∈ path.tail) :
    ∃ c ∈ path, (f.children b).getLast? = some (.branch c) := by
  induction path with
  | nil => cases hb
  | cons a rest ih =>
    cases rest with
    | nil => cases hb
    | cons p rest =>
      rcases mem_cons.1 hb with rfl | hb
      · exact ⟨a, by simp, h.1⟩
      · obtain ⟨c, hc, hl⟩ := ih h.2 hb
        exact ⟨c, by simp [hc], hl⟩

/-- The innermost open container is the newest. -/
theorem OpenPath.index_lt (hf : f.Grown) (h : f.OpenPath (a :: path)) (hc : c ∈ path) :
    c.index < a.index := by
  induction path generalizing a with
  | nil => cases hc
  | cons p rest ih =>
    have hpa : p.index < a.index := hf.later (hf.linked.down (mem_of_getLast? h.1))
    rcases mem_cons.1 hc with rfl | hc
    · exact hpa
    · exact (ih h.2 hc).trans hpa

theorem OpenPath.of_eq (h : f.OpenPath path) (hhas : ∀ b, f.Has (.branch b) → g.Has (.branch b))
    (hp : ∀ b ∈ path, g.parent (.branch b) = f.parent (.branch b))
    (hc : ∀ b ∈ path.tail, g.children b = f.children b) : g.OpenPath path := by
  induction path with
  | nil => trivial
  | cons a rest ih =>
    cases rest with
    | nil => exact ⟨hhas a h.1, by rw [hp a (by simp)]; exact h.2⟩
    | cons p rest =>
      refine ⟨by rw [hc p (by simp)]; exact h.1, ih h.2 ?_ ?_⟩
      · exact fun b hb => hp b (by simp [hb])
      · exact fun b hb => hc b (by simp at hb ⊢; exact .inr hb)

theorem Grown.of_eq (hf : f.Grown) (hc : ∀ b, g.children b = f.children b)
    (hp : ∀ node, g.parent node = f.parent node) : g.Grown := by
  have hg := hf.linked.of_eq hc hp
  refine ⟨hg, fun h => hf.later (hp _ ▸ h), fun b => ?_⟩
  rw [hf.linked.leaves_congr hg b fun c _ => hc c]
  exact hf.rising b

/-! ### Steps -/

theorem Grown.addContainer (hf : f.Grown) (kind : Kind) : (f.addContainer { kind }).2.Grown :=
  hf.of_eq (children_addContainer f kind) (parent_addContainer f kind)

theorem OpenPath.addContainer (h : f.OpenPath path) (kind : Kind) :
    (f.addContainer { kind }).2.OpenPath path :=
  h.of_eq (fun _ => has_addContainer f kind _) (fun _ _ => parent_addContainer f kind _)
    fun b _ => children_addContainer f kind b

theorem OpenPath.newContainer (f : Forest) (kind : Kind) :
    (f.addContainer { kind }).2.OpenPath [(f.addContainer { kind }).1] := by
  refine ⟨has_new_container f kind, ?_⟩
  rw [parent_addContainer]
  exact parent_of_not_has (not_has_addContainer f _)

/-- A new node behind all others lengthens exactly the containers that are open. -/
theorem Grown.leaves_pushChild (hf : f.Grown)
    (hpath : f.OpenPath (owner :: rest)) (hg : (f.pushChild owner node).Linked) (b : Branch) :
    (f.pushChild owner node).leaves (.branch b) = f.leaves (.branch b) ++
      if b ∈ owner :: rest then (f.pushChild owner node).leaves node else [] := by
  have howner : f.Has owner := hpath.has hf.linked (by simp)
  have key : ∀ m, ∀ b, m = .branch b → (f.pushChild owner node).leaves m = f.leaves m ++
      if b ∈ owner :: rest then (f.pushChild owner node).leaves node else [] := by
    refine hf.linked.induction (fun l b h => by cases h) ?_
    rintro b ih _ ⟨⟩
    -- a child that is not open has not changed
    have hsame : ∀ m ∈ f.children b, (∀ c, m = .branch c → c ∉ owner :: rest) →
        (f.pushChild owner node).leaves m = f.leaves m := by
      intro m hm hclosed
      cases m with
      | leaf l => simp
      | branch c => rw [ih _ hm c rfl, if_neg (hclosed c rfl), append_nil]
    rw [hg.leaves_branch, hf.linked.leaves_branch, children_pushChild howner]
    by_cases hb : b = owner
    · subst hb
      rw [if_pos rfl, if_pos (by simp), flatMap_append, flatMap_singleton]
      congr 1
      refine flatMap_congr fun m hm => hsame m hm ?_
      rintro c rfl hc
      have hlater := hf.later (hf.linked.down hm)
      rcases mem_cons.1 hc with rfl | hc
      · omega
      · have := hpath.index_lt hf hc; omega
    · rw [if_neg hb]
      by_cases hbr : b ∈ rest
      · obtain ⟨c, hc, hlast⟩ := hpath.exists_last (b := b) hbr
        obtain ⟨init, hinit⟩ := getLast?_eq_some_iff.1 hlast
        have hmem : ∀ m ∈ init, m ∈ f.children b := fun m hm => by simp [hinit, hm]
        have hclosed : ∀ m ∈ init, ∀ d, m = .branch d → d ∉ owner :: rest := by
          rintro m hm d rfl hd
          have := (hpath.of_parent hf.linked hd (hf.linked.down (hmem _ hm))).2
          rw [hlast] at this
          have hnd := hf.linked.once b
          rw [hinit] at hnd
          exact (List.nodup_append.1 hnd).2.2 _ hm _ (by simp) (Option.some.inj this.symm)
        have hcb : Node.branch c ∈ f.children b := mem_of_getLast? hlast
        rw [if_pos (by simp [hbr]), hinit, flatMap_append, flatMap_append,
          flatMap_singleton, flatMap_singleton, ih _ hcb c rfl, if_pos hc,
          append_assoc]
        congr 1
        exact flatMap_congr fun m hm => hsame m (hmem m hm) (hclosed m hm)
      · rw [if_neg (by simp [hb, hbr]), append_nil]
        refine flatMap_congr fun m hm => hsame m hm ?_
        rintro c rfl hc
        exact hbr (hpath.of_parent hf.linked hc (hf.linked.down hm)).1
  exact key _ b rfl

theorem Grown.pushChild (hf : f.Grown)
    (hpath : f.OpenPath (owner :: rest)) (hn : f.Has node) (hfree : f.parent node = none)
    (hlater : ∀ c, node = .branch c → owner.index < c.index ∧ f.children c = [])
    (hnew : ∀ l, node = .leaf l → ∀ b, ∀ m ∈ f.leaves (.branch b), m.index < l.index) :
    (f.pushChild owner node).Grown := by
  have howner : f.Has owner := hpath.has hf.linked (by simp)
  have hg : (f.pushChild owner node).Linked := by
    refine hf.linked.pushChild howner hn hfree fun c hc ha => ?_
    obtain ⟨hlt, -⟩ := hlater c hc
    have hle : c.index ≤ owner.index := by
      let height (b : Branch) : Nat := f.containers.size - b.index
      have hh : ∀ {p d : Branch}, f.parent d = some p → height d < height p := by
        intro p d hp
        have := hf.later hp
        have hd : d.index < f.containers.size := has_of_parent hp
        show _ - _ < _ - _
        omega
      have : f.containers.size - owner.index ≤ f.containers.size - c.index := ha.height_le hh
      have ho : owner.index < f.containers.size := howner
      omega
    omega
  have hparent := parent_pushChild hn owner
  refine ⟨hg, fun {b c} hp => ?_, fun b => ?_⟩
  · rw [hparent] at hp
    split at hp
    · next hc =>
      cases hp
      exact (hlater c hc.symm).1
    · exact hf.later hp
  · rw [hf.leaves_pushChild hpath hg b]
    split
    · cases node with
      | leaf l =>
        rw [leaves_leaf]
        refine pairwise_append.2 ⟨hf.rising b, pairwise_singleton .., ?_⟩
        intro m hm l' hl'
        rw [mem_singleton.1 hl']
        exact hnew l rfl b m hm
      | branch c =>
        obtain ⟨hlt, hnil⟩ := hlater c rfl
        have : (f.pushChild owner (.branch c)).children c = [] := by
          rw [children_pushChild howner, if_neg (by rintro rfl; omega), hnil]
        rw [leaves_of_children_nil this, append_nil]
        exact hf.rising b
    · rw [append_nil]
      exact hf.rising b

theorem OpenPath.pushChild (hf : f.Grown)
    (howner : f.OpenPath (owner :: rest)) (hn : f.Has node) (h : f.OpenPath path)
    (hnode : ∀ b ∈ path, node ≠ .branch b) (hnot : owner ∉ path.tail) :
    (f.pushChild owner node).OpenPath path := by
  refine h.of_eq (fun b hb => has_pushChild.2 hb) (fun b hb => ?_) fun b hb => ?_
  · rw [parent_pushChild hn, if_neg (fun he => hnode b hb he.symm)]
  · rw [children_pushChild (howner.has hf.linked (by simp)), if_neg]
    rintro rfl
    exact hnot hb

/-! ### New nodes -/

section

variable (f) (owner : Branch)

def growLeaf (text : String) : Forest :=
  (f.addToken { text }).2.pushChild owner (.leaf (f.addToken { text }).1)

def growBranch (kind : Kind) : Forest :=
  (f.addContainer { kind }).2.pushChild owner (.branch (f.addContainer { kind }).1)

end

variable {owner : Branch} {rest : List Branch}

theorem has_growLeaf (text : String) (h : f.Has b) :
    (f.growLeaf owner text).Has b :=
  has_pushChild.2 h

theorem has_growBranch (kind : Kind) (h : f.Has b) :
    (f.growBranch owner kind).Has b :=
  has_pushChild.2 (has_addContainer f kind _ h)

theorem parent_growLeaf (f : Forest) (owner : Branch) (text : String) (b : Branch) :
    (f.growLeaf owner text).parent b = f.parent b := by
  have hn : (f.addToken { text }).2.Has (.leaf (f.addToken { text }).1) := by simp [Has, addToken]
  rw [Forest.growLeaf, parent_pushChild hn, if_neg (by simp), parent_addToken f rfl]

theorem parent_growBranch (owner : Branch) (kind : Kind) (h : f.Has b) :
    (f.growBranch owner kind).parent b = f.parent b := by
  have hne : Node.branch b ≠ .branch (f.addContainer { kind }).1 := by
    intro he
    rw [he] at h
    exact not_has_addContainer f _ h
  rw [Forest.growBranch, parent_pushChild (has_new_container f kind), if_neg hne,
    parent_addContainer]

theorem Grown.growLeaf (hf : f.Grown) (howner : f.OpenPath (owner :: rest)) (text : String) :
    (f.growLeaf owner text).Grown ∧
      ∀ path, f.OpenPath path → owner ∉ path.tail → (f.growLeaf owner text).OpenPath path := by
  have hpar := parent_addToken f (t := { text }) rfl
  have hg : (f.addToken { text }).2.Grown := hf.of_eq (fun _ => rfl) hpar
  have hleaf : (f.addToken { text }).2.Has (.leaf (f.addToken { text }).1) := by
    simp [Has, addToken]
  have hfree : (f.addToken { text }).2.parent (.leaf (f.addToken { text }).1) = none := by
    rw [hpar]
    exact parent_of_not_has (not_has_addToken f _)
  have hpath : ∀ path, f.OpenPath path → (f.addToken { text }).2.OpenPath path :=
    fun path h => h.of_eq (fun _ h => h) (fun _ _ => hpar _) fun _ _ => rfl
  refine ⟨hg.pushChild (hpath _ howner) hleaf hfree (fun c hc => by cases hc) ?_,
    fun path h hnot => OpenPath.pushChild hg (hpath _ howner) hleaf (hpath _ h)
      (fun _ _ he => by cases he) hnot⟩
  -- tokens under a container were there before the new one
  rintro _ ⟨⟩ c m hm
  cases hg.linked.mem_leaves.1 hm with
  | step hmp _ =>
    rw [hpar] at hmp
    exact has_of_parent hmp

theorem Grown.growBranch (hf : f.Grown) (howner : f.OpenPath (owner :: rest)) (kind : Kind) :
    (f.growBranch owner kind).Grown ∧
      (f.growBranch owner kind).OpenPath ((f.addContainer { kind }).1 :: owner :: rest) ∧
      ∀ path, f.OpenPath path → owner ∉ path.tail → (f.growBranch owner kind).OpenPath path := by
  have hg := hf.addContainer kind
  have hnode := has_new_container f kind
  have hhas : f.Has owner := howner.has hf.linked (by simp)
  have hpath : ∀ path, f.OpenPath path → owner ∉ path.tail →
      (f.growBranch owner kind).OpenPath path := by
    intro path h hnot
    refine OpenPath.pushChild hg (howner.addContainer kind) hnode (h.addContainer kind) ?_ hnot
    intro b hb he
    have hb := h.has hf.linked hb
    rw [← he] at hb
    exact not_has_addContainer f _ hb
  refine ⟨hg.pushChild (howner.addContainer kind) hnode ?_ ?_ (fun l hl => by cases hl),
    ⟨?_, hpath _ howner ?_⟩, hpath⟩
  · rw [parent_addContainer]
    exact parent_of_not_has (not_has_addContainer f _)
  · rintro _ ⟨⟩
    refine ⟨hhas, ?_⟩
    rw [children_addContainer, children, container_of_not_has (not_has_addContainer f _)]
  · rw [Forest.growBranch, children_pushChild (has_addContainer f kind _ hhas), if_pos rfl]
    simp
  · intro hm
    have := howner.index_lt hf hm
    omega

end Lossless.Forest
