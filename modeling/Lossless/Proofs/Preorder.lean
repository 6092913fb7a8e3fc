import Lossless.Proofs.Enclosing

/-! Walks over what is under a container. The walk with a list of pending containers gives the same
containers in the same order as the recursion, and the way up from each of them passes the container
that the walk started at. -/

namespace Lossless

open List

namespace Forest

variable {f : Forest} {a b c : Branch}

/-- The containers under a container to depth `n`, each before those under it. -/
def preorderWithin (f : Forest) : Nat → Branch → List Branch
  | 0, _ => []
  | n + 1, b => b :: (f.branches b).flatMap (f.preorderWithin n)

/-- A container, and then in turn what is under each container in it. -/
def preorder (f : Forest) (b : Branch) : List Branch :=
  f.preorderWithin f.containers.size b

theorem mem_branches : c ∈ f.branches b ↔ Node.branch c ∈ f.children b := by
  rw [branches, mem_filterMap]
  constructor
  · rintro ⟨node, hnode, hc⟩
    cases node with
    | leaf l => cases hc
    | branch d => cases hc; exact hnode
  · exact fun h => ⟨c, h, rfl⟩

namespace Linked

variable (hf : f.Linked)
include hf

theorem preorderWithin_eq {height : Branch → Nat}
    (hh : ∀ {b c : Branch}, f.parent c = some b → height c < height b) :
    ∀ n m b, height b < n → height b < m → f.preorderWithin n b = f.preorderWithin m b := by
  intro n
  induction n with
  | zero => intro m b hn; omega
  | succ n ih =>
    intro m b hn hm
    obtain ⟨m, rfl⟩ : ∃ k, m = k + 1 := ⟨m - 1, by omega⟩
    rw [preorderWithin, preorderWithin]
    congr 1
    refine flatMap_congr fun c hc => ?_
    have := hh (hf.down (mem_branches.1 hc))
    exact ih m c (by omega) (by omega)

theorem preorder_eq (hb : f.Has b) : f.preorder b = b :: (f.branches b).flatMap f.preorder := by
  obtain ⟨height, hh, hsize⟩ := hf.exists_height
  have hlt := hsize b hb
  obtain ⟨n, hn⟩ : ∃ n, f.containers.size = n + 1 := ⟨f.containers.size - 1, by omega⟩
  unfold preorder
  rw [hn, preorderWithin]
  congr 1
  refine flatMap_congr fun c hc => ?_
  have := hh (hf.down (mem_branches.1 hc))
  exact hf.preorderWithin_eq hh n (n + 1) c (by omega) (by omega)

/-- Induction over a container of the table and those under it. -/
theorem branch_induction {P : Branch → Prop}
    (step : ∀ b : Branch, f.Has b → (∀ c ∈ f.branches b, P c) → P b) :
    ∀ b : Branch, f.Has b → P b := by
  have key : ∀ node : Node, ∀ b : Branch, node = b → f.Has b → P b := by
    refine hf.induction ?_ ?_
    · rintro l b ⟨⟩
    · rintro b ih _ ⟨⟩ hb
      refine step b hb fun c hc => ?_
      have hchild := mem_branches.1 hc
      exact ih _ hchild c rfl (hf.has_child hchild)
  exact fun b => key b b rfl

theorem mem_preorder (hb : f.Has b) : c ∈ f.preorder b ↔ f.Around b c := by
  constructor
  · revert c
    refine hf.branch_induction (P := fun b => ∀ {c}, c ∈ f.preorder b → f.Around b c)
      (fun b hb ih c hc => ?_) b hb
    rw [hf.preorder_eq hb, mem_cons, mem_flatMap] at hc
    rcases hc with rfl | ⟨d, hd, hc⟩
    · exact .self
    · exact (ih d hd hc).trans (.of_child hf (mem_branches.1 hd))
  · intro h
    -- a container inside lists nothing that the one around it does not list
    have key : ∀ node, f.Around b node → ∀ d : Branch, node = d →
        f.preorder d ⊆ f.preorder b := by
      intro node hnode
      induction hnode with
      | self => rintro d ⟨⟩; exact Subset.refl _
      | @step _ p hp _ ih =>
        rintro d rfl x hx
        apply ih p rfl
        rw [hf.preorder_eq (hf.has_parent hp), mem_cons, mem_flatMap]
        exact Or.inr ⟨d, mem_branches.2 (hf.up hp), hx⟩
    apply key _ h c rfl
    rw [hf.preorder_eq (h.has_inside hb)]
    exact mem_cons_self

theorem nodup_preorder (hb : f.Has b) : (f.preorder b).Nodup := by
  refine hf.branch_induction (P := fun b => (f.preorder b).Nodup) (fun b hb ih => ?_) b hb
  have hhas : ∀ c ∈ f.branches b, f.Has c := fun c hc => hf.has_child (mem_branches.1 hc)
  have honce : (f.branches b).Nodup := (hf.once b).filterMap (by
    rintro (l | c) (m | d) e ⟨⟩ ⟨⟩
    rfl)
  rw [hf.preorder_eq hb, nodup_cons, nodup_flatMap]
  refine ⟨fun hmem => ?_, ih, honce.imp_of_mem fun {c d} hc hd hne e hce hde => hne ?_⟩
  · obtain ⟨c, hc, hmem⟩ := mem_flatMap.1 hmem
    exact hf.not_around_of_child (mem_branches.1 hc) ((hf.mem_preorder (hhas c hc)).1 hmem)
  · exact hf.eq_of_around (mem_branches.1 hc) (mem_branches.1 hd)
      ((hf.mem_preorder (hhas c hc)).1 hce) ((hf.mem_preorder (hhas d hd)).1 hde)

theorem length_preorder_le (hb : f.Has b) : (f.preorder b).length ≤ f.containers.size := by
  have hinj : Function.Injective Branch.index := fun ⟨_⟩ ⟨_⟩ h => congrArg Branch.mk h
  have hsub : (f.preorder b).map Branch.index ⊆ range f.containers.size := by
    intro i hi
    obtain ⟨c, hc, rfl⟩ := mem_map.1 hi
    exact mem_range.2 (((hf.mem_preorder hb).1 hc).has_inside hb)
  have hle := ((hf.nodup_preorder hb).map hinj).subperm hsub |>.length_le
  rwa [length_map, length_range] at hle

/-- A walk lists what is under its first container before it goes on to the others. -/
theorem walk_preorder (hb : f.Has b) : ∀ n pending,
    f.walk ((f.preorder b).length + n) (b :: pending) = f.preorder b ++ f.walk n pending := by
  refine hf.branch_induction (P := fun b => ∀ n pending,
    f.walk ((f.preorder b).length + n) (b :: pending) = f.preorder b ++ f.walk n pending)
    (fun b hb ih n pending => ?_) b hb
  have hall : ∀ cs : List Branch, cs ⊆ f.branches b →
      f.walk ((cs.flatMap f.preorder).length + n) (cs ++ pending) =
        cs.flatMap f.preorder ++ f.walk n pending := by
    intro cs hcs
    induction cs with
    | nil => rw [flatMap_nil, length_nil, Nat.zero_add]; rfl
    | cons c cs ihcs =>
      rw [cons_subset] at hcs
      rw [flatMap_cons, length_append, Nat.add_assoc, cons_append, ih c hcs.1,
        ihcs hcs.2, append_assoc]
  rw [hf.preorder_eq hb, length_cons, Nat.add_right_comm, walk, hall _ (Subset.refl _)]
  rfl

theorem walk_eq_preorder (hb : f.Has b) {n : Nat} (hn : f.containers.size ≤ n) :
    f.walk n [b] = f.preorder b := by
  obtain ⟨k, rfl⟩ := Nat.exists_eq_add_of_le ((hf.length_preorder_le hb).trans hn)
  rw [hf.walk_preorder hb]
  cases k <;> exact append_nil _

end Linked

end Forest

/-- The walk over a container ends, lists what the recursion lists, nothing of it twice, and just
the containers from which the way up passes the given one. So a search finds in that order. -/
theorem Document.descendants_preorder {doc : Document} (h : doc.Linked) (hroot : doc.Has doc.root)
    {a : Branch} (ha : doc.Has a) :
    (∀ n, doc.containers.size ≤ n → doc.walk n [a] = doc.descendants a) ∧
    doc.descendants a = doc.preorder a ∧
    doc.preorder a = a :: (doc.branches a).flatMap doc.preorder ∧
    (doc.descendants a).Nodup ∧
    (∀ c : Branch, c ∈ doc.descendants a ↔ doc.contains a c = true) ∧
    ∀ kind, doc.findIn? a kind = (doc.preorder a).find? (doc.kindOf · == kind) ∧
      doc.findAll kind = (doc.preorder doc.root).filter (doc.kindOf · == kind) := by
  have hdesc : ∀ {b : Branch}, doc.Has b → doc.descendants b = doc.preorder b :=
    fun hb => h.walk_eq_preorder hb (Nat.le_refl _)
  refine ⟨fun n hn => ?_, hdesc ha, h.preorder_eq ha, ?_, fun c => ?_, fun kind => ⟨?_, ?_⟩⟩
  · rw [hdesc ha, h.walk_eq_preorder ha hn]
  · rw [hdesc ha]
    exact h.nodup_preorder ha
  · rw [hdesc ha, h.mem_preorder ha, h.contains_iff]
  · rw [Document.findIn?, hdesc ha]
  · rw [Document.findAll, hdesc hroot]

/-- A class with a base and a body, before another statement. -/
theorem Document.descendants_preorder_class :
    let start : Builder := { grammar := .javaScript, source := "class A extends B \x7b\x7d\nf" }
    let calls : List Builder.Call :=
      [.openNode .program, .openNode .classDefinition, .token "class", .token "A",
        .openNode .extendsOptional, .openNode .expression, .token "extends", .token "B", .closeNode,
        .closeNode, .openNode .enclosedBody, .token "\x7b", .token "\x7d", .closeNode, .closeNode,
        .openNode .expression, .token "f", .closeNode, .closeNode]
    ∃ doc, (start.run calls).finish = .ok doc ∧ doc.Linked ∧ doc.Has doc.root ∧
      doc.Has (.branch ⟨1⟩) ∧ doc.descendants ⟨1⟩ = [⟨1⟩, ⟨2⟩, ⟨3⟩, ⟨4⟩] ∧
      (doc.descendants ⟨1⟩).Nodup ∧ doc.contains ⟨1⟩ (.branch ⟨3⟩) = true ∧
      doc.contains ⟨1⟩ (.branch ⟨5⟩) = false := by
  intro start calls
  let doc := (start.run calls).built
  have hfinish : (start.run calls).finish = .ok doc := by decide +kernel
  obtain ⟨htree, -⟩ := Builder.isTree_of_run hfinish
  have hnode : doc.Has (.branch ⟨1⟩) := by decide +kernel
  have hlist : doc.descendants ⟨1⟩ = [⟨1⟩, ⟨2⟩, ⟨3⟩, ⟨4⟩] := by decide +kernel
  obtain ⟨-, -, -, hnodup, hmem, -⟩ := descendants_preorder htree.linked htree.root_has hnode
  refine ⟨doc, hfinish, htree.linked, htree.root_has, hnode, hlist, hnodup, (hmem ⟨3⟩).1 ?_, ?_⟩
  · simp [hlist]
  · rw [← Bool.not_eq_true, ← hmem, hlist]
    decide

end Lossless
