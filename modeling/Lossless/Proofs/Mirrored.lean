import Lossless.Document.Snapshot
import Lossless.Proofs.Consistent
import Lossless.Proofs.Parting

/-! Copies of containers. A copy has the shape, the kinds and the texts of what is copied, and what
shows in it has moved up with the text that it was taken from. -/

namespace Lossless

open List Layout Forest Document

theorem forall₂_imp_of_mem {α β : Type} {R S : α → β → Prop} {xs : List α} {ys : List β}
    (h : Forall₂ R xs ys) (hRS : ∀ x ∈ xs, ∀ y ∈ ys, R x y → S x y) :
    Forall₂ S xs ys := by
  induction h with
  | nil => exact .nil
  | cons hxy _ ih =>
    exact .cons (hRS _ (by simp) _ (by simp) hxy)
      (ih fun x hx y hy => hRS x (by simp [hx]) y (by simp [hy]))

def Layout.ended (ts : Layout) : Layout :=
  if ts.isEmpty || ts.getLast?.any isBreak then ts else ts ++ [lineBreak]

namespace Document

variable {doc copy origin : Document} {copied leaves front rest : List Leaf} {base f g : Forest}
  {b c p root : Branch} {node image : Node} {n s : Nat} {parent : Option Branch} {taken : List Leaf}
  {l : Leaf}

theorem layout_endLine (h : doc.Listed []) : doc.endLine.layout = doc.layout.ended := by
  have hempty : doc.layout.isEmpty = doc.order.isEmpty := by rw [layout, isEmpty_map]
  rw [endLine, ended, hempty, endsWithBreak]
  split
  · rfl
  · have hold : doc.order.map (doc.newToken lineBreak).2.textOf = doc.layout :=
      map_congr_left fun l hl => textOf_newToken_of_has (h.has l hl) _
    show map (doc.newToken lineBreak).2.textOf (doc.order.take doc.order.length ++
      [(doc.newToken lineBreak).1] ++ doc.order.drop doc.order.length) = _
    rw [take_length, drop_length, append_nil, map_append, hold,
      map_singleton, textOf_newToken]

/-! ### Copies in a forest -/

/-- A node of a forest copies a node: the same kinds stand over copies of the same tokens. A
container comes before the containers in it. -/
inductive Copies (base : Forest) (copied : List Leaf) (f : Forest) : Node → Node → Prop
  | leaf {l k : Leaf} (copy : copyOf? copied l = some k) : Copies base copied f l k
  | branch {b c : Branch} (has : f.Has c) (kind : f.kindOf c = base.kindOf b)
      (later : ∀ d, .branch d ∈ f.children c → c.index < d.index)
      (children : List.Forall₂ (Copies base copied f) (base.children b) (f.children c)) :
      Copies base copied f b c

theorem Copies.adds (h : Copies base copied f node image) (hd : base.Linked)
    (ha : Adds parent taken f g)
    (hp : ∀ p ∈ parent, ∀ c, image = .branch c → p.index < c.index) :
    Copies base copied g node image := by
  revert image
  refine hd.induction (P := fun node => ∀ {image}, Copies base copied f node image →
    (∀ p ∈ parent, ∀ c, image = .branch c → p.index < c.index) → Copies base copied g node image)
    ?_ ?_ node
  · rintro l _ (⟨hl⟩ | _) -
    exact .leaf hl
  · rintro b ih _ (_ | ⟨has, kind, later, children⟩) hp
    next c =>
    have hkids : g.children c = f.children c := by
      refine ha.children c has ?_
      rintro rfl
      exact Nat.lt_irrefl _ (hp c rfl c rfl)
    refine .branch (ha.has _ has) ((ha.kindOf c has).trans kind) (hkids ▸ later) ?_
    rw [hkids]
    refine forall₂_imp_of_mem children fun m hm k hk hcopies => ih m hm hcopies ?_
    rintro p hpar d rfl
    exact (hp p hpar c rfl).trans (later d hk)

theorem Copies.adds_none (h : Copies base copied f node image) (hd : base.Linked)
    (ha : Adds none taken f g) : Copies base copied g node image :=
  h.adds hd ha fun _ hp => nomatch hp

theorem exists_copyOf? (h : l ∈ copied) : ∃ k, copyOf? copied l = some k := by
  obtain ⟨i, hi⟩ := exists_idxOf? h
  exact ⟨⟨i⟩, by rw [copyOf?, hi]; rfl⟩

theorem copies_copyChildren (hd : doc.Linked) (nodes : List Node)
    (hn : ∀ c f, f.Has b → .branch c ∈ nodes →
      Copies doc.toForest copied (doc.copyUnder copied n (some b) c f) (.branch c)
        (.branch ⟨f.containers.size⟩))
    (hleaf : ∀ l, .leaf l ∈ nodes → l ∈ copied) (h : f.Has b) : ∃ images,
      (nodes.foldl (doc.copyChild copied n b) f).children b = f.children b ++ images ∧
      (∀ d, .branch d ∈ images → b.index < d.index) ∧
      Forall₂ (Copies doc.toForest copied (nodes.foldl (doc.copyChild copied n b) f)) nodes
        images := by
  induction nodes generalizing f with
  | nil => exact ⟨[], by simp, by simp, .nil⟩
  | cons node nodes ih =>
    obtain ⟨image, hkids, hlater, hcopies⟩ : ∃ image,
        (doc.copyChild copied n b f node).children b = f.children b ++ [image] ∧
        (∀ d, image = .branch d → b.index < d.index) ∧
        Copies doc.toForest copied (doc.copyChild copied n b f node) node image := by
      cases node with
      | leaf l =>
        obtain ⟨k, hk⟩ := exists_copyOf? (hleaf l (by simp))
        rw [copyChild_some hk]
        exact ⟨.leaf k, by rw [children_pushChild h, if_pos rfl], by rintro _ ⟨⟩, .leaf hk⟩
      | branch c =>
        refine ⟨_, ?_, ?_, hn c f h (by simp)⟩
        · rw [copyChild, copyUnder, children_setChildren, fst_copyWithin,
            if_pos ⟨rfl, has_copyWithin _ _ _ _ _ _ h⟩]
        · rintro _ ⟨⟩
          exact h
    have hnode := adds_copyChild (adds_copyUnder_some hd copied n) node h
    obtain ⟨images, hkids', hlater', hrest⟩ := ih (fun c f hf hc => hn c f hf (by simp [hc]))
      (fun l hl => hleaf l (by simp [hl])) (hnode.has _ h)
    refine ⟨image :: images, ?_, ?_, .cons ?_ hrest⟩
    · rw [foldl_cons, hkids', hkids, append_assoc, singleton_append]
    · rintro d (_ | ⟨_, hd⟩)
      · exact hlater d rfl
      · exact hlater' d hd
    · refine hcopies.adds hd
        (adds_copyChildren (adds_copyUnder_some hd copied n) nodes (hnode.has _ h)) ?_
      rintro _ ⟨⟩ d rfl
      exact hlater d rfl

theorem copies_copyUnder (hd : doc.Linked) {height : Branch → Nat}
    (hh : ∀ {b c : Branch}, doc.parent c = some b → height c < height b)
    (n : Nat) (parent : Option Branch) (b : Branch) (f : Forest)
    (hdeep : height b < n) (hp : ∀ p ∈ parent, f.Has (.branch p))
    (hcopied : ∀ l ∈ doc.leaves b, l ∈ copied) :
    Copies doc.toForest copied (doc.copyUnder copied n parent b f) b
      (.branch ⟨f.containers.size⟩) := by
  induction n generalizing parent b f with
  | zero => cases hdeep
  | succ n ih =>
    rw [hd.leaves_branch] at hcopied
    have hnew := f.has_sprout (doc.kindOf b) parent
    have hadds := adds_copyChildren (adds_copyUnder_some hd copied n) (doc.children b) hnew
    obtain ⟨images, hkids, hlater, hcopies⟩ := copies_copyChildren hd (doc.children b)
      (fun c g hg hc => ih (some _) c g (by have := hh (hd.down hc); omega)
        (by rintro p ⟨⟩; exact hg) fun l hl => hcopied l (mem_flatMap.2 ⟨_, hc, hl⟩))
      (fun l hl => hcopied l (mem_flatMap.2 ⟨_, hl, by simp⟩)) hnew
    rw [copyUnder_succ parent hp]
    rw [children_sprout hp, nil_append] at hkids
    refine .branch (hadds.has _ hnew) ((hadds.kindOf _ hnew).trans (f.kindOf_sprout ..)) ?_ ?_
    · rw [hkids]
      exact hlater
    · rwa [hkids]

theorem copies_copyBranch (hd : doc.Linked) (hb : doc.Has b) (f : Forest)
    (hcopied : ∀ l ∈ doc.leaves b, l ∈ copied) :
    Copies doc.toForest copied (doc.copyBranch copied b f).2 b
      (.branch (doc.copyBranch copied b f).1) := by
  obtain ⟨height, hh, hsize⟩ := hd.exists_height
  rw [fst_copyBranch]
  exact copies_copyUnder hd hh _ none b f (hsize b hb) (fun _ h => by cases h) hcopied

/-- An extract holds a copy of its container. -/
theorem copies_extract (hd : doc.Linked) (hb : doc.Has b)
    (hcopied : ∀ l ∈ doc.leaves b, l ∈ leaves) :
    Copies doc.toForest leaves (doc.extract b leaves).toForest b
      (.branch (doc.extract b leaves).root) := by
  exact (copies_copyBranch hd hb (doc.looseCopies leaves) hcopied).adds_none hd
    (adds_extractComments hd b _ leaves doc.comments ([], _))

theorem copies_extractComments (hd : doc.Linked) (comments : List Branch)
    (hgo : ∀ c ∈ comments, doc.Has (.branch c) ∧ doc.goesAlong leaves c = true ∧
      ∀ l ∈ doc.leaves (.branch c), l ∈ leaves) (state : List Branch × Forest)
    (hroot : Copies doc.toForest leaves state.2 b root) :
    let done := comments.foldl (doc.extractComment b root leaves) state
    ∃ images, done.1 = state.1 ++ images ∧ Forall₂ (fun c d =>
      Copies doc.toForest leaves done.2 (.branch c) (.branch d)) comments images := by
  intro done
  induction comments generalizing state with
  | nil => exact ⟨[], by simp [done], .nil⟩
  | cons c comments ih =>
    obtain ⟨hc, hgoes, hcopied⟩ := hgo c (by simp)
    obtain ⟨image, himage, hcopies, hroot'⟩ : ∃ image,
        (doc.extractComment b root leaves state c).1 = state.1 ++ [image] ∧
        Copies doc.toForest leaves (doc.extractComment b root leaves state c).2 (.branch c)
          (.branch image) ∧
        Copies doc.toForest leaves (doc.extractComment b root leaves state c).2 b
          root := by
      rw [extractComment]
      split
      · next heq => exact ⟨root, rfl, heq ▸ hroot, hroot⟩
      · exact ⟨_, rfl, copies_copyBranch hd hc _ hcopied,
          hroot.adds_none hd (adds_copyBranch hd ..)⟩
    obtain ⟨images, himages, hrest⟩ := ih (fun d hd => hgo d (by simp [hd])) _ hroot'
    refine ⟨image :: images, himages.trans ?_,
      .cons (hcopies.adds_none hd (adds_extractComments hd b root leaves comments _)) hrest⟩
    rw [himage, append_assoc, singleton_append]

/-! ### What a copy shows -/

/-- A token of a document and its copy: the same text at a position that is `s` further down. -/
def Echoes (doc copy : Document) (s : Nat) (l k : Leaf) : Prop :=
  copy.textOf k = doc.textOf l ∧ ∃ i, doc.position? l = some (s + i) ∧ copy.position? k = some i

theorem Copies.leavesWithin (h : Copies base copied f node image) (hd : base.Linked) :
    ∀ d, (∀ c, image = .branch c → f.containers.size ≤ d + c.index) →
      Forall₂ (fun l k => copyOf? copied l = some k) (base.leaves node)
        (f.leavesWithin d image) := by
  revert image
  refine hd.induction (P := fun node => ∀ {image}, Copies base copied f node image → ∀ d,
    (∀ c, image = .branch c → f.containers.size ≤ d + c.index) → Forall₂ (fun l k =>
      copyOf? copied l = some k) (base.leaves node) (f.leavesWithin d image)) ?_ ?_ node
  · rintro l _ (⟨hl⟩ | _) d -
    rw [leaves_leaf, leavesWithin_leaf]
    exact .cons hl .nil
  · rintro b ih _ (_ | ⟨has, kind, later, children⟩) d hsize
    next c =>
    have hlt : c.index < f.containers.size := has
    obtain ⟨d, rfl⟩ : ∃ e, d = e + 1 := ⟨d - 1, by have := hsize c rfl; omega⟩
    rw [hd.leaves_branch, leavesWithin]
    have hchildren := forall₂_imp_of_mem children fun m hm k hk hcopies => ih m hm hcopies d (by
      rintro e rfl
      have := later e hk
      have := hsize c rfl
      omega)
    exact rel_flatMap hchildren fun _ _ h => h

theorem Copies.forall_leaves (h : Copies base copied f node image) (hd : base.Linked) :
    Forall₂ (fun l k => copyOf? copied l = some k) (base.leaves node) (f.leaves image) :=
  h.leavesWithin hd _ fun _ _ => Nat.le_add_right ..

section

variable {xs ys : List Leaf} (h : Forall₂ (Echoes doc copy s) xs ys)
include h

theorem filter_of_echoes : xs.filter doc.order.contains = xs ∧
    ys.filter copy.order.contains = ys := by
  induction h with
  | nil => exact ⟨rfl, rfl⟩
  | cons hlk _ ih =>
    obtain ⟨-, i, hi, hk⟩ := hlk
    simp [mem_of_idxOf? hi, mem_of_idxOf? hk, ih.1, ih.2]

theorem head?_of_echoes : xs.head?.bind doc.position? =
    (ys.head?.bind copy.position?).map (s + ·) := by
  cases h with
  | nil => rfl
  | cons hlk _ =>
    obtain ⟨-, i, hi, hk⟩ := hlk
    simp [hi, hk]

theorem getLast?_of_echoes : xs.getLast?.bind doc.position? =
    (ys.getLast?.bind copy.position?).map (s + ·) := by
  rw [← head?_reverse, ← head?_reverse]
  exact head?_of_echoes (rel_reverse h)

end

theorem range?_of_echoes
    (h : Forall₂ (Echoes doc copy s) (doc.leaves node) (copy.leaves image)) :
    doc.range? node = (copy.range? image).map fun r => ⟨s + r.start, s + r.stop⟩ := by
  have hrange : ∀ (d : Document) (m : Node), d.range? m =
      ((d.visibleLeaves m).head?.bind d.position?).bind fun i =>
        ((d.visibleLeaves m).getLast?.bind d.position?).map fun j => ⟨i, j + 1⟩ := by
    intro d m
    simp only [range?, firstLeaf?, lastLeaf?, Option.map_eq_bind, Option.bind_eq_bind,
      Option.bind_assoc]
    rfl
  obtain ⟨hv, hv'⟩ := filter_of_echoes h
  rw [hrange, hrange, visibleLeaves, visibleLeaves, hv, hv', head?_of_echoes h,
    getLast?_of_echoes h]
  cases (copy.leaves image).head?.bind copy.position? <;>
    cases (copy.leaves image).getLast?.bind copy.position? <;> simp [Nat.add_assoc]

/-- A node of a document and a node of another one: the same shape, kinds and texts, and what shows
is `s` positions further down in the first. -/
inductive Mirrors (doc copy : Document) (s : Nat) : Node → Node → Prop
  | leaf {l k : Leaf} (text : copy.textOf k = doc.textOf l)
      (range : doc.range? l =
        (copy.range? k).map fun r => ⟨s + r.start, s + r.stop⟩) :
      Mirrors doc copy s l k
  | branch {b c : Branch} (kind : copy.kindOf c = doc.kindOf b)
      (range : doc.range? b =
        (copy.range? c).map fun r => ⟨s + r.start, s + r.stop⟩)
      (children : List.Forall₂ (Mirrors doc copy s) (doc.children b) (copy.children c)) :
      Mirrors doc copy s b c

section

variable (hd : doc.Linked) (hechoes : ∀ l k, copyOf? copied l = some k → Echoes doc copy s l k)
include hd hechoes

theorem Copies.echoes (h : Copies doc.toForest copied copy.toForest node image) :
    Forall₂ (Echoes doc copy s) (doc.leaves node) (copy.leaves image) :=
  (h.forall_leaves hd).imp hechoes

/-- A copy whose tokens have their texts and places mirrors what is copied. -/
theorem Copies.mirrors (h : Copies doc.toForest copied copy.toForest node image) :
    Mirrors doc copy s node image := by
  revert image
  refine hd.induction (P := fun node => ∀ {image},
    Copies doc.toForest copied copy.toForest node image → Mirrors doc copy s node image) ?_ ?_ node
  · intro l _ h
    have hrange := range?_of_echoes (h.echoes hd hechoes)
    rcases h with ⟨hl⟩ | _
    exact .leaf (hechoes _ _ hl).1 hrange
  · intro b ih _ h
    have hrange := range?_of_echoes (h.echoes hd hechoes)
    rcases h with _ | ⟨-, kind, -, children⟩
    exact .branch kind hrange (forall₂_imp_of_mem children fun m hm _ _ hcopies => ih m hm hcopies)

end

/-! ### Texts and places -/

theorem textOf_extract (doc : Document) (b : Branch) (leaves : List Leaf) (i : Nat) :
    (doc.extract b leaves).textOf ⟨i⟩ = (leaves.map doc.textOf)[i]?.getD "" := by
  have htext := congrArg (·[i]?.getD "") (doc.texts_extract b leaves)
  simp only [Array.getElem?_map, getElem?_toArray] at htext
  rw [← htext, Forest.textOf, token, Array.getD_eq_getD_getElem?]
  cases (doc.extract b leaves).tokens[i]? <;> rfl

theorem layout_extract (doc : Document) (b : Branch) (leaves : List Leaf) :
    (doc.extract b leaves).layout = leaves.map doc.textOf := by
  show ((range leaves.length).map Leaf.mk).map _ = _
  refine ext_getElem (by simp) fun i hi hi' => ?_
  simp only [map_map, getElem_map, getElem_range, Function.comp_apply,
    textOf_extract, getElem?_eq_getElem hi', Option.getD_some]

theorem echoes_extract (hforest : origin.toForest = doc.toForest)
    {l k : Leaf} (hn : doc.order.Nodup)
    (horder : doc.order = front ++ (leaves ++ rest)) (hk : copyOf? leaves l = some k) (b : Branch) :
    Echoes doc (origin.extract b leaves) front.length l k := by
  obtain ⟨i, hi, rfl⟩ := Option.map_eq_some_iff.1 hk
  have hget := getElem?_of_idxOf? hi
  have hlt := idxOf?_lt_length hi
  refine ⟨?_, i, idxOf?_of_getElem? hn ?_,
    idxOf?_of_getElem? (origin.listed_extract b leaves).nodup ?_⟩
  · rw [textOf_extract, getElem?_map, hget, hforest]
    rfl
  · rw [horder, getElem?_append_right (by omega), Nat.add_sub_cancel_left,
      getElem?_append_left hlt, hget]
  · show ((range leaves.length).map Leaf.mk)[i]? = _
    rw [getElem?_map, getElem?_range hlt]
    rfl

theorem Echoes.endLine {l k : Leaf} (h : Echoes doc copy s l k) (hc : copy.Listed []) :
    Echoes doc copy.endLine s l k := by
  obtain ⟨htext, i, hi, hk⟩ := h
  have hend := hc.endLine.nodup
  rcases copy.endLine_cases with he | he
  · rw [he]
    exact ⟨htext, i, hi, hk⟩
  · rw [he] at hend ⊢
    refine ⟨(textOf_newToken_of_has (hc.has k (mem_of_idxOf? hk)) _).trans htext, i, hi,
      idxOf?_of_getElem? hend ?_⟩
    show (copy.order.take _ ++ _ ++ copy.order.drop _)[i]? = _
    rw [take_length, append_assoc, getElem?_append_left (idxOf?_lt_length hk)]
    exact getElem?_of_idxOf? hk

/-! ### Snapshots -/

section

variable (hd : doc.Linked) (hc : copy.Linked)
include hd hc

theorem byteRange_of_echoes (hlayout : copy.layout = doc.layout)
    (h : Forall₂ (Echoes doc copy 0) (doc.leaves node) (copy.leaves image))
    (hleft : Forall₂ (Echoes doc copy 0) (doc.leftLeaves node) (copy.leftLeaves image)) :
    copy.byteRange image = doc.byteRange node := by
  have hrange := range?_of_echoes h
  have hlast := getLast?_of_echoes hleft
  obtain ⟨hfilter, hfilter'⟩ := filter_of_echoes hleft
  simp only [Nat.zero_add, Option.map_id'] at hrange hlast
  rw [byteRange, byteRange, hrange, leftLeaf?_eq hd, leftLeaf?_eq hc, hfilter, hfilter', hlast,
    hlayout]

theorem Copies.snapshotWithin (hlayout : copy.layout = doc.layout)
    (hechoes : ∀ l k, copyOf? copied l = some k → Echoes doc copy 0 l k) {height : Branch → Nat}
    (hh : ∀ {b c : Branch}, doc.parent (.branch c) = some b → height c < height b)
    (h : Copies doc.toForest copied copy.toForest node image)
    (hleft : Forall₂ (Echoes doc copy 0) (doc.leftLeaves node) (copy.leftLeaves image))
    (m n : Nat) (hm : ∀ b, node = .branch b → height b < m)
    (hn : ∀ c, image = .branch c → copy.containers.size ≤ n + c.index) :
    copy.snapshotWithin n image = doc.snapshotWithin m node := by
  revert image m n
  refine hd.induction (P := fun node => ∀ {image},
    Copies doc.toForest copied copy.toForest node image →
    Forall₂ (Echoes doc copy 0) (doc.leftLeaves node) (copy.leftLeaves image) → ∀ m n,
    (∀ b, node = .branch b → height b < m) →
    (∀ c, image = .branch c → copy.containers.size ≤ n + c.index) →
      copy.snapshotWithin n image = doc.snapshotWithin m node) ?_ ?_ node
  · intro l _ h hleft m n _ _
    have hbytes := byteRange_of_echoes hd hc hlayout (h.echoes hd hechoes) hleft
    rcases h with ⟨hl⟩ | _
    rw [snapshotWithin, snapshotWithin, hbytes, kind, kind,
      (hechoes _ _ hl).1]
  · intro b ih _ h hleft m n hm hn
    have hbytes := byteRange_of_echoes hd hc hlayout (h.echoes hd hechoes) hleft
    rcases h with _ | ⟨has, kind, later, children⟩
    next c =>
    have hlt : c.index < copy.containers.size := has
    obtain ⟨m, rfl⟩ : ∃ e, m = e + 1 := ⟨m - 1, by have := hm b rfl; omega⟩
    obtain ⟨n, rfl⟩ : ∃ e, n = e + 1 := ⟨n - 1, by have := hn c rfl; omega⟩
    -- what stands before a child is what stands before the container and the children before it
    have key : ∀ xs ms xs' ks, doc.children b = xs ++ ms → copy.children c = xs' ++ ks →
        Forall₂ (Copies doc.toForest copied copy.toForest) xs xs' →
        Forall₂ (Copies doc.toForest copied copy.toForest) ms ks →
        ks.map (copy.snapshotWithin n) = ms.map (doc.snapshotWithin m) := by
      intro xs ms xs' ks hxs hxs' hfront hrest
      induction hrest generalizing xs xs' with
      | nil => rfl
      | @cons x k ms ks hxk _ ih' =>
        have hx : x ∈ doc.children b := by simp [hxs]
        have hk : k ∈ copy.children c := by simp [hxs']
        have hout : x ∉ xs := fun hm =>
          disjoint_of_nodup_append (hxs ▸ hd.once b) hm (by simp)
        have hout' : k ∉ xs' := fun hm =>
          disjoint_of_nodup_append (hxs' ▸ hc.once c) hm (by simp)
        have hbefore : Forall₂ (Echoes doc copy 0) (doc.leftLeaves x) (copy.leftLeaves k) := by
          rw [hd.leftLeaves_of_parent (hd.down hx) hxs hout,
            hc.leftLeaves_of_parent (hc.down hk) hxs' hout']
          exact rel_append hleft
            (rel_flatMap hfront fun _ _ hcopies => hcopies.echoes hd hechoes)
        rw [map_cons, map_cons, ih' (xs ++ [x]) (xs' ++ [k]) (by simp [hxs])
          (by simp [hxs']) (rel_append hfront (.cons hxk .nil)), ih x hx hxk hbefore m n ?_ ?_]
        · rintro e rfl
          have := hh (hd.down hx)
          have := hm b rfl
          omega
        · rintro e rfl
          have := later e hk
          have := hn c rfl
          omega
    rw [snapshotWithin, snapshotWithin, hbytes, kind,
      key [] (doc.children b) [] (copy.children c) rfl rfl .nil children]

theorem Copies.snapshot (hlayout : copy.layout = doc.layout)
    (hechoes : ∀ l k, copyOf? copied l = some k → Echoes doc copy 0 l k)
    (h : Copies doc.toForest copied copy.toForest b c)
    (hb : doc.Has b) (hfree : doc.parent b = none)
    (hfree' : copy.parent c = none) :
    copy.snapshot c = doc.snapshot b := by
  obtain ⟨height, hh, hsize⟩ := hd.exists_height
  refine h.snapshotWithin hd hc hlayout hechoes hh ?_ _ _ ?_ fun _ _ => Nat.le_add_right ..
  · rw [leftLeaves_of_none hfree, leftLeaves_of_none hfree']
    exact .nil
  · rintro _ ⟨⟩
    exact hsize b hb

end

/-! ### Clones and removed elements -/

theorem exists_covered_split (doc : Document) (node : Node) : ∃ front rest,
    doc.order = front ++ (doc.coveredLeaves node ++ rest) ∧
      front.length = ((doc.range? node).map Span.start).getD 0 := by
  cases hr : doc.range? node with
  | none => exact ⟨[], doc.order, by simp [coveredLeaves, hr], rfl⟩
  | some r =>
    obtain ⟨_, _, _, -, -, hstart, -⟩ := exists_of_range? hr
    refine ⟨doc.order.take r.start, (doc.order.drop r.start).drop (r.stop - r.start), ?_, ?_⟩
    · rw [coveredLeaves, hr]
      dsimp only
      rw [leavesIn, take_append_drop, take_append_drop]
    · exact length_take_of_le (idxOf?_lt_length hstart).le

section

variable (h : doc.Consistent) (ho : doc.Ordered)
  (hstream : ∀ b l, .leaf l ∈ doc.children b → l ∈ doc.order)
include h hstream

theorem mem_order_of_mem_leaves (hl : l ∈ doc.leaves b) : l ∈ doc.order := by
  cases h.linked.mem_leaves.1 hl with
  | step hp _ => exact hstream _ l (h.linked.up hp)

include ho in
theorem mem_covered_of_mem_leaves {l : Leaf} (hl : l ∈ doc.leaves b) : l ∈ doc.coveredLeaves b :=
  Aligned.visibleLeaves_subset ⟨h.toIsTree, ho⟩ _
    (mem_visibleLeaves.2 ⟨hl, mem_order_of_mem_leaves h hstream hl⟩)

include ho in
theorem mirrors_covered {origin : Document} (hforest : origin.toForest = doc.toForest)
    (hb : doc.Has b) :
    let leaves := doc.coveredLeaves b
    let s := ((doc.range? b).map Span.start).getD 0
    let copy := origin.extract b leaves
    Mirrors doc copy s b copy.root ∧ ∀ fault,
      Mirrors doc { copy.endLine with fault } s b copy.root := by
  intro leaves s copy
  obtain ⟨front, rest, horder, hs⟩ := doc.exists_covered_split b
  have hechoes : ∀ l k, copyOf? leaves l = some k → Echoes doc copy s l k := fun l k hk => by
    have hecho := echoes_extract hforest h.order_nodup horder hk b
    rwa [hs] at hecho
  have hcopies : Copies doc.toForest leaves copy.toForest b copy.root := by
    rw [← hforest]
    refine copies_extract (hforest ▸ h.linked) (hforest ▸ hb) fun l hl => ?_
    exact mem_covered_of_mem_leaves h ho hstream (hforest ▸ hl)
  have hended := hcopies.adds_none h.linked copy.retexted_endLine.adds
  refine ⟨hcopies.mirrors h.linked hechoes, fun fault => ?_⟩
  exact Copies.mirrors h.linked
    (fun l k hk => (hechoes l k hk).endLine (origin.listed_extract b leaves)) hended

theorem snapshots_cloneSubtree_root
    (hcomments : ∀ c ∈ doc.comments, doc.isVisible (.branch c) = true) :
    (doc.cloneSubtree doc.root).snapshots = doc.snapshots := by
  have hclone : doc.cloneSubtree doc.root =
      { doc.extract doc.root doc.order with fault := doc.fault } := by
    rw [cloneSubtree, if_pos rfl]
  have hcopy : (doc.extract doc.root doc.order).Consistent :=
    h.extract .self fun he => he.1 rfl
  have hechoes : ∀ l k, copyOf? doc.order l = some k →
      Echoes doc (doc.cloneSubtree doc.root) 0 l k := fun l k hk => by
    rw [hclone]
    have hsplit : doc.order = [] ++ (doc.order ++ []) := (append_nil doc.order).symm
    exact echoes_extract rfl h.order_nodup hsplit hk doc.root
  have hgo : ∀ c ∈ doc.comments, doc.Has (.branch c) ∧ doc.goesAlong doc.order c = true ∧
      ∀ l ∈ doc.leaves (.branch c), l ∈ doc.order := by
    intro c hc
    refine ⟨?_, ?_, fun l hl => mem_order_of_mem_leaves h hstream hl⟩
    · by_contra hnot
      have hkind := h.comments_kind c hc
      rw [kindOf, container_of_not_has hnot] at hkind
      cases hkind
    · rw [goesAlong, hcomments c hc, Bool.and_true, isCopied]
      simp only [all_eq_true, contains_iff_mem]
      intro d _ l hl
      obtain ⟨m, hm, hl⟩ := mem_filterMap.1 hl
      cases m <;> cases hl
      exact hstream d l hm
  obtain ⟨images, himages, hrest⟩ := copies_extractComments h.linked doc.comments hgo
    ([], (doc.copyBranch doc.order doc.root (doc.looseCopies doc.order)).2)
    (copies_copyBranch h.linked h.root_has _ fun l hl => mem_order_of_mem_leaves h hstream hl)
  have hall : Forall₂ (fun b c => Copies doc.toForest doc.order
      (doc.cloneSubtree doc.root).toForest (.branch b) (.branch c)) (doc.root :: doc.comments)
      ((doc.cloneSubtree doc.root).root :: (doc.cloneSubtree doc.root).comments) := by
    rw [hclone]
    refine .cons (copies_extract h.linked h.root_has fun l hl =>
      mem_order_of_mem_leaves h hstream hl) ?_
    have hlist : (doc.extract doc.root doc.order).comments = images := himages
    rw [hlist]
    exact hrest
  have hsnapshots : Forall₂ (· = ·) doc.snapshots (doc.cloneSubtree doc.root).snapshots := by
    rw [snapshots, snapshots, forall₂_map_left_iff, forall₂_map_right_iff]
    refine forall₂_imp_of_mem hall fun b hb c hc hcopies => ?_
    rw [hclone] at hc
    refine (hcopies.snapshot h.linked ?_ ?_ hechoes ?_ ?_ ?_).symm
    · rw [hclone]
      exact hcopy.linked
    · rw [hclone]
      exact doc.layout_extract ..
    · rcases mem_cons.1 hb with rfl | hb
      · exact h.root_has
      · exact (hgo b hb).1
    · rcases mem_cons.1 hb with rfl | hb
      · exact h.root_free
      · exact h.comments_free b (h.comments_kind b hb)
    · rw [hclone]
      rcases mem_cons.1 hc with rfl | hc
      · exact hcopy.root_free
      · exact hcopy.comments_free c (hcopy.comments_kind c hc)
  rw [forall₂_eq_eq_eq] at hsnapshots
  exact hsnapshots.symm

end

end Document

namespace Edit

variable {doc : Document}

end Edit

end Lossless
