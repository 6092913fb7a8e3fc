import Lossless.Proofs.Unfolding

/-! Bracketed lists that take in an element beside others. Wherever room is made for it, its tokens
go in before everything that is after the list. -/

namespace Lossless

open List Forest

namespace Document

variable {doc mid room fragment : Document} {list element tuple c : Branch} {r x y : Leaf}
  {i j p index : Nat} {tokens : List Leaf}

theorem precedes_insertAt_left (hx : x ∉ tokens) (hy : y ∈ tokens)
    (hp : ∀ j, doc.position? x = some j → j < p) : (doc.insertAt p tokens).Precedes x y := by
  intro hx' _
  obtain ⟨j, hj⟩ := exists_position ((mem_insertAt.1 hx').resolve_left hx)
  have htake : x ∈ doc.order.take p := by
    refine mem_of_getElem? (i := j) ?_
    rw [getElem?_take_of_lt (hp j hj)]
    exact getElem?_of_idxOf? hj
  rw [insertAt, append_assoc]
  exact before_append htake (mem_append_left _ hy)

/-! ### The place behind an element -/

theorem Bracketed.place_stop_le (h : doc.Bracketed list)
    (hc : .branch element ∈ doc.children list) (hr : r ∈ doc.rightLeaves list)
    (hj : doc.position? r = some j) :
    ((doc.range? element).getD (doc.trivia element)).stop ≤ j := by
  have hlinked := h.tree.linked
  have hinside : ∀ n ∈ doc.children list, ∀ x ∈ doc.leaves n, doc.Precedes x r := by
    intro n hn x hx
    refine h.before x (mem_append_right _ ?_) r hr
    rw [hlinked.leaves_branch, mem_flatMap]
    exact ⟨n, hn, hx⟩
  cases hrange : doc.range? element with
  | some range =>
    obtain ⟨-, last, k, -, hlast, -, hk, hstop⟩ := exists_of_range? hrange
    have hmem := (mem_visibleLeaves.1 (mem_of_getLast? hlast)).1
    have := (hinside _ hc last hmem).lt h.tree.order_nodup hk hj
    simp only [Option.getD_some]
    omega
  | none =>
    have hp := hlinked.down hc
    obtain ⟨xs, ys, hxy, hxs, -⟩ := hlinked.exists_siblings hp
    obtain ⟨us, vs, huv⟩ := append_of_mem hr
    have hright := h.right
    rw [huv, pairwise_append] at hright
    have hbehind : doc.rightLeaves element =
        (ys.flatMap doc.leaves ++ us) ++ r :: vs := by
      rw [hlinked.rightLeaves_of_parent hp hxy hxs, huv, append_assoc]
    refine Document.trivia_stop_le h.tree ?_ hbehind ?_ hj
    · rw [hlinked.leftLeaves_of_parent hp hxy hxs]
      intro x hx
      rcases mem_append.1 hx with hx | hx
      · exact h.before x (mem_append_left _ hx) r hr
      · obtain ⟨n, hn, hx⟩ := mem_flatMap.1 hx
        exact hinside n (by simp [hxy, hn]) x hx
    · intro y hy
      rcases mem_append.1 hy with hy | hy
      · obtain ⟨n, hn, hy⟩ := mem_flatMap.1 hy
        exact hinside n (by simp [hxy, hn]) y hy
      · exact hright.2.2 y hy r (by simp)

/-! ### Room -/

/-- Room made beside a list: new tokens in the text, and new leaves beside the list, but no change
in it or in what is not around it. -/
structure Roomy (doc room : Document) (list : Branch) : Prop where
  bracketed : room.Bracketed list
  root_eq : room.root = doc.root
  order : doc.order <+ room.order
  old : ∀ l ∈ room.order, doc.Has l → l ∈ doc.order
  left : ∀ l ∈ room.leftLeaves list ++ room.leaves list, doc.Has l →
    l ∈ doc.leftLeaves list ++ doc.leaves list
  right : ∀ l ∈ room.rightLeaves list, doc.Has l →
    l ∈ doc.rightLeaves list
  keeps_left : doc.leftLeaves list ⊆ room.leftLeaves list
  keeps_right : doc.rightLeaves list ⊆ room.rightLeaves list
  children_eq : ∀ c, ¬ doc.Around c list → room.children c = doc.children c
  list_eq : room.children list = doc.children list

theorem Roomy.refl (h : doc.Bracketed list) : Roomy doc doc list :=
  ⟨h, rfl, Sublist.refl _, fun _ hl _ => hl, fun _ hl _ => hl, fun _ hl _ => hl,
    Subset.refl _, Subset.refl _, fun _ _ => rfl, rfl⟩

theorem Roomy.newToken (h : doc.Bracketed list) (text : String) (p : Nat) :
    Roomy doc ((doc.newToken text).2.insertAt p [(doc.newToken text).1]) list := by
  have hf := (Fresh.nil h.tree list).newToken text
  obtain ⟨hleft, hright⟩ := hf.rewired.beside_eq h.tree.linked hf.tree.linked h.has
  have hleaves := hf.leaves_eq h.tree.linked h.has
  refine ⟨h.insertFresh hf p, rfl, sublist_insertAt .., fun l hl hd => ?_, fun l hl _ => ?_,
    fun l hl _ => hright ▸ hl, fun _ hl => hleft.symm ▸ hl, fun _ hl => hright.symm ▸ hl,
    fun _ _ => rfl, rfl⟩
  · exact (mem_insertAt.1 hl).resolve_left fun hm => hf.new l hm hd
  · rw [← hleft, ← hleaves]
    exact hl

theorem Roomy.apart (h : Roomy doc room list) (ha : Apart doc list tokens)
    (hhas : ∀ l ∈ tokens, doc.Has (.leaf l)) : Apart room list tokens :=
  ⟨fun l hl ho => ha.order l hl (h.old l ho (hhas l hl)),
    fun l hl hm => ha.left l hl (h.left l hm (hhas l hl)),
    fun l hl hm => ha.right l hl (h.right l hm (hhas l hl))⟩

theorem Roomy.leaves_eq (h : Roomy doc room list) (hd : doc.Linked)
    (hc : ¬ doc.Around c list) : room.leaves c = doc.leaves c :=
  hd.leaves_congr h.bracketed.tree.linked c fun d hd => h.children_eq d fun ha => hc (ha.trans hd)

/-! #### A delimiter in a tuple -/

section

variable {l : Leaf} {xs ys : List Node} (h : doc.IsTree)
  (hp : doc.parent list = some tuple)
  (hxy : doc.children tuple = xs ++ .branch list :: ys) (hxs : .branch list ∉ xs)
  (hl : doc.Has l) (hfree : doc.parent l = none)
include h hp hxy hl hfree

theorem beside_insertLeaf (k : Nat) (xs' ys' : List Node)
    (hkids : (xs ++ .branch list :: ys).take k ++ .leaf l :: (xs ++ .branch list :: ys).drop k =
      xs' ++ .branch list :: ys') (hxs' : .branch list ∉ xs') :
    (doc.insertChild tuple k l).IsTree ∧
      (doc.insertChild tuple k l).leaves list = doc.leaves list ∧
      (doc.insertChild tuple k l).leftLeaves list =
        doc.leftLeaves tuple ++ xs'.flatMap doc.leaves ∧
      (doc.insertChild tuple k l).rightLeaves list =
        ys'.flatMap doc.leaves ++ doc.rightLeaves tuple := by
  have htuple := h.linked.has_parent hp
  have hleaf : ∀ c, Node.leaf l = .branch c → ¬ doc.Around c tuple :=
    fun c hc => by cases hc
  have htree : (doc.insertChild tuple k l).IsTree :=
    h.insertChild htuple hl hfree (fun he => by cases he) hleaf
  have hchildren : (doc.insertChild tuple k l).children tuple =
      xs' ++ .branch list :: ys' := by
    refine (children_insertChild htuple k l tuple).trans ?_
    rw [if_pos rfl, hxy, hkids]
  have hlist : (doc.insertChild tuple k l).parent list = some tuple :=
    (parent_insertChild hl tuple k list).trans
      ((if_neg fun he => by cases he).trans hp)
  have hleaves : ∀ n ∈ xs' ++ .branch list :: ys',
      (doc.insertChild tuple k l).leaves n = doc.leaves n := by
    intro n hn
    have hg : (doc.toForest.insertChild tuple k l).Linked := htree.linked
    refine h.linked.leaves_insertChild htuple hg ?_
    rintro c rfl
    rw [← hkids, ← hxy, mem_append, mem_cons] at hn
    refine h.linked.not_around_of_child ?_
    rcases hn with hn | hn | hn
    · exact mem_of_mem_take hn
    · cases hn
    · exact mem_of_mem_drop hn
  obtain ⟨hleft, hright⟩ := h.linked.beside_insertChild htuple hl hleaf htree.linked
  refine ⟨htree, hleaves _ (by simp), ?_, ?_⟩
  · rw [htree.linked.leftLeaves_of_parent hlist hchildren hxs',
      flatMap_congr fun n hn => hleaves n (by simp [hn])]
    exact congrArg (· ++ _) hleft
  · rw [htree.linked.rightLeaves_of_parent hlist hchildren hxs',
      flatMap_congr fun n hn => hleaves n (by simp [hn])]
    exact congrArg (_ ++ ·) hright

include hxs

theorem beside_insertLeaf_before :
    (doc.insertChild tuple xs.length l).IsTree ∧
      (doc.insertChild tuple xs.length l).leaves list =
        doc.leaves list ∧
      (doc.insertChild tuple xs.length l).leftLeaves list =
        doc.leftLeaves list ++ [l] ∧
      (doc.insertChild tuple xs.length l).rightLeaves list =
        doc.rightLeaves list := by
  obtain ⟨htree, hleaves, hleft, hright⟩ :=
    beside_insertLeaf h hp hxy hl hfree xs.length (xs ++ [.leaf l]) ys (by simp) (by simp [hxs])
  refine ⟨htree, hleaves, hleft.trans ?_, hright.trans ?_⟩
  · rw [h.linked.leftLeaves_of_parent hp hxy hxs, flatMap_append, append_assoc]
    simp
  · rw [h.linked.rightLeaves_of_parent hp hxy hxs]

theorem beside_insertLeaf_behind :
    (doc.insertChild tuple (xs.length + 1) l).IsTree ∧
      (doc.insertChild tuple (xs.length + 1) l).leaves list =
        doc.leaves list ∧
      (doc.insertChild tuple (xs.length + 1) l).leftLeaves list =
        doc.leftLeaves list ∧
      (doc.insertChild tuple (xs.length + 1) l).rightLeaves list =
        l :: doc.rightLeaves list := by
  have hkids : (xs ++ .branch list :: ys).take (xs.length + 1) ++
      .leaf l :: (xs ++ .branch list :: ys).drop (xs.length + 1) =
        xs ++ .branch list :: .leaf l :: ys := by
    rw [append_cons xs, take_left' (by simp), drop_left' (by simp)]
    simp
  obtain ⟨htree, hleaves, hleft, hright⟩ :=
    beside_insertLeaf h hp hxy hl hfree (xs.length + 1) xs (.leaf l :: ys) hkids hxs
  refine ⟨htree, hleaves, hleft.trans ?_, hright.trans ?_⟩
  · rw [h.linked.leftLeaves_of_parent hp hxy hxs]
  · rw [h.linked.rightLeaves_of_parent hp hxy hxs, flatMap_cons, leaves_leaf]
    rfl

end

theorem Roomy.separateSlot (h : doc.Bracketed list) (hp : doc.parent list = some tuple)
    {delimiter : String}
    (hb : (doc.separateSlot tuple delimiter p index).Bracketed list)
    (hleaves : (doc.separateSlot tuple delimiter p index).leaves list =
      doc.leaves list)
    (hleft : (doc.separateSlot tuple delimiter p index).leftLeaves list ⊆
      (doc.newToken delimiter).1 :: doc.leftLeaves list)
    (hright : (doc.separateSlot tuple delimiter p index).rightLeaves list ⊆
      (doc.newToken delimiter).1 :: doc.rightLeaves list)
    (hleft' : doc.leftLeaves list ⊆
      (doc.separateSlot tuple delimiter p index).leftLeaves list)
    (hright' : doc.rightLeaves list ⊆
      (doc.separateSlot tuple delimiter p index).rightLeaves list) :
    Roomy doc (doc.separateSlot tuple delimiter p index) list := by
  have hsep : ∀ l, doc.Has (.leaf l) → l ≠ (doc.newToken delimiter).1 :=
    fun l hl he => not_has_newToken doc delimiter (he ▸ hl)
  have hspace : ∀ l, doc.Has (.leaf l) → l ≠ ((doc.newToken delimiter).2.newToken " ").1 :=
    fun l hl he => not_has_newToken _ " " (he ▸ has_newToken_of_has hl delimiter)
  have htuple : (doc.newToken delimiter).2.Has tuple :=
    has_newToken_of_has (h.tree.linked.has_parent hp) delimiter
  have hne : tuple ≠ list := by
    rintro rfl
    exact h.tree.linked.not_around_of_child (h.tree.linked.up hp) .self
  have hchildren : ∀ c, c ≠ tuple →
      (doc.separateSlot tuple delimiter p index).children c = doc.children c := fun c hc =>
    (children_insertChild (has_newToken_of_has htuple " ") ..).trans (if_neg hc)
  refine ⟨hb, rfl, sublist_insertAt .., fun l hl hd => ?_, fun l hl hd => ?_, fun l hl hd => ?_,
    hleft', hright', fun c hc => hchildren c ?_, hchildren list hne.symm⟩
  · refine (mem_insertAt.1 hl).resolve_left fun hm => ?_
    simp only [mem_cons, not_mem_nil, or_false] at hm
    exact hm.elim (hsep l hd) (hspace l hd)
  · rw [hleaves] at hl
    refine mem_append.2 ((mem_append.1 hl).imp_left fun hl => ?_)
    exact (mem_cons.1 (hleft hl)).resolve_left (hsep l hd)
  · exact (mem_cons.1 (hright hl)).resolve_left (hsep l hd)
  · rintro rfl
    exact hc (.step hp .self)

theorem Bracketed.separators (h : doc.Bracketed list) (delimiter : String) (p : Nat) :
    let mid := ((doc.newToken delimiter).2.newToken " ").2
    let sep := (doc.newToken delimiter).1
    let tokens := [sep, ((doc.newToken delimiter).2.newToken " ").1]
    Fresh doc mid list tokens ∧ (mid.insertAt p tokens).Bracketed list ∧
      mid.Has sep ∧ mid.parent sep = none ∧
      (∀ n, mid.parent n = doc.parent n) := by
  intro mid sep tokens
  have hf : Fresh doc mid list tokens :=
    (((Fresh.nil h.tree list).newToken delimiter).newToken " ").perm (.swap ..)
  have hparent : ∀ n, mid.parent n = doc.parent n := fun n =>
    (parent_newToken ..).trans (parent_newToken ..)
  refine ⟨hf, h.insertFresh hf p, has_newToken_of_has (has_newToken ..) _, ?_, hparent⟩
  exact (hparent _).trans (parent_of_not_has (not_has_newToken doc delimiter))

section

variable {l : Leaf} (h : doc.Bracketed list) (hp : doc.parent list = some tuple)
  (hi : doc.position? l = some i) (delimiter : String)
include h hp hi

theorem Roomy.separate_left (hl : doc.leftLeaf? list = some l) :
    Roomy doc (doc.separateSlot tuple delimiter (i + 1)
      (((doc.children tuple).idxOf? (.branch list)).getD 0)) list := by
  obtain ⟨hf, hbase, hsep, hfree, hparent⟩ := h.separators delimiter (i + 1)
  obtain ⟨hleft, hright⟩ := hf.rewired.beside_eq h.tree.linked hf.tree.linked h.has
  have hleaves := hf.leaves_eq h.tree.linked h.has
  obtain ⟨xs, ys, hxy, hxs, -⟩ := h.tree.linked.exists_siblings hp
  rw [hxy, idxOf?_append_cons hxs, Option.getD_some]
  obtain ⟨htree, hleaves', hleft', hright'⟩ := beside_insertLeaf_before hbase.tree
    ((hparent _).trans hp) hxy hxs hsep hfree
  have hleft' := hleft'.trans (congrArg (· ++ [(doc.newToken delimiter).1]) hleft)
  have hlmem : l ∈ doc.leftLeaves list := by
    rw [leftLeaf?_eq h.tree.linked] at hl
    exact (mem_filter.1 (mem_of_getLast? hl)).1
  refine .separateSlot h hp ⟨htree, has_insertChild.2 hbase.has, fun x hx r hr => ?_, ?_⟩
    (hleaves'.trans hleaves) ?_ (hright'.trans hright ▸ subset_cons_self ..)
    (hleft' ▸ subset_append_left ..) (hright'.trans hright ▸ Subset.refl _)
  · have hr : r ∈ _ := hright' ▸ hr
    rcases mem_append.1 hx with hx | hx
    · rcases mem_append.1 (hleft' ▸ hx) with hx | hx
      · exact hbase.before x (mem_append_left _ (hleft.symm ▸ hx)) r hr
      · -- the delimiter goes in behind the token on the left
        have hr : r ∈ doc.rightLeaves list := hright ▸ hr
        have hnew := fun hm => hf.new r hm
          (h.tree.linked.has_beside _ r (mem_append_right _ hr))
        rw [mem_singleton.1 hx]
        refine precedes_insertAt mem_cons_self hnew fun j hj => ?_
        exact (h.before l (mem_append_left _ hlmem) r hr).lt h.tree.order_nodup hi hj
    · exact hbase.before x (mem_append_right _ (hleaves' ▸ hx)) r hr
  · exact (congrArg (Pairwise _) hright').mpr hbase.right
  · exact fun x hx => mem_cons.2 ((mem_append.1 (hleft' ▸ hx)).symm.imp_left
      mem_singleton.1)

theorem Roomy.separate_right (hl : doc.rightLeaf? list = some l) :
    Roomy doc (doc.separateSlot tuple delimiter i
      (((doc.children tuple).idxOf? (.branch list)).getD 0 + 1)) list := by
  obtain ⟨hf, hbase, hsep, hfree, hparent⟩ := h.separators delimiter i
  obtain ⟨hleft, hright⟩ := hf.rewired.beside_eq h.tree.linked hf.tree.linked h.has
  have hleaves := hf.leaves_eq h.tree.linked h.has
  obtain ⟨xs, ys, hxy, hxs, -⟩ := h.tree.linked.exists_siblings hp
  rw [hxy, idxOf?_append_cons hxs, Option.getD_some]
  obtain ⟨htree, hleaves', hleft', hright'⟩ := beside_insertLeaf_behind hbase.tree
    ((hparent _).trans hp) hxy hxs hsep hfree
  have hlmem : l ∈ doc.rightLeaves list := by
    rw [rightLeaf?_eq h.tree.linked] at hl
    exact (mem_filter.1 (mem_of_head? hl)).1
  have hstop : (doc.trivia list).stop = i := by
    obtain ⟨r₀, -, hr₀, hpos⟩ := h.exists_right hlmem (mem_of_idxOf? hi)
    rw [hl] at hr₀
    cases hr₀
    rw [hi] at hpos
    exact (Option.some.inj hpos).symm
  have hnew : ∀ x ∈ doc.leftLeaves list ++ doc.leaves list ++
      doc.rightLeaves list, x ∉ [(doc.newToken delimiter).1,
        ((doc.newToken delimiter).2.newToken " ").1] := by
    intro x hx hm
    refine hf.new x hm ?_
    simp only [mem_append] at hx
    rcases hx with (hx | hx) | hx
    · exact h.tree.linked.has_beside _ x (mem_append_left _ hx)
    · exact h.tree.linked.has_of_mem_leaves hx
    · exact h.tree.linked.has_beside _ x (mem_append_right _ hx)
  have hbefore : ∀ x ∈ doc.leftLeaves list ++ doc.leaves list,
      (doc.separateSlot tuple delimiter i (xs.length + 1)).Precedes x
        (doc.newToken delimiter).1 := fun x hx =>
    precedes_insertAt_left (hnew x (mem_append_left _ hx)) mem_cons_self fun j hj =>
      (h.before x hx l hlmem).lt h.tree.order_nodup hj hi
  have hbehind : ∀ r ∈ doc.rightLeaves list,
      (doc.separateSlot tuple delimiter i (xs.length + 1)).Precedes (doc.newToken delimiter).1 r :=
    fun r hr => precedes_insertAt mem_cons_self (hnew r (mem_append_right _ hr)) fun j hj =>
      hstop ▸ h.trivia_stop_le hr hj
  have hL := hleft'.trans hleft
  have hV := hleaves'.trans hleaves
  have hR := hright'.trans (congrArg ((doc.newToken delimiter).1 :: ·) hright)
  refine .separateSlot h hp ⟨htree, has_insertChild.2 hbase.has, fun x hx r hr => ?_, ?_⟩
    hV (hL ▸ subset_cons_self ..) (hR ▸ Subset.refl _) (hL ▸ Subset.refl _)
    (hR ▸ subset_cons_self ..)
  · have hx : x ∈ doc.leftLeaves list ++ doc.leaves list := hL ▸ hV ▸ hx
    rcases mem_cons.1 (hR ▸ hr) with rfl | hr
    · exact hbefore x hx
    · exact hbase.before x (hleft.symm ▸ hleaves.symm ▸ hx) r (hright.symm ▸ hr)
  · refine (congrArg (Pairwise _) hR).mpr (pairwise_cons.2 ⟨hbehind, ?_⟩)
    exact (congrArg (Pairwise _) hright).mp hbase.right

end

theorem Bracketed.lt_of_newToken (h : doc.Bracketed list) (text : String)
    (hp : p ≤ (doc.trivia list).stop)
    (hr : r ∈ ((doc.newToken text).2.insertAt p [(doc.newToken text).1]).rightLeaves list)
    (hj : ((doc.newToken text).2.insertAt p [(doc.newToken text).1]).position? r = some j) :
    p < j := by
  have hf := (Fresh.nil h.tree list).newToken text
  have hr : r ∈ doc.rightLeaves list :=
    (hf.rewired.beside_eq h.tree.linked hf.tree.linked h.has).2 ▸ hr
  have hmem : r ∈ (doc.newToken text).2.order := (mem_insertAt.1 (mem_of_idxOf? hj)).resolve_left
    fun hm => hf.new r hm (h.tree.linked.has_beside _ r (mem_append_right _ hr))
  obtain ⟨k, hk⟩ := exists_position hmem
  have hle := hp.trans (h.trivia_stop_le hr hk)
  have hnodup := (h.insertFresh hf p).tree.order_nodup
  rw [position?_insertAt_right hnodup hk hle] at hj
  cases hj
  exact Nat.lt_succ_of_le hle

theorem Bracketed.makeRoom (h : doc.Bracketed list) : Roomy doc (doc.makeRoom list).2 list ∧
    ∀ r ∈ (doc.makeRoom list).2.rightLeaves list, ∀ j,
      (doc.makeRoom list).2.position? r = some j → (doc.makeRoom list).1 ≤ j := by
  have hstay : Roomy doc doc list ∧ ∀ r ∈ doc.rightLeaves list, ∀ j,
      doc.position? r = some j → (doc.trivia list).stop ≤ j :=
    ⟨.refl h, fun r hr j hj => h.trivia_stop_le hr hj⟩
  rw [Document.makeRoom]
  dsimp only
  split
  · next hp =>
    refine ⟨.refl h, fun r hr => ?_⟩
    rw [rightLeaves_of_none hp] at hr
    cases hr
  · next parent hp =>
    split
    · next delimiter _ =>
      have hroom : Roomy doc (doc.makeSlotRoom parent list delimiter).2 list := by
        rcases makeSlotRoom_cases doc parent list delimiter with
          ⟨l, i, hl, hi, he⟩ | ⟨l, i, hl, hi, he⟩ | he
        · exact he ▸ .separate_left h hp hi delimiter hl
        · exact he ▸ .separate_right h hp hi delimiter hl
        · exact he.symm ▸ .refl h
      exact ⟨hroom, fun r hr j hj => hroom.bracketed.trivia_stop_le hr hj⟩
    · exact hstay
    · split
      · exact hstay
      · split
        · exact hstay
        · have hnew : ∀ p ≤ (doc.trivia list).stop, ∀ r ∈
              ((doc.newToken " ").2.insertAt p [(doc.newToken " ").1]).rightLeaves list,
              ∀ j, ((doc.newToken " ").2.insertAt p [(doc.newToken " ").1]).position? r = some j →
                p + 1 ≤ j := fun p hle r hr j hj => h.lt_of_newToken " " hle hr hj
          split
          · exact ⟨.newToken h " " _, hnew _ (doc.trivia_start_le _)⟩
          · exact ⟨.newToken h " " _, fun r hr j hj =>
              (Nat.le_succ _).trans (hnew _ (Nat.le_refl _) r hr j hj)⟩

/-! ### A child that keeps its tokens in order -/

structure Level (doc : Document) (list element : Branch) : Prop where
  bracketed : doc.Bracketed list
  child : .branch element ∈ doc.children list
  sublist : doc.visibleLeaves element <+ doc.order

namespace Level

section

variable (h : doc.Level list element)
include h

theorem not_around : ¬ doc.Around element list :=
  h.bracketed.tree.linked.not_around_of_child h.child

theorem mem_leaves (hx : x ∈ doc.leaves element) : x ∈ doc.leaves list := by
  rw [h.bracketed.tree.linked.leaves_branch, mem_flatMap]
  exact ⟨_, h.child, hx⟩

theorem of_fresh (hf : Fresh doc mid list tokens) : mid.Level list element := by
  have hlinked := h.bracketed.tree.linked
  refine ⟨h.bracketed.of_fresh hf, hf.children_eq ▸ h.child, ?_⟩
  rw [visibleLeaves, hf.rewired.leaves_eq hlinked hf.tree.linked (hlinked.has_child h.child)
    h.not_around, hf.order_eq]
  exact h.sublist

theorem roomy (hr : Roomy doc room list) : room.Level list element := by
  have hlinked := h.bracketed.tree.linked
  refine ⟨hr.bracketed, hr.list_eq ▸ h.child, ?_⟩
  have hvisible : room.visibleLeaves element = doc.visibleLeaves element := by
    rw [visibleLeaves, hr.leaves_eq hlinked h.not_around]
    refine filter_congr fun l hl => ?_
    have : l ∈ room.order ↔ l ∈ doc.order :=
      ⟨fun ho => hr.old l ho (hlinked.has_of_mem_leaves hl), fun ho => hr.order.subset ho⟩
    simp [this]
  exact hvisible ▸ h.sublist.trans hr.order

theorem insertAt (ha : Apart doc list tokens) (hn : tokens.Nodup)
    (hhas : ∀ l ∈ tokens, doc.Has (.leaf l)) (p : Nat) :
    (doc.insertAt p tokens).Level list element := by
  refine ⟨h.bracketed.insertAt ha hn hhas p, h.child, ?_⟩
  have hvisible : (doc.insertAt p tokens).visibleLeaves element =
      doc.visibleLeaves element :=
    filter_insertAt p fun l hl hm => ha.left l hl (mem_append_right _ (h.mem_leaves hm))
  exact hvisible ▸ h.sublist.trans (sublist_insertAt ..)

end

end Level

theorem mem_children_insertChildren (hlist : doc.Has list) (i : Nat) (nodes : List Node)
    {n : Node} : n ∈ (doc.insertChildren list i nodes).children list ↔
      n ∈ nodes ∨ n ∈ doc.children list := by
  induction nodes with
  | nil => exact ⟨.inr, fun h => h.resolve_left not_mem_nil⟩
  | cons m nodes ih =>
    have hchildren : ((doc.insertChildren list i nodes).insertChild list i m).children list = _ :=
      children_insertChild ((has_insertChildren i nodes).2 hlist) i m list
    rw [insertChildren_cons, hchildren, if_pos rfl, mem_append, mem_cons, mem_cons,
      or_left_comm, ← mem_append, take_append_drop, ih, or_assoc]

theorem Level.attach {nodes : List Node} (h : doc.Level list element)
    (ha : Apart doc list tokens) (hn : tokens.Nodup) (hhas : ∀ l ∈ tokens, doc.Has (.leaf l))
    (hp : ∀ r ∈ doc.rightLeaves list, ∀ j, doc.position? r = some j → p ≤ j)
    (hnodes : ∀ n ∈ nodes, doc.Has n) (hfree : ∀ n ∈ nodes, doc.parent n = none)
    (hnodup : nodes.Nodup) (hroot : .branch doc.root ∉ nodes)
    (hac : ∀ c, .branch c ∈ nodes → ¬ doc.Around c list)
    (hhidden : ∀ n ∈ nodes, ∀ x ∈ doc.leaves n, x ∉ doc.order) (i : Nat) :
    ((doc.insertAt p tokens).insertChildren list i nodes).Level list element := by
  have hat := h.insertAt ha hn hhas p
  have hbefore : ∀ n ∈ nodes, ∀ x ∈ (doc.insertAt p tokens).leaves n,
      ∀ r ∈ (doc.insertAt p tokens).rightLeaves list,
        (doc.insertAt p tokens).Precedes x r := by
    intro n hn x hx r hr hxo hro
    have hxt : x ∈ tokens := (mem_insertAt.1 hxo).resolve_right (hhidden n hn x hx)
    exact precedes_insertAt hxt (fun hm => ha.right r hm hr) (hp r hr) hxo hro
  obtain ⟨hb, hleaves⟩ := hat.bracketed.insertChildren hnodes hfree hnodup hroot hac hbefore i
  refine ⟨hb, (mem_children_insertChildren hat.bracketed.has ..).2 (.inr h.child), ?_⟩
  rw [visibleLeaves, hleaves _ (by rintro _ ⟨⟩; exact hat.not_around), order_insertChildren]
  exact hat.sublist

/-! ### Elements beside others -/

theorem Level.updateComments (h : doc.Level list element) : doc.updateComments.Level list element :=
  ⟨h.bracketed.updateComments, h.child, h.sublist⟩

theorem Fresh.stock (h : doc.IsTree) (hlist : doc.Has list) (hf : fragment.IsTree)
    (rule : ListRule) : Fresh doc (doc.stock rule fragment).2 list
      ((doc.stock rule fragment).1.toList ++ (doc.graftVisible fragment).1.leaves) :=
  (Fresh.graft h hlist hf (coveredLeaves_nodup hf.order_nodup _)
    (coveredLeaves_subset ..)).newLiteral rule.delimiter

theorem root_stock (doc : Document) (rule : ListRule) (fragment : Document) :
    (doc.stock rule fragment).2.root = doc.root := by
  rw [stock]
  rcases newLiteral_cases (doc.graftVisible fragment).2 rule.delimiter with he | he <;> rw [he] <;>
    rfl

/-- The tokens of the root of a fragment are new. -/
theorem leaves_stock (h : doc.IsTree) (hf : fragment.IsTree) (rule : ListRule) :
    ∀ x ∈ (doc.stock rule fragment).2.leaves (.branch (doc.rehomeBranch fragment.root)),
      ¬ doc.Has (.leaf x) := by
  have hgraft := leaves_graft_rehome h.linked hf.linked fragment.root
  have hstock : (doc.stock rule fragment).2.leaves (doc.rehomeBranch fragment.root) =
      (fragment.leaves fragment.root).map doc.rehomeLeaf := by
    rw [stock]
    rcases newLiteral_cases (doc.graftVisible fragment).2 rule.delimiter with he | he <;> rw [he]
    · exact hgraft
    · exact (leaves_newToken (h.graft hf.linked).linked ..).trans hgraft
  intro x hx
  obtain ⟨m, -, rfl⟩ := mem_map.1 (hstock ▸ hx)
  exact not_has_rehome doc m

section

variable {rule : ListRule} {nodes : List Node}

theorem Level.attachStock {delimiter : Option Leaf}
    (h : mid.Level list element) (hdoc : doc.IsTree) (hw : Waiting doc mid fragment delimiter)
    (hroot : mid.root = doc.root)
    (hac : ¬ mid.Around (doc.rehomeBranch fragment.root) list)
    (hhidden : ∀ x ∈ mid.leaves (.branch (doc.rehomeBranch fragment.root)), x ∉ mid.order)
    (hmark : ∀ l ∈ delimiter, l ∉ mid.order) (ha : Apart mid list tokens) (hn : tokens.Nodup)
    (hhas : ∀ l ∈ tokens, mid.Has (.leaf l))
    (hp : ∀ r ∈ mid.rightLeaves list, ∀ j, mid.position? r = some j → p ≤ j)
    (hnodup : nodes.Nodup) (hnodes : ∀ n ∈ nodes, (∃ l ∈ delimiter, n = .leaf l) ∨
      n = .branch (doc.rehomeBranch fragment.root)) (i : Nat) :
    ((mid.insertAt p tokens).insertChildren list i nodes).updateComments.Level list element := by
  refine (h.attach ha hn hhas hp ?_ ?_ hnodup ?_ ?_ ?_ i).updateComments
  · intro n hn
    rcases hnodes n hn with ⟨l, hl, rfl⟩ | rfl
    · exact hw.mark_has l hl
    · exact hw.root_has
  · intro n hn
    rcases hnodes n hn with ⟨l, hl, rfl⟩ | rfl
    · exact hw.mark_free l hl
    · exact hw.root_free
  · intro hm
    rcases hnodes _ hm with ⟨l, -, he⟩ | he
    · cases he
    · rw [hroot] at he
      have hnew : ¬ doc.Has (doc.rehomeBranch fragment.root) :=
        not_has_rehome doc fragment.root
      exact hnew (he ▸ hdoc.root_has)
  · intro c hc
    rcases hnodes _ hc with ⟨l, -, he⟩ | he
    · cases he
    · cases he
      exact hac
  · intro n hn x hx
    rcases hnodes n hn with ⟨l, hl, rfl⟩ | rfl
    · rw [leaves_leaf, mem_singleton] at hx
      exact hx ▸ hmark l hl
    · exact hhidden x hx

theorem Level.attachSpaced (h : doc.Level list element) (hf : fragment.IsTree)
    (hp : ∀ r ∈ ((doc.stock rule fragment).2.newToken " ").2.rightLeaves list, ∀ j,
      ((doc.stock rule fragment).2.newToken " ").2.position? r = some j → p ≤ j)
    (htokens : tokens ~ ((doc.stock rule fragment).2.newToken " ").1 ::
      ((doc.stock rule fragment).1.toList ++ (doc.graftVisible fragment).1.leaves))
    (hnodes : nodes ~ .branch (doc.rehomeBranch fragment.root) ::
      (doc.stock rule fragment).1.toList.map Node.leaf) (i : Nat) :
    ((((doc.stock rule fragment).2.newToken " ").2.insertAt p tokens).insertChildren list i
      nodes).updateComments.Level list element := by
  have hdoc := h.bracketed.tree
  have hfresh := ((Fresh.stock hdoc h.bracketed.has hf rule).newToken " ").perm htokens
  have hnew : ∀ x, ¬ doc.Has (.leaf x) → x ∉ doc.order := fun x hx ho => hx (hdoc.order_has x ho)
  refine (h.of_fresh hfresh).attachStock hdoc ((waiting_stock hf doc rule).newToken " ") ?_
    (hfresh.rewired.not_around hdoc.linked h.bracketed.has
      (not_has_rehome doc fragment.root)) (fun x hx => ?_) (fun l hl => ?_)
    (hfresh.apart hdoc h.bracketed.has) hfresh.nodup hfresh.has hp ?_ ?_ i
  · exact root_stock doc rule fragment
  · rw [hfresh.order_eq]
    rw [leaves_newToken (Fresh.stock hdoc h.bracketed.has hf rule).tree.linked] at hx
    exact hnew x (leaves_stock hdoc hf rule x hx)
  · rw [hfresh.order_eq]
    refine hnew l (hfresh.new l (htokens.mem_iff.2 ?_))
    exact mem_cons_of_mem _ (mem_append_left _ (Option.mem_toList.2 hl))
  · rw [hnodes.nodup_iff]
    cases (doc.stock rule fragment).1 <;> simp
  · intro n hn
    rcases mem_cons.1 (hnodes.mem_iff.1 hn) with hn | hn
    · exact .inr hn
    · obtain ⟨l, hl, rfl⟩ := mem_map.1 hn
      exact .inl ⟨l, Option.mem_toList.1 hl, rfl⟩

theorem Level.putAlone (h : doc.Level list element) (hf : fragment.IsTree) (rule : ListRule) :
    (doc.putAlone rule list fragment).Level list element := by
  have hdoc := h.bracketed.tree
  have hstock := Fresh.stock hdoc h.bracketed.has hf rule
  have hlevel := h.of_fresh hstock
  obtain ⟨hroomy, hbound⟩ := hlevel.bracketed.makeRoom
  have hnew : ¬ doc.Has (doc.rehomeBranch fragment.root) :=
    not_has_rehome doc fragment.root
  have hstocked : Grows doc (doc.stock rule fragment).2 :=
    evolves_stock hdoc.linked hf (fun _ _ _ => trivial) rule
  have hroom : Grows _ ((doc.stock rule fragment).2.makeRoom list).2 :=
    evolves_makeRoom hstock.tree.linked list
  have htokens := hstock.sublist (sublist_append_right ..)
  refine (hlevel.roomy hroomy).attachStock hdoc ((waiting_stock hf doc rule).evolves hroom)
    (hroomy.root_eq.trans ?_) ((hstocked.trans hroom).not_around h.bracketed.has hnew)
    (fun x hx ho => ?_) (fun l hl => by cases hl)
    (hroomy.apart (htokens.apart hdoc h.bracketed.has) htokens.has) htokens.nodup
    (fun l hl => hroom.has _ (htokens.has l hl)) hbound (nodup_singleton _)
    (fun n hn => .inr (mem_singleton.1 hn)) 0
  · exact root_stock doc rule fragment
  · rw [hroomy.leaves_eq hstock.tree.linked (hstocked.not_around h.bracketed.has hnew)] at hx
    have hin := hroomy.old x ho (hstock.tree.linked.has_of_mem_leaves hx)
    rw [hstock.order_eq] at hin
    exact leaves_stock hdoc hf rule x hx (hdoc.order_has x hin)

/-- A fragment beside the elements of a list leaves the list bracketed and its children in order. -/
theorem Level.insertBeside (h : doc.Level list element) (hf : fragment.IsTree) (rule : ListRule)
    (index : Nat) : (doc.insertBeside rule list index fragment).2.Level list element := by
  have hstock := Fresh.stock h.bracketed.tree h.bracketed.has hf rule
  have hfresh := hstock.newToken " "
  have hbracketed := h.bracketed.of_fresh hfresh
  rw [insertBeside_eq]
  split
  · next previous hprevious =>
    have hchild : .branch previous ∈ doc.children list := by
      split at hprevious
      · cases hprevious
      · exact (mem_listElements.1 (mem_of_getElem? hprevious)).1
    refine h.attachSpaced hf (fun r hr j hj => ?_) perm_middle perm_append_comm _
    exact hbracketed.place_stop_le (hfresh.children_eq ▸ hchild) hr hj
  · next range _ hrange =>
    refine h.attachSpaced hf (fun r hr j hj => ?_) ?_ (.refl _) 0
    · split at hrange
      · cases hrange
      · obtain ⟨first, -, -, hfirst, -, hpos, -⟩ := exists_of_range? hrange
        have hmem := (mem_visibleLeaves.1 (mem_of_head? hfirst)).1
        rw [← leaves_newToken hstock.tree.linked " "] at hmem
        exact ((hbracketed.before first (mem_append_right _ hmem) r hr).lt
          hbracketed.tree.order_nodup hpos hj).le
    · exact (perm_append_singleton ..).trans (.cons _ perm_append_comm)
  · exact h.putAlone hf rule

end

end Document

end Lossless
