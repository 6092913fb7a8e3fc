import Lossless.Proofs.Carried

/-! Elements that come into a list, on lines of their own or beside others. The text of the document
stays as it is, and the tokens of the element stand between what is before the list and what is
after it. -/

namespace Lossless

open List Option Forest Node

theorem Forest.Around.mono {f g : Forest} {b : Branch} {node : Node} (hf : f.Linked) (hg : g.Linked)
    (hsub : ∀ c, f.children c ⊆ g.children c) (h : f.Around b node) : g.Around b node := by
  induction h with
  | self => exact .self
  | step hp _ ih => exact .step (hg.down (hsub _ (hf.up hp))) ih

namespace Document

variable {doc mid after fragment laid room : Document} {rule : ListRule}
  {list added b previous : Branch} {tokens ls rs gone ls' marks ms rs' : List Leaf}
  {nodes : List Node} {line p i : Nat}

/-! ### What is about to come in -/

/-- Tables that have grown for what is about to come into a list. Nothing under the list has
changed, and what stood beside it still does. -/
structure Readied (doc mid : Document) (list : Branch) : Prop where
  evolves : Grows doc mid
  start : doc.IsTree
  tree : mid.IsTree
  order : doc.order <+ mid.order
  old : ∀ l ∈ mid.order, doc.Has l → l ∈ doc.order
  children_eq : mid.children list = doc.children list
  leaves_eq : ∀ n ∈ doc.children list, mid.leaves n = doc.leaves n
  left : doc.leftLeaves list ⊆ mid.leftLeaves list
  right : doc.rightLeaves list ⊆ mid.rightLeaves list

theorem Readied.trans (h : Readied doc mid list) (h' : Readied mid after list) :
    Readied doc after list where
  evolves := h.evolves.trans h'.evolves
  start := h.start
  tree := h'.tree
  order := h.order.trans h'.order
  old l hl hd := h.old l (h'.old l hl (h.evolves.has _ hd)) hd
  children_eq := h'.children_eq.trans h.children_eq
  leaves_eq n hn := (h'.leaves_eq n (h.children_eq ▸ hn)).trans (h.leaves_eq n hn)
  left := Subset.trans h.left h'.left
  right := Subset.trans h.right h'.right

theorem Fresh.readied (hf : Fresh doc mid list tokens) (h : doc.IsTree)
    (hlist : doc.Has list) (hev : Grows doc mid) :
    Readied doc mid list := by
  obtain ⟨hleft, hright⟩ := hf.rewired.beside_eq h.linked hf.tree.linked hlist
  exact ⟨hev, h, hf.tree, hf.order_eq ▸ .refl _, fun l hl _ => hf.order_eq ▸ hl, hf.children_eq,
    fun n hn => hf.rewired.leaves_child h.linked hf.tree.linked hn, fun _ hl => hleft.symm ▸ hl,
    fun _ hl => hright.symm ▸ hl⟩

theorem Roomy.readied (hr : Roomy doc mid list) (h : doc.IsTree)
    (hev : Grows doc mid) : Readied doc mid list := by
  refine ⟨hev, h, hr.bracketed.tree, hr.order, hr.old, hr.list_eq, fun n hn => ?_, hr.keeps_left,
    hr.keeps_right⟩
  cases n with
  | leaf l => rw [leaves_leaf, leaves_leaf]
  | branch c => exact hr.leaves_eq h.linked (h.linked.not_around_of_child hn)

theorem Aligned.readied_endLine (h : doc.Aligned) (hlist : doc.Has list) :
    Readied doc doc.endLine list := by
  have hbracketed := bracketed_of_ordered h.tree h.ordered hlist
  refine Roomy.readied ?_ h.tree (Evolves.refl h.tree.linked).endLine
  rcases doc.endLine_cases with he | he <;> rw [he]
  · exact .refl hbracketed
  · exact .newToken hbracketed Layout.lineBreak _

/-! ### What has come in -/

/-- New nodes have come in under a list, and the text has kept its ink. -/
structure Widened (doc after : Document) (list : Branch) : Prop extends Retains doc after [] where
  children : doc.children list <+ after.children list
  leaves_eq : ∀ n ∈ doc.children list, after.leaves n = doc.leaves n
  back : ∀ n ∈ after.children list, doc.Has n → n ∈ doc.children list

theorem Widened.trans (h : Widened doc mid list) (h' : Widened mid after list) :
    Widened doc after list where
  toRetains := h.toRetains.trans h'.toRetains
  children := h.children.trans h'.children
  leaves_eq n hn := (h'.leaves_eq n (h.children.subset hn)).trans (h.leaves_eq n hn)
  back n hn hd := h.back n (h'.back n hn (h.evolves.has _ hd)) hd

theorem Widened.visibleLeaves_subset (h : Widened doc mid list) {n : Node}
    (hn : n ∈ doc.children list) : mid.visibleLeaves n ⊆ doc.visibleLeaves n := by
  intro x hx
  obtain ⟨hx, ho⟩ := mem_visibleLeaves.1 hx
  rw [h.leaves_eq n hn] at hx
  have hunder : x ∈ doc.leaves list := by
    rw [h.start.linked.leaves_branch]
    exact mem_flatMap.2 ⟨n, hn, hx⟩
  exact mem_visibleLeaves.2 ⟨hx, h.old x ho (h.start.linked.has_of_mem_leaves hunder)⟩

theorem sublist_children_insertChildren (hlist : doc.Has list) (i : Nat)
    (nodes : List Node) : doc.children list <+ (doc.insertChildren list i nodes).children list := by
  induction nodes with
  | nil => exact .refl _
  | cons n nodes ih =>
    have hchildren : ((doc.insertChildren list i nodes).insertChild list i n).children list = _ :=
      children_insertChild ((has_insertChildren i nodes).2 hlist) i n list
    rw [insertChildren_cons, hchildren, if_pos rfl]
    refine ih.trans ?_
    conv_lhs => rw [← take_append_drop i ((doc.insertChildren list i nodes).children list)]
    exact (Sublist.refl _).append (sublist_cons_self ..)

theorem Readied.widened (hr : Readied doc mid list) (hlist : doc.Has list)
    (hn : tokens.Nodup) (hhas : ∀ l ∈ tokens, mid.Has (.leaf l))
    (hfresh : ∀ l ∈ tokens, ¬ doc.Has (.leaf l)) (hout : ∀ l ∈ tokens, l ∉ mid.order)
    (hnodes : ∀ n ∈ nodes, mid.Unseated list n ∧ ¬ doc.Has n) (hnodup : nodes.Nodup) (p i : Nat) :
    Settled (mid.insertAt p tokens) ((mid.insertAt p tokens).insertChildren list i nodes) list
        nodes ∧
      Widened doc ((mid.insertAt p tokens).insertChildren list i nodes) list := by
  have hmid : (mid.insertAt p tokens).Has list := hr.evolves.has _ hlist
  have hsettled := (hr.tree.insertAt hn hhas hout p).settle hmid i
    (fun n hm => (hnodes n hm).1.insertAt p tokens) hnodup
  refine ⟨hsettled, .of_superlist ?_ hr.start hsettled.tree ?_ fun l hl hd => ?_, ?_,
    fun n hm => ?_, fun n hm hd => ?_⟩
  · exact (hr.evolves.insertAt p tokens).insertChildren hlist (fun n hm => (hnodes n hm).1.has)
      (fun n hm => (hnodes n hm).1.free) hnodup (fun c hc => ⟨(hnodes _ hc).2, trivial⟩) i
  · rw [hsettled.order_eq]
    exact hr.order.trans (sublist_insertAt ..)
  · rw [hsettled.order_eq] at hl
    exact hr.old l ((mem_insertAt.1 hl).resolve_left fun hm => hfresh l hm hd) hd
  · exact hr.children_eq ▸ sublist_children_insertChildren hmid i nodes
  · refine (hsettled.leaves_eq n ?_).trans (hr.leaves_eq n hm)
    rintro c rfl
    exact hr.tree.linked.not_around_of_child (hr.children_eq ▸ hm)
  · rcases (mem_children_insertChildren hmid i nodes).1 hm with hm | hm
    · exact absurd hd (hnodes n hm).2
    · exact hr.children_eq ▸ hm

structure Lands (doc after fragment : Document) (list added : Branch) : Prop extends
    Widened doc after list where
  child : .branch added ∈ after.children list
  new : ¬ doc.Has added
  carries : after.Carries added fragment
  between : after.Between (doc.leftLeaves list) (after.leaves added)
    (doc.rightLeaves list)

theorem Lands.updateComments (h : Lands doc mid fragment list added) :
    Lands doc mid.updateComments fragment list added :=
  ⟨⟨⟨h.evolves.updateComments, h.start, h.tree.updateComments, h.old, h.order, h.kept⟩, h.children,
    h.leaves_eq, h.back⟩, h.child, h.new, h.carries, ⟨h.between.left, h.between.right⟩⟩

theorem Between.retains (h : doc.Between ls ms rs)
    (hr : Retains doc after gone) (hhas : ∀ l ∈ ls ++ ms ++ rs, doc.Has (.leaf l)) :
    after.Between ls ms rs := by
  refine ⟨fun x hx y hy => hr.precedes ?_ ?_ (h.left x hx y hy),
    fun y hy z hz => hr.precedes ?_ ?_ (h.right y hy z hz)⟩
  all_goals exact hhas _ (by simp [*])

theorem Evolves.has_row (hev : Grows doc mid) (h : mid.IsTree) :
    ∀ l ∈ doc.leftLeaves list ++ mid.leaves added ++
      doc.rightLeaves list, mid.Has (.leaf l) := by
  have hbeside : ∀ l ∈ doc.leftLeaves list ++ doc.rightLeaves list,
      mid.Has l := fun l hl => hev.has _ (hev.start.has_beside list l hl)
  simp only [mem_append, or_imp, forall_and] at hbeside ⊢
  exact ⟨⟨hbeside.1, fun l hl => h.linked.has_of_mem_leaves hl⟩, hbeside.2⟩

theorem Lands.widened (h : Lands doc mid fragment list added) (hw : Widened mid after list) :
    Lands doc after fragment list added := by
  have hleaves := hw.leaves_eq _ h.child
  refine ⟨h.toWidened.trans hw, hw.children.subset h.child, h.new,
    h.carries.retains hw.toRetains hleaves fun _ _ _ => not_mem_nil, ?_⟩
  rw [hleaves]
  exact h.between.retains hw.toRetains (h.evolves.has_row h.tree)

theorem Lands.carry (h : Lands doc after laid list added)
    (hc : laid.Carries laid.root fragment) : Lands doc after fragment list added :=
  ⟨h.toWidened, h.child, h.new, h.carries.trans hc, h.between⟩

theorem Between.of_order_eq (h : doc.Between ls ms rs)
    (he : after.order = doc.order) : after.Between ls ms rs := by
  refine ⟨fun x hx y hy => ?_, fun y hy z hz => ?_⟩
  · have := h.left x hx y hy
    rwa [Precedes, ← he] at this
  · have := h.right y hy z hz
    rwa [Precedes, ← he] at this

/-- An element lands at a position that parts what is beside the list. -/
theorem Readied.lands (hr : Readied doc mid list) (hlist : doc.Has list)
    (hn : tokens.Nodup) (hhas : ∀ l ∈ tokens, mid.Has (.leaf l))
    (hfresh : ∀ l ∈ tokens, ¬ doc.Has (.leaf l)) (ha : Apart mid list tokens)
    (hparts : Parts mid p (mid.leftLeaves list) (mid.rightLeaves list))
    (hnodes : ∀ n ∈ nodes, mid.Unseated list n ∧ ¬ doc.Has n) (hnodup : nodes.Nodup)
    (hadded : .branch added ∈ nodes) (hhidden : ∀ y ∈ mid.leaves added, y ∉ mid.order)
    (hbrings : mid.Brings added tokens fragment) (i : Nat) :
    Lands doc ((mid.insertAt p tokens).insertChildren list i nodes) fragment list added := by
  obtain ⟨hsettled, hwidened⟩ := hr.widened hlist hn hhas hfresh ha.order hnodes hnodup p i
  have hleaves := hsettled.leaves_eq added (hnodes _ hadded).1.outside
  refine ⟨hwidened, ?_, (hnodes _ hadded).2, (hbrings.insertAt p).congr hleaves fun l _ hl _ =>
    ⟨hsettled.order_eq ▸ hl, textOf_insertChildren ..⟩, ?_⟩
  · have hmid : (mid.insertAt p tokens).Has list := hr.evolves.has _ hlist
    exact (mem_children_insertChildren hmid i nodes).2 (.inl hadded)
  · rw [hleaves]
    have hbetween : (mid.insertAt p tokens).Between (mid.leftLeaves list)
        (mid.leaves added) (mid.rightLeaves list) :=
      hparts.between (fun x hx hm => ha.left x hm (mem_append_left _ hx))
        (fun x hx hm => ha.right x hm hx) hhidden
    exact Between.of_order_eq ⟨fun x hx => hbetween.left x (hr.left hx),
      fun y hy z hz => hbetween.right y hy z (hr.right hz)⟩ hsettled.order_eq

/-! ### Elements on lines of their own -/

theorem brings_graft (hd : doc.Linked) (hf : fragment.Linked)
    (hls : ∀ l ∈ fragment.leaves fragment.root, l ∈ fragment.order → l ∈ ls) :
    (doc.graft fragment).2.Brings (doc.rehomeBranch fragment.root) (ls.map doc.rehomeLeaf)
      fragment :=
  ⟨doc.rehomeLeaf, leaves_graft_rehome hd hf fragment.root, fun l hl hink =>
    ⟨mem_map_of_mem (hls l hl (mem_ink.1 hink).1), textOf_graft_rehome doc fragment l⟩⟩

theorem widened_addDelimiter (h : doc.IsTree) (hlist : doc.Has list) (rule : ListRule)
    (element : Branch) : Widened doc (doc.addDelimiter rule list element) list := by
  have hrefl : Grows doc doc := .refl h.linked
  rcases doc.addDelimiter_cases rule list element with he | ⟨p, i, he⟩ <;> rw [he]
  · exact ⟨h.retains, .refl _, fun _ _ => rfl, fun _ hn _ => hn⟩
  have hf := (Fresh.nil h list).newToken rule.delimiter
  have hnew := not_has_newToken doc rule.delimiter
  have hfree : (doc.newToken rule.delimiter).2.parent
      (.leaf (doc.newToken rule.delimiter).1) = none :=
    (parent_newToken ..).trans (parent_of_not_has hnew)
  exact ((hf.readied h hlist (hrefl.newToken _)).widened hlist hf.nodup hf.has hf.new
    (fun l hl ho => hf.new l hl (h.order_has l ho))
    (forall_mem_singleton.2 ⟨unseated_leaf (has_newToken ..) hfree list, hnew⟩)
    (nodup_singleton _) p i).2

theorem Aligned.lands_insertLines (h : doc.Aligned) (hlist : doc.Has list)
    (henters : doc.Enters list line) (hf : fragment.Aligned) (rule : ListRule) :
    Lands doc (doc.insertLines rule list line fragment false).2 fragment list
      (doc.insertLines rule list line fragment false).1 := by
  have hlaid : (doc.lineFragment list fragment).Aligned := (hf.increaseIndent _ _).endLine
  have hcarry : (doc.lineFragment list fragment).Carries (doc.lineFragment list fragment).root
      fragment :=
    (hf.increaseIndent _ _).tree.carries_endLine.trans (hf.tree.carries_increaseIndent _ _)
  obtain ⟨base, p, hplace, he⟩ := doc.insertLines_element rule list line fragment
  obtain ⟨haligned, hgap⟩ := hplace.gap h hlist henters
  have hbase : Readied doc base list := by
    rcases hplace.base_eq with rfl | rfl
    · exact (Fresh.nil h.tree list).readied h.tree hlist (.refl h.tree.linked)
    · exact h.readied_endLine hlist
  rw [he]
  generalize doc.lineFragment list fragment = laid at hlaid hcarry
  have hlist' := hbase.evolves.has _ hlist
  have hgraft : Fresh base (base.graft laid).2 list (laid.order.map base.rehomeLeaf) :=
    .graft haligned.tree hlist' hlaid.tree hlaid.tree.order_nodup (Subset.refl _)
  have hready := hbase.trans (hgraft.readied haligned.tree hlist'
    ((Evolves.refl haligned.tree.linked).graft hlaid.tree.linked fun _ _ _ => trivial))
  have hfresh : ∀ n, ¬ doc.Has (base.rehome n) := fun n hd =>
    not_has_rehome base n (hbase.evolves.has _ hd)
  have hlands : Lands doc ((base.withTokens p laid).placeChild list
      (base.rehomeBranch laid.root)) laid list (base.rehomeBranch laid.root) := by
    have hnew : ∀ l ∈ laid.order.map base.rehomeLeaf, ¬ doc.Has l :=
      forall_mem_map.2 fun l _ => hfresh l
    have hroot : (base.graft laid).2.Unseated list (base.rehomeBranch laid.root) ∧
        ¬ doc.Has (base.rehomeBranch laid.root) :=
      ⟨unseated_graft haligned.tree hlist' hlaid.tree, hfresh laid.root⟩
    exact hready.lands hlist hgraft.nodup hgraft.has hnew (hgraft.apart haligned.tree hlist')
      (hgap.of_fresh haligned.tree.linked hlist' hgraft).parts
      (forall_mem_singleton.2 hroot) (nodup_singleton _) (mem_singleton_self _)
      (fun _ => not_mem_of_mem_graft haligned.tree hlaid.tree.linked)
      (brings_graft haligned.tree.linked hlaid.tree.linked fun _ _ ho => ho) _
  exact ((hlands.carry hcarry).widened
    (widened_addDelimiter hlands.tree (hlands.evolves.has _ hlist) rule _)).updateComments

/-! ### Elements beside others -/

/-- A fragment is in stock with marks that no container claims. -/
structure Shelved (doc mid fragment : Document) (list : Branch) (marks : List Leaf) : Prop where
  readied : Readied doc mid list
  waits : mid.Waits (doc.graftVisible fragment).1.leaves
  root : mid.Unseated list (doc.rehomeBranch fragment.root)
  hidden : ∀ y ∈ mid.leaves (doc.rehomeBranch fragment.root), y ∉ mid.order
  nodup : (marks ++ (doc.graftVisible fragment).1.leaves).Nodup
  has : ∀ l ∈ marks ++ (doc.graftVisible fragment).1.leaves, mid.Has l
  new : ∀ l ∈ marks ++ (doc.graftVisible fragment).1.leaves, ¬ doc.Has l
  apart : Apart mid list (marks ++ (doc.graftVisible fragment).1.leaves)
  free : ∀ l ∈ marks, mid.parent l = none
  brings : mid.Brings (doc.rehomeBranch fragment.root) (doc.graftVisible fragment).1.leaves fragment

theorem Brings.newToken (h : doc.Brings b tokens fragment) (hd : doc.Linked)
    (hhas : ∀ l ∈ tokens, doc.Has (.leaf l)) (text : String) :
    (doc.newToken text).2.Brings b tokens fragment :=
  h.congr (leaves_newToken hd text b) fun l _ hl _ => ⟨hl, textOf_newToken_of_has (hhas l hl) text⟩

theorem Brings.newLiteral (h : doc.Brings b tokens fragment) (hd : doc.Linked)
    (hhas : ∀ l ∈ tokens, doc.Has (.leaf l)) (text : String) :
    (doc.newLiteral text).2.Brings b tokens fragment := by
  rcases newLiteral_cases doc text with he | he <;> rw [he]
  · exact h
  · exact h.newToken hd hhas text

theorem Aligned.shelved (h : doc.Aligned) (hlist : doc.Has list) (hf : fragment.Aligned)
    (rule : ListRule) : Shelved doc (doc.stock rule fragment).2 fragment list
      (doc.stock rule fragment).1.toList := by
  have hfresh := Fresh.stock h.tree hlist hf.tree rule
  have hwaits : (doc.graftVisible fragment).2.Waits (doc.graftVisible fragment).1.leaves :=
    waits_graft h hf (coveredLeaves_sublist ..)
  have hbrings : (doc.stock rule fragment).2.Brings (doc.rehomeBranch fragment.root)
      (doc.graftVisible fragment).1.leaves fragment := by
    have hgraft := brings_graft h.tree.linked hf.tree.linked fun l hl ho =>
      have hshown := mem_visibleLeaves.2 ⟨hl, ho⟩
      (mem_coveredLeaves hf.tree.order_nodup (hf.visible _)).2
        ⟨l, hshown, l, hshown, .inl rfl, .inl rfl⟩
    exact hgraft.newLiteral (h.tree.graft hf.tree.linked).linked hwaits.has rule.delimiter
  exact {
    readied := hfresh.readied h.tree hlist
      (evolves_stock h.tree.linked hf.tree (fun _ _ _ => trivial) rule)
    waits := hwaits.newLiteral rule.delimiter
    root := (unseated_graft h.tree hlist hf.tree).newLiteral rule.delimiter
    hidden := fun y hy ho => leaves_stock h.tree hf.tree rule y hy
      (h.tree.order_has y (hfresh.order_eq ▸ ho))
    nodup := hfresh.nodup
    has := hfresh.has
    new := hfresh.new
    apart := hfresh.apart h.tree hlist
    free := fun l hl => (waiting_stock hf.tree doc rule).mark_free l (mem_toList.1 hl)
    brings := hbrings }

section

variable {marks : List Leaf} (hs : Shelved doc mid fragment list marks)
  (hlist : doc.Has list)
include hs

theorem Shelved.filter_root (htokens : tokens ⊆ marks ++ (doc.graftVisible fragment).1.leaves) :
    (mid.leaves (doc.rehomeBranch fragment.root)).filter tokens.contains <+
      (doc.graftVisible fragment).1.leaves :=
  hs.waits.filter_leaves (fun l hl => (mem_append.1 (htokens hl)).symm.imp_right (hs.free l)) _

include hlist

theorem Shelved.newToken (text : String) : Shelved doc (mid.newToken text).2 fragment list
    ((mid.newToken text).1 :: marks) := by
  have htree := hs.readied.tree
  have hmid := hs.readied.evolves.has _ hlist
  have hfresh := (Fresh.nil htree list).newToken text
  have hnew := not_has_newToken mid text
  have hready := hfresh.readied htree hmid ((Evolves.refl htree.linked).newToken text)
  have hapart := hfresh.apart htree hmid
  obtain ⟨hleft, hright⟩ := hfresh.rewired.beside_eq htree.linked hfresh.tree.linked hmid
  have hleaves := hfresh.leaves_eq htree.linked hmid
  refine ⟨hs.readied.trans hready, hs.waits.newToken text, hs.root.newToken text,
    fun y hy => ?_, ?_, ?_, ?_, ⟨?_, ?_, ?_⟩, ?_,
    hs.brings.newToken htree.linked hs.waits.has text⟩
  · rw [leaves_newToken htree.linked] at hy
    exact hs.hidden y hy
  · exact nodup_cons.2 ⟨fun hm => hnew (hs.has _ hm), hs.nodup⟩
  · exact forall_mem_cons.2
      ⟨has_newToken .., fun l hl => has_newToken_of_has (hs.has l hl) text⟩
  · exact forall_mem_cons.2 ⟨fun hd => hnew (hs.readied.evolves.has _ hd), hs.new⟩
  · exact forall_mem_cons.2 ⟨hapart.order _ mem_cons_self, hs.apart.order⟩
  · refine forall_mem_cons.2 ⟨hapart.left _ mem_cons_self, fun l hl hm => ?_⟩
    exact hs.apart.left l hl (hleft ▸ hleaves ▸ hm)
  · refine forall_mem_cons.2 ⟨hapart.right _ mem_cons_self, fun l hl hm => ?_⟩
    exact hs.apart.right l hl (hright ▸ hm)
  · refine forall_mem_cons.2 ⟨?_, fun l hl => (parent_newToken ..).trans (hs.free l hl)⟩
    exact (parent_newToken ..).trans (parent_of_not_has hnew)

/-- The fragment and its marks go in at a position that parts the children at an index. -/
theorem Shelved.attach (hi : i ≤ (mid.children list).length)
    (htokens : tokens ~ marks ++ (doc.graftVisible fragment).1.leaves)
    (hsub : (doc.graftVisible fragment).1.leaves <+ tokens) (hnodup : nodes.Nodup)
    (hnodes : ∀ n ∈ nodes, n = .branch (doc.rehomeBranch fragment.root) ∨ ∃ l ∈ marks, n = .leaf l)
    (hroot : .branch (doc.rehomeBranch fragment.root) ∈ nodes)
    (hparts : Parts mid p (mid.leftLeaves list) (mid.rightLeaves list)) :
    Lands doc ((mid.insertAt p tokens).insertChildren list i nodes) fragment list
        (doc.rehomeBranch fragment.root) ∧
      ((nodes.flatMap mid.leaves).filter tokens.contains <+ tokens →
        Parts mid p
          (mid.leftLeaves list ++ ((mid.children list).take i).flatMap mid.leaves)
          (((mid.children list).drop i).flatMap mid.leaves ++ mid.rightLeaves list) →
        ((mid.insertAt p tokens).insertChildren list i nodes).Aligned) := by
  have hapart : Apart mid list tokens :=
    ⟨fun l hl => hs.apart.order l (htokens.subset hl),
      fun l hl => hs.apart.left l (htokens.subset hl),
      fun l hl => hs.apart.right l (htokens.subset hl)⟩
  have hnew : ∀ n ∈ nodes, mid.Unseated list n ∧ ¬ doc.Has n := by
    intro n hn
    rcases hnodes n hn with rfl | ⟨l, hl, rfl⟩
    · exact ⟨hs.root, not_has_rehome doc fragment.root⟩
    · have hmem := mem_append_left (doc.graftVisible fragment).1.leaves hl
      exact ⟨unseated_leaf (hs.has l hmem) (hs.free l hl) list, hs.new l hmem⟩
  refine ⟨hs.readied.lands hlist (htokens.nodup_iff.2 hs.nodup)
    (fun l hl => hs.has l (htokens.subset hl)) (fun l hl => hs.new l (htokens.subset hl)) hapart
    hparts hnew hnodup hroot hs.hidden
    (hs.brings.congr rfl fun l _ hl _ => ⟨hsub.subset hl, rfl⟩) i, fun hrow hsides => ?_⟩
  have hwaits := hs.waits.extend hsub (htokens.nodup_iff.2 hs.nodup) fun l hl =>
    (mem_append.1 (htokens.subset hl)).symm.imp_right fun hm =>
      ⟨hs.has l (mem_append_left _ hm), hs.apart.order l (mem_append_left _ hm),
        hs.free l hm⟩
  refine hwaits.insertChildren (hs.readied.evolves.has _ hlist) hapart hi
    (fun n hn => (hnew n hn).1) hnodup (fun y hy => ?_) hrow hsides
  obtain ⟨n, hn, hy⟩ := mem_flatMap.1 hy
  rcases hnodes n hn with rfl | ⟨l, hl, rfl⟩
  · exact hs.hidden y hy
  · rw [leaves_leaf, mem_singleton] at hy
    exact hy ▸ hs.apart.order l (mem_append_left _ hl)

end

theorem Waits.roomy (h : mid.Waits tokens) (hr : Roomy mid room list)
    (ha : room.Aligned) (hev : Grows mid room)
    (hsub : ∀ c, mid.children c ⊆ room.children c) (hapart : Apart mid list tokens) :
    room.Waits tokens := by
  have hd := h.aligned.tree.linked
  have hapart := hr.apart hapart h.has
  refine ⟨ha, h.nodup, fun l hl => hev.has _ (h.has l hl), hapart.order, fun c => ?_⟩
  by_cases hc : mid.Around c list
  · -- what is around the list claims only what is beside it or under it
    refine .inl fun l hl hm => ?_
    have hnear : l ∈ room.toForest.surroundings list := by
      rw [ha.tree.linked.surroundings_of_around (hc.mono hd ha.tree.linked hsub)]
      exact mem_append_right _ (mem_append_left _ hm)
    rw [surroundings, ← append_assoc] at hnear
    exact (mem_append.1 hnear).elim (hapart.left l hl) (hapart.right l hl)
  · have hleaves := hr.leaves_eq hd hc
    rw [hleaves]
    refine (h.claimed c).imp_right (And.imp_left fun hhidden => ?_)
    rw [visibleLeaves, hleaves]
    refine filter_eq_nil_iff.2 fun l hl => ?_
    have hnot : l ∉ mid.visibleLeaves c := by simp [hhidden]
    have hout : l ∉ room.order := fun ho =>
      hnot (mem_visibleLeaves.2 ⟨hl, hr.old l ho (hd.has_of_mem_leaves hl)⟩)
    simpa using hout

theorem Shelved.makeRoom (hs : Shelved doc mid fragment list marks)
    (hlist : doc.Has list) : Shelved doc (mid.makeRoom list).2 fragment list [] := by
  have ha := hs.waits.aligned
  have hd := ha.tree.linked
  have hmid := hs.readied.evolves.has _ hlist
  have hroomy := (bracketed_of_ordered ha.tree ha.ordered hmid).makeRoom.1
  have hroom := (ha.makeRoom hmid).aligned
  have hev : Grows mid (mid.makeRoom list).2 := evolves_makeRoom hd list
  have hnew : ¬ doc.Has (doc.rehomeBranch fragment.root) :=
    not_has_rehome doc fragment.root
  have hapart : Apart mid list (doc.graftVisible fragment).1.leaves :=
    ⟨fun l hl => hs.apart.order l (mem_append_right _ hl),
      fun l hl => hs.apart.left l (mem_append_right _ hl),
      fun l hl => hs.apart.right l (mem_append_right _ hl)⟩
  refine ⟨hs.readied.trans (hroomy.readied ha.tree hev),
    hs.waits.roomy hroomy hroom hev (children_makeRoom_subset hd list) hapart,
    ⟨hev.has _ hs.root.has, hev.free hs.root.has hs.root.free,
      hroomy.root_eq.symm ▸ hs.root.root, ?_⟩,
    fun y hy ho => ?_, (nodup_append.1 hs.nodup).2.1,
    fun l hl => hev.has _ (hs.has l (mem_append_right _ hl)),
    fun l hl => hs.new l (mem_append_right _ hl), hroomy.apart hapart hs.waits.has,
    forall_mem_nil _, hs.brings.congr (hroomy.leaves_eq hd (hs.root.outside _ rfl))
      fun l _ hl _ => ⟨hl, hev.textOf l (hs.waits.has l hl)⟩⟩
  · rintro _ ⟨⟩
    exact (hs.readied.evolves.trans hev).not_around hlist hnew
  · rw [hroomy.leaves_eq hd (hs.root.outside _ rfl)] at hy
    exact hs.hidden y hy (hroomy.old y ho (hd.has_of_mem_leaves hy))

theorem Aligned.parts_front (h : doc.Aligned) {node : Node} {r : Span}
    (hr : doc.range? node = some r) :
    Parts doc r.start (doc.leftLeaves node) (doc.leaves node ++ doc.rightLeaves node) := by
  obtain ⟨hstart, hstop⟩ := h.range_bounds hr
  have hlt := range_nonempty h.tree.order_nodup (h.visible node) hr
  have hparts := h.parts_trivia hstart (hlt.le.trans hstop)
  refine ⟨hparts.left, fun l hl i hi => ?_⟩
  rcases mem_append.1 hl with hl | hl
  · exact (mem_range_of_sublist h.tree.order_nodup (h.visible node) hr
      (mem_visibleLeaves.2 ⟨hl, mem_of_idxOf? hi⟩) hi).1
  · exact hparts.right l hl i hi

theorem Parts.outer (h : Parts doc p (ls ++ ls') (rs' ++ rs)) :
    Parts doc p ls rs :=
  ⟨fun l hl => h.left l (mem_append_left _ hl),
    fun r hr => h.right r (mem_append_right _ hr)⟩

section

variable (h : doc.Aligned) (hlist : doc.Has list) (hf : fragment.Aligned)
include h hlist hf

theorem Aligned.lands_putAfter (hchild : .branch previous ∈ doc.children list)
    (rule : ListRule) : Lands doc (doc.putAfter rule list fragment previous) fragment list
        (doc.rehomeBranch fragment.root) ∧ (doc.putAfter rule list fragment previous).Aligned := by
  have hs := (h.shelved hlist hf rule).newToken hlist " "
  let stock := doc.stock rule fragment
  let space := stock.2.newToken " "
  obtain ⟨xs, ys, hxy, hxs, -⟩ := h.tree.linked.exists_siblings (h.tree.linked.down hchild)
  have hkids : space.2.children list = _ := hs.readied.children_eq.trans hxy
  have hparts := hs.waits.aligned.parts_behind
    (hs.readied.tree.linked.down (hkids ▸ mem_append_right _ mem_cons_self)) hkids hxs
  have hindex : (((space.2.children list).idxOf? (.branch previous)).map (· + 1)).getD 0 =
      xs.length + 1 := by
    rw [hkids, idxOf?_append_cons hxs, map_some, getD_some]
  have htokens : stock.1.toList ++ space.1 :: (doc.graftVisible fragment).1.leaves ~
      space.1 :: stock.1.toList ++ (doc.graftVisible fragment).1.leaves := perm_middle
  have hnodup : (stock.1.toList.map leaf ++
      [branch (doc.rehomeBranch fragment.root)]).Nodup := by cases stock.1 <;> simp
  obtain ⟨hlands, haligned⟩ := hs.attach hlist
    (hindex.le.trans (by rw [hkids, length_append, length_cons]; omega)) htokens
    ((sublist_cons_self ..).trans (sublist_append_right ..)) hnodup
    (by cases stock.1 <;> simp) (by simp) hparts.outer
  refine ⟨hlands.updateComments, (haligned ?_ ?_).updateComments⟩
  · rw [flatMap_append, flatMap_singleton, filter_append]
    refine Sublist.append (filter_sublist.trans ?_)
      ((hs.filter_root htokens.subset).cons _)
    simp [flatMap_map]
  · rw [hindex, hkids, append_cons, take_left' (by simp), drop_left' (by simp)]
    exact hparts

theorem Aligned.lands_putFirst {range : Span} (rule : ListRule)
    (hr : (doc.stock rule fragment).2.range? list = some range) :
    Lands doc (doc.putFirst rule list fragment range.start) fragment list
        (doc.rehomeBranch fragment.root) ∧
      (doc.putFirst rule list fragment range.start).Aligned := by
  have hstock := h.shelved hlist hf rule
  have hs := hstock.newToken hlist " "
  let stock := doc.stock rule fragment
  let space := stock.2.newToken " "
  have hr : space.2.range? list = some range := by
    rw [← hr]
    exact range?_congr rfl (leaves_newToken hstock.readied.tree.linked " " list)
  have hparts := hs.waits.aligned.parts_front hr
  have htokens : (doc.graftVisible fragment).1.leaves ++ stock.1.toList ++ [space.1] ~
      space.1 :: stock.1.toList ++ (doc.graftVisible fragment).1.leaves :=
    (perm_append_singleton ..).trans (.cons _ perm_append_comm)
  have hnodup : (branch (doc.rehomeBranch fragment.root) ::
      stock.1.toList.map leaf).Nodup := by cases stock.1 <;> simp
  have houter : Parts space.2 range.start (space.2.leftLeaves list ++ [])
      (space.2.leaves list ++ space.2.rightLeaves list) := by simpa using hparts
  obtain ⟨hlands, haligned⟩ := hs.attach (i := 0) hlist (Nat.zero_le _) htokens
    ((sublist_append_left ..).trans (sublist_append_left ..)) hnodup
    (by cases stock.1 <;> simp) mem_cons_self houter.outer
  refine ⟨hlands.updateComments, (haligned ?_ ?_).updateComments⟩
  · rw [flatMap_cons, filter_append]
    refine Sublist.trans (Sublist.append (hs.filter_root htokens.subset)
      (filter_sublist.trans ?_)) (sublist_append_left ..)
    simp [flatMap_map]
  · rw [hs.readied.tree.linked.leaves_branch] at houter
    exact houter

theorem Aligned.lands_putAlone (rule : ListRule) :
    Lands doc (doc.putAlone rule list fragment) fragment list (doc.rehomeBranch fragment.root) ∧
      (doc.visibleLeaves list = [] → (doc.putAlone rule list fragment).Aligned) := by
  have hstock := h.shelved hlist hf rule
  have hs := hstock.makeRoom hlist
  have hroom := hstock.waits.aligned.makeRoom (hstock.readied.evolves.has _ hlist)
  obtain ⟨hlands, haligned⟩ := hs.attach (i := 0) hlist (Nat.zero_le _) (.refl _) (.refl _)
    (nodup_singleton _) (fun n hn => .inl (mem_singleton.1 hn))
    (mem_singleton_self _) hroom.parts
  refine ⟨hlands.updateComments, fun hnone => (haligned ?_ ?_).updateComments⟩
  · rw [flatMap_singleton]
    exact hs.filter_root (Subset.refl _)
  · rw [take_zero, flatMap_nil, append_nil, drop_zero]
    refine ⟨hroom.parts.left, fun l hl i hi => (mem_append.1 hl).elim (fun hl => ?_) fun hl =>
      hroom.parts.right l hl i hi⟩
    -- the list shows nothing, so none of its tokens has a position
    obtain ⟨n, hn, hl⟩ := mem_flatMap.1 hl
    rw [hs.readied.children_eq] at hn
    rw [hs.readied.leaves_eq n hn] at hl
    have hvisible : l ∈ doc.visibleLeaves list := by
      have hunder : l ∈ doc.leaves list := by
        rw [h.tree.linked.leaves_branch]
        exact mem_flatMap.2 ⟨n, hn, hl⟩
      exact mem_visibleLeaves.2 ⟨hunder, hs.readied.old l (mem_of_idxOf? hi)
        (h.tree.linked.has_of_mem_leaves hunder)⟩
    simp [hnone] at hvisible

end

/-- A fragment lands beside the elements of a list. The tree stays in order, unless the list shows
something but has no element. -/
theorem Aligned.lands_insertBeside (h : doc.Aligned) (hlist : doc.Has list)
    (hf : fragment.Aligned) (rule : ListRule) (index : Nat) :
    Lands doc (doc.insertBeside rule list index fragment).2 fragment list
        (doc.insertBeside rule list index fragment).1 ∧
      ((doc.listElements rule list = [] → doc.visibleLeaves list = []) →
        (doc.insertBeside rule list index fragment).2.Aligned) := by
  have hroot : (doc.insertBeside rule list index fragment).1 = doc.rehomeBranch fragment.root := rfl
  rw [hroot, doc.insertBeside_eq rule list fragment index]
  split
  · next previous hprevious =>
    split at hprevious
    · cases hprevious
    · obtain ⟨hlands, haligned⟩ := h.lands_putAfter hlist hf
        (mem_listElements.1 (mem_of_getElem? hprevious)).1 rule
      exact ⟨hlands, fun _ => haligned⟩
  · next range _ hrange =>
    split at hrange
    · cases hrange
    · obtain ⟨hlands, haligned⟩ := h.lands_putFirst hlist hf rule hrange
      exact ⟨hlands, fun _ => haligned⟩
  · next hrange =>
    obtain ⟨hlands, haligned⟩ := h.lands_putAlone hlist hf rule
    refine ⟨hlands, fun hnone => haligned ?_⟩
    split at hrange
    · next hempty => exact hnone (isEmpty_iff.1 hempty)
    · have hfresh := Fresh.stock h.tree hlist hf.tree rule
      rw [range?_congr hfresh.order_eq (hfresh.leaves_eq h.tree.linked hlist)] at hrange
      exact range?_eq_none.1 hrange

end Document

end Lossless
