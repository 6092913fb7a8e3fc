import Lossless.Proofs.Aligned
import Lossless.Proofs.Filling
import Lossless.Proofs.Listed

/-! Fragments that come into a document in order. The room that is made for them and the tokens that
go with them stand where the tree says. -/

namespace Lossless.Document

open List Forest Document Node

variable {doc doc' mid fragment laid after : Document} {b optional tuple c : Branch} {node : Node}
  {unit : String} {p : Nat}

/-! ### Fragments -/

theorem Relaid.visibleLeaves_eq (h : doc.IsTree) (hr : doc.Relaid doc')
    (hsub : doc.order ⊆ doc'.order) (hold : ∀ l ∈ doc'.order, doc.Has (.leaf l) → l ∈ doc.order)
    (b : Branch) : doc'.visibleLeaves b = doc.visibleLeaves b := by
  have hleaves : doc'.leaves b = doc.leaves b :=
    h.linked.leaves_congr hr.tree.linked b fun c _ => hr.retexted.children c
  rw [visibleLeaves, visibleLeaves, hleaves]
  refine filter_congr fun l hl => ?_
  have hiff : l ∈ doc'.order ↔ l ∈ doc.order :=
    ⟨fun hm => hold l hm (h.linked.has_of_mem_leaves hl), fun hm => hsub hm⟩
  simp [hiff]

theorem Aligned.relaid (h : doc.Aligned) (hr : doc.Relaid doc') (hsub : doc.order <+ doc'.order)
    (hold : ∀ l ∈ doc'.order, doc.Has (.leaf l) → l ∈ doc.order) : doc'.Aligned := by
  refine aligned_of_visible hr.tree fun b => ?_
  rw [hr.visibleLeaves_eq h.tree hsub.subset hold]
  exact (h.visible _).trans hsub

theorem sublist_increaseIndent (doc : Document) (b : Branch) (unit : String) :
    doc.order <+ (doc.increaseIndent b unit).order := by
  unfold increaseIndent
  split
  · exact .refl _
  · let span := doc.trivia b
    have hmoved := moved_indentTokens unit ((doc.layout.take span.start).getLast?.all Layout.isBreak)
      (doc.leavesIn span) doc.toForest
    rw [doc.order_eq_leavesIn (doc.trivia_start_le b)]
    show _ <+ doc.order.take span.start ++ _ ++ doc.order.drop span.stop
    rw [append_assoc]
    exact (Sublist.refl _).append (hmoved.sub.append (Sublist.refl _))

theorem mem_of_mem_increaseIndent {l : Leaf} (hl : l ∈ (doc.increaseIndent b unit).order)
    (hhas : doc.Has l) : l ∈ doc.order := by
  unfold increaseIndent at hl
  split at hl
  · exact hl
  · let span := doc.trivia b
    have hmoved := moved_indentTokens unit ((doc.layout.take span.start).getLast?.all Layout.isBreak)
      (doc.leavesIn span) doc.toForest
    rw [doc.order_eq_leavesIn (doc.trivia_start_le b)]
    have hl : l ∈ doc.order.take span.start ++ _ ++ doc.order.drop span.stop := hl
    rw [append_assoc, mem_append, mem_append] at hl
    rcases hl with hl | hl | hl
    · exact mem_append_left _ hl
    · rcases hmoved.cases l hl with hl | ⟨hnew, -⟩
      · exact mem_append_right _ (mem_append_left _ hl)
      · exact absurd hhas hnew
    · exact mem_append_right _ (mem_append_right _ hl)

theorem Aligned.increaseIndent (h : doc.Aligned) (b : Branch) (unit : String) :
    (doc.increaseIndent b unit).Aligned :=
  h.relaid (h.tree.increaseIndent b unit) (doc.sublist_increaseIndent b unit) fun _ =>
    mem_of_mem_increaseIndent

theorem Aligned.endLine (h : doc.Aligned) : doc.endLine.Aligned := by
  rcases doc.endLine_cases with he | he <;> rw [he]
  · exact h
  · exact (h.loose_newToken _).insertAt _

theorem Aligned.wrapRoot (h : doc.Aligned) (kind : Kind) : (doc.wrapRoot kind).Aligned := by
  have htree := h.tree.wrapRoot kind
  have hnew := doc.not_has_addContainer { kind }
  refine aligned_of_visible htree fun b => ?_
  have hvisible : ∀ n, (doc.wrapRoot kind).leaves (.branch b) = doc.leaves n →
      (doc.wrapRoot kind).visibleLeaves (.branch b) <+ (doc.wrapRoot kind).order := by
    intro n hn
    rw [visibleLeaves, hn]
    exact h.visible n
  by_cases hb : b = (doc.wrapRoot kind).root
  · exact hvisible _ (hb ▸ leaves_wrapRoot h.tree kind)
  · refine hvisible (.branch b) (h.tree.linked.leaves_congr htree.linked b fun c hc => ?_)
    -- nothing is around a container that is not there yet
    rw [children_wrapRoot, if_neg]
    rintro rfl
    exact not_around_free (parent_of_not_has hnew) hb hc

theorem aligned_ofSource (grammar : Grammar) (kind : Kind) (source : String) :
    (ofSource grammar kind source).Aligned := by
  have hlinked := linked_ofSource grammar kind source
  refine aligned_of_visible (isTree_ofSource ..) fun b => ?_
  refine filter_sublist.trans ?_
  rw [hlinked.leaves_branch, children_ofSource]
  split
  · rw [flatMap_map]
    have hkeys : (((range (sourceTokens source).length).map Leaf.mk).zip
        (sourceTokens source)).map Prod.fst = (ofSource grammar kind source).order :=
      map_fst_zip (by simp)
    rw [← hkeys]
    simp only [leaves_leaf, ← map_eq_flatMap]
    exact filter_sublist.map Prod.fst
  · exact nil_sublist _

/-! ### Room -/

structure Room (doc : Document) (b : Branch) (p : Nat) : Prop where
  aligned : doc.Aligned
  has : doc.Has b
  parts : Parts doc p (doc.leftLeaves b) (doc.rightLeaves b)

section

variable {p q i : Nat}

theorem Aligned.room (h : doc.Aligned) (hb : doc.Has b)
    (hstart : (doc.trivia b).start ≤ p) (hstop : p ≤ (doc.trivia b).stop) :
    Room doc b p :=
  ⟨h, hb, h.parts_trivia hstart hstop⟩

/-- A token that comes in at the position leaves room on both sides of it. -/
theorem Room.insertNew (h : Room doc b p) (text : String) (hp : p ≤ q) (hq : q ≤ p + 1) :
    Room ((doc.newToken text).2.insertAt p [(doc.newToken text).1]) b q := by
  have hd := h.aligned.tree.linked
  have haligned := (h.aligned.loose_newToken text).insertAt p
  have hfresh := not_has_newToken doc text
  obtain ⟨hleft, hright⟩ := ((Rewired.refl doc.toForest b).addToken text).beside_eq hd
    haligned.tree.linked h.has
  -- old tokens of the text keep their place, or stand one further
  have hold : ∀ l i, doc.Has (.leaf l) →
      ((doc.newToken text).2.insertAt p [(doc.newToken text).1]).position? l = some i →
      ∃ j, (doc.newToken text).2.position? l = some j := by
    intro l i hl hi
    refine exists_position ((mem_insertAt.1 (mem_of_idxOf? hi)).resolve_left fun hm => ?_)
    rw [mem_singleton.1 hm] at hl
    exact hfresh hl
  have hbeside := hd.has_beside b
  refine ⟨haligned, has_newToken_of_has h.has text, fun l hl i hi => ?_, fun r hr i hi => ?_⟩
  · have hl : l ∈ doc.leftLeaves b := hleft ▸ hl
    obtain ⟨j, hj⟩ := hold l i (hbeside l (mem_append_left _ hl)) hi
    have hlt : j < p := h.parts.left l hl j hj
    rw [position?_insertAt_left haligned.tree.order_nodup hj hlt] at hi
    cases hi
    omega
  · have hr : r ∈ doc.rightLeaves b := hright ▸ hr
    obtain ⟨j, hj⟩ := hold r i (hbeside r (mem_append_right _ hr)) hi
    have hle : p ≤ j := h.parts.right r hr j hj
    rw [position?_insertAt_right haligned.tree.order_nodup hj hle] at hi
    cases hi
    simp only [length_singleton]
    omega

theorem leaves_of_not_has (h : ¬ doc.Has b) : doc.leaves b = [] :=
  leaves_of_children_nil (eq_nil_iff_forall_not_mem.2 fun _ hn =>
    h (has_of_mem_children hn))

theorem has_of_separateSlot {delimiter : String} {c : Branch}
    (h : (doc.separateSlot tuple delimiter p i).Has c) : doc.Has c := by
  have hm : ((doc.newToken delimiter).2.newToken " ").2.Has c :=
    has_insertChild.1 h
  exact hm

theorem Aligned.separateSlot (h : doc.Aligned) (hp : doc.parent b = some tuple)
    (delimiter : String)
    (hi : i = ((doc.children tuple).idxOf? (.branch b)).getD 0 ∧
        Parts doc p (doc.leftLeaves b)
          (doc.leaves b ++ doc.rightLeaves b) ∨
      i = ((doc.children tuple).idxOf? (.branch b)).getD 0 + 1 ∧
        Parts doc p (doc.leftLeaves b ++ doc.leaves b)
          (doc.rightLeaves b)) :
    (doc.separateSlot tuple delimiter p i).Aligned := by
  have hd := h.tree.linked
  have htuple := hd.has_parent hp
  obtain ⟨xs, ys, hxy, hxs, -⟩ := hd.exists_siblings hp
  have hfresh := not_has_newToken doc delimiter
  have hspace := not_has_newToken (doc.newToken delimiter).2 " "
  have hev : Grows doc (doc.separateSlot tuple delimiter p i) :=
    evolves_separateSlot hd htuple delimiter p i
  have hlisted := h.tree.listed.separateSlot tuple delimiter p i
  have hkids : (doc.separateSlot tuple delimiter p i).children tuple =
      (doc.children tuple).take i ++ ([.leaf (doc.newToken delimiter).1] ++
        (doc.children tuple).drop i) :=
    children_separateSlot htuple delimiter p i
  rw [hd.leftLeaves_of_parent hp hxy hxs, hd.rightLeaves_of_parent hp hxy hxs, hxy,
    idxOf?_append_cons hxs, Option.getD_some] at hi
  have hsides : Parts doc p
      (doc.leftLeaves tuple ++ ((doc.children tuple).take i).flatMap doc.leaves)
      (((doc.children tuple).drop i).flatMap doc.leaves ++ doc.rightLeaves tuple) := by
    rcases hi with ⟨rfl, hparts⟩ | ⟨rfl, hparts⟩
    · simpa [hxy] using hparts
    · rw [hxy, take_length_add_append, drop_length_add_append]
      simpa using hparts
  refine h.attach htuple (rewired_separateSlot htuple delimiter p i)
    (hev.isTree h.tree hlisted.has hlisted.nodup) rfl ?_ ?_ hkids
    (by rw [take_append_drop]) (.inl ⟨hsides, ?_⟩)
  · intro l hl
    rcases mem_pair.1 hl with rfl | rfl
    · exact hfresh
    · exact fun hl => hspace (has_newToken_of_has hl _)
  · intro c hc
    rw [visibleLeaves, leaves_of_not_has (mt has_of_separateSlot hc)]
    exact nil_sublist _
  · simp only [flatMap_cons, flatMap_nil, append_nil, leaves_leaf]
    exact filter_sublist.trans (singleton_sublist.2 mem_cons_self)

theorem clauseBreak?_bounds {span : Span} (hi : doc.clauseBreak? span = some i) :
    span.start ≤ i ∧ i < span.stop := by
  obtain ⟨hi, hstop⟩ := Option.filter_eq_some_iff.1 hi
  obtain ⟨j, -, rfl⟩ := Option.map_eq_some_iff.1 hi
  exact ⟨Nat.le_add_right .., of_decide_eq_true hstop⟩

section

variable (h : doc.Aligned) (hb : doc.Has b)
include h hb

theorem Aligned.makeSlotRoom (hp : doc.parent b = some tuple) (delimiter : String) :
    Room (doc.makeSlotRoom tuple b delimiter).2 b
      (doc.makeSlotRoom tuple b delimiter).1 := by
  have hd := h.tree.linked
  have hhas : ∀ p i, (doc.separateSlot tuple delimiter p i).Has b := fun p i => by
    have hev : Grows doc (doc.separateSlot tuple delimiter p i) :=
      evolves_separateSlot hd (hd.has_parent hp) delimiter p i
    exact hev.has _ hb
  have hroom : ∀ after : Document, after.Aligned → after.Has b →
      Room after b (after.trivia b).stop := fun after ha hhas =>
    ha.room hhas (after.trivia_start_le _) le_rfl
  show Room _ b ((doc.makeSlotRoom tuple b delimiter).2.trivia b).stop
  rcases makeSlotRoom_cases doc tuple b delimiter with
    ⟨l, i, hl, hi, he⟩ | ⟨r, i, hr, hi, he⟩ | he <;> rw [he]
  · have hstart : (doc.trivia b).start = i + 1 := by simp [trivia, hl, hi]
    have hparts := h.parts_start b
    rw [hstart] at hparts
    exact hroom _ (h.separateSlot hp delimiter (.inl ⟨rfl, hparts⟩)) (hhas ..)
  · have hmem : r ∈ doc.rightLeaves b := by
      rw [rightLeaf?_eq hd] at hr
      exact mem_of_mem_filter (mem_of_mem_head? hr)
    have hstop : i ≤ (doc.trivia b).stop := by simp [trivia, hr, hi]
    have hparts := h.parts_stop b
    rw [(h.trivia_stop_le hmem hi).antisymm hstop] at hparts
    exact hroom _ (h.separateSlot hp delimiter (.inr ⟨rfl, hparts⟩)) (hhas ..)
  · exact hroom doc h hb

theorem Aligned.makeRoom : Room (doc.makeRoom b).2 b (doc.makeRoom b).1 := by
  have hle := doc.trivia_start_le b
  have hstart := h.room hb le_rfl hle
  have hstop := h.room hb hle le_rfl
  unfold Document.makeRoom
  dsimp only
  split
  · exact hstart
  · next hparent =>
    split
    · exact h.makeSlotRoom hb hparent _
    · exact hstop
    · split
      · exact hstop
      · split
        · exact hstop
        · split
          · exact hstart.insertNew " " (Nat.le_succ _) le_rfl
          · exact hstop.insertNew " " le_rfl (Nat.le_succ _)

theorem Aligned.optionalPlace (hnil : doc.children b = []) (rule : OptionalRule) : ∃ base,
    Room base b (doc.optionalPlace rule b).1.1 ∧ base.children b = [] ∧
      Fresh base (doc.optionalPlace rule b).2 b (doc.optionalPlace rule b).1.2 ∧
      ∀ c, (doc.optionalPlace rule b).2.Has (.branch c) → base.Has (.branch c) := by
  have hle := doc.trivia_start_le b
  unfold Document.optionalPlace
  dsimp only
  split
  · have hroom := h.makeRoom hb
    have hroomy := (bracketed_of_ordered h.tree h.ordered hb).makeRoom.1
    exact ⟨_, hroom, hroomy.list_eq.trans hnil, .nil hroom.aligned.tree b, fun _ hc => hc⟩
  · exact ⟨doc, h.room hb le_rfl hle, hnil, .nil h.tree b, fun _ hc => hc⟩
  · split
    · next hi =>
      obtain ⟨hstart, hstop⟩ := clauseBreak?_bounds hi
      exact ⟨doc, h.room hb (hstart.trans (Nat.le_succ _)) hstop, hnil, .nil h.tree b,
        fun _ hc => hc⟩
    · exact ⟨doc, h.room hb hle le_rfl, hnil, (Fresh.nil h.tree b).newToken _, fun _ hc => hc⟩
  · refine ⟨doc, ?_, hnil, .nil h.tree b, fun _ hc => hc⟩
    cases hi : doc.clauseBreak? (doc.trivia b) with
    | none => exact h.room hb hle le_rfl
    | some i =>
      obtain ⟨hstart, hstop⟩ := clauseBreak?_bounds hi
      exact h.room hb hstart hstop.le

end

end

/-! ### Content -/

theorem visibleLeaves_new {ls tokens : List Leaf} (h : doc.IsTree)
    (hb : doc.Has b) (hl : laid.Aligned) (hafter : after.Linked)
    (horder : after.order = (doc.insertAt p tokens).order)
    (hkids : ∀ c, c ≠ b → after.children c = (doc.graft laid).2.children c)
    (hls : ls <+ laid.order) (hplaced : ls.map doc.rehomeLeaf <+ tokens)
    (honly : ∀ l, laid.Has (.leaf l) → doc.rehomeLeaf l ∈ tokens → l ∈ ls)
    (hc : ¬ doc.Has (.branch c)) : after.visibleLeaves (.branch c) <+ ls.map doc.rehomeLeaf := by
  have hgraft := (h.graft hl.tree.linked).linked
  by_cases hg : (doc.graft laid).2.Has (.branch c)
  · obtain ⟨n, -, hn⟩ := (has_graft_iff.1 hg).resolve_left hc
    cases n with
    | leaf l => cases hn
    | branch c' =>
      cases hn
      refine visibleLeaves_rehomed h horder ?_ hplaced honly hl hls
      refine (hgraft.leaves_congr hafter _ fun d hd => hkids d ?_).trans
        (leaves_graft_rehome h.linked hl.tree.linked c')
      rintro rfl
      exact not_around_graft h.linked hb c' hd
  · have hnil : after.children c = [] := by
      rw [hkids c fun he => hc (he ▸ hb)]
      exact eq_nil_iff_forall_not_mem.2 fun _ hn => hg (has_of_mem_children hn)
    rw [visibleLeaves, leaves_of_children_nil hnil]
    exact nil_sublist _

theorem pushChildren_spec {nodes : List Node} (hr : doc.Rewired mid.toForest b)
    (hb : mid.Has b) (hnew : ∀ n ∈ nodes, ¬ doc.Has n) (hhas : ∀ n ∈ nodes, mid.Has n) :
    doc.Rewired (nodes.foldl (·.pushChild b ·) mid).toForest b ∧
      (nodes.foldl (·.pushChild b ·) mid).order = mid.order ∧
      ∀ c, (nodes.foldl (·.pushChild b ·) mid).children c =
        if c = b then mid.children b ++ nodes else mid.children c := by
  induction nodes generalizing mid with
  | nil => exact ⟨hr, rfl, fun c => by split <;> simp [*]⟩
  | cons n nodes ih =>
    have hn := hhas n mem_cons_self
    have hstep : doc.Rewired (mid.pushChild b n).toForest b := by
      show doc.Rewired (mid.toForest.pushChild b n) b
      rw [pushChild_eq_insertChild]
      exact hr.insertChild hb (hnew n mem_cons_self) hn _
    obtain ⟨hrewired, horder, hkids⟩ := ih hstep (has_pushChild.2 hb)
      (fun m hm => hnew m (mem_cons_of_mem _ hm))
      (fun m hm => has_pushChild.2 (hhas m (mem_cons_of_mem _ hm)))
    refine ⟨hrewired, horder, fun c => (hkids c).trans ?_⟩
    have hone : ∀ d, (mid.pushChild b n).children d = _ := children_pushChild hb n
    rw [hone, hone]
    split <;> simp [*]

theorem textOf_pushChildren (b : Branch) (nodes : List Node) (doc : Document) (l : Leaf) :
    (nodes.foldl (·.pushChild b ·) doc).textOf l = doc.textOf l := by
  induction nodes generalizing doc with
  | nil => rfl
  | cons n nodes ih => exact (ih _).trans (textOf_pushChild ..)

/-- The content of an optional is a fragment laid out as its place asks; a space may stand before
it. Content without lines of its own starts with the first token of its root. -/
theorem exists_content (h : doc.IsTree) (hf : fragment.Aligned) (rule : OptionalRule)
    (b : Branch) : ∃ laid ls before, laid.Aligned ∧ ls <+ laid.order ∧
      (doc.optionalContent rule b fragment).1.root = doc.rehomeBranch laid.root ∧
      (doc.optionalContent rule b fragment).1.leaves = before ++ ls.map doc.rehomeLeaf ∧
      Fresh (doc.graft laid).2 (doc.optionalContent rule b fragment).2 b before ∧
      (∀ c, (doc.optionalContent rule b fragment).2.children c = (doc.graft laid).2.children c) ∧
      (rule.placement ≠ .multiline → ls = laid.coveredLeaves (.branch laid.root)) ∧
      ∀ l ∈ before, (doc.optionalContent rule b fragment).2.textOf l = " " := by
  have hindent := hf.increaseIndent fragment.root (doc.indent b)
  unfold optionalContent
  dsimp only
  split
  · have hend := hindent.endLine
    exact ⟨_, _, [], hend, .refl _, rfl, rfl, .nil (h.graft hend.tree.linked) b, fun _ => rfl,
      fun hne => absurd (by assumption) hne, forall_mem_nil _⟩
  · refine ⟨_, _, [_], hindent, coveredLeaves_sublist .., rfl, rfl,
      (Fresh.nil (h.graft hindent.tree.linked) b).newToken " ", fun _ => rfl, fun _ => rfl, ?_⟩
    exact forall_mem_singleton.2 (textOf_newToken ..)
  · exact ⟨_, _, [], hf, coveredLeaves_sublist .., rfl, rfl, .nil (h.graft hf.tree.linked) b,
      fun _ => rfl, fun _ => rfl, forall_mem_nil _⟩
  · exact ⟨_, _, [], hf, coveredLeaves_sublist .., rfl, rfl, .nil (h.graft hf.tree.linked) b,
      fun _ => rfl, fun _ => rfl, forall_mem_nil _⟩

theorem children_newLiteral (doc : Document) (text : String) (c : Branch) :
    (doc.newLiteral text).2.children c = doc.children c := by
  rcases doc.newLiteral_cases text with he | he <;> rw [he]
  rfl

section

variable {base place grown after : Document} {p : Nat} {nodes : List Node}
  {before opening middle closing ls new : List Leaf}

/-- What has come in with a fragment: its tokens in the text behind those that wait for it, its root
and its marks among the children of a container. -/
structure ComesIn (place laid after : Document) (b : Branch) (p : Nat) (ls before new : List Leaf)
    (nodes : List Node) : Prop where
  rewired : place.Rewired after.toForest b
  order_eq : after.order = (place.insertAt p (before ++ new)).order
  children_eq : after.children b = place.children b ++ nodes
  fresh : ∀ l ∈ new, ¬ place.Has (.leaf l)
  placed : ls.map place.rehomeLeaf <+ new
  visible : ∀ c, ¬ place.Has (.branch c) →
    after.visibleLeaves (.branch c) <+ ls.map place.rehomeLeaf
  leaves_root : after.leaves (.branch (place.rehomeBranch laid.root)) =
    (laid.leaves laid.root).map place.rehomeLeaf

theorem comesIn_of_fresh (hplace : place.IsTree) (hb : place.Has b)
    (hbefore : ∀ l ∈ before, place.Has (.leaf l)) (hl : laid.Aligned) (hls : ls <+ laid.order)
    (hgrown : Fresh (place.graft laid).2 grown b (closing ++ (opening ++ middle)))
    (hkids : ∀ c, grown.children c = (place.graft laid).2.children c)
    (hnew : new = opening ++ (middle ++ ls.map place.rehomeLeaf) ++ closing)
    (hnodes : nodes = opening.map leaf ++ [.branch (place.rehomeBranch laid.root)] ++
      closing.map leaf)
    (hafter : after = nodes.foldl (·.pushChild b ·) (grown.insertAt p (before ++ new)))
    (htree : after.IsTree) : ComesIn place laid after b p ls before new nodes := by
  have hgraft : Fresh place (place.graft laid).2 b (ls.map place.rehomeLeaf) :=
    .graft hplace hb hl.tree (hl.tree.order_nodup.sublist hls) hls.subset
  have hall := hgraft.trans hgrown
  have hfresh : ∀ l ∈ new, ¬ place.Has (.leaf l) := by
    intro l hm
    refine hall.new l ?_
    simp only [hnew, mem_append] at hm ⊢
    tauto
  have hnode : ∀ n ∈ nodes, ¬ place.Has n ∧ grown.Has n := by
    intro n hn
    have hcases : n = .branch (place.rehomeBranch laid.root) ∨
        ∃ l, n = .leaf l ∧ l ∈ closing ++ (opening ++ middle) := by
      simp only [hnodes, mem_append, mem_map, mem_singleton] at hn ⊢
      rcases hn with (⟨l, hm, rfl⟩ | rfl) | ⟨l, hm, rfl⟩
      · exact .inr ⟨l, rfl, .inr (.inl hm)⟩
      · exact .inl rfl
      · exact .inr ⟨l, rfl, .inl hm⟩
    rcases hcases with rfl | ⟨l, rfl, hm⟩
    · refine ⟨not_has_rehome place laid.root, ?_⟩
      exact hgrown.rewired.has _ (has_graft_iff.2 (.inr ⟨_, hl.tree.root_has, rfl⟩))
    · exact ⟨hall.new l (mem_append_left _ hm), hgrown.has l hm⟩
  have hstart : place.Rewired (grown.insertAt p (before ++ new)).toForest b := hall.rewired
  obtain ⟨hrewired, horder, hchildren⟩ := pushChildren_spec hstart (hall.rewired.has _ hb)
    (fun n hn => (hnode n hn).1) (fun n hn => (hnode n hn).2)
  have hplaced : ls.map place.rehomeLeaf <+ new := by
    rw [hnew]
    exact ((sublist_append_right ..).trans (sublist_append_right ..)).trans
      (sublist_append_left ..)
  -- a token of the fragment is none of the marks around it
  have honly : ∀ l, laid.Has (.leaf l) → place.rehomeLeaf l ∈ before ++ new → l ∈ ls := by
    intro l hhas hm
    have hmarks : place.rehomeLeaf l ∉ closing ++ (opening ++ middle) := fun hmark =>
      hgrown.new _ hmark (has_graft_iff.2 (.inr ⟨.leaf l, hhas, rfl⟩))
    have hbefore : place.rehomeLeaf l ∉ before := fun hm =>
      not_has_rehome place (.leaf l) (hbefore _ hm)
    have hmem : place.rehomeLeaf l ∈ ls.map place.rehomeLeaf := by
      simp only [hnew, mem_append] at hm hmarks
      tauto
    exact (mem_map_of_injective (rehomeLeaf_injective place)).1 hmem
  rw [← hafter] at hrewired horder hchildren
  have horder : after.order = (place.insertAt p (before ++ new)).order := by
    rw [horder]
    simp only [insertAt, hall.order_eq]
  have hkept : ∀ d, d ≠ b → after.children d = (place.graft laid).2.children d := by
    intro d hd
    rw [hchildren, if_neg hd]
    exact hkids d
  refine ⟨hrewired, horder, ?_, hfresh, hplaced, fun c hc => ?_, ?_⟩
  · rw [hchildren, if_pos rfl]
    exact congrArg (· ++ nodes) hall.children_eq
  · exact visibleLeaves_new hplace hb hl htree.linked horder hkept hls
      (hplaced.trans (sublist_append_right ..)) honly hc
  · refine (hgraft.tree.linked.leaves_congr htree.linked _ fun d hd => hkept d ?_).trans
      (leaves_graft_rehome hplace.linked hl.tree.linked laid.root)
    rintro rfl
    exact not_around_graft hplace.linked hb laid.root hd

/-- A fragment that comes in without what it does not cover begins with its first visible token. -/
theorem ComesIn.firstLeaf?_root (hc : ComesIn place laid after b p ls before new nodes)
    (hplace : place.Linked) (hl : laid.Linked) (hls : ls = laid.coveredLeaves laid.root) :
    after.firstLeaf? (.branch (place.rehomeBranch laid.root)) =
      (ls.map place.rehomeLeaf).head? := by
  have hvisible := hc.visible _ (not_has_rehome place laid.root)
  have horder : ∀ l ∈ ls.map place.rehomeLeaf, l ∈ after.order := by
    intro l hm
    rw [hc.order_eq]
    simp [insertAt, hc.placed.subset hm]
  by_cases hne : ls = []
  · rw [hne, map_nil, sublist_nil] at hvisible
    rw [firstLeaf?, hvisible, hne]
    rfl
  have hends := (ends_graft_covered hplace hl (hls ▸ hne)).1
  rw [← rehome, leaves_graft_rehome hplace hl, ← hc.leaves_root, ← hls] at hends
  rw [← hends, firstLeaf?, visibleLeaves]
  congr 1
  refine filter_congr fun l hm => ?_
  rw [Bool.eq_iff_iff, contains_iff_mem, contains_iff_mem]
  exact ⟨fun ho => hvisible.subset (mem_filter.2 ⟨hm, contains_iff_mem.2 ho⟩), horder l⟩

theorem Room.fill (h : Room base b p) (hnone : base.children b = [])
    (hplace : Fresh base place b before)
    (hbranch : ∀ c, place.Has (.branch c) → base.Has (.branch c))
    (hc : ComesIn place laid after b p ls before new nodes)
    (hnew : new = opening ++ (middle ++ ls.map place.rehomeLeaf) ++ closing)
    (hnodes : nodes = opening.map leaf ++ [.branch (place.rehomeBranch laid.root)] ++
      closing.map leaf) (htree : after.IsTree) : after.Aligned := by
  have horder : after.order = (base.insertAt p (before ++ new)).order := by
    rw [hc.order_eq]
    simp only [insertAt, hplace.order_eq]
  have hrow : after.children b = [] ++ (nodes ++ []) := by
    rw [hc.children_eq, hplace.children_eq, hnone, append_nil]
  refine h.aligned.attach h.has (hplace.rewired.trans hc.rewired) htree horder (fun l hl => ?_)
    (fun c hnew => ?_) hrow (nil_sublist _) (.inl ⟨?_, ?_⟩)
  · rcases mem_append.1 hl with hl | hl
    · exact hplace.new l hl
    · exact fun hd => hc.fresh l hl (hplace.rewired.has _ hd)
  · refine ((hc.visible c fun hm => hnew (hbranch c hm)).trans hc.placed).trans ?_
    rw [horder]
    exact (sublist_append_right ..).trans
      ((sublist_append_right ..).trans (sublist_append_left ..))
  · simpa using h.parts
  · have hmarks : ∀ marks : List Leaf, (marks.map leaf).flatMap after.leaves = marks := by
      intro marks
      simp [flatMap_map]
    rw [hnodes, flatMap_append, flatMap_append, hmarks, hmarks, flatMap_singleton,
      filter_append, filter_append, hnew]
    refine (Sublist.append (Sublist.append filter_sublist ?_)
      filter_sublist).trans (sublist_append_right ..)
    exact (hc.visible _ (not_has_rehome place laid.root)).trans
      (sublist_append_right ..)

end

theorem map_textOf_newLiteral (doc : Document) (text : String) :
    (doc.newLiteral text).1.toList.map (doc.newLiteral text).2.textOf =
      if text.isEmpty then [] else [text] := by
  rw [newLiteral]
  split
  · rfl
  · simp [textOf_newToken]

section

variable (h : doc.Aligned) (hb : doc.Has b) (hnil : doc.children b = [])
  (hf : fragment.Aligned) (rule : OptionalRule)
include h hb hnil hf

theorem Aligned.exists_comesIn : ∃ laid ls opening middle closing new nodes,
    (doc.fillOptional rule b fragment).1 = (doc.optionalPlace rule b).2.rehomeBranch laid.root ∧
    (doc.fillOptional rule b fragment).2.IsTree ∧
    ComesIn (doc.optionalPlace rule b).2 laid (doc.fillOptional rule b fragment).2 b
      (doc.optionalPlace rule b).1.1 ls (doc.optionalPlace rule b).1.2 new nodes ∧
    new = opening ++ (middle ++ ls.map (doc.optionalPlace rule b).2.rehomeLeaf) ++ closing ∧
    nodes = opening.map leaf ++ [.branch (doc.fillOptional rule b fragment).1] ++
      closing.map leaf ∧
    (rule.placement ≠ .multiline →
      (doc.fillOptional rule b fragment).2.firstLeaf?
          (.branch (doc.fillOptional rule b fragment).1) =
        (ls.map (doc.optionalPlace rule b).2.rehomeLeaf).head?) ∧
    opening.map (doc.fillOptional rule b fragment).2.textOf =
      (if rule.opening.isEmpty then [] else [rule.opening]) ∧
    ∀ l ∈ middle, (doc.fillOptional rule b fragment).2.textOf l = " " := by
  have hev : Grows doc (doc.fillOptional rule b fragment).2 :=
    evolves_fillOptional h.tree.linked hf.tree (fun _ _ _ => trivial) hb trivial rule
  have hlisted := h.tree.listed.fillOptional hf.tree.listed rule b
  have htree := hev.isTree h.tree hlisted.has hlisted.nodup
  obtain ⟨base, hroom, -, hplace, -⟩ := h.optionalPlace hb hnil rule
  unfold fillOptional at htree ⊢
  dsimp only at htree ⊢
  generalize doc.optionalPlace rule b = place at hroom hplace htree ⊢
  obtain ⟨laid, ls, middle, hlaid, hls, hroot, hleaves, hcontent, hkids, hcovered, htexts⟩ :=
    exists_content hplace.tree hf rule b
  generalize place.2.optionalContent rule b fragment = content
    at hroot hleaves hcontent hkids htexts htree ⊢
  have hkids := fun c => (children_newLiteral content.2 rule.opening c).trans (hkids c)
  have hfirst := (Fresh.nil hcontent.tree b).newLiteral rule.opening
  have hopen := hcontent.newLiteral rule.opening
  have hopening := content.2.map_textOf_newLiteral rule.opening
  generalize content.2.newLiteral rule.opening = opening at hkids hfirst hopen hopening htree ⊢
  have hkids := fun c => (children_newLiteral opening.2 rule.closing c).trans (hkids c)
  have hlast := (Fresh.nil hopen.tree b).newLiteral rule.closing
  have hclose := hopen.newLiteral rule.closing
  generalize opening.2.newLiteral rule.closing = closing at hkids hlast hclose htree ⊢
  rw [hleaves, hroot] at htree ⊢
  rw [append_assoc, append_assoc, ← append_assoc opening.1.toList] at htree ⊢
  have hcomes := comesIn_of_fresh hplace.tree (hplace.rewired.has _ hroom.has) hplace.has hlaid hls
    hclose hkids rfl rfl rfl (htree.congr rfl rfl rfl)
  refine ⟨laid, ls, opening.1.toList, middle, closing.1.toList, _, _, rfl, htree,
    ⟨hcomes.rewired, hcomes.order_eq, hcomes.children_eq, hcomes.fresh, hcomes.placed,
      hcomes.visible, hcomes.leaves_root⟩, rfl, rfl, fun hrule => ?_, ?_, fun l hl => ?_⟩
  · exact hcomes.firstLeaf?_root hplace.tree.linked hlaid.tree.linked (hcovered hrule)
  · rw [← hopening]
    refine map_congr_left fun l hl => (textOf_pushChildren ..).trans ?_
    exact hlast.rewired.textOf l (hfirst.has l (by simpa using hl))
  · have hmiddle := hcontent.has l hl
    refine (textOf_pushChildren ..).trans ((hlast.rewired.textOf l ?_).trans ?_)
    · exact hfirst.rewired.has _ hmiddle
    · exact (hfirst.rewired.textOf l hmiddle).trans (htexts l hl)

/-- An optional without children gets a fragment with its marks. -/
theorem Aligned.fillOptional : (doc.fillOptional rule b fragment).2.Aligned := by
  obtain ⟨laid, ls, opening, middle, closing, new, nodes, hroot, htree, hcomes, hnew, hnodes, -⟩ :=
    h.exists_comesIn hb hnil hf rule
  obtain ⟨base, hroom, hnone, hplace, hbranch⟩ := h.optionalPlace hb hnil rule
  exact hroom.fill hnone hplace hbranch hcomes hnew (hroot ▸ hnodes) htree

end

theorem Aligned.takeIn {ls : List Leaf} {xs ys nodes : List Node}
    (h : doc.Aligned) (hb : doc.Has b) (hl : laid.Aligned) (hls : ls <+ laid.order)
    (hr : doc.Rewired after.toForest b) (htree : after.IsTree)
    (horder : after.order = (doc.insertAt p (ls.map doc.rehomeLeaf)).order)
    (hkids : ∀ c, c ≠ b → after.children c = (doc.graft laid).2.children c)
    (hrow : after.children b = xs ++ (nodes ++ ys)) (hxy : xs ++ ys <+ doc.children b)
    (hplace : nodes = [] ∨ nodes = [.branch (doc.rehomeBranch laid.root)] ∧
      (Parts doc p (doc.leftLeaves b ++ xs.flatMap doc.leaves)
          (ys.flatMap doc.leaves ++ doc.rightLeaves b) ∨
        after.range? (.branch (doc.rehomeBranch laid.root)) = none)) : after.Aligned := by
  have hvisible : ∀ c, ¬ doc.Has (.branch c) →
      after.visibleLeaves (.branch c) <+ ls.map doc.rehomeLeaf := fun c =>
    visibleLeaves_new h.tree hb hl htree.linked horder hkids hls (.refl _) fun l _ hm =>
      (mem_map_of_injective (rehomeLeaf_injective doc)).1 hm
  refine h.attach hb hr htree horder (fun l hm => ?_) (fun c hc => ?_) hrow hxy ?_
  · obtain ⟨m, -, rfl⟩ := mem_map.1 hm
    exact not_has_rehome doc m
  · refine (hvisible c hc).trans ?_
    rw [horder]
    exact (sublist_append_right ..).trans (sublist_append_left ..)
  · rcases hplace with rfl | ⟨rfl, hparts | hnone⟩
    · exact .inr rfl
    · rw [flatMap_singleton]
      exact .inl ⟨hparts, hvisible _ (not_has_rehome doc laid.root)⟩
    · rw [flatMap_singleton]
      exact .inr (range?_eq_none.1 hnone)

/-! ### Another child -/

theorem order_discard_covered {r : Span} (hn : doc.order.Nodup) (hr : doc.range? node = some r)
    (hle : r.start ≤ r.stop) : (doc.discard (doc.coveredLeaves node)).order =
      doc.order.take r.start ++ doc.order.drop r.stop := by
  have hcovered : doc.coveredLeaves node = doc.leavesIn r := by rw [coveredLeaves, hr]
  have hsplit := doc.order_eq_leavesIn hle
  have hn' := hn
  rw [hsplit] at hn'
  obtain ⟨-, hrest, hleft⟩ := nodup_append.1 hn'
  have hright := (nodup_append.1 hrest).2.2
  have hgone : (doc.discard (doc.leavesIn r)).order =
      (doc.order.take r.start ++ (doc.leavesIn r ++ doc.order.drop r.stop)).filter
        (!(doc.leavesIn r).contains ·) := by
    rw [← hsplit]
    rfl
  rw [hcovered, hgone, filter_append, filter_append]
  have htake : (doc.order.take r.start).filter (!(doc.leavesIn r).contains ·) =
      doc.order.take r.start :=
    filter_eq_self.2 fun l hl => by
      simpa using fun hm => hleft l hl l (mem_append_left _ hm) rfl
  have hdrop : (doc.order.drop r.stop).filter (!(doc.leavesIn r).contains ·) =
      doc.order.drop r.stop :=
    filter_eq_self.2 fun l hl => by simpa using fun hm => hright l hm l hl rfl
  have hnil : (doc.leavesIn r).filter (!(doc.leavesIn r).contains ·) = [] :=
    filter_eq_nil_iff.2 fun l hl => by simpa using hl
  rw [htake, hdrop, hnil, nil_append]

theorem Aligned.parts_discard (h : doc.Aligned) (node : Node) :
    Parts (doc.discard (doc.coveredLeaves node))
      ((doc.range? node).getD (doc.trivia node)).start
      (doc.leftLeaves node) (doc.rightLeaves node) := by
  cases hr : doc.range? node with
  | none =>
    have hsame : doc.discard (doc.coveredLeaves node) = doc := by
      simp [coveredLeaves, hr, Document.discard]
    rw [hsame, Option.getD_none]
    exact h.parts_trivia le_rfl (doc.trivia_start_le node)
  | some r =>
    obtain ⟨hstart, hstop⟩ := h.range_bounds hr
    have hlt := range_nonempty h.tree.order_nodup (h.visible node) hr
    have horder := order_discard_covered h.tree.order_nodup hr hlt.le
    have hlength : (doc.order.take r.start).length = r.start := by
      have := doc.trivia_stop_le_length node
      rw [length_take]
      omega
    have hparts : Parts (doc.discard (doc.coveredLeaves node)) (doc.order.take r.start).length
        (doc.leftLeaves node) (doc.rightLeaves node) := by
      refine parts_of_append (h.discard (doc.coveredLeaves node)).tree.order_nodup horder
        (fun l hl ho => ?_) fun l hl ho => ?_
      · obtain ⟨j, hj⟩ := exists_position (mem_of_mem_filter ho)
        have hlt := h.lt_trivia_start hl hj
        refine mem_of_getElem? (i := j) ?_
        rw [getElem?_take_of_lt (by omega)]
        exact getElem?_of_idxOf? hj
      · obtain ⟨j, hj⟩ := exists_position (mem_of_mem_filter ho)
        have hle := h.trivia_stop_le hl hj
        refine mem_of_getElem? (i := j - r.stop) ?_
        rw [getElem?_drop, Nat.add_sub_cancel' (by omega)]
        exact getElem?_of_idxOf? hj
    rwa [hlength] at hparts

section

variable {parent old : Branch} (h : doc.Aligned) (hf : fragment.Aligned)
  (hp : doc.parent old = some parent)
include h hf hp

theorem Aligned.substitute : (doc.substitute old fragment).2.Aligned := by
  have hd := h.tree.linked
  have hb := hd.has_parent hp
  have hev : Grows doc (doc.substitute old fragment).2 :=
    (evolves_swapped hd hf.tree (fun _ _ _ => trivial) hp trivial).1
  have hlisted := h.tree.listed.substitute hf.tree.listed old
  have hrow : (doc.substitute old fragment).2.children parent =
      doc.children parent ++ ([] ++ []) := by
    rw [append_nil, append_nil]
    exact children_graft_of_has hb ..
  refine (h.discard (doc.coveredLeaves old)).takeIn hb hf (coveredLeaves_sublist ..)
    (Rewired.graft hb) (hev.isTree h.tree hlisted.has hlisted.nodup) rfl (fun _ _ => rfl)
    hrow ?_ (.inl rfl)
  rw [append_nil]
  exact .refl _

theorem Aligned.swapped : (Edit.swapped doc old parent fragment).Aligned := by
  have hd := h.tree.linked
  have hb := hd.has_parent hp
  obtain ⟨xs, ys, hxy, hxs, -⟩ := hd.exists_siblings hp
  have hev : Grows doc (Edit.swapped doc old parent fragment) :=
    (evolves_swapped hd hf.tree (fun _ _ _ => trivial) hp trivial).2
  have hlisted : (Edit.swapped doc old parent fragment).Listed [] :=
    ((h.tree.listed.substitute hf.tree.listed old).replaceChild ..).updateComments
  have hsub : (doc.substitute old fragment).2.children parent = doc.children parent :=
    children_graft_of_has hb ..
  have hgrown : (doc.substitute old fragment).2.Has parent :=
    has_graft_iff.2 (.inl hb)
  have hkids : ∀ c, (Edit.swapped doc old parent fragment).children c = _ :=
    children_replaceChild hgrown _ _
  have hparts := h.parts_discard old
  rw [hd.leftLeaves_of_parent hp hxy hxs, hd.rightLeaves_of_parent hp hxy hxs] at hparts
  have hmem : branch old ∈ (doc.substitute old fragment).2.children parent :=
    hsub ▸ hd.up hp
  have hrow : (Edit.swapped doc old parent fragment).children parent =
      xs ++ ([.branch (doc.substitute old fragment).1] ++ ys) := by
    rw [hkids, if_pos rfl, hsub, hxy, replace_append, if_neg hxs]
    simp
  refine (h.discard (doc.coveredLeaves old)).takeIn hb hf (coveredLeaves_sublist ..)
    ?_ (hev.isTree h.tree hlisted.has hlisted.nodup) rfl (fun c hc => (hkids c).trans (if_neg hc))
    hrow ?_ (.inr ⟨rfl, .inl hparts⟩)
  · have hgraft : (doc.discard (doc.coveredLeaves old)).Rewired
        (doc.substitute old fragment).2.toForest parent := Rewired.graft hb
    show Rewired _ ((doc.substitute old fragment).2.toForest.replaceChild parent old
      (.branch (doc.substitute old fragment).1)) parent
    refine hgraft.replaceChild hmem ?_ ?_ ?_
    · exact has_graft_iff.2 (.inl (hd.has_child (hd.up hp)))
    · exact not_has_rehome _ fragment.root
    · exact has_graft_iff.2 (.inr ⟨_, hf.tree.root_has, rfl⟩)
  · show xs ++ ys <+ doc.children parent
    rw [hxy]
    exact (Sublist.refl xs).append (sublist_cons_self ..)

end

end Lossless.Document
