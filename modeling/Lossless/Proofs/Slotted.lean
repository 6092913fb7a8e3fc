import Lossless.Proofs.Attaching
import Lossless.Proofs.Turns

/-! Tuples between brackets. Their slots are a row; a delimiter comes in before a slot or goes away
from it with the space behind it, and a content comes into a slot or goes away. -/

namespace Lossless.Document

open List Layout Forest Entry Node

/-- A tuple between brackets has the given slots. -/
structure Slotted (doc : Document) (delimiter : String) (tuple : Branch) (s : Brackets)
    (entries : List Entry) : Prop where
  row : doc.Row tuple s entries
  shape : doc.shapeOf tuple = .tuple delimiter
  joint : ∀ e ∈ entries, ∀ j, e.joint = some j → doc.textOf j.1 = delimiter ∧ doc.textOf j.2 = " "

variable {doc doc' after fragment grown room : Document} {delimiter : String}
  {tuple b root slot : Branch} {s : Brackets} {entries entries' ls rs : List Entry} {e f : Entry}
  {j : Leaf × Leaf} {p : Nat} {rule : OptionalRule}

theorem Slotted.of_row (h : doc.Slotted delimiter tuple s entries)
    (hr : doc.Rewired doc'.toForest b) (hgrammar : doc'.grammar = doc.grammar)
    (hrow : doc'.Row tuple s entries')
    (hjoint : ∀ e ∈ entries', ∀ j, e.joint = some j → (∃ e₀ ∈ entries, e₀.joint = some j) ∨
      doc'.textOf j.1 = delimiter ∧ doc'.textOf j.2 = " ") :
    doc'.Slotted delimiter tuple s entries' := by
  refine ⟨hrow, ?_, fun e he j hj => ?_⟩
  · rw [shapeOf, hgrammar, hr.kindOf tuple h.row.has_list]
    exact h.shape
  · rcases hjoint e he j hj with ⟨e₀, he₀, hj₀⟩ | hnew
    · have hhas := fun l hl => h.row.tree.order_has l (h.row.mem_order hl)
      obtain ⟨h₁, h₂⟩ := joint_mem_body he₀ hj₀
      rw [hr.textOf _ (hhas _ h₁), hr.textOf _ (hhas _ h₂)]
      exact h.joint e₀ he₀ j hj₀
    · exact hnew

/-! ### Delimiters -/

section

variable (h : doc.Slotted delimiter tuple s (ls ++ e :: rs))
include h

theorem Slotted.separate (hj : e.joint = none) :
    ∃ j, (doc.separateSlot tuple delimiter (s.before ++ s.opening :: body ls).length
        (children ls).length).Slotted delimiter tuple s
      (ls ++ { e with joint := some j } :: rs) := by
  have htuple := h.row.has_list
  have htree := h.row.tree
  let p := (s.before ++ s.opening :: body ls).length
  let i := (children ls).length
  have hev : Grows doc (doc.separateSlot tuple delimiter p i) :=
    evolves_separateSlot htree.linked htuple delimiter p i
  have hlisted := htree.listed.separateSlot tuple delimiter p i
  have hfresh := not_has_newToken doc delimiter
  have hspace := not_has_newToken (doc.newToken delimiter).2 " "
  let joint : Leaf × Leaf := ((doc.newToken delimiter).1, ((doc.newToken delimiter).2.newToken " ").1)
  have horder : doc.order = (s.before ++ s.opening :: body ls) ++
      (e.leaves ++ (body rs ++ s.closing :: s.after)) := by
    rw [h.row.order_eq]
    simp [Brackets.around, jointLeaves, hj]
  have hkids : doc.children tuple =
      children ls ++ branch e.element :: children rs := by
    rw [h.row.children_eq]
    simp [nodes, hj]
  have hrewired := rewired_separateSlot htuple delimiter p i
  refine ⟨joint, h.of_row hrewired rfl ?_ ?_⟩
  · refine h.row.step_of_rewired hrewired (hev.isTree htree hlisted.has hlisted.nodup)
      ?_ ?_ ?_ ?_
    · show doc.order.take p ++ [joint.1, joint.2] ++ doc.order.drop p = _
      rw [append_assoc, horder, splice_append rfl]
      simp [Brackets.around, jointLeaves]
    · rw [children_separateSlot htuple, hkids, splice_append rfl]
      simp [nodes, joint]
    · intro l hl hhas
      refine (mem_insertAt.1 hl).resolve_left fun hm => ?_
      rcases mem_pair.1 hm with rfl | rfl
      · exact hfresh hhas
      · exact hspace (has_newToken_of_has hhas _)
    · intro f hf
      rcases mem_of_mem_replace (e := e) hf with hf | rfl
      · exact Or.inl ⟨f, hf, rfl, rfl⟩
      · exact Or.inl ⟨e, by simp, rfl, rfl⟩
  · intro f hf k hk
    rcases mem_of_mem_replace (e := e) hf with hf | rfl
    · exact Or.inl ⟨f, hf, hk⟩
    · cases hk
      refine Or.inr ⟨?_, ?_⟩
      · refine (textOf_insertChild ..).trans ?_
        exact (textOf_newToken_of_has (has_newToken doc delimiter) " ").trans
          (textOf_newToken doc delimiter)
      · exact (textOf_insertChild ..).trans (textOf_newToken (doc.newToken delimiter).2 " ")

theorem Slotted.split_joint
    (hj : e.joint = some j) :
    doc.order = (s.before ++ s.opening :: body ls) ++ ([j.1, j.2] ++
        (e.leaves ++ (body rs ++ s.closing :: s.after))) ∧
      doc.children tuple =
        children ls ++ leaf j.1 :: (.branch e.element :: children rs) := by
  rw [h.row.order_eq, h.row.children_eq]
  exact ⟨by simp [Brackets.around, jointLeaves, hj], by simp [nodes, hj]⟩

theorem Slotted.trivia_joint
    (hj : e.joint = some j) (hls : Entry.Settled ls) :
    doc.trivia j.1 = ⟨(s.before ++ s.opening :: body ls).length,
      (s.before ++ s.opening :: body ls).length + [j.1, j.2].length⟩ := by
  obtain ⟨horder, hkids⟩ := h.split_joint hj
  have hfirst := (h.row.covers e (by simp)).first
  refine trivia_of_block h.row.tree.order_nodup horder ?_ ?_
  · rw [h.row.leftLeaf?_child hkids, h.row.findSome?_lastLeaf? (by simp), hls.getLast?_or]
  · rw [h.row.rightLeaf?_child hkids, findSome?_cons, hfirst,
      h.row.findSome?_firstLeaf? (by simp)]
    cases e.leaves <;> cases body rs <;> rfl

theorem Slotted.unseparate
    (hj : e.joint = some j) (hls : Entry.Settled ls) :
    ((doc.cut (doc.trivia j.1)).removeChild tuple j.1).Slotted delimiter tuple s
      (ls ++ { e with joint := none } :: rs) := by
  have htree := h.row.tree
  obtain ⟨horder, hkids⟩ := h.split_joint hj
  have hrewired : doc.Rewired
      ((doc.cut (doc.trivia j.1)).removeChild tuple j.1).toForest tuple :=
    (Rewired.refl doc.toForest tuple).removeChild j.1
  refine h.of_row hrewired rfl
    (h.row.step_of_rewired hrewired ((htree.cut _).removeChild ..) ?_ ?_ ?_ ?_) ?_
  · refine (order_cut doc (trivia_start_le ..)).trans ?_
    rw [h.trivia_joint hj hls, horder]
    refine (cut_middle ..).trans ?_
    simp [Brackets.around, jointLeaves]
  · refine (children_removeChild ..).trans ((if_pos rfl).trans ?_)
    have hnd := htree.linked.once tuple
    show (doc.children tuple).erase _ = _
    rw [hkids] at hnd ⊢
    rw [erase_middle hnd]
    simp [nodes]
  · exact fun l hl _ => (cut_sublist doc _).subset hl
  · intro f hf
    rcases mem_of_mem_replace (e := e) hf with hf | rfl
    · exact Or.inl ⟨f, hf, rfl, rfl⟩
    · exact Or.inl ⟨e, by simp, rfl, rfl⟩
  · intro f hf k hk
    rcases mem_of_mem_replace (e := e) hf with hf | rfl
    · exact Or.inl ⟨f, hf, hk⟩
    · cases hk

end

theorem Row.parent_child {node : Node} (h : doc.Row tuple s entries)
    (hn : node ∈ children entries) : doc.parent node = some tuple := by
  refine h.tree.linked.down ?_
  rw [h.children_eq]
  exact hn

theorem Row.findSome?_before (h : doc.Row tuple s (ls ++ e :: rs)) :
    (children ls ++ e.joint.toList.map fun j => leaf j.1).reverse.findSome?
      doc.lastLeaf? = (shown ls ++ e.joint.toList.map Prod.fst).getLast? := by
  rw [reverse_append, findSome?_append, h.findSome?_lastLeaf? (by simp),
    getLast?_append]
  cases hj : e.joint with
  | none => simp
  | some j =>
    have hvisible := h.mem_order (joint_mem_body (by simp) hj).1
    simp [lastLeaf?, hvisible]

theorem Slotted.slotDelimiter?_eq (h : doc.Slotted delimiter tuple s (ls ++ e :: rs))
    (hj : ∀ l, neighbour? ls e rs = some l → doc.textOf l = delimiter) :
    doc.slotDelimiter? tuple e.element delimiter = neighbour? ls e rs := by
  have hkids := h.row.children_eq.trans (children_entry ls rs e)
  have hleft := h.row.filter_leftLeaf? hkids
  have hright := h.row.filter_rightLeaf? hkids
  rw [h.row.findSome?_before] at hleft
  rw [h.row.findSome?_firstLeaf? (by simp)] at hright
  have hfilter : ∀ x : Option Leaf,
      x.filter (fun l => doc.contains tuple (.leaf l) && doc.textOf l == delimiter) =
        (x.filter fun l => doc.contains tuple (.leaf l)).filter (doc.textOf · == delimiter) := by
    intro x
    cases x with
    | none => rfl
    | some l => cases hc : doc.contains tuple (.leaf l) <;> simp [Option.filter, hc]
  rw [slotDelimiter?, hfilter, hfilter, hleft, hright]
  rw [neighbour?] at hj ⊢
  cases hl : (shown ls ++ e.joint.toList.map Prod.fst).getLast? with
  | none =>
    rw [hl, Option.none_or] at hj
    cases hr : (body rs).head? with
    | none => rfl
    | some r => simp [hj r hr]
  | some l =>
    rw [hl, Option.some_or] at hj
    simp [hj l rfl]

/-! ### Contents -/

theorem covers_of_children_nil (hnil : doc.children e.element = []) :
    doc.Covers { e with leaves := [] } := by
  have hvisible : doc.visibleLeaves e.element = [] := by
    rw [visibleLeaves, leaves_of_children_nil hnil]
    rfl
  exact ⟨by simp [hvisible], by simp [firstLeaf?, hvisible], by simp [lastLeaf?, hvisible]⟩

theorem Slotted.vacate (h : doc.Slotted delimiter tuple s (ls ++ e :: rs)) (hl : e.leaves ≠ []) :
    ∃ r, doc.range? e.element = some r ∧
      ((doc.cut r).clearChildren e.element).Slotted delimiter tuple s
        (ls ++ { e with leaves := [] } :: rs) := by
  have htree := h.row.tree
  refine ⟨_, h.row.range?_entry hl, ?_⟩
  let r : Span := ⟨(s.before ++ s.opening :: (body ls ++ e.jointLeaves)).length,
    (s.before ++ s.opening :: (body ls ++ e.jointLeaves)).length + e.leaves.length⟩
  have hrewired : doc.Rewired ((doc.cut r).clearChildren e.element).toForest e.element :=
    (Rewired.refl doc.toForest e.element).clearChildren
  refine h.of_row hrewired rfl
    (h.row.step_of_element hrewired ((htree.cut _).clearChildren _) ?_ ?_ ?_) ?_
  · refine (order_cut doc (Nat.le_add_right ..)).trans ?_
    rw [h.row.order_eq, around_body]
    refine (cut_middle ..).trans ?_
    simp [Brackets.around, jointLeaves]
  · exact fun l hl _ => (cut_sublist doc r).subset hl
  · exact covers_of_children_nil ((children_clearChildren ..).trans (if_pos rfl))
  · intro f hf k hk
    rcases mem_of_mem_replace (e := e) hf with hf | rfl
    · exact Or.inl ⟨f, hf, hk⟩
    · exact Or.inl ⟨e, by simp, hk⟩

theorem Slotted.clearChildren (h : doc.Slotted delimiter tuple s (ls ++ e :: rs))
    (hl : e.leaves = []) :
    (doc.clearChildren e.element).Slotted delimiter tuple s (ls ++ e :: rs) := by
  have htree := h.row.tree
  have he : { e with leaves := [] } = e := by rw [← hl]
  have hrewired : doc.Rewired (doc.clearChildren e.element).toForest e.element :=
    (Rewired.refl doc.toForest e.element).clearChildren
  have hrow : (doc.clearChildren e.element).Row tuple s (ls ++ { e with leaves := [] } :: rs) := by
    refine h.row.step_of_element hrewired (htree.clearChildren _) ?_ (fun l hl _ => hl) ?_
    · rw [he]
      exact h.row.order_eq
    · exact covers_of_children_nil ((children_clearChildren ..).trans (if_pos rfl))
  rw [he] at hrow
  exact h.of_row hrewired rfl hrow fun f hf k hk => Or.inl ⟨f, hf, hk⟩

theorem Slotted.updateComments (h : doc.Slotted delimiter tuple s entries) :
    doc.updateComments.Slotted delimiter tuple s entries := by
  have hrewired : doc.Rewired doc.updateComments.toForest tuple := Rewired.refl ..
  have hrow : doc.updateComments.Row tuple s entries :=
    h.row.step_of_rewired hrewired h.row.tree.updateComments h.row.order_eq
      h.row.children_eq (fun _ hl _ => hl) fun e he => Or.inl ⟨e, he, rfl, rfl⟩
  exact h.of_row hrewired rfl hrow fun e he j hj => Or.inl ⟨e, he, hj⟩

/-! ### Clearing -/

section

variable (h : doc.Slotted delimiter tuple s (ls ++ e :: rs))
include h

theorem Slotted.parent_slot : doc.parent e.element = some tuple :=
  h.row.parent_child (element_mem_children (by simp))

theorem Slotted.closeRoom_eq :
    doc.closeRoom e.element = doc.closeSlotRoom tuple e.element delimiter := by
  simp only [closeRoom, h.parent_slot, h.shape]

theorem Slotted.closeRoom (hs : Entry.Settled (ls ++ e :: rs)) (hl : e.leaves ≠ []) :
    ∃ ls' rs', contents ls' = contents ls ∧ contents rs' = contents rs ∧
      Entry.Settled ls' ∧
      Entry.Settled (ls' ++ { e with joint := none, leaves := [] } :: rs') ∧
      (doc.closeRoom e.element).Slotted delimiter tuple s
        (ls' ++ { e with joint := none } :: rs') := by
  obtain ⟨ls', rs', hleft, hright, hls', hs', ⟨hnone, heq⟩ | ⟨pre, f, post, j, hsplit, hj, hpre, hsome,
    heq⟩⟩ := hs.clear hl
  · refine ⟨ls', rs', hleft, hright, hls', hs', ?_⟩
    have hdelimiter := h.slotDelimiter?_eq (by simp [hnone])
    simp only [h.closeRoom_eq, closeSlotRoom, hdelimiter, hnone]
    rw [heq]
    exact h
  · refine ⟨ls', rs', hleft, hright, hls', hs', ?_⟩
    have hf : f ∈ ls ++ e :: rs := by simp [hsplit]
    have hdelimiter := h.slotDelimiter?_eq fun l hl => by
      rw [hsome] at hl
      cases hl
      exact (h.joint f hf j hj).1
    have hparent : doc.parent j.1 = some tuple := by
      refine h.row.parent_child (mem_flatMap.2 ⟨f, hf, ?_⟩)
      simp [nodes, hj]
    have hcut : (doc.cut (doc.trivia j.1)).parent j.1 = some tuple := hparent
    simp only [h.closeRoom_eq, closeSlotRoom, hdelimiter, hsome, hcut]
    rw [heq]
    rw [hsplit] at h
    exact h.unseparate hj hpre

/-- Clearing a slot with content. -/
theorem Slotted.clearOptional (hrule : rule.placement = .spaced)
    (hs : Entry.Settled (ls ++ e :: rs)) (hl : e.leaves ≠ []) :
    ∃ ls' rs', contents ls' = contents ls ∧ contents rs' = contents rs ∧
      Entry.Settled ls' ∧
      Entry.Settled (ls' ++ { e with joint := none, leaves := [] } :: rs') ∧
      (doc.clearOptional rule e.element).Slotted delimiter tuple s
        (ls' ++ { e with joint := none, leaves := [] } :: rs') := by
  obtain ⟨ls', rs', hleft, hright, hls', hs', hclosed⟩ := h.closeRoom hs hl
  obtain ⟨r, hr, hvacated⟩ := hclosed.vacate hl
  refine ⟨ls', rs', hleft, hright, hls', hs', ?_⟩
  have hr : (doc.closeRoom e.element).range? e.element = some r := hr
  simp only [Document.clearOptional, h.row.range?_entry hl, cutOptional, hrule, hr]
  exact hvacated.updateComments

theorem Slotted.clearOptional_absent (rule : OptionalRule) (hl : e.leaves = []) :
    doc.clearOptional rule e.element = doc.clearChildren e.element := by
  rw [Document.clearOptional, (h.row.covers e (by simp)).range?_eq_none hl]

end

/-! ### Room for a content -/

theorem makeSlotRoom_snd (doc : Document) (tuple : Branch) (slot : Node) (delimiter : String) :
    (doc.makeSlotRoom tuple slot delimiter).2 =
      let index := ((doc.children tuple).idxOf? slot).getD 0
      match ((doc.leftLeaf? slot).filter fun l => doc.contains tuple (.leaf l)).bind doc.position?,
        ((doc.rightLeaf? slot).filter fun l => doc.contains tuple (.leaf l)).bind doc.position? with
      | some i, _ => doc.separateSlot tuple delimiter (i + 1) index
      | none, some i => doc.separateSlot tuple delimiter i (index + 1)
      | none, none => doc :=
  rfl

section

variable (h : doc.Slotted delimiter tuple s (ls ++ e :: rs))
include h

theorem Slotted.trivia_stop (hl : e.leaves = []) :
    (doc.trivia e.element).stop =
      (s.before ++ s.opening :: (body ls ++ e.jointLeaves)).length := by
  have hkids := h.row.children_eq.trans (children_entry ls rs e)
  have horder : doc.order = (s.before ++ s.opening :: (body ls ++ e.jointLeaves)) ++
      (body rs ++ s.closing :: s.after) := by
    rw [h.row.order_eq, around_body, hl, nil_append]
  refine trivia_stop_of_block h.row.tree.order_nodup horder (fun l hm => ?_) ?_
  · rw [h.row.leftLeaf?_child hkids, h.row.findSome?_before, Option.mem_def,
      Option.or_eq_some_iff] at hm
    rcases hm with hm | ⟨-, hm⟩
    · rcases mem_append.1 (mem_of_getLast? hm) with hm | hm
      · simp [shown_subset_body ls hm]
      · simp [mem_jointLeaves hm]
    · cases hm
      simp
  · rw [h.row.rightLeaf?_child hkids, h.row.findSome?_firstLeaf? (by simp)]
    cases body rs <;> rfl

/-- A slot gets its delimiter, or gives one to the next slot, or is the only one with content. -/
theorem Slotted.makeRoom (hs : Entry.Settled (ls ++ e :: rs)) (hj : e.joint = none)
    (hl : e.leaves = []) (hls : Entry.Settled ls) :
    ∃ joint rs', contents rs' = contents rs ∧
      (doc.makeRoom e.element).2.Slotted delimiter tuple s (ls ++ { e with joint } :: rs') ∧
      (doc.makeRoom e.element).1 =
        (s.before ++ s.opening :: (body ls ++ ({ e with joint } : Entry).jointLeaves)).length ∧
      ∀ new, new ≠ [] → Entry.Settled (ls ++ { e with joint, leaves := new } :: rs') := by
  have hkids := h.row.children_eq.trans (children_entry ls rs e)
  have hleft := h.row.filter_leftLeaf? hkids
  have hright := h.row.filter_rightLeaf? hkids
  have hindex := h.row.idxOf?_entry
  rw [h.row.findSome?_before, hj, Option.toList_none, map_nil, append_nil] at hleft
  rw [h.row.findSome?_firstLeaf? (by simp)] at hright
  rw [hj, Option.toList_none, map_nil, append_nil] at hindex
  have hroom : doc.makeRoom e.element = doc.makeSlotRoom tuple e.element delimiter := by
    simp only [Document.makeRoom, h.parent_slot, h.shape]
  have horder : doc.order = (s.before ++ s.opening :: body ls) ++
      (body rs ++ s.closing :: s.after) := by
    rw [h.row.order_eq, around_body, hl, nil_append]
    simp [jointLeaves, hj]
  have hn := h.row.tree.order_nodup
  rw [hroom]
  have hplace : ∀ {joint rs'},
      (doc.makeSlotRoom tuple e.element delimiter).2.Slotted delimiter tuple s
        (ls ++ { e with joint } :: rs') →
      (doc.makeSlotRoom tuple e.element delimiter).1 =
        (s.before ++ s.opening :: (body ls ++ ({ e with joint } : Entry).jointLeaves)).length :=
    fun hslotted => hslotted.trivia_stop hl
  rcases hs.fill hj hl hls with ⟨hfilled, hset⟩ | ⟨hblank, hrest, hset⟩ |
    ⟨hblank, f, rest, rfl, hf, hne, hset⟩
  · -- the last token before the slot is a content
    obtain ⟨l, hshown, hbody⟩ := getLast?_of_filled hfilled
    have hlast : (s.before ++ s.opening :: body ls).getLast? = some l := by
      simp [getLast?_append, getLast?_cons, hbody]
    have hposition := position?_of_last hn horder hlast
    have hmade : (doc.makeSlotRoom tuple e.element delimiter).2 =
        doc.separateSlot tuple delimiter (s.before ++ s.opening :: body ls).length
          (children ls).length := by
      simp only [makeSlotRoom_snd, hleft, hshown, Option.bind_some, hposition, hindex,
        Option.getD_some]
      congr 1
      simp only [length_append, length_cons]
      omega
    obtain ⟨joint, hslotted⟩ := h.separate hj
    rw [← hmade] at hslotted
    exact ⟨some joint, rs, rfl, hslotted, hplace hslotted, hset joint⟩
  · have hmade : (doc.makeSlotRoom tuple e.element delimiter).2 = doc := by
      simp [makeSlotRoom_snd, hleft, hright, hblank.shown_eq, hrest.body_eq]
    have he : { e with joint := none } = e := by rw [← hj]
    have hslotted : (doc.makeSlotRoom tuple e.element delimiter).2.Slotted delimiter tuple s
        (ls ++ { e with joint := none } :: rs) := by
      rw [hmade, he]
      exact h
    refine ⟨none, rs, rfl, hslotted, hplace hslotted, fun new hnew => ?_⟩
    rw [← hj]
    exact hset new hnew
  · -- there is a content on the right only, and nothing in the text before it
    obtain ⟨r, hr⟩ := Option.ne_none_iff_exists'.1
      (mt head?_eq_none_iff.1 fun hnil => hne (blank_of_body hnil))
    have hposition : doc.position? r = some _ := position?_of_head hn horder (by
      rw [head?_append, hr, Option.some_or])
    have hmade : (doc.makeSlotRoom tuple e.element delimiter).2 =
        doc.separateSlot tuple delimiter (s.before ++ s.opening :: body (ls ++ [e])).length
          (children (ls ++ [e])).length := by
      simp only [makeSlotRoom_snd, hleft, hblank.shown_eq, getLast?_nil, Option.bind_none,
        hright, hr, Option.bind_some, hposition, hindex, Option.getD_some]
      simp [jointLeaves, nodes, hj, hl]
    have h' : doc.Slotted delimiter tuple s ((ls ++ [e]) ++ f :: rest) := by simpa using h
    obtain ⟨joint, hslotted⟩ := h'.separate hf
    have he : { e with joint := none } = e := by rw [← hj]
    rw [← hmade, append_assoc, singleton_append, ← he] at hslotted
    refine ⟨none, { f with joint := some joint } :: rest, by simp [contents], hslotted,
      hplace hslotted, fun new hnew => ?_⟩
    rw [← hj]
    exact hset joint new hnew

end

/-! ### A content -/

theorem visibleLeaves_map_leaf {ls : List Leaf} (h : ∀ l ∈ ls, l ∈ doc.order) :
    (ls.map leaf).flatMap doc.visibleLeaves = ls := by
  rw [flatMap_map]
  refine (flatMap_congr fun l hl => ?_).trans (flatMap_singleton' ls)
  simp [h l hl]

theorem grammar_pushChildren (b : Branch) (nodes : List Node) (doc : Document) :
    (nodes.foldl (·.pushChild b ·) doc).grammar = doc.grammar := by
  induction nodes generalizing doc with
  | nil => rfl
  | cons n nodes ih => exact ih _

/-- A document that has taken in a content for a slot: an element between two literals. Its tokens
are not in the text yet. -/
structure Content (doc grown : Document) (slot root : Branch) (opening covered closing : List Leaf) :
    Prop where
  fresh : Fresh doc grown slot (closing ++ (opening ++ covered))
  grammar_eq : grown.grammar = doc.grammar
  root_has : grown.Has root
  root_new : ¬ doc.Has root
  leaves : ∀ l ∈ grown.leaves root, ¬ doc.Has l ∧ l ∉ opening ∧ l ∉ closing
  first : ((grown.leaves root).filter covered.contains).head? = covered.head?
  last : ((grown.leaves root).filter covered.contains).getLast? = covered.getLast?

/-- A slot without children that has taken tokens in: they stand together at a position, and the
slot reaches from the first to the last of them. -/
structure Filled (doc after : Document) (slot : Branch) (p : Nat) (tokens : List Leaf) : Prop where
  rewired : doc.Rewired after.toForest slot
  grammar_eq : after.grammar = doc.grammar
  order_eq : after.order = (doc.insertAt p tokens).order
  new : ∀ l ∈ tokens, ¬ doc.Has l
  within : ∀ l ∈ after.visibleLeaves slot, l ∈ tokens
  first : after.firstLeaf? slot = tokens.head?
  last : after.lastLeaf? slot = tokens.getLast?

theorem Content.filled
    {opening covered closing tokens : List Leaf} {nodes : List Node}
    (hc : Content doc grown slot root opening covered closing) (hd : doc.IsTree)
    (hslot : doc.Has slot) (hnil : doc.children slot = [])
    (htokens : tokens = opening ++ covered ++ closing)
    (hnodes : nodes = opening.map leaf ++ [.branch root] ++ closing.map leaf)
    (htree : (nodes.foldl (·.pushChild slot ·) (grown.insertAt p tokens)).IsTree) :
    Filled doc (nodes.foldl (·.pushChild slot ·) (grown.insertAt p tokens)) slot p tokens := by
  obtain ⟨hfresh, hgrammar, hroot, hnew, hleaves, hfirst, hlast⟩ := hc
  have hmem : ∀ l ∈ tokens, l ∈ closing ++ (opening ++ covered) := by
    intro l hl
    rw [htokens] at hl
    simp only [mem_append] at hl ⊢
    tauto
  have hnode : ∀ n ∈ nodes, ¬ doc.Has n ∧ (grown.insertAt p tokens).Has n := by
    intro n hn
    rw [hnodes] at hn
    simp only [mem_append, mem_map, mem_singleton] at hn
    rcases hn with (⟨l, hl, rfl⟩ | rfl) | ⟨l, hl, rfl⟩
    · exact ⟨hfresh.new l (by simp [hl]), hfresh.has l (by simp [hl])⟩
    · exact ⟨hnew, hroot⟩
    · exact ⟨hfresh.new l (by simp [hl]), hfresh.has l (by simp [hl])⟩
  have hrewired : doc.Rewired (grown.insertAt p tokens).toForest slot := hfresh.rewired
  obtain ⟨hrewired, horder, hkids⟩ := pushChildren_spec hrewired (hfresh.rewired.has _ hslot)
    (fun n hn => (hnode n hn).1) fun n hn => (hnode n hn).2
  have hgrammar' := (grammar_pushChildren slot nodes (grown.insertAt p tokens)).trans hgrammar
  generalize nodes.foldl (·.pushChild slot ·) (grown.insertAt p tokens) = after
    at htree hrewired horder hkids hgrammar' ⊢
  have horder : after.order = (doc.insertAt p tokens).order := by
    rw [horder]
    simp only [Document.insertAt, hfresh.order_eq]
  have hin : ∀ l, l ∈ after.order ↔ l ∈ tokens ∨ l ∈ doc.order := by
    intro l
    rw [horder, mem_insertAt]
  have hunder : after.leaves root = grown.leaves root := by
    refine hfresh.tree.linked.leaves_congr htree.linked root fun c hc => ?_
    have hne : c ≠ slot := by
      rintro rfl
      exact hfresh.rewired.not_around hd.linked hslot hnew hc
    rw [hkids, if_neg hne]
    rfl
  have hvisible : after.visibleLeaves slot =
      opening ++ (grown.leaves root).filter covered.contains ++ closing := by
    have hkids' : after.children slot = nodes := by
      rw [hkids, if_pos rfl]
      show grown.children slot ++ nodes = nodes
      rw [hfresh.children_eq, hnil, nil_append]
    have hmiddle : after.visibleLeaves root =
        (grown.leaves root).filter covered.contains := by
      rw [visibleLeaves, hunder]
      refine filter_congr fun l hl => ?_
      obtain ⟨hl₁, hl₂, hl₃⟩ := hleaves l hl
      have hnot : l ∉ doc.order := fun ho => hl₁ (hd.order_has l ho)
      simp [contains_eq_mem, hin, htokens, hl₂, hl₃, hnot]
    rw [visibleLeaves_branch htree.linked, hkids', hnodes, flatMap_append,
      flatMap_append, flatMap_singleton, hmiddle, visibleLeaves_map_leaf,
      visibleLeaves_map_leaf]
    · exact fun l hl => (hin l).2 (Or.inl (by simp [htokens, hl]))
    · exact fun l hl => (hin l).2 (Or.inl (by simp [htokens, hl]))
  refine ⟨hrewired, hgrammar', horder, fun l hl => hfresh.new l (hmem l hl), ?_, ?_, ?_⟩
  · intro l hl
    rw [hvisible] at hl
    rw [htokens]
    simp only [mem_append, mem_filter, contains_iff_mem] at hl ⊢
    tauto
  · rw [firstLeaf?, hvisible, htokens]
    simp only [head?_append, hfirst]
  · rw [lastLeaf?, hvisible, htokens]
    simp only [getLast?_append, hlast]

theorem Slotted.fill {tokens : List Leaf}
    (h : doc.Slotted delimiter tuple s (ls ++ e :: rs)) (hl : e.leaves = [])
    (hp : p = (s.before ++ s.opening :: (body ls ++ e.jointLeaves)).length)
    (hf : Filled doc after e.element p tokens) (htree : after.IsTree) :
    after.Slotted delimiter tuple s (ls ++ { e with leaves := tokens } :: rs) := by
  refine h.of_row hf.rewired hf.grammar_eq
    (h.row.step_of_element hf.rewired htree ?_ ?_ ⟨hf.within, hf.first, hf.last⟩) ?_
  · rw [hf.order_eq]
    show doc.order.take p ++ tokens ++ doc.order.drop p = _
    rw [h.row.order_eq, around_body, hl, nil_append, append_assoc, splice_append hp,
      around_body]
    rfl
  · intro l hl hhas
    rw [hf.order_eq, mem_insertAt] at hl
    exact hl.resolve_left fun hm => hf.new l hm hhas
  · intro f hf k hk
    rcases mem_of_mem_replace (e := e) hf with hf | rfl
    · exact Or.inl ⟨f, hf, hk⟩
    · exact Or.inl ⟨e, by simp, hk⟩

theorem join_newLiteral (doc : Document) (text : String) :
    join ((doc.newLiteral text).1.toList.map (doc.newLiteral text).2.textOf) = text := by
  rw [map_textOf_newLiteral]
  split
  · next hempty => rw [String.isEmpty_iff.1 hempty, join]
  · simp [join]

theorem grammar_newLiteral (doc : Document) (text : String) :
    (doc.newLiteral text).2.grammar = doc.grammar := by
  rw [newLiteral]
  split <;> rfl

section

variable {fragment : Document} {slot : Branch} (h : doc.IsTree) (hslot : doc.Has slot)
  (hf : fragment.IsTree) (hne : fragment.coveredLeaves fragment.root ≠ [])
  (opening closing : String)
include h hslot hf hne

theorem content_of_fragment :
    let graft := doc.graftVisible fragment
    let first := graft.2.newLiteral opening
    let last := first.2.newLiteral closing
    Content doc last.2 slot graft.1.root first.1.toList graft.1.leaves last.1.toList ∧
      join ((first.1.toList ++ graft.1.leaves ++ last.1.toList).map last.2.textOf) =
        opening ++ fragment.code ++ closing := by
  intro graft first last
  have hgraft : Fresh doc graft.2 slot graft.1.leaves :=
    .graft h hslot hf (coveredLeaves_nodup hf.order_nodup _) (coveredLeaves_subset ..)
  have hfirst : Fresh graft.2 first.2 slot (first.1.toList ++ []) :=
    (Fresh.nil hgraft.tree slot).newLiteral opening
  have hlast : Fresh first.2 last.2 slot (last.1.toList ++ []) :=
    (Fresh.nil hfirst.tree slot).newLiteral closing
  have hroot : graft.2.Has graft.1.root :=
    has_graft_iff.2 (Or.inr ⟨.branch fragment.root, hf.root_has, rfl⟩)
  have hunder : last.2.leaves graft.1.root = graft.2.leaves graft.1.root :=
    hgraft.tree.linked.leaves_congr hlast.tree.linked _ fun c _ =>
      (children_newLiteral first.2 closing c).trans (children_newLiteral graft.2 opening c)
  have hleaves : graft.2.leaves graft.1.root =
      (fragment.leaves fragment.root).map doc.rehomeLeaf :=
    leaves_graft_rehome h.linked hf.linked fragment.root
  have hends := ends_graft_covered h.linked hf.linked hne
  refine ⟨⟨(hgraft.newLiteral opening).newLiteral closing, ?_, ?_,
    not_has_rehome doc fragment.root, ?_, ?_, ?_⟩, ?_⟩
  · exact (grammar_newLiteral first.2 closing).trans (grammar_newLiteral graft.2 opening)
  · exact hlast.rewired.has _ (hfirst.rewired.has _ hroot)
  · intro l hl
    rw [hunder] at hl
    have hhas := hgraft.tree.linked.has_of_mem_leaves hl
    rw [hleaves] at hl
    obtain ⟨m, -, rfl⟩ := mem_map.1 hl
    refine ⟨not_has_rehome doc m, fun hm => ?_, fun hm => ?_⟩
    · exact hfirst.new _ (by simp [hm]) hhas
    · exact hlast.new _ (by simp [hm]) (hfirst.rewired.has _ hhas)
  · rw [hunder]
    exact hends.1
  · rw [hunder]
    exact hends.2
  · have hopening : join (first.1.toList.map last.2.textOf) = opening := by
      refine Eq.trans ?_ (join_newLiteral graft.2 opening)
      refine congrArg join (map_congr_left fun l hl => ?_)
      exact hlast.rewired.textOf l (hfirst.has l (by simp [hl]))
    have hmiddle : graft.1.leaves.map last.2.textOf =
        (fragment.coveredLeaves fragment.root).map fragment.textOf := by
      show ((fragment.coveredLeaves fragment.root).map doc.rehomeLeaf).map _ = _
      rw [map_map]
      refine map_congr_left fun l hl => ?_
      have hhas := hgraft.has _ (mem_map_of_mem hl)
      refine (hlast.rewired.textOf _ (hfirst.rewired.has _ hhas)).trans ?_
      exact (hfirst.rewired.textOf _ hhas).trans (textOf_graft_rehome doc fragment l)
    rw [map_append, map_append, join_append, join_append, hopening, hmiddle,
      join_newLiteral, code, visibleText_eq]

end

/-! ### Setting -/

theorem fillOptional_plain
    (hrule : rule.placement = .spaced ∨ rule.placement = .adjacent)
    (hplace : doc.optionalPlace rule slot = ((p, []), room)) (fragment : Document) :
    (doc.fillOptional rule slot fragment).2 =
      let graft := room.graftVisible fragment
      let first := graft.2.newLiteral rule.opening
      let last := first.2.newLiteral rule.closing
      let laid := last.2.insertAt p (first.1.toList ++ graft.1.leaves ++ last.1.toList)
      let nodes := first.1.toList.map leaf ++ [branch graft.1.root] ++
        last.1.toList.map leaf
      (nodes.foldl (·.pushChild slot ·) laid).updateComments := by
  rcases hrule with hrule | hrule <;>
    simp only [fillOptional, hplace, optionalContent, hrule, nil_append]

theorem optionalPlace_spaced (hrule : rule.placement = .spaced)
    (doc : Document) (slot : Branch) :
    doc.optionalPlace rule slot = (((doc.makeRoom slot).1, []), (doc.makeRoom slot).2) := by
  simp only [optionalPlace, hrule]

/-- A content without lines of its own fills a slot, and spells what its rule and its fragment
say. -/
theorem exists_filled
    (hrule : rule.placement = .spaced ∨ rule.placement = .adjacent)
    (hplace : doc.optionalPlace rule slot = ((p, []), room)) (hroom : room.IsTree)
    (hslot : room.Has slot) (hnil : room.children slot = []) (hf : fragment.IsTree)
    (hne : fragment.coveredLeaves fragment.root ≠ [])
    (htree : (doc.fillOptional rule slot fragment).2.IsTree) :
    ∃ tokens, tokens ≠ [] ∧ Filled room (doc.fillOptional rule slot fragment).2 slot p tokens ∧
      join (tokens.map (doc.fillOptional rule slot fragment).2.textOf) =
        rule.opening ++ fragment.code ++ rule.closing := by
  obtain ⟨hcontent, htext⟩ := content_of_fragment hroom hslot hf hne rule.opening rule.closing
  rw [fillOptional_plain hrule hplace] at htree ⊢
  dsimp only at hcontent htext htree ⊢
  have hmiddle : (room.graftVisible fragment).1.leaves ≠ [] :=
    fun hnil => hne (map_eq_nil_iff.1 hnil)
  have hfilled := hcontent.filled hroom hslot hnil rfl rfl (htree.congr rfl rfl rfl)
  refine ⟨_, by simp [hmiddle], ⟨hfilled.rewired, hfilled.grammar_eq, hfilled.order_eq,
    hfilled.new, hfilled.within, hfilled.first, hfilled.last⟩, ?_⟩
  rw [← htext]
  refine congrArg join (map_congr_left fun l _ => ?_)
  exact textOf_pushChildren ..

theorem wrapFor_spec (hf : fragment.IsTree) (rule : OptionalRule) :
    let wrapped :=
      if fragment.rootKind = rule.element then fragment else fragment.wrapRoot rule.element
    wrapped.IsTree ∧ wrapped.coveredLeaves wrapped.root =
      fragment.coveredLeaves fragment.root ∧ wrapped.code = fragment.code := by
  dsimp only
  split
  · exact ⟨hf, rfl, rfl⟩
  · refine ⟨hf.wrapRoot _, coveredLeaves_wrapRoot hf _, ?_⟩
    rw [code, code, visibleText_eq, visibleText_eq, coveredLeaves_wrapRoot hf]
    exact congrArg join (map_congr_left fun l _ => textOf_wrapRoot fragment _ l)

theorem Slotted.evolves_setOptional
    (h : doc.Slotted delimiter tuple s (ls ++ e :: rs)) (hf : fragment.IsTree)
    (rule : OptionalRule) :
    doc.Grows (doc.setOptional rule e.element fragment).2 := by
  have hclear : doc.Grows (doc.clearOptional rule e.element) :=
    (Evolves.refl h.row.tree.linked).clearOptional rule e.element
  exact hclear.trans (evolves_fillOptional hclear.linked (wrapFor_spec hf rule).1
    (fun _ _ _ => trivial) (hclear.has _ (has_of_parent h.parent_slot)) trivial rule)

section

variable {rule : OptionalRule} {fragment : Document} (hrule : rule.placement = .spaced)
  (h : doc.Slotted delimiter tuple s (ls ++ e :: rs)) (hs : Entry.Settled (ls ++ e :: rs))
  (hf : fragment.IsTree) (hne : fragment.coveredLeaves fragment.root ≠ [])
include hrule h hs hf hne

theorem Slotted.fillOptional (hj : e.joint = none) (hl : e.leaves = []) (hls : Entry.Settled ls)
    (hnil : doc.children e.element = []) :
    ∃ joint rs' new, contents rs' = contents rs ∧ new ≠ [] ∧
      (doc.fillOptional rule e.element fragment).2.Slotted delimiter tuple s
        (ls ++ { e with joint, leaves := new } :: rs') ∧
      Entry.Settled (ls ++ { e with joint, leaves := new } :: rs') ∧
      join (new.map (doc.fillOptional rule e.element fragment).2.textOf) =
        rule.opening ++ fragment.code ++ rule.closing := by
  obtain ⟨joint, rs', hcontents, hroom, hplace, hset⟩ := h.makeRoom hs hj hl hls
  have hkids := (children_makeRoom h.row.tree.linked e.element).trans hnil
  have hslot : doc.Has e.element := has_of_parent h.parent_slot
  have hev : Grows doc (doc.fillOptional rule e.element fragment).2 :=
    evolves_fillOptional h.row.tree.linked hf (fun _ _ _ => trivial) hslot trivial rule
  have hlisted := h.row.tree.listed.fillOptional hf.listed rule e.element
  have htree := hev.isTree h.row.tree hlisted.has hlisted.nodup
  have hslot' : (doc.makeRoom e.element).2.Has e.element :=
    has_of_parent hroom.parent_slot
  obtain ⟨new, hnew, hfilled, htext⟩ := exists_filled (Or.inl hrule)
    (optionalPlace_spaced hrule doc e.element) hroom.row.tree hslot' hkids hf hne htree
  exact ⟨joint, rs', new, hcontents, hnew, hroom.fill hl hplace hfilled htree, hset new hnew, htext⟩

/-- A slot is set, whatever it held. If it held nothing, no delimiter may stand right before it. -/
theorem Slotted.setOptional (hopen : e.leaves = [] → e.joint = none ∧ Entry.Settled ls) :
    ∃ entries' new, new ≠ [] ∧
      (doc.setOptional rule e.element fragment).2.Slotted delimiter tuple s entries' ∧
      Entry.Settled entries' ∧
      contents entries' =
        contents ls ++ (e.element, new) :: contents rs ∧
      join (new.map (doc.setOptional rule e.element fragment).2.textOf) =
        rule.opening ++ fragment.code ++ rule.closing := by
  have hcleared : ∃ ls' rs', contents ls' = contents ls ∧
      contents rs' = contents rs ∧ Entry.Settled ls' ∧
      Entry.Settled (ls' ++ { e with joint := none, leaves := [] } :: rs') ∧
      (doc.clearOptional rule e.element).Slotted delimiter tuple s
        (ls' ++ { e with joint := none, leaves := [] } :: rs') := by
    by_cases hl : e.leaves = []
    · obtain ⟨hj, hls⟩ := hopen hl
      have he : { e with joint := none, leaves := [] } = e := by rw [← hj, ← hl]
      refine ⟨ls, rs, rfl, rfl, hls, ?_, ?_⟩ <;> rw [he]
      · exact hs
      · rw [h.clearOptional_absent rule hl]
        exact h.clearChildren hl
    · exact h.clearOptional hrule hs hl
  obtain ⟨ls', rs', hleft, hright, hls', hs', hslotted⟩ := hcleared
  obtain ⟨htree, hcovered, hcode⟩ := wrapFor_spec hf rule
  obtain ⟨joint, rs'', new, hcontents, hnew, hfilled, hsettled, hjoin⟩ :=
    hslotted.fillOptional hrule hs' htree (hcovered ▸ hne) rfl rfl hls'
      (doc.children_clearOptional rule e.element)
  refine ⟨_, new, hnew, hfilled, hsettled, ?_, ?_⟩
  · rw [contents_append, contents_cons, hleft, hcontents, hright]
  · rw [← hcode]
    exact hjoin

end

end Lossless.Document
