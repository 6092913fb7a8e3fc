import Lossless.Proofs.Slotted
import Lossless.Proofs.Runs

/-! Tuples as sequences of texts. Between its brackets a tuple shows the texts of its slots with
content, with a delimiter and a space between them, as long as no content comes into an empty slot
right behind a delimiter. There the delimiter would stand twice. -/

namespace Lossless

open List Entry

variable {doc doc' fragment : Document} {delimiter : String} {tuple slot : Branch} {s : Brackets}
  {slots : List (Branch × OptionalRule)} {entries ls rs entries' : List Entry} {e : Entry}
  {l : Leaf} {rule : OptionalRule}

namespace Document

def slotTexts (doc : Document) (slots : List (Branch × OptionalRule)) : List (Option String) :=
  slots.map fun (slot, _) =>
    if doc.isVisible slot then some (doc.visibleText slot) else none

/-- A tuple of absent slots stands right between two brackets. -/
structure Vacant (doc : Document) (delimiter : String) (tuple : Branch) (s : Brackets)
    (slots : List (Branch × OptionalRule)) : Prop where
  shape : doc.shapeOf tuple = .tuple delimiter
  children_eq : doc.children tuple = slots.map fun (slot, _) => .branch slot
  rule : ∀ slot rule, (slot, rule) ∈ slots →
    doc.optionalRule? slot = some rule ∧ rule.placement = .spaced
  absent : ∀ slot rule, (slot, rule) ∈ slots → doc.isVisible slot = false
  order_eq : doc.order = s.around []
  left : doc.leftLeaf? tuple = some s.opening
  right : doc.rightLeaf? tuple = some s.closing

/-- A slot has content, or the token before it is no delimiter of the tuple. -/
def IsOpen (doc : Document) (tuple slot : Branch) : Prop :=
  doc.isVisible slot = false →
    ∀ l ∈ doc.leftLeaf? slot, doc.parent l ≠ some tuple

instance (doc : Document) (tuple slot : Branch) : Decidable (doc.IsOpen tuple slot) :=
  inferInstanceAs (Decidable (_ → ∀ l ∈ doc.leftLeaf? _, _))

theorem Vacant.slotted (h : doc.Vacant delimiter tuple s slots) (htree : doc.IsTree) :
    doc.Slotted delimiter tuple s (slots.map fun (slot, _) => ⟨none, slot, []⟩) ∧
      Entry.Settled (slots.map fun (slot, _) => ⟨none, slot, []⟩) := by
  have hblank : Blank (slots.map fun (slot, _) => ⟨none, slot, []⟩) := by
    intro e he
    obtain ⟨p, -, rfl⟩ := mem_map.1 he
    exact ⟨rfl, rfl⟩
  refine ⟨⟨⟨htree, ?_, ?_, ?_, h.left, h.right, ?_⟩, h.shape, ?_⟩, .start, hblank.along _, by simp⟩
  · rw [hblank.body_eq]
    exact h.order_eq
  · rw [h.children_eq, children, flatMap_map, map_eq_flatMap]
    rfl
  · intro e he
    obtain ⟨⟨slot, rule⟩, hmem, rfl⟩ := mem_map.1 he
    have hinvisible : doc.visibleLeaves slot = [] := by
      have habsent := h.absent slot rule hmem
      rw [isVisible, firstLeaf?] at habsent
      exact head?_eq_none_iff.1 (by simpa using habsent)
    exact ⟨by simp [hinvisible], by simp [firstLeaf?, hinvisible], by simp [lastLeaf?, hinvisible]⟩
  · rw [hblank.body_eq]
    simp
  · intro e he j hj
    rw [(hblank e he).1] at hj
    cases hj

def contentText? (doc : Document) (leaves : List Leaf) : Option String :=
  if leaves = [] then none else some (Layout.join (leaves.map doc.textOf))

theorem Slotted.isVisible_iff (h : doc.Slotted delimiter tuple s entries) (he : e ∈ entries) :
    doc.isVisible e.element = true ↔ e.leaves ≠ [] := by
  rw [isVisible, (h.row.covers e he).first]
  cases e.leaves <;> simp

theorem Slotted.slotTexts_eq (h : doc.Slotted delimiter tuple s entries)
    (hslots : entries.map element = slots.map Prod.fst) :
    doc.slotTexts slots = (contents entries).map fun c => doc.contentText? c.2 := by
  have hmap : doc.slotTexts slots = (slots.map Prod.fst).map fun slot =>
      if doc.isVisible (.branch slot) then some (doc.visibleText (.branch slot)) else none := by
    rw [slotTexts, map_map]
    rfl
  rw [hmap, ← hslots, contents, map_map, map_map]
  refine map_congr_left fun e he => ?_
  have hvisible := h.isVisible_iff he
  simp only [Function.comp_apply, contentText?, visibleText_eq, h.row.coveredLeaves_entry he]
  by_cases hl : e.leaves = []
  · rw [if_pos hl, if_neg (by simp [hvisible, hl])]
  · rw [if_neg hl, if_pos (hvisible.2 hl)]

theorem Slotted.join_body (h : doc.Slotted delimiter tuple s entries)
    (hs : Entry.Settled entries) (hslots : entries.map element = slots.map Prod.fst) :
    Layout.join ((body entries).map doc.textOf) =
      (delimiter ++ " ").intercalate (doc.slotTexts slots).reduceOption := by
  rw [hs.join_body h.joint, h.slotTexts_eq hslots, contents, map_map]
  show _ = (delimiter ++ " ").intercalate (filterMap id _)
  rw [filterMap_map]
  rfl

theorem Slotted.settled_of_isOpen (h : doc.Slotted delimiter tuple s (ls ++ e :: rs))
    (hs : Entry.Settled (ls ++ e :: rs)) (hopen : doc.IsOpen tuple e.element)
    (hl : e.leaves = []) : e.joint = none ∧ Entry.Settled ls := by
  have hinvisible : doc.isVisible e.element = false := by
    rw [Bool.eq_false_iff, ne_eq, h.isVisible_iff (by simp)]
    exact not_not_intro hl
  have hleft := h.row.leftLeaf?_child (h.row.children_eq.trans (children_entry ls rs e))
  rw [h.row.findSome?_before] at hleft
  -- no delimiter is the last token before the slot
  have hnever : ∀ f ∈ ls ++ e :: rs, ∀ j, f.joint = some j →
      (shown ls ++ e.joint.toList.map Prod.fst).getLast? ≠ some j.1 := by
    intro f hf j hj hlast
    rw [hlast, Option.some_or] at hleft
    refine hopen hinvisible j.1 hleft (h.row.parent_child (mem_flatMap.2 ⟨f, hf, ?_⟩))
    simp [nodes, hj]
  have hj : e.joint = none := by
    by_contra hj
    obtain ⟨j, hj⟩ := Option.ne_none_iff_exists'.1 hj
    exact hnever e (by simp) j hj (by simp [hj, getLast?_append])
  obtain ⟨u, hu, -⟩ := hs
  obtain ⟨v, -, hv, -, -⟩ := exists_of_along_split hu
  refine ⟨hj, v, hv, ?_⟩
  rintro rfl
  obtain ⟨pre, f, post, j, rfl, -, hf, hfl, hpost⟩ := exists_joint_of_along hv
  refine hnever f (by simp) j hf ?_
  simp [hj, shown_append, shown_cons, hf, hfl, hpost.shown_eq, getLast?_append]

/-! ### Behind a delimiter -/

/-- When a token of the tuple stands before a slot, the delimiter comes in right behind it, and the
content behind the delimiter. -/
theorem exists_makeRoom_behind {as bs : List Leaf} (htree : doc.IsTree)
    (hparent : doc.parent slot = some tuple)
    (hshape : doc.shapeOf tuple = .tuple delimiter) (horder : doc.order = as ++ l :: bs)
    (hleft : doc.leftLeaf? slot = some l)
    (hin : doc.contains tuple l = true) :
    ∃ x rest, (doc.makeRoom slot).2.order = as ++ l :: x :: rest ∧
      (doc.makeRoom slot).2.Has (.leaf x) ∧ (doc.makeRoom slot).2.textOf x = delimiter ∧
      as.length + 2 ≤ (doc.makeRoom slot).1 := by
  obtain ⟨xs, ys, hkids, hxs, -⟩ := htree.linked.exists_siblings hparent
  have htuple := htree.linked.has_parent hparent
  have hposition : doc.position? l = some as.length :=
    position?_of_head htree.order_nodup horder rfl
  let room := doc.separateSlot tuple delimiter (as.length + 1) xs.length
  let x := (doc.newToken delimiter).1
  let space := ((doc.newToken delimiter).2.newToken " ").1
  have hroom : doc.makeRoom slot = ((room.trivia slot).stop, room) := by
    have hindex : (doc.children tuple).idxOf? (.branch slot) = some xs.length := by
      rw [hkids, idxOf?_append_cons hxs]
    simp only [makeRoom, hparent, hshape, makeSlotRoom, hleft, Option.filter_some, hin, if_true,
      Option.bind_some, hposition, hindex, Option.getD_some]
    rfl
  have hkids' : room.children tuple = (xs ++ [.leaf x]) ++ .branch slot :: ys := by
    rw [children_separateSlot htuple, hkids, splice_append rfl]
    simp [x]
  have horder' : room.order = (as ++ [l]) ++ x :: (space :: bs) := by
    show doc.order.take (as.length + 1) ++ [x, space] ++ doc.order.drop (as.length + 1) = _
    have hsplit : doc.order = (as ++ [l]) ++ bs := by simpa using horder
    rw [append_assoc, hsplit, splice_append (by simp)]
    rfl
  have hev : doc.Grows room := evolves_separateSlot htree.linked htuple ..
  have hlisted := htree.listed.separateSlot tuple delimiter (as.length + 1) xs.length
  have htree' : room.IsTree := hev.isTree htree hlisted.has hlisted.nodup
  have hmem : x ∈ room.order := by simp [horder']
  -- the new delimiter is now the token before the slot
  have hleft' : room.leftLeaf? slot = some x := by
    have hxs' : Node.branch slot ∉ xs ++ [.leaf x] := by simp [hxs]
    rw [leftLeaf?_eq htree'.linked, htree'.linked.leftLeaves_of_parent
      (htree'.linked.down (hkids' ▸ by simp)) hkids' hxs']
    simp [hmem]
  have hposition' : room.position? x = some (as.length + 1) :=
    (position?_of_head htree'.order_nodup horder' rfl).trans (by simp)
  refine ⟨x, space :: bs, ?_, ?_, ?_, ?_⟩ <;> rw [hroom]
  · simpa using horder'
  · exact htree'.order_has x hmem
  · refine (Forest.textOf_insertChild ..).trans ?_
    exact (textOf_newToken_of_has (has_newToken doc delimiter) " ").trans
      (textOf_newToken doc delimiter)
  · refine Nat.le_trans ?_ (trivia_start_le ..)
    simp [trivia, hleft', hposition']

theorem order_pushChildren (b : Branch) (nodes : List Node) (doc : Document) :
    (nodes.foldl (·.pushChild b ·) doc).order = doc.order := by
  induction nodes generalizing doc with
  | nil => rfl
  | cons n nodes ih => exact ih ..

theorem exists_fillOptional_spaced (hrule : rule.placement = .spaced)
    (hd : doc.Linked) (hf : fragment.Linked) (slot : Branch) :
    let room := doc.makeRoom slot
    let after := (doc.fillOptional rule slot fragment).2
    (∃ tokens, after.order = room.2.order.take room.1 ++ tokens ++ room.2.order.drop room.1) ∧
      ∀ l, room.2.Has (.leaf l) → after.textOf l = room.2.textOf l := by
  intro room after
  have hroom : doc.Grows room.2 := evolves_makeRoom hd slot
  have hgrown : room.2.Grows _ := (((Evolves.refl hroom.linked).graft hf
    fun _ _ _ => trivial).newLiteral rule.opening).newLiteral rule.closing
  have hafter : after = _ :=
    fillOptional_plain (Or.inl hrule) (optionalPlace_spaced hrule doc slot) fragment
  constructor
  · have horder : ∀ (d : Document) text, (d.newLiteral text).2.order = d.order := by
      intro d text
      rcases d.newLiteral_cases text with he | he
      · rw [he]
      · rw [he]
        rfl
    let graft := room.2.graftVisible fragment
    let first := graft.2.newLiteral rule.opening
    let last := first.2.newLiteral rule.closing
    have hlast : last.2.order = room.2.order := (horder ..).trans (horder ..)
    refine ⟨first.1.toList ++ graft.1.leaves ++ last.1.toList, ?_⟩
    rw [hafter, ← hlast]
    exact order_pushChildren ..
  · intro l hl
    rw [hafter]
    refine (textOf_pushChildren ..).trans ?_
    exact hgrown.textOf l hl

theorem Entry.exists_joint_of_leaf (h : Node.leaf l ∈ children entries) :
    ∃ f ∈ entries, ∃ j, f.joint = some j ∧ j.1 = l := by
  obtain ⟨f, hf, hl⟩ := mem_flatMap.1 h
  simp only [nodes, mem_append, mem_map, Option.mem_toList, mem_singleton,
    reduceCtorEq, or_false, Node.leaf.injEq] at hl
  obtain ⟨j, hj, hjl⟩ := hl
  exact ⟨f, hf, j, hj, hjl⟩

theorem Slotted.exists_doubled (hrule : rule.placement = .spaced)
    (h : doc.Slotted delimiter tuple s (ls ++ e :: rs)) (hf : fragment.IsTree)
    (hclosed : ¬ doc.IsOpen tuple e.element) :
    let after := (doc.setOptional rule e.element fragment).2
    ∃ l x, [l, x] <:+: after.order ∧ after.textOf l = delimiter ∧ after.textOf x = delimiter := by
  intro after
  simp only [IsOpen, Classical.not_forall, not_not] at hclosed
  obtain ⟨hinvisible, l, hleft, hparent⟩ := hclosed
  have hl : e.leaves = [] := by
    by_contra hne
    rw [(h.isVisible_iff (by simp)).2 hne] at hinvisible
    cases hinvisible
  have hchild := h.row.tree.linked.up hparent
  rw [h.row.children_eq] at hchild
  obtain ⟨f, hf', j, hj, rfl⟩ := Entry.exists_joint_of_leaf hchild
  have hev : doc.Grows after := h.evolves_setOptional hf rule
  have hmem := h.row.mem_order (joint_mem_body hf' hj).1
  have htext : after.textOf j.1 = delimiter :=
    (hev.textOf _ (h.row.tree.order_has _ hmem)).trans (h.joint f hf' j hj).1
  -- clearing the empty slot changes nothing around it
  have hcleared := h.clearChildren hl
  have hleft' : (doc.clearChildren e.element).leftLeaf? e.element = some j.1 := by
    have hkids := children_entry ls rs e
    rw [hcleared.row.leftLeaf?_child (hcleared.row.children_eq.trans hkids),
      hcleared.row.findSome?_before, ← h.row.findSome?_before,
      ← h.row.leftLeaf?_child (h.row.children_eq.trans hkids)]
    exact hleft
  have hin : (doc.clearChildren e.element).contains tuple j.1 = true := by
    refine hcleared.row.contains_of_child (hcleared.row.children_eq ▸ hchild) ?_
    simpa using hcleared.row.mem_order (joint_mem_body hf' hj).1
  obtain ⟨as, bs, horder⟩ := append_of_mem hmem
  obtain ⟨x, rest, hroom, hhas, hx, hplace⟩ := exists_makeRoom_behind hcleared.row.tree
    hcleared.parent_slot hcleared.shape horder hleft' hin
  obtain ⟨hwrapped, -, -⟩ := wrapFor_spec hf rule
  have hafter : after = ((doc.clearChildren e.element).fillOptional rule e.element
      (if fragment.rootKind = rule.element then fragment
        else fragment.wrapRoot rule.element)).2 := by
    rw [← h.clearOptional_absent rule hl]
    rfl
  obtain ⟨⟨tokens, htokens⟩, hkept⟩ :=
    exists_fillOptional_spaced hrule hcleared.row.tree.linked hwrapped.linked e.element
  rw [← hafter] at htokens hkept
  refine ⟨j.1, x, ?_, htext, (hkept x hhas).trans hx⟩
  have hpair : as ++ j.1 :: x :: rest = (as ++ [j.1, x]) ++ rest := by simp
  have hbefore : (as ++ [j.1, x]).length ≤ ((doc.clearChildren e.element).makeRoom e.element).1 := by
    simpa using hplace
  rw [htokens, hroom, hpair, take_append, take_of_length_le hbefore, append_assoc,
    append_assoc]
  exact ⟨as, _, rfl⟩

end Document

/-! ### Steps -/

inductive SlotStep where
  | set (index : Nat) (fragment : Document)
  | clear (index : Nat)

namespace SlotStep

def run (slots : List (Branch × OptionalRule)) : SlotStep → Edit Unit
  | set index fragment => do
    match slots[index]? with
    | some (slot, _) => discard <| Edit.set slot fragment
    | none => return
  | clear index => do
    match slots[index]? with
    | some (slot, _) => Edit.clearOptional slot
    | none => return

def onTexts (slots : List (Branch × OptionalRule)) :
    SlotStep → List (Option String) → List (Option String)
  | set index fragment, texts =>
    match slots[index]? with
    | some (_, rule) => texts.set index (some (rule.opening ++ fragment.code ++ rule.closing))
    | none => texts
  | clear index, texts => texts.set index none

def Takes (slots : List (Branch × OptionalRule)) (index : Nat) (fragment : Document)
    (slot : Branch) (rule : OptionalRule) : Prop :=
  slots[index]? = some (slot, rule) ∧ fragment.IsTree ∧ rule.accepts fragment.rootKind = true ∧
    fragment.coveredLeaves fragment.root ≠ []

/-- The step is possible in the tuple. Among three slots or more it sets only open ones. -/
def Fits (doc : Document) (tuple : Branch) (slots : List (Branch × OptionalRule)) : SlotStep → Prop
  | set index fragment => ∃ slot rule, Takes slots index fragment slot rule ∧
      (slots.length ≤ 2 ∨ doc.IsOpen tuple slot)
  | clear index => index < slots.length

def FitAll (tuple : Branch) (slots : List (Branch × OptionalRule)) :
    List SlotStep → Document → Prop
  | [], _ => True
  | step :: steps, doc =>
    step.Fits doc tuple slots ∧ FitAll tuple slots steps ((step.run slots).left doc)

end SlotStep

namespace Edit

variable {rule : OptionalRule} (hrule : doc.optionalRule? slot = some rule)
include hrule

theorem run_set (hkind : rule.accepts fragment.rootKind = true) :
    (set slot fragment).run doc = .ok (doc.setOptional rule slot fragment).1
      (doc.setOptional rule slot fragment).2 := by
  simp [set, optionalRule, hrule, hkind]

theorem run_clearOptional :
    (clearOptional slot).run doc = .ok () (doc.clearOptional rule slot) := by
  simp [clearOptional, optionalRule, hrule]

end Edit

/-! ### Runs -/

section

open Document

theorem exists_split_of_getElem? {i : Nat}
    (hslots : entries.map element = slots.map Prod.fst) (hi : slots[i]? = some (slot, rule)) :
    ∃ ls e rs, entries = ls ++ e :: rs ∧ ls.length = i ∧ e.element = slot := by
  have hget : (entries.map element)[i]? = some slot := by
    rw [hslots, getElem?_map, hi]
    rfl
  rw [getElem?_map, Option.map_eq_some_iff] at hget
  obtain ⟨e, he, hslot⟩ := hget
  obtain ⟨hlt, rfl⟩ := List.getElem?_eq_some_iff.1 he
  refine ⟨entries.take i, entries[i], entries.drop (i + 1), ?_, by simp; omega, hslot⟩
  rw [getElem_cons_drop, take_append_drop]

theorem map_element_eq (entries : List Entry) :
    entries.map element = (contents entries).map Prod.fst := by
  rw [contents, map_map]
  rfl

theorem Document.Slotted.texts_set {new : List Leaf}
    (h : doc.Slotted delimiter tuple s (ls ++ e :: rs))
    (hev : doc.Grows doc')
    (hcontents : contents entries' =
      contents ls ++ (e.element, new) :: contents rs) :
    (contents entries').map (fun c => doc'.contentText? c.2) =
      ((contents (ls ++ e :: rs)).map fun c => doc.contentText? c.2).set ls.length
        (doc'.contentText? new) := by
  have hkept : ∀ es ⊆ ls ++ e :: rs, (contents es).map (fun c => doc'.contentText? c.2) =
      (contents es).map fun c => doc.contentText? c.2 := by
    intro es hes
    rw [contents, map_map, map_map]
    refine map_congr_left fun f hf => ?_
    have htext : f.leaves.map doc'.textOf = f.leaves.map doc.textOf :=
      map_congr_left fun l hl => hev.textOf l
        (h.row.tree.order_has l (h.row.mem_order (leaves_subset_body (hes hf) hl)))
    simp only [Function.comp_apply, contentText?, htext]
  rw [hcontents, contents_append, contents_cons, map_append, map_cons,
    map_append, map_cons, hkept ls (by simp), hkept rs (by simp)]
  rw [set_append_right _ _ (by simp [contents])]
  simp [contents]

/-- One step on a tuple is the same step on the texts of its slots. -/
theorem SlotStep.exists_run (step : SlotStep) (h : doc.Slotted delimiter tuple s entries)
    (hs : Entry.Settled entries) (hslots : entries.map element = slots.map Prod.fst)
    (hrules : ∀ slot rule, (slot, rule) ∈ slots →
      doc.optionalRule? slot = some rule ∧ rule.placement = .spaced)
    (hfits : step.Fits doc tuple slots) :
    ∃ doc' entries', (step.run slots).run doc = .ok () doc' ∧
      doc'.Slotted delimiter tuple s entries' ∧ Entry.Settled entries' ∧
      entries'.map element = slots.map Prod.fst ∧
      doc'.slotTexts slots = step.onTexts slots (doc.slotTexts slots) ∧
      doc.Grows doc' := by
  have hlinked := h.row.tree.linked
  cases step with
  | set index fragment =>
    obtain ⟨slot, rule, ⟨hget, htree, hkind, hne⟩, hopen⟩ := hfits
    obtain ⟨hrule, hspaced⟩ := hrules slot rule (mem_of_getElem? hget)
    obtain ⟨ls, e, rs, rfl, rfl, rfl⟩ := exists_split_of_getElem? hslots hget
    have hready : e.leaves = [] → e.joint = none ∧ Entry.Settled ls := by
      intro hl
      rcases hopen with hlength | hopen
      · refine hs.of_length_le_two hl ?_
        rwa [← length_map (f := element), hslots, length_map]
      · exact h.settled_of_isOpen hs hopen hl
    have hev := h.evolves_setOptional htree rule
    obtain ⟨entries', new, hnew, hslotted, hsettled, hcontents, hjoin⟩ :=
      h.setOptional hspaced hs htree hne hready
    have hslots' : entries'.map element = slots.map Prod.fst := by
      rw [← hslots, map_element_eq, map_element_eq, hcontents]
      simp [contents]
    refine ⟨_, entries', ?_, hslotted, hsettled, hslots', ?_, hev⟩
    · simp [SlotStep.run, hget, Edit.run_set hrule hkind]
    · rw [hslotted.slotTexts_eq hslots', h.slotTexts_eq hslots, h.texts_set hev hcontents]
      simp only [SlotStep.onTexts, hget, contentText?, if_neg hnew, hjoin]
  | clear index =>
    have hindex : index < slots.length := hfits
    obtain ⟨slot, rule, hget⟩ : ∃ slot rule, slots[index]? = some (slot, rule) :=
      ⟨_, _, getElem?_eq_getElem hindex⟩
    obtain ⟨hrule, hspaced⟩ := hrules slot rule (mem_of_getElem? hget)
    obtain ⟨ls, e, rs, rfl, rfl, rfl⟩ := exists_split_of_getElem? hslots hget
    have hev : doc.Grows (doc.clearOptional rule e.element) :=
      (Evolves.refl hlinked).clearOptional rule e.element
    obtain ⟨entries', hslotted, hsettled, hcontents⟩ : ∃ entries',
        (doc.clearOptional rule e.element).Slotted delimiter tuple s entries' ∧
          Entry.Settled entries' ∧
          contents entries' = contents ls ++ (e.element, []) :: contents rs := by
      by_cases hl : e.leaves = []
      · refine ⟨ls ++ e :: rs, ?_, hs, ?_⟩
        · rw [h.clearOptional_absent rule hl]
          exact h.clearChildren hl
        · rw [contents_append, contents_cons, hl]
      · obtain ⟨ls', rs', hleft, hright, -, hsettled, hslotted⟩ := h.clearOptional hspaced hs hl
        refine ⟨_, hslotted, hsettled, ?_⟩
        rw [contents_append, contents_cons, hleft, hright]
    have hslots' : entries'.map element = slots.map Prod.fst := by
      rw [← hslots, map_element_eq, map_element_eq, hcontents]
      simp [contents]
    refine ⟨_, entries', ?_, hslotted, hsettled, hslots', ?_, hev⟩
    · simp [SlotStep.run, hget, Edit.run_clearOptional hrule]
    · rw [hslotted.slotTexts_eq hslots', h.slotTexts_eq hslots, h.texts_set hev hcontents]
      simp [SlotStep.onTexts, contentText?]

/-- Steps on a tuple are the same steps on the texts of its slots. -/
theorem SlotStep.exists_run_all (steps : List SlotStep)
    (h : doc.Slotted delimiter tuple s entries) (hs : Entry.Settled entries)
    (hslots : entries.map element = slots.map Prod.fst)
    (hrules : ∀ slot rule, (slot, rule) ∈ slots →
      doc.optionalRule? slot = some rule ∧ rule.placement = .spaced)
    (hfits : SlotStep.FitAll tuple slots steps doc) :
    ∃ doc' entries', (steps.forM (SlotStep.run slots)).run doc = .ok () doc' ∧
      doc'.Slotted delimiter tuple s entries' ∧ Entry.Settled entries' ∧
      entries'.map element = slots.map Prod.fst ∧
      doc'.slotTexts slots =
        steps.foldl (fun texts step => step.onTexts slots texts) (doc.slotTexts slots) ∧
      doc.Grows doc' ∧
      ∀ slot rule, (slot, rule) ∈ slots →
        doc'.optionalRule? slot = some rule ∧ rule.placement = .spaced := by
  induction steps generalizing doc entries with
  | nil => exact ⟨doc, entries, rfl, h, hs, hslots, rfl, .refl h.row.tree.linked, hrules⟩
  | cons step steps ih =>
    obtain ⟨hstep, hsteps⟩ := hfits
    obtain ⟨mid, entries₁, hrun, hslotted, hsettled, hslots₁, htexts, hev⟩ :=
      step.exists_run h hs hslots hrules hstep
    rw [Edit.left_of_ok hrun] at hsteps
    have hrules' : ∀ slot rule, (slot, rule) ∈ slots →
        mid.optionalRule? slot = some rule ∧ rule.placement = .spaced := by
      intro slot rule hmem
      obtain ⟨hrule, hspaced⟩ := hrules slot rule hmem
      have hhas : doc.Has slot := by
        obtain ⟨e, he, heq⟩ : ∃ e ∈ entries, e.element = slot := by
          have : slot ∈ entries.map element := hslots ▸ mem_map_of_mem hmem
          exact mem_map.1 this
        rw [← heq]
        exact Forest.has_of_parent (h.row.parent_child (element_mem_children he))
      rw [optionalRule?, hev.grammar, hev.kindOf slot hhas]
      exact ⟨hrule, hspaced⟩
    obtain ⟨doc', entries', hrun', hslotted', hsettled', hslots', htexts', hev', hafter⟩ :=
      ih hslotted hsettled hslots₁ hrules' hsteps
    refine ⟨doc', entries', ?_, hslotted', hsettled', hslots', ?_, hev.trans hev', hafter⟩
    · rw [forM_eq_forM, forM_cons, EStateM.run_bind, hrun]
      exact hrun'
    · rw [htexts', htexts, foldl_cons]

theorem Document.Vacant.slotTexts_eq (h : doc.Vacant delimiter tuple s slots) :
    doc.slotTexts slots = replicate slots.length none := by
  rw [slotTexts, eq_replicate_iff]
  refine ⟨length_map .., fun text htext => ?_⟩
  obtain ⟨⟨slot, rule⟩, hmem, rfl⟩ := mem_map.1 htext
  simp [h.absent slot rule hmem]

/-- A tuple of absent slots becomes a sequence of texts. After any run of steps that fit, its
brackets are still there with what is outside them, and between them stand the texts that the same
steps leave of the slots, joined by the delimiter and a space. A content for a slot that is not open
then leaves two delimiters side by side. -/
theorem tuple_run (htree : doc.IsTree) (h : doc.Vacant delimiter tuple s slots)
    {steps : List SlotStep} (hfits : SlotStep.FitAll tuple slots steps doc) :
    ∃ doc' body, (steps.forM (SlotStep.run slots)).run doc = .ok () doc' ∧
      doc'.order = s.around body ∧
      (∀ l ∈ s.around [], doc'.textOf l = doc.textOf l) ∧
      doc'.slotTexts slots = steps.foldl (fun texts step => step.onTexts slots texts)
        (List.replicate slots.length none) ∧
      Layout.join (body.map doc'.textOf) =
        (delimiter ++ " ").intercalate (doc'.slotTexts slots).reduceOption ∧
      ∀ index fragment slot rule, SlotStep.Takes slots index fragment slot rule →
        ¬ doc'.IsOpen tuple slot → ∃ after l x,
          ((SlotStep.set index fragment).run slots).run doc' = .ok () after ∧
            [l, x] <:+: after.order ∧ after.textOf l = delimiter ∧ after.textOf x = delimiter := by
  obtain ⟨hslotted, hsettled⟩ := h.slotted htree
  have hslots : (slots.map fun (slot, _) => (⟨none, slot, []⟩ : Entry)).map Entry.element =
      slots.map Prod.fst := by
    rw [List.map_map]
    rfl
  obtain ⟨doc', entries', hrun, hslotted', hsettled', hslots', htexts, hev, hrules⟩ :=
    SlotStep.exists_run_all steps hslotted hsettled hslots h.rule hfits
  refine ⟨doc', Entry.body entries', hrun, hslotted'.row.order_eq, fun l hl => ?_, ?_,
    hslotted'.join_body hsettled' hslots', ?_⟩
  · refine hev.textOf l (htree.order_has l ?_)
    rw [h.order_eq]
    exact hl
  · rw [htexts, h.slotTexts_eq]
  · rintro index fragment slot rule ⟨hget, hf, hkind, -⟩ hclosed
    obtain ⟨hrule, hspaced⟩ := hrules slot rule (List.mem_of_getElem? hget)
    obtain ⟨ls, e, rs, rfl, -, rfl⟩ := exists_split_of_getElem? hslots' hget
    obtain ⟨l, x, hpair, hl, hx⟩ := hslotted'.exists_doubled hspaced hf hclosed
    refine ⟨_, l, x, ?_, hpair, hl, hx⟩
    simp [SlotStep.run, hget, Edit.run_set hrule hkind]

/-- Three slots filled from the last to the first, and then the one between them. -/
theorem tuple_run_three :
    let slot : OptionalRule := { element := .identifier }
    let grammar := (((Grammar.javaScript.withShape .parameters (.tuple ",")).withShape
      .typeOptional (.optional slot)).withShape .returnTypeOptional (.optional slot)).withShape
      .extendsOptional (.optional slot)
    let start : Builder := { grammar, source := "()" }
    let calls : List Builder.Call :=
      [.openNode .program, .token "(", .openNode .parameters, .openNode .typeOptional, .closeNode,
        .openNode .returnTypeOptional, .closeNode, .openNode .extendsOptional, .closeNode,
        .closeNode, .token ")", .closeNode]
    let slots : List (Branch × OptionalRule) := [(⟨2⟩, slot), (⟨3⟩, slot), (⟨4⟩, slot)]
    let steps : List SlotStep :=
      [.set 2 (.ofSource grammar .identifier "c"), .set 0 (.ofSource grammar .identifier "a")]
    let s : Brackets := ⟨[], ⟨0⟩, ⟨1⟩, []⟩
    ∃ doc doc' body after l x, (start.run calls).finish = .ok doc ∧
      (steps.forM (SlotStep.run slots)).run doc = .ok () doc' ∧ doc'.order = s.around body ∧
      Layout.join (body.map doc'.textOf) = "a, c" ∧
      ((SlotStep.set 1 (.ofSource grammar .identifier "b")).run slots).run doc' = .ok () after ∧
      [l, x] <:+: after.order ∧ after.textOf l = "," ∧ after.textOf x = "," := by
  intro slot grammar start calls slots steps s
  let doc := (start.run calls).built
  have hfinish : (start.run calls).finish = .ok doc := by decide +kernel
  have hslots : ∀ p ∈ slots, doc.optionalRule? p.1 = some p.2 ∧ p.2.placement = .spaced ∧
      doc.isVisible (.branch p.1) = false := by decide +kernel
  have hvacant : doc.Vacant "," ⟨1⟩ s slots :=
    ⟨by decide +kernel, by decide +kernel,
      fun b rule hp => ⟨(hslots (b, rule) hp).1, (hslots (b, rule) hp).2.1⟩,
      fun b rule hp => (hslots (b, rule) hp).2.2, by decide +kernel, by decide +kernel,
      by decide +kernel⟩
  have htakes : ∀ (index : Nat) (b : Branch) (text : String), slots[index]? = some (b, slot) →
      (Document.ofSource grammar .identifier text).coveredLeaves
        (.branch (Document.ofSource grammar .identifier text).root) ≠ [] →
      SlotStep.Takes slots index (.ofSource grammar .identifier text) b slot :=
    fun index b text hget hne => ⟨hget, Document.isTree_ofSource .., rfl, hne⟩
  have hfits : SlotStep.FitAll ⟨1⟩ slots steps doc :=
    ⟨⟨_, _, htakes 2 ⟨4⟩ "c" rfl (by decide), .inr (by decide +kernel)⟩,
      ⟨_, _, htakes 0 ⟨2⟩ "a" rfl (by decide), .inr (by decide +kernel)⟩, trivial⟩
  obtain ⟨htree, -⟩ := Builder.isTree_of_run hfinish
  obtain ⟨doc', body, hrun, horder, -, htexts, hjoin, hdoubled⟩ := tuple_run htree hvacant hfits
  have hclosed : ¬ (Edit.left (steps.forM (SlotStep.run slots)) doc).IsOpen ⟨1⟩ ⟨3⟩ := by
    decide +kernel
  rw [Edit.left_of_ok hrun] at hclosed
  obtain ⟨after, l, x, hset, hpair, hl, hx⟩ :=
    hdoubled 1 _ ⟨3⟩ slot (htakes 1 ⟨3⟩ "b" rfl (by decide)) hclosed
  refine ⟨doc, doc', body, after, l, x, hfinish, hrun, horder, ?_, hset, hpair, hl, hx⟩
  rw [hjoin, htexts]
  decide +kernel

end

end Lossless
