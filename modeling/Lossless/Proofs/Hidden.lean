import Lossless.Proofs.Vacated

/-! Contents of optionals and line comments. A content that goes on with a line is hidden by a line
comment that stands on the line in the place of the content. Where line comments end their lines
this needs a place at a break or at the end of the text: a clause takes the end of its line, and
other contents come before what follows them. -/

namespace Lossless

open List Option Layout Forest

namespace Document

variable {doc room after fragment : Document} {b c tuple parent : Branch} {rule : OptionalRule}
  {l x y : Leaf} {sep pad xs ys : List Leaf} {i p q s j : Nat}

def isSlot (doc : Document) (b : Branch) : Bool :=
  (doc.parent b).any fun parent => doc.grammar.isTuple (doc.kindOf parent)

/-- The position of the content of an absent optional that has no lines of its own. -/
def inlinePosition? (doc : Document) (rule : OptionalRule) (b : Branch) : Option Nat :=
  let trivia := doc.trivia b
  match rule.placement with
  | .multiline => none
  | .trailingInline => some ((doc.clauseBreak? trivia).getD trivia.stop)
  | .adjacent => some trivia.start
  | .spaced => some (if doc.isSlot b then trivia.stop else (doc.niche rule b).position)

/-- The position at which the content of an absent optional goes on with a line: it does not open
with a break. -/
def joinsAt? (doc : Document) (rule : OptionalRule) (b : Branch) : Option Nat :=
  if Layout.isBreak rule.opening then none else doc.inlinePosition? rule b

theorem isSlot_iff : doc.isSlot b = true ↔ ∃ parent delimiter,
    doc.parent b = some parent ∧ doc.shapeOf parent = .tuple delimiter := by
  simp only [isSlot, Option.any_eq_true, Grammar.isTuple, shapeOf]
  refine exists_congr fun parent => ?_
  cases doc.grammar.shape (doc.kindOf parent) <;> simp

theorem inlinePosition?_eq_none :
    doc.inlinePosition? rule b = none ↔ rule.placement = .multiline := by
  cases hrule : rule.placement <;> simp [inlinePosition?, hrule]

theorem inlinePosition?_spaced (hrule : rule.placement = .spaced)
    (hp : doc.inlinePosition? rule b = some p) :
    p = (doc.trivia b).start ∨ p = (doc.trivia b).stop := by
  simp only [inlinePosition?, hrule, some.injEq] at hp
  split at hp
  · exact .inr hp.symm
  · rcases doc.niche_cases rule b with
      ⟨-, he⟩ | ⟨-, -, -, ⟨-, he⟩ | ⟨-, -, -, ⟨-, he⟩ | ⟨-, he⟩⟩⟩ <;> rw [he] at hp
    exacts [.inl hp.symm, .inr hp.symm, .inl hp.symm, .inr hp.symm]

theorem inlinePosition?_bounds (hp : doc.inlinePosition? rule b = some p) :
    (doc.trivia b).start ≤ p ∧ p ≤ (doc.trivia b).stop := by
  have hle := doc.trivia_start_le b
  cases hrule : rule.placement with
  | multiline => cases (inlinePosition?_eq_none.2 hrule).symm.trans hp
  | spaced =>
    rcases inlinePosition?_spaced hrule hp with rfl | rfl
    · exact ⟨le_rfl, hle⟩
    · exact ⟨hle, le_rfl⟩
  | adjacent =>
    simp only [inlinePosition?, hrule, some.injEq] at hp
    exact hp ▸ ⟨le_rfl, hle⟩
  | trailingInline =>
    simp only [inlinePosition?, hrule, some.injEq] at hp
    cases hi : doc.clauseBreak? (doc.trivia b) with
    | none =>
      rw [hi, getD_none] at hp
      exact hp ▸ ⟨hle, le_rfl⟩
    | some i =>
      rw [hi, getD_some] at hp
      exact hp ▸ (clauseBreak?_bounds hi).imp_right Nat.le_of_lt

theorem inlinePosition?_of_joinsAt? (hp : doc.joinsAt? rule b = some p) :
    doc.inlinePosition? rule b = some p := by
  rw [joinsAt?] at hp
  split at hp
  · cases hp
  · exact hp

/-! ### Places on a line -/

/-- A place that is made for a content: new tokens come in before what stands in the place, or
behind it on the same line. -/
structure Spot (doc room : Document) (b : Branch) (p q : Nat) (sep pad : List Leaf) : Prop where
  spares : doc.Spares room.toForest b
  old : ∀ c, room.Has (.branch c) → doc.Has (.branch c)
  take_eq : room.order.take q = doc.order.take (doc.trivia b).start ++
    (sep ++ (doc.leavesIn ⟨(doc.trivia b).start, p⟩ ++ pad))
  new : ∀ l ∈ sep ++ pad, ¬ doc.Has (.leaf l)
  unbroken : room.Unbroken pad

theorem spot_self (hp : (doc.trivia b).start ≤ p) : Spot doc doc b p p [] [] where
  spares := .refl ..
  old := fun _ hc => hc
  take_eq := by simpa using doc.leavesIn_take hp
  new := forall_mem_nil _
  unbroken := unbroken_nil

theorem Aligned.spot_withSpace (h : doc.Aligned) (hb : doc.Has b)
    (hp : (doc.trivia b).start ≤ p) (hle : p ≤ doc.order.length) :
    Spot doc (doc.withSpace p) b p p [] [] ∧
      Spot doc (doc.withSpace p) b p (p + 1) [] [(doc.newToken " ").1] := by
  have hlength : (doc.order.take p).length = p := length_take_of_le hle
  have horder : (doc.withSpace p).order =
      doc.order.take p ++ ([(doc.newToken " ").1] ++ doc.order.drop p) := append_assoc ..
  have hspares : doc.Spares (doc.withSpace p).toForest b :=
    .of_rewired_self ((Rewired.refl doc.toForest b).addToken " ") h.tree.linked
      (h.tree.newToken " ").linked hb
  have hold : ∀ c, (doc.withSpace p).Has (.branch c) → doc.Has (.branch c) := fun _ hc => hc
  refine ⟨⟨hspares, hold, ?_, forall_mem_nil _, unbroken_nil⟩, ⟨hspares, hold, ?_, ?_, ?_⟩⟩
  · rw [horder, take_left' hlength]
    simpa using doc.leavesIn_take hp
  · rw [horder, ← append_assoc, take_left' (by simp [hle]), doc.leavesIn_take hp]
    simp
  · exact forall_mem_singleton.2 (not_has_newToken doc " ")
  · refine forall_mem_singleton.2 ?_
    show isBreak ((doc.newToken " ").2.textOf _) = false
    rw [textOf_newToken]
    rfl

theorem IsTree.linked_separateSlot (h : doc.IsTree) (htuple : doc.Has tuple)
    (delimiter : String) (p i : Nat) : (doc.separateSlot tuple delimiter p i).Linked := by
  have hev : Grows doc (doc.separateSlot tuple delimiter p i) :=
    evolves_separateSlot h.linked htuple delimiter p i
  exact hev.linked

section

variable (h : doc.Aligned) (hp : doc.parent b = some tuple) (delimiter : String)
include h hp

theorem Aligned.spares_separateSlot (p i : Nat) :
    doc.Spares (doc.separateSlot tuple delimiter p i).toForest b := by
  have hd := h.tree.linked
  have hhas := has_newToken_of_has (has_newToken doc delimiter) " "
  refine .of_rewired (rewired_separateSlot (hd.has_parent hp) delimiter p i) hd
    (h.tree.linked_separateSlot (hd.has_parent hp) delimiter p i) (fun c _ => ?_)
    fun c _ hc => .step hp hc
  refine (parent_insertChild hhas ..).trans ((if_neg fun he => nomatch he).trans ?_)
  exact (parent_newToken ..).trans (parent_newToken ..)

theorem Aligned.rightLeaves_separateSlot (p : Nat) :
    let index := ((doc.children tuple).idxOf? (.branch b)).getD 0
    (doc.separateSlot tuple delimiter p index).rightLeaves b =
        doc.rightLeaves b ∧
      (doc.separateSlot tuple delimiter p (index + 1)).rightLeaves b =
        (doc.newToken delimiter).1 :: doc.rightLeaves b := by
  intro index
  have hd := h.tree.linked
  have htuple := hd.has_parent hp
  obtain ⟨xs, ys, hxy, hxs, -⟩ := hd.exists_siblings hp
  have hindex : index = xs.length := by
    simp only [index, hxy, idxOf?_append_cons hxs, getD_some]
  have key : ∀ i xs' zs, (doc.separateSlot tuple delimiter p i).children tuple =
      xs' ++ .branch b :: (zs ++ ys) → .branch b ∉ xs' →
      (doc.separateSlot tuple delimiter p i).rightLeaves b =
        zs.flatMap (doc.separateSlot tuple delimiter p i).leaves ++
          doc.rightLeaves b := by
    intro i xs' zs hkids hnot
    have hlinked := h.tree.linked_separateSlot htuple delimiter p i
    have hrewired := rewired_separateSlot htuple delimiter p i
    have hparent := ((h.spares_separateSlot hp delimiter p i).up b .self).trans hp
    have hsame : ys.flatMap (doc.separateSlot tuple delimiter p i).leaves = ys.flatMap doc.leaves :=
      flatMap_congr fun n hn => hrewired.leaves_child hd hlinked (by simp [hxy, hn])
    rw [hlinked.rightLeaves_of_parent hparent hkids hnot, hd.rightLeaves_of_parent hp hxy hxs,
      (hrewired.beside_eq hd hlinked htuple).2, flatMap_append, hsame, append_assoc]
  have hkids := fun i => children_separateSlot htuple delimiter p i
  constructor
  · refine (key index (xs ++ [.leaf (doc.newToken delimiter).1]) [] ?_ ?_).trans (by simp)
    · rw [hkids, hxy, hindex]
      simp
    · simp [hxs]
  · refine (key (index + 1) xs [.leaf (doc.newToken delimiter).1] ?_ hxs).trans (by simp)
    rw [hkids, hxy, hindex, take_length_add_append, drop_length_add_append]
    simp

end

section

variable {marks rest : List Leaf} (h : doc.Aligned) (hr : room.Aligned)
  (horder : room.order = (doc.insertAt p marks).order)
include hr horder

theorem Aligned.position?_of_insert (hi : doc.position? l = some i) (hp : p ≤ i) :
    room.position? l = some (i + marks.length) := by
  rw [position?, horder]
  exact position?_insertAt_right (horder ▸ hr.tree.order_nodup) hi hp

variable (hnew : ∀ l ∈ marks, ¬ doc.Has (.leaf l)) (hp : p ≤ (doc.trivia b).stop)
include h hnew hp

theorem Aligned.stop_le_of_insert (hl : l ∈ doc.rightLeaves b)
    (hi : room.position? l = some i) : (doc.trivia b).stop + marks.length ≤ i := by
  have hhas := h.tree.linked.has_beside _ l (mem_append_right _ hl)
  have hmem : l ∈ doc.order := by
    have hmem := mem_of_idxOf? hi
    simp only [horder, insertAt, mem_append] at hmem
    rcases hmem with (hmem | hmem) | hmem
    · exact mem_of_mem_take hmem
    · exact absurd hhas (hnew l hmem)
    · exact mem_of_mem_drop hmem
  obtain ⟨j, hj⟩ := exists_position hmem
  have hle := h.trivia_stop_le hl hj
  cases (hr.position?_of_insert horder hj (hp.trans hle)).symm.trans hi
  exact Nat.add_le_add_right hle _

theorem Aligned.trivia_stop_of_insert
    (hsame : room.rightLeaves b = doc.rightLeaves b) :
    (room.trivia b).stop = (doc.trivia b).stop + marks.length := by
  have hle := doc.trivia_stop_le_length b
  have hle' := room.trivia_stop_le_length b
  have hlength : room.order.length = doc.order.length + marks.length := by
    simp [horder, insertAt]
    omega
  refine Nat.le_antisymm ?_ ?_
  · obtain ⟨-, hend⟩ | ⟨y, -, hy, hk⟩ := h.trivia_stop_cases b
    · omega
    · exact hr.trivia_stop_le (hsame ▸ hy) (hr.position?_of_insert horder hk hp)
  · obtain ⟨-, hend⟩ | ⟨y, -, hy, hk⟩ := hr.trivia_stop_cases b
    · omega
    · exact h.stop_le_of_insert hr horder hnew hp (hsame ▸ hy) hk

theorem Aligned.trivia_stop_of_insert_cons {mark : Leaf}
    (hmarks : marks = mark :: rest) (hstop : p = (doc.trivia b).stop)
    (hmore : room.rightLeaves b = mark :: doc.rightLeaves b) :
    (room.trivia b).stop = p := by
  have hle := doc.trivia_stop_le_length b
  have hsplit : room.order = doc.order.take p ++ (mark :: (rest ++ doc.order.drop p)) := by
    simp [horder, insertAt, hmarks]
  have hfirst : (doc.order.take p).length = p := length_take_of_le (by omega)
  have hmark : room.position? mark = some p := by
    refine idxOf?_of_getElem? hr.tree.order_nodup ?_
    rw [hsplit, getElem?_append_right (by omega), hfirst, Nat.sub_self]
    rfl
  refine Nat.le_antisymm (hr.trivia_stop_le (hmore ▸ mem_cons_self) hmark) ?_
  obtain ⟨-, hend⟩ | ⟨y, -, hy, hk⟩ := hr.trivia_stop_cases b
  · rw [hend, hsplit, length_append, hfirst]
    exact Nat.le_add_right ..
  · rcases mem_cons.1 (hmore ▸ hy) with rfl | hy
    · exact (some.inj (hmark.symm.trans hk)).le
    · exact hstop.le.trans
        ((Nat.le_add_right ..).trans (h.stop_le_of_insert hr horder hnew hp hy hk))

end

theorem Aligned.spot_makeSlotRoom (h : doc.Aligned) (hp : doc.parent b = some tuple)
    (delimiter : String) : ∃ sep,
    Spot doc (doc.makeSlotRoom tuple b delimiter).2 b (doc.trivia b).stop
      (doc.makeSlotRoom tuple b delimiter).1 sep [] := by
  have hle := doc.trivia_start_le b
  have hlength := doc.trivia_stop_le_length b
  obtain ⟨space, hnew, horder⟩ : ∃ space, (∀ l ∈ [(doc.newToken delimiter).1, space],
      ¬ doc.Has (.leaf l)) ∧ ∀ p i, (doc.separateSlot tuple delimiter p i).order =
        (doc.insertAt p [(doc.newToken delimiter).1, space]).order := by
    refine ⟨((doc.newToken delimiter).2.newToken " ").1, fun l hl => ?_, fun _ _ => rfl⟩
    rcases mem_pair.1 hl with rfl | rfl
    · exact not_has_newToken doc delimiter
    · exact fun hm => not_has_newToken _ " " (has_newToken_of_has hm delimiter)
  have hspares := h.spares_separateSlot hp delimiter
  show ∃ sep, Spot doc _ b _
    ((doc.makeSlotRoom tuple b delimiter).2.trivia b).stop sep []
  rcases makeSlotRoom_cases doc tuple b delimiter with
    ⟨y, i, hy, hi, he⟩ | ⟨y, i, hy, hi, he⟩ | he <;> rw [he]
  · have hstart : i + 1 = (doc.trivia b).start := by simp [trivia, hy, hi]
    rw [hstart]
    have hroom := h.separateSlot hp delimiter (.inl ⟨rfl, h.parts_start b⟩)
    -- the delimiter comes in on the left, so what stands in the place moves with the right side
    have hstop := h.trivia_stop_of_insert hroom (horder ..) hnew hle
      (h.rightLeaves_separateSlot hp delimiter _).1
    refine ⟨[(doc.newToken delimiter).1, space], hspares _ _, fun _ => has_of_separateSlot, ?_,
      by simpa using hnew, unbroken_nil⟩
    rw [hstop, horder, insertAt, append_nil, ← append_assoc, take_append,
      take_of_length_le (by simp; omega)]
    congr 1
    simp only [leavesIn, length_append, List.length_take]
    congr 1
    omega
  · obtain ⟨hnone, -⟩ | ⟨_, hy', -, hstop⟩ := h.trivia_stop_cases b
    · cases hnone.symm.trans hy
    cases hy'.symm.trans hy
    cases hi.symm.trans hstop
    have hroom := h.separateSlot hp delimiter (.inr ⟨rfl, h.parts_stop b⟩)
    have hstop := h.trivia_stop_of_insert_cons hroom (horder ..) hnew le_rfl rfl rfl
      (h.rightLeaves_separateSlot hp delimiter _).2
    refine ⟨[], hspares _ _, fun _ => has_of_separateSlot, ?_, forall_mem_nil _,
      unbroken_nil⟩
    rw [hstop, horder, insertAt, append_assoc,
      take_left' (length_take_of_le hlength)]
    simpa using doc.leavesIn_take hle
  · exact ⟨[], spot_self hle⟩

theorem Aligned.spot_niche (h : doc.Aligned) (hb : doc.Has b)
    (hplain : doc.StandsPlain rule b)
    (hstart : (doc.trivia b).start ≤ (doc.niche rule b).position) : ∃ q room pad,
    doc.optionalPlace rule b = ((q, []), room) ∧
      Spot doc room b (doc.niche rule b).position q [] pad := by
  obtain ⟨hleft, hright⟩ := h.spot_withSpace hb hstart (niche_position_le ..)
  rcases optionalPlace_niche hplain with ⟨-, -, he⟩ | ⟨⟨hl, -⟩ | ⟨hl, -⟩, he⟩
  · exact ⟨_, _, [], he, spot_self hstart⟩
  · exact ⟨_, _, _, he, by rw [hl]; exact hright⟩
  · exact ⟨_, _, [], he, by rw [hl]; exact hleft⟩

theorem Aligned.spot (h : doc.Aligned) (hb : doc.Has b)
    (hp : doc.inlinePosition? rule b = some p) : ∃ q room sep pad,
    doc.optionalPlace rule b = ((q, []), room) ∧ Spot doc room b p q sep pad := by
  obtain ⟨hstart, -⟩ := inlinePosition?_bounds hp
  cases hrule : rule.placement <;> simp only [inlinePosition?, hrule] at hp
  case multiline => cases hp
  case trailingInline =>
    refine ⟨p, doc, [], [], ?_, spot_self hstart⟩
    simp only [Document.optionalPlace, hrule, some.inj hp]
  case adjacent =>
    refine ⟨p, doc, [], [], ?_, spot_self hstart⟩
    simp only [Document.optionalPlace, hrule, some.inj hp]
  case spaced =>
    split at hp
    · next hslot =>
      cases hp
      obtain ⟨parent, delimiter, hparent, hshape⟩ := isSlot_iff.1 hslot
      obtain ⟨sep, hspot⟩ := h.spot_makeSlotRoom hparent delimiter
      refine ⟨_, _, sep, [], ?_, hspot⟩
      simp only [Document.optionalPlace, hrule, Document.makeRoom, hparent, hshape]
    · next hslot =>
      cases hp
      have hplain : doc.StandsPlain rule b := .inr ⟨hrule, fun parent delimiter hparent hshape =>
        hslot (isSlot_iff.2 ⟨parent, delimiter, hparent, hshape⟩)⟩
      obtain ⟨q, room, pad, he, hspot⟩ := h.spot_niche hb hplain hstart
      exact ⟨q, room, [], pad, he, hspot⟩

theorem Spot.onEndLine_iff (hs : Spot doc room b p q sep pad) (h : doc.Aligned)
    (hx : doc.Has x)
    (hstart : ¬ doc.OnEndLine (doc.order.take (doc.trivia b).start) x) :
    room.OnEndLine (room.order.take q) x ↔
      doc.OnEndLine (doc.leavesIn ⟨(doc.trivia b).start, p⟩) x := by
  have htext : ∀ l ∈ doc.order, room.textOf l = doc.textOf l := fun l hl =>
    hs.spares.textOf l (h.tree.order_has l hl)
  have hin : ∀ l ∈ doc.leavesIn ⟨(doc.trivia b).start, p⟩, l ∈ doc.order := fun l hl =>
    mem_of_mem_drop (mem_of_mem_take hl)
  have hstart' : ¬ room.OnEndLine (doc.order.take (doc.trivia b).start) x := fun hline =>
    hstart (hline.congr fun l hl => (htext l (mem_of_mem_take hl)).symm)
  have hpad : x ∉ pad := fun hm => hs.new x (mem_append_right _ hm) hx
  have hsep : x ∉ sep := fun hm => hs.new x (mem_append_left _ hm) hx
  have hsep' : ¬ room.OnEndLine sep x := fun hline => hsep hline.mem
  rw [hs.take_eq, onEndLine_append, onEndLine_append, onEndLine_append_of_not_mem hpad]
  simp only [hs.unbroken, hsep', hstart', and_false, or_false, true_and]
  exact ⟨fun hline => hline.congr fun l hl => (htext l (hin l hl)).symm,
    fun hline => hline.congr fun l hl => htext l (hin l hl)⟩

section

variable {before : List Leaf} (h : doc.Aligned) (hb : doc.Has b)
  (hplace : doc.optionalPlace rule b = ((q, before), room))
include h hb hplace

theorem Aligned.exists_break_place (hrule : rule.placement = .multiline) :
    doc.Spares room.toForest b ∧ (∀ c, room.Has (.branch c) → doc.Has (.branch c)) ∧ ∃ xs mark,
      room.order.take q ++ before = xs ++ [mark] ∧ isBreak (room.textOf mark) := by
  simp only [Document.optionalPlace, hrule] at hplace
  cases hi : doc.clauseBreak? (doc.trivia b) with
  | none =>
    rw [hi] at hplace
    cases hplace
    refine ⟨.of_rewired_self ((Rewired.refl doc.toForest b).addToken lineBreak)
      h.tree.linked (h.tree.newToken lineBreak).linked hb, fun _ hc => hc, _, _, rfl, ?_⟩
    rw [textOf_newToken]
    rfl
  | some i =>
    rw [hi] at hplace
    cases hplace
    obtain ⟨t, ht, hbreak⟩ :=
      exists_break_of_nextBreak? (filter_eq_some_iff.1 hi).1
    obtain ⟨mark, hmark, rfl⟩ := map_eq_some_iff.1 ((getElem?_map ..).symm.trans ht)
    refine ⟨.refl .., fun _ hc => hc, doc.order.take i, mark, ?_, hbreak⟩
    rw [append_nil, take_add_one, hmark, toList_some]

theorem Aligned.spares_optionalPlace :
    doc.Spares room.toForest b ∧ ∀ c, room.Has (.branch c) → doc.Has (.branch c) := by
  cases hp : doc.inlinePosition? rule b with
  | none =>
    have hbreak := h.exists_break_place hb hplace (inlinePosition?_eq_none.1 hp)
    exact ⟨hbreak.1, hbreak.2.1⟩
  | some p =>
    obtain ⟨_, _, _, _, he, hspot⟩ := h.spot hb hp
    cases hplace.symm.trans he
    exact ⟨hspot.spares, hspot.old⟩

/-- Old tokens on the line on which a content begins: those that stand in its place, if it has no
lines of its own. -/
theorem Aligned.onEndLine_optionalPlace (hx : doc.Has x)
    (hstart : ¬ doc.OnEndLine (doc.order.take (doc.trivia b).start) x) :
    room.OnEndLine (room.order.take q ++ before) x ↔ ∃ p, doc.inlinePosition? rule b = some p ∧
      doc.OnEndLine (doc.leavesIn ⟨(doc.trivia b).start, p⟩) x := by
  cases hp : doc.inlinePosition? rule b with
  | none =>
    obtain ⟨-, -, xs, mark, he, hbreak⟩ :=
      h.exists_break_place hb hplace (inlinePosition?_eq_none.1 hp)
    have hbroken : ¬ room.Unbroken [mark] := fun hu =>
      Bool.noConfusion (hbreak.symm.trans (hu mark mem_cons_self))
    rw [he, onEndLine_append]
    simp only [hbroken, false_and, or_false, reduceCtorEq, exists_false, iff_false]
    rintro ⟨ys, zs, hsplit, hu⟩
    rcases cons_eq_append_iff.1 hsplit with ⟨rfl, hcons⟩ | ⟨ys', -, hnil⟩
    · exact hbroken (hcons ▸ hu)
    · simp at hnil
  | some p =>
    obtain ⟨_, _, _, _, he, hspot⟩ := h.spot hb hp
    cases hplace.symm.trans he
    simp only [append_nil, some.injEq, exists_eq_left']
    exact hspot.onEndLine_iff h hx hstart

end

/-! ### Contents -/

theorem order_take_of_position (horder : doc.order = xs ++ l :: ys)
    (hn : doc.order.Nodup) (hj : doc.position? l = some j) : doc.order.take j = xs := by
  rw [horder] at hn
  have hnot : l ∉ xs := fun hm => disjoint_of_nodup_append hn hm mem_cons_self
  rw [position?, horder, idxOf?_append_cons hnot] at hj
  rw [horder, ← some.inj hj, take_left]

/-- The first token of a content, behind the tokens before its place, those that wait for it, and
new ones. -/
structure Begins (room after : Document) (b : Branch) (q : Nat) (before front rest : List Leaf)
    (l : Leaf) : Prop where
  rewired : room.Rewired after.toForest b
  order_eq : after.order = room.order.take q ++ before ++ front ++ l :: rest
  fresh : ∀ x ∈ front, ¬ room.Has (.leaf x)
  mem : l ∈ after.leaves b

section

variable {before : List Leaf} {added : Branch} (h : doc.Aligned) (hb : doc.Has b)
  (hnil : doc.children b = []) (hf : fragment.Aligned)
  (hplace : doc.optionalPlace rule b = ((q, before), room))
  (hfill : doc.fillOptional rule b fragment = (added, after))
  (hl : after.firstLeaf? added = some l)
include h hb hnil hf hplace hfill hl

theorem Aligned.exists_begins : ∃ front rest, Begins room after b q before front rest l ∧
    (rule.placement ≠ .multiline →
      (after.Unbroken front ↔ isBreak rule.opening = false) ∧
      ∀ c x, ¬ room.Has (.branch c) → x ∈ after.visibleLeaves (.branch c) → x ∈ l :: rest) := by
  obtain ⟨laid, ls, opening, middle, closing, new, nodes, hroot, htree, hcomes, hnew, hnodes,
    hfirst, hopening, hmiddle⟩ := h.exists_comesIn hb hnil hf rule
  simp only [hplace, hfill] at hroot htree hcomes hnew hnodes hfirst hopening hmiddle
  have hmem : l ∈ ls.map room.rehomeLeaf := by
    rw [hroot] at hl
    exact (hcomes.visible _ (not_has_rehome _ laid.root)).subset
      (mem_of_mem_head? hl)
  obtain ⟨first, behind, hsplit, hnone⟩ : ∃ first behind,
      ls.map room.rehomeLeaf = first ++ l :: behind ∧
        (rule.placement ≠ .multiline → first = []) := by
    by_cases hrule : rule.placement = .multiline
    · obtain ⟨first, behind, he⟩ := append_of_mem hmem
      exact ⟨first, behind, he, fun hne => absurd hrule hne⟩
    · obtain ⟨behind, he⟩ := head?_eq_some_iff.1 ((hfirst hrule).symm.trans hl)
      exact ⟨[], behind, he, fun _ => rfl⟩
  refine ⟨opening ++ (middle ++ first), behind ++ closing ++ room.order.drop q,
    ⟨hcomes.rewired, ?_, fun x hx => ?_, ?_⟩, fun hrule => ⟨?_, fun c x hc hx => ?_⟩⟩
  · rw [hcomes.order_eq, hnew, hsplit]
    simp [insertAt]
  · refine hcomes.fresh x ?_
    rw [hnew, hsplit]
    simp only [mem_append] at hx ⊢
    rcases hx with hx | hx | hx <;> simp [hx]
  · rw [htree.linked.leaves_branch, hcomes.children_eq, hnodes]
    refine mem_flatMap.2 ⟨.branch added, by simp, ?_⟩
    exact mem_of_mem_filter (mem_of_mem_head? hl)
  · have hspace : after.Unbroken middle := fun x hx => by
      rw [hmiddle x hx]
      rfl
    rw [hnone hrule, append_nil, unbroken_append, and_iff_left hspace, unbroken_iff_breaks,
      hopening]
    split
    · next hempty =>
      rw [String.isEmpty_iff.1 hempty]
      exact iff_of_true rfl rfl
    · simp [breaks]
  · have hx := (hcomes.visible c hc).subset hx
    rw [hsplit, hnone hrule] at hx
    rw [append_assoc]
    exact mem_append_left _ hx

theorem Aligned.onEndLine_fillOptional {j : Nat} (hj : after.position? l = some j)
    (hx : doc.Has x)
    (hstart : ¬ doc.OnEndLine (doc.order.take (doc.trivia b).start) x) :
    after.OnEndLine (after.order.take j) x ↔ ∃ p, doc.joinsAt? rule b = some p ∧
      doc.OnEndLine (doc.leavesIn ⟨(doc.trivia b).start, p⟩) x := by
  obtain ⟨front, rest, hbegins, hinline⟩ := h.exists_begins hb hnil hf hplace hfill hl
  obtain ⟨base, -, -, hroom, -⟩ := h.optionalPlace hb hnil rule
  have hafter := h.fillOptional hb hnil hf rule
  simp only [hplace, hfill] at hroom hafter
  have hold : x ∉ front := fun hm =>
    hbegins.fresh x hm ((h.spares_optionalPlace hb hplace).1.has _ hx)
  have htext : ∀ y ∈ room.order.take q ++ before, after.textOf y = room.textOf y := by
    intro y hy
    refine hbegins.rewired.textOf y ?_
    rcases mem_append.1 hy with hy | hy
    · exact hroom.tree.order_has y (mem_of_mem_take hy)
    · exact hroom.has y hy
  have hsame : after.OnEndLine (room.order.take q ++ before) x ↔
      room.OnEndLine (room.order.take q ++ before) x :=
    ⟨fun hline => hline.congr fun y hy => (htext y hy).symm, fun hline => hline.congr htext⟩
  rw [order_take_of_position hbegins.order_eq hafter.tree.order_nodup hj,
    onEndLine_append_of_not_mem hold, hsame, h.onEndLine_optionalPlace hb hplace hx hstart,
    joinsAt?]
  cases hp : doc.inlinePosition? rule b with
  | none => simp
  | some p =>
    have hrule : rule.placement ≠ .multiline := fun hrule =>
      some_ne_none p (hp.symm.trans (inlinePosition?_eq_none.2 hrule))
    rw [(hinline hrule).1]
    cases isBreak rule.opening <;> simp

/-- An old line comment hides a content if it stands in its place, on the line that the content
goes on with. -/
theorem Aligned.hides_fillOptional_iff (hc : doc.Has c)
    (hfree : doc.parent c = none)
    (hstart : doc.isLineComment c = true → ¬ doc.Around c b →
      ∀ x ∈ doc.leaves c,
        ¬ doc.OnEndLine (doc.order.take (doc.trivia b).start) x) :
    after.Hides c l ↔ doc.isLineComment c ∧ ¬ doc.Around c b ∧
      ∃ x ∈ doc.leaves c, ∃ p, doc.joinsAt? rule b = some p ∧
        doc.OnEndLine (doc.leavesIn ⟨(doc.trivia b).start, p⟩) x := by
  obtain ⟨front, rest, hbegins, -⟩ := h.exists_begins hb hnil hf hplace hfill hl
  obtain ⟨base, -, -, hroom, -⟩ := h.optionalPlace hb hnil rule
  have hafter := h.fillOptional hb hnil hf rule
  simp only [hplace, hfill] at hroom hafter
  have hplaced := (h.spares_optionalPlace hb hplace).1
  have hspares : doc.Spares after.toForest b := hplaced.trans (.of_rewired_self hbegins.rewired
    hroom.tree.linked hafter.tree.linked (hplaced.has _ hb))
  have hbeside : l ∈ after.toForest.surroundings b :=
    mem_append_right _ (mem_append_left _ hbegins.mem)
  have hin : l ∈ after.order := by simp [hbegins.order_eq]
  obtain ⟨j, hj⟩ := exists_position hin
  have hline := fun x (hx : x ∈ doc.leaves c) =>
    h.onEndLine_fillOptional hb hnil hf hplace hfill hl hj (h.tree.linked.has_of_mem_leaves hx)
  rw [hides_iff hafter.tree.order_nodup hj]
  constructor
  · rintro ⟨hcomment, hout, x, hx, hend⟩
    have hunder := hafter.tree.linked.mem_leaves.1 hbegins.mem
    have hapart : ¬ after.Around c b := fun ha =>
      hout (hafter.tree.linked.mem_leaves.2 (hunder.trans ha))
    obtain ⟨hcomment, hapart, hleaves⟩ :=
      lineComment_of_spares hspares h.tree.linked hc hfree hcomment hapart
    rw [hleaves] at hx
    exact ⟨hcomment, hapart, x, hx, (hline x hx (hstart hcomment hapart x hx)).1 hend⟩
  · rintro ⟨hcomment, hapart, x, hx, hend⟩
    have hout := hafter.tree.linked.not_mem_leaves_of_apart (hspares.free c hc hfree)
      (mt hspares.around_iff.1 hapart) hbeside
    rw [isLineComment_congr hspares h.tree.linked hc hfree hapart]
    refine ⟨hcomment, hout, x, ?_, (hline x hx (hstart hcomment hapart x hx)).2 hend⟩
    rwa [hspares.leaves c hc hfree hapart]

/-- A container that came in with a content hides its beginning only if all the lines of its
fragment came in. -/
theorem Aligned.has_of_hides_fillOptional (hhides : after.Hides c l)
    (hrule : rule.placement ≠ .multiline) : doc.Has c := by
  -- without other lines the content starts with its first token, and a new comment is behind it
  by_contra hc
  obtain ⟨front, rest, hbegins, hinline⟩ := h.exists_begins hb hnil hf hplace hfill hl
  have hn := (h.fillOptional hb hnil hf rule).tree.order_nodup
  simp only [hfill] at hn
  have hin : l ∈ after.order := by simp [hbegins.order_eq]
  obtain ⟨j, hj⟩ := exists_position hin
  obtain ⟨-, -, x, hx, hend⟩ := (hides_iff hn hj).1 hhides
  have hbehind := (hinline hrule).2 c x (mt ((h.spares_optionalPlace hb hplace).2 c) hc)
    (mem_filter.2 ⟨hx, contains_iff_mem.2 (mem_of_mem_take hend.mem)⟩)
  have hmem := hend.mem
  rw [order_take_of_position hbegins.order_eq hn hj] at hmem
  rw [hbegins.order_eq] at hn
  exact disjoint_of_nodup_append hn hmem hbehind

end

/-! ### Places behind a line comment -/

theorem Aligned.not_around_of_position (h : doc.Aligned) (hnil : doc.children b = [])
    (hx : x ∈ doc.leaves c) (hi : doc.position? x = some i)
    (hstart : (doc.trivia b).start ≤ i) (hstop : i < (doc.trivia b).stop) :
    ¬ doc.Around c b := by
  intro ha
  have hmem : x ∈ doc.toForest.surroundings b := by
    rw [h.tree.linked.surroundings_of_around ha]
    exact mem_append_right _ (mem_append_left _ hx)
  rw [Forest.surroundings, leaves_of_children_nil hnil, nil_append,
    mem_append] at hmem
  rcases hmem with hl | hr
  · exact absurd (h.lt_trivia_start hl hi) (Nat.not_lt.2 hstart)
  · exact absurd (h.trivia_stop_le hr hi) (Nat.not_le.2 hstop)

theorem RoomOnLeft.inlinePosition?_eq (hrule : rule.placement = .spaced)
    (h : doc.RoomOnLeft b parent (doc.trivia b).start) :
    doc.inlinePosition? rule b = some (doc.trivia b).start := by
  obtain ⟨outer, houter, hlt⟩ := h.starts
  have hslot : ¬ doc.isSlot b := fun hs => by
    obtain ⟨_, delimiter, hp, hshape⟩ := isSlot_iff.1 hs
    cases h.parent_eq.symm.trans hp
    exact h.not_tuple delimiter hshape
  simp [inlinePosition?, hrule, hslot, niche, h.parent_eq, h.spacious, houter, hlt]

/-- Where line comments end their lines, a place behind one that has something to the right of it is
the end of the line of a clause. -/
theorem Aligned.clause_of_onEndLine (h : doc.Aligned) (hb : doc.Has b)
    (hends : doc.CommentsEndLines) (hcomment : doc.isLineComment c)
    (hfree : doc.parent c = none) (hout : ¬ doc.Around c b)
    (hx : x ∈ doc.leaves c)
    (hy : (doc.clearOptional rule b).rightLeaf? b = some y)
    (hp : (doc.clearOptional rule b).inlinePosition? rule b = some p)
    (hline : (doc.clearOptional rule b).OnEndLine ((doc.clearOptional rule b).leavesIn
      ⟨((doc.clearOptional rule b).trivia b).start, p⟩) x) :
    rule.placement = .trailingInline ∧ ((doc.clearOptional rule b).clauseBreak?
      ((doc.clearOptional rule b).trivia b)).isSome := by
  have hroom := h.roomOnLeft_of_onEndLine hb hends hcomment hfree hout hx hy
  generalize doc.clearOptional rule b = cleared at hp hline hroom ⊢
  cases hrule : rule.placement with
  | multiline => cases (inlinePosition?_eq_none.2 hrule).symm.trans hp
  | adjacent =>
    simp only [inlinePosition?, hrule, some.injEq] at hp
    rw [← hp] at hline
    exact absurd hline (not_onEndLine_of_le le_rfl)
  | spaced =>
    rcases inlinePosition?_spaced hrule hp with rfl | rfl
    · exact absurd hline (not_onEndLine_of_le le_rfl)
    -- behind the comment there is room on the left, and that is where the content goes
    · obtain ⟨-, parent, hleft⟩ := hroom hline
      rw [some.inj (hp.symm.trans (hleft.inlinePosition?_eq hrule))] at hline
      exact absurd hline (not_onEndLine_of_le le_rfl)
  | trailingInline =>
    refine ⟨rfl, ?_⟩
    simp only [inlinePosition?, hrule, some.injEq] at hp
    cases hi : cleared.clauseBreak? (cleared.trivia b) with
    | some i => rfl
    | none =>
      rw [hi, getD_none] at hp
      subst hp
      cases hrule.symm.trans (hroom hline).1

section

variable {added : Branch} (h : doc.Aligned) (hb : doc.Has b)
  (hends : doc.CommentsEndLines) (hf : fragment.Aligned)
  (hset : doc.setOptional rule b fragment = (added, after))
  (hl : after.firstLeaf? added = some l) (hc : doc.Has c)
  (hfree : doc.parent c = none)
include h hb hends hf hset hl hc hfree

theorem Aligned.hides_setOptional_iff :
    after.Hides c l ↔ (doc.clearOptional rule b).isLineComment c ∧
      ¬ (doc.clearOptional rule b).Around c b ∧
      ∃ x ∈ (doc.clearOptional rule b).leaves c, ∃ p,
        (doc.clearOptional rule b).joinsAt? rule b = some p ∧
        (doc.clearOptional rule b).OnEndLine ((doc.clearOptional rule b).leavesIn
          ⟨((doc.clearOptional rule b).trivia b).start, p⟩) x := by
  obtain ⟨_, _, hv, -⟩ := h.vacated hb rule
  refine hv.aligned.hides_fillOptional_iff (hv.spares.has _ hb) (children_clearOptional ..)
    (aligned_wrapFor hf rule) rfl hset hl (hv.spares.has _ hc) (hv.spares.free c hc hfree) ?_
  intro hcomment hapart x hx
  obtain ⟨hcomment, hapart, hleaves⟩ :=
    lineComment_of_spares hv.spares h.tree.linked hc hfree hcomment hapart
  exact hv.not_onEndLine_start h hends hcomment hfree hapart (hleaves ▸ hx)

theorem Aligned.clause_of_hides_setOptional (hhides : after.Hides c l) :
    (doc.clearOptional rule b).rightLeaf? b = none ∨
      rule.placement = .trailingInline ∧ ((doc.clearOptional rule b).clauseBreak?
        ((doc.clearOptional rule b).trivia b)).isSome := by
  obtain ⟨hcomment, hapart, x, hx, p, hjoin, hline⟩ :=
    (h.hides_setOptional_iff hb hends hf hset hl hc hfree).1 hhides
  obtain ⟨hcomment, hapart, hleaves⟩ := lineComment_of_spares (h.spares_clearOptional hb rule)
    h.tree.linked hc hfree hcomment hapart
  cases hy : (doc.clearOptional rule b).rightLeaf? b with
  | none => exact .inl rfl
  | some y =>
    exact .inr (h.clause_of_onEndLine hb hends hcomment hfree hapart (hleaves ▸ hx) hy
      (inlinePosition?_of_joinsAt? hjoin) hline)

end

end Document

namespace Edit

open Document

variable {doc fragment : Document} {optional : Branch} {rule : OptionalRule}

/-- When line comments end their lines, a line comment hides the first token of what is set only
when it stands in the place of the optional, on the line that the content goes on with, and then at
the end of the text or at the end of the line of a clause. What comes in is hidden by a comment of
its own only if it comes with all its lines. -/
theorem hides_set_iff (h : doc.IsTree) (ho : doc.Ordered) (hb : doc.Has (.branch optional))
    (hrule : doc.optionalRule? optional = some rule) (hends : doc.CommentsEndLines)
    (hf : fragment.IsTree) (hfo : fragment.Ordered)
    (hkind : rule.accepts fragment.rootKind = true) :
    let cleared := doc.clearOptional rule optional
    let trivia := cleared.trivia (.branch optional)
    ∃ added after, (set optional fragment).run doc = .ok added after ∧ ∀ l c,
      after.firstLeaf? (.branch added) = some l →
      (¬ doc.Has (.branch c) → after.Hides c l → rule.placement = .multiline) ∧
      (doc.Has (.branch c) → doc.parent (.branch c) = none →
        (after.Hides c l ↔ cleared.isLineComment c = true ∧ ∃ x i p,
          x ∈ cleared.leaves (.branch c) ∧ cleared.position? x = some i ∧
          cleared.joinsAt? rule optional = some p ∧ trivia.start ≤ i ∧ i < p ∧
          cleared.layout.lineOf i = cleared.layout.lineOf p) ∧
        (after.Hides c l → cleared.rightLeaf? (.branch optional) = none ∨
          rule.placement = .trailingInline ∧ (cleared.clauseBreak? trivia).isSome = true)) := by
  intro cleared trivia
  have ha : doc.Aligned := ⟨h, ho⟩
  have hf : fragment.Aligned := ⟨hf, hfo⟩
  have hcleared : cleared.Aligned := ha.clearOptional rule optional
  have hn := hcleared.tree.order_nodup
  have hnil := children_clearOptional doc rule optional
  refine ⟨_, _, run_set hrule hkind, fun l c hl => ⟨fun hc hhides => ?_, fun hc hfree => ⟨?_,
    ha.clause_of_hides_setOptional hb hends hf rfl hl hc hfree⟩⟩⟩
  · by_contra hne
    have hhas := hcleared.has_of_hides_fillOptional (has_clearOptional.2 hb) hnil
      (aligned_wrapFor hf rule) rfl rfl hl hhides hne
    exact hc (has_clearOptional.1 hhas)
  refine (ha.hides_setOptional_iff hb hends hf rfl hl hc hfree).trans
    (and_congr_right fun _ => ⟨?_, ?_⟩)
  · rintro ⟨-, x, hx, p, hjoin, hline⟩
    obtain ⟨i, hi, hstart, hlt, heq⟩ := (onEndLine_leavesIn hn).1 hline
    exact ⟨x, i, p, hx, hi, hjoin, hstart, hlt, heq⟩
  · rintro ⟨x, i, p, hx, hi, hjoin, hstart, hlt, heq⟩
    have hstop := hlt.trans_le (inlinePosition?_bounds (inlinePosition?_of_joinsAt? hjoin)).2
    exact ⟨hcleared.not_around_of_position hnil hx hi hstart hstop, x, hx, p, hjoin,
      (onEndLine_leavesIn hn).2 ⟨i, hi, hstart, hlt, heq⟩⟩

/-- An else clause is put at the end of its line, behind the comment that stands there. -/
theorem hides_set_elseClause :
    let start : Builder := { grammar := .javaScript, source := "if (x) \x7b\x7d // c\n" }
    let calls : List Builder.Call :=
      [.openNode .program, .openNode .ifStatement, .token "if", .token "(", .token "x", .token ")",
        .openNode .enclosedBody, .token "\x7b", .openNode .statementList, .closeNode, .token "\x7d",
        .closeNode, .openNode .elseClauseOptional, .closeNode, .closeNode, .comment "// c",
        .closeNode]
    let fragment := Document.ofSource .javaScript .elseClause "else \x7b\x7d"
    ∃ doc rule, (start.run calls).finish = .ok doc ∧ doc.IsTree ∧ doc.Ordered ∧
      doc.Has (.branch ⟨4⟩) ∧ doc.optionalRule? ⟨4⟩ = some rule ∧ doc.CommentsEndLines ∧
      fragment.IsTree ∧ fragment.Ordered ∧ rule.accepts fragment.rootKind = true ∧
      ∃ added after l, (set ⟨4⟩ fragment).run doc = .ok added after ∧
        after.firstLeaf? (.branch added) = some l ∧ doc.Has (.branch ⟨5⟩) ∧ after.Hides ⟨5⟩ l ∧
        after.text = "if (x) \x7b\x7d // c else \x7b\x7d\n" := by
  intro start calls fragment
  let doc := (start.run calls).built
  let rule : OptionalRule := { element := .elseClause, placement := .trailingInline }
  have hfinish : (start.run calls).finish = .ok doc := by decide +kernel
  obtain ⟨htree, hordered⟩ := Builder.isTree_of_run hfinish
  have hb : doc.Has (.branch ⟨4⟩) := by decide +kernel
  have hc : doc.Has (.branch ⟨5⟩) := by decide +kernel
  have hrule : doc.optionalRule? ⟨4⟩ = some rule := by decide +kernel
  have hends : doc.CommentsEndLines := by
    rintro c l hl ⟨hcomment, hout, x, hx, i, j, hi, hj, hlt, -⟩
    have hsize : doc.Has c := by
      by_contra hnot
      rw [leaves_of_not_has hnot] at hx
      cases hx
    have honly : ∀ n < 7, doc.isLineComment ⟨n⟩ = true → n = 5 := by decide +kernel
    have hsize : c.index < 7 := Nat.lt_of_lt_of_eq hsize (by decide +kernel)
    obtain rfl : c = ⟨5⟩ := congrArg Branch.mk (honly c.index hsize hcomment)
    have hbehind : ∀ y ∈ doc.leaves (.branch ⟨5⟩), (doc.position? y).all (9 ≤ ·) := by
      decide +kernel
    have hbefore : ∀ y ∈ doc.order, (doc.parent y).isSome = true →
        y ∉ doc.leaves (.branch ⟨5⟩) → (doc.position? y).all (· < 9) := by decide +kernel
    have hx := hbehind x hx
    have hl := hbefore l (mem_of_idxOf? hj) hl hout
    rw [hi, all_some, decide_eq_true_iff] at hx
    rw [hj, all_some, decide_eq_true_iff] at hl
    omega
  have hf : fragment.Aligned := aligned_ofSource ..
  have hkind : rule.accepts fragment.rootKind := by decide +kernel
  obtain ⟨added, after, hset, hhides⟩ :=
    hides_set_iff htree hordered hb hrule hends hf.tree hf.ordered hkind
  obtain ⟨rfl, rfl⟩ := EStateM.Result.ok.inj (hset.symm.trans (run_set hrule hkind))
  have hl : (doc.setOptional rule ⟨4⟩ fragment).2.firstLeaf?
      (.branch (doc.setOptional rule ⟨4⟩ fragment).1) = some ⟨13⟩ := by decide +kernel
  have htext : (doc.setOptional rule ⟨4⟩ fragment).2.text =
      "if (x) \x7b\x7d // c else \x7b\x7d\n" := by decide +kernel
  have hhidden := (((hhides _ _ hl).2 hc (by decide +kernel)).1).2
    ⟨by decide +kernel, ⟨9⟩, 9, 12, by decide +kernel⟩
  exact ⟨doc, rule, hfinish, htree, hordered, hb, hrule, hends, hf.tree, hf.ordered, hkind, _, _,
    _, hset, hl, hc, hhidden, htext⟩

end Edit

end Lossless
