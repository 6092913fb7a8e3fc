import Lossless.Proofs.Departing
import Lossless.Proofs.Tuples

/-! Optionals that appear and go away again. Where the content of an optional brings at most a space
with it, the same space goes with it, so the text is as it was before the content came in. -/

namespace Lossless

open List Option Layout Forest

theorem Forest.Rewired.around_iff {f g : Forest} {b c : Branch} {node : Node}
    (hr : f.Rewired g b) (hf : f.Linked) (hnil : f.children b = []) (hn : f.Has node) :
    g.Around c node ↔ f.Around c node := by
  have hparent : ∀ n, f.Has n → g.parent n = f.parent n := fun n hn =>
    hr.parent n hn (by rw [hnil]; exact not_mem_nil)
  constructor
  · intro ha
    induction ha with
    | self => exact .self
    | step hp _ ih =>
      rw [hparent _ hn] at hp
      exact .step hp (ih (hf.has_parent hp))
  · intro ha
    induction ha with
    | self => exact .self
    | step hp _ ih => exact .step ((hparent _ hn).trans hp) (ih (hf.has_parent hp))

namespace Document

variable {doc other after fragment : Document} {b : Branch} {rule : OptionalRule} {l : Leaf}

/-! ### The place of a content -/

/-- Where the content of an optional goes, and the white space that comes with it on its left and
on its right. -/
structure Niche where
  position : Nat
  left : List String
  right : List String
deriving DecidableEq, Repr

/-- The place of an absent optional beside its neighbours, outside of a tuple. -/
def niche (doc : Document) (rule : OptionalRule) (b : Branch) : Niche :=
  let trivia := doc.trivia b
  if rule.placement = .spaced then
    (doc.parent b).elim ⟨trivia.start, [], []⟩ fun parent =>
      if doc.shapeOf parent = .plain .tight ∨ doc.isEnclosed b = true then
        ⟨trivia.stop, [], []⟩
      else
        (doc.range? parent).elim ⟨trivia.stop, [], []⟩ fun range =>
          if range.start < trivia.start then ⟨trivia.start, [" "], []⟩
          else ⟨trivia.stop, [], [" "]⟩
  else ⟨trivia.start, [], []⟩

/-- An optional whose content takes no delimiter and no line with it. -/
def StandsPlain (doc : Document) (rule : OptionalRule) (b : Branch) : Prop :=
  rule.placement = .adjacent ∨ rule.placement = .spaced ∧
    ∀ parent delimiter, doc.parent b = some parent → doc.shapeOf parent ≠ .tuple delimiter

def withSpace (doc : Document) (p : Nat) : Document :=
  (doc.newToken " ").2.insertAt p [(doc.newToken " ").1]

theorem makeRoom_plain (doc : Document) {parent : Branch}
    (hparent : doc.parent b = some parent)
    (htuple : ∀ delimiter, doc.shapeOf parent ≠ .tuple delimiter) :
    doc.makeRoom b =
      if doc.shapeOf parent = .plain .tight ∨ doc.isEnclosed b = true then
        ((doc.trivia b).stop, doc)
      else
        (doc.range? parent).elim ((doc.trivia b).stop, doc) fun range =>
          if range.start < (doc.trivia b).start then
            ((doc.trivia b).start + 1, doc.withSpace (doc.trivia b).start)
          else
            ((doc.trivia b).stop, doc.withSpace (doc.trivia b).stop) := by
  simp only [makeRoom, hparent]
  split
  · next delimiter hshape => exact absurd hshape (htuple delimiter)
  · next hshape => simp [hshape]
  · next hshape =>
    have htight : doc.shapeOf parent ≠ .plain .tight := fun he => hshape he
    cases doc.range? parent <;> by_cases he : doc.isEnclosed b <;>
      simp [htight, he, withSpace]

theorem niche_cases (doc : Document) (rule : OptionalRule) (b : Branch) :
    (rule.placement = .spaced → doc.parent b = none) ∧
        doc.niche rule b = ⟨(doc.trivia b).start, [], []⟩ ∨
      ∃ parent, rule.placement = .spaced ∧ doc.parent b = some parent ∧
        ((doc.shapeOf parent = .plain .tight ∨ doc.isEnclosed b = true ∨
            doc.range? (.branch parent) = none) ∧
            doc.niche rule b = ⟨(doc.trivia b).stop, [], []⟩ ∨
          ¬ (doc.shapeOf parent = .plain .tight ∨ doc.isEnclosed b = true) ∧
          ∃ range, doc.range? (.branch parent) = some range ∧
            (range.start < (doc.trivia b).start ∧
                doc.niche rule b = ⟨(doc.trivia b).start, [" "], []⟩ ∨
              (doc.trivia b).start ≤ range.start ∧
                doc.niche rule b = ⟨(doc.trivia b).stop, [], [" "]⟩)) := by
  unfold niche
  dsimp only
  split
  · next hrule =>
    cases doc.parent b with
    | none => exact Or.inl ⟨fun _ => rfl, rfl⟩
    | some parent =>
      refine Or.inr ⟨parent, hrule, rfl, ?_⟩
      rw [elim_some]
      split
      · next htight => exact Or.inl ⟨by tauto, rfl⟩
      · next htight =>
        cases doc.range? parent with
        | none => exact Or.inl ⟨by tauto, rfl⟩
        | some range =>
          refine Or.inr ⟨htight, range, rfl, ?_⟩
          rw [elim_some]
          split
          · next hlt => exact Or.inl ⟨hlt, rfl⟩
          · next hle => exact Or.inr ⟨Nat.le_of_not_lt hle, rfl⟩
  · next hrule => exact Or.inl ⟨fun he => absurd he hrule, rfl⟩

theorem niche_position_le (doc : Document) (rule : OptionalRule) (b : Branch) :
    (doc.niche rule b).position ≤ doc.order.length := by
  have hstop := doc.trivia_stop_le_length b
  have hstart := (doc.trivia_start_le b).trans hstop
  rcases doc.niche_cases rule b with ⟨-, he⟩ | ⟨-, -, -, ⟨-, he⟩ | ⟨-, -, -, ⟨-, he⟩ | ⟨-, he⟩⟩⟩ <;>
    rw [he] <;> assumption

theorem optionalPlace_niche (h : doc.StandsPlain rule b) :
    (doc.niche rule b).left = [] ∧ (doc.niche rule b).right = [] ∧
      doc.optionalPlace rule b = (((doc.niche rule b).position, []), doc) ∨
    ((doc.niche rule b).left = [" "] ∧ (doc.niche rule b).right = [] ∨
        (doc.niche rule b).left = [] ∧ (doc.niche rule b).right = [" "]) ∧
      doc.optionalPlace rule b =
        (((doc.niche rule b).position + (doc.niche rule b).left.length, []),
          doc.withSpace (doc.niche rule b).position) := by
  rcases h with hrule | ⟨hrule, htuple⟩
  · exact Or.inl (by simp [niche, optionalPlace, hrule])
  · rw [optionalPlace_spaced hrule]
    cases hparent : doc.parent b with
    | none => exact Or.inl (by simp [niche, makeRoom, hrule, hparent])
    | some parent =>
      rw [doc.makeRoom_plain hparent fun delimiter => htuple parent delimiter hparent]
      simp only [niche, hrule, hparent, if_true, elim_some]
      split
      · exact Or.inl ⟨rfl, rfl, rfl⟩
      · cases doc.range? parent with
        | none => exact Or.inl ⟨rfl, rfl, rfl⟩
        | some range =>
          simp only [elim_some]
          split
          · exact Or.inr ⟨Or.inl ⟨rfl, rfl⟩, rfl⟩
          · exact Or.inr ⟨Or.inr ⟨rfl, rfl⟩, rfl⟩

/-! ### An optional with a content -/

/-- An optional with a content that stands in its place, with white space on its sides. -/
structure Placed (doc after : Document) (b : Branch) (niche : Niche)
    (left block right : List Leaf) : Prop where
  aligned : after.Aligned
  rewired : doc.Rewired after.toForest b
  grammar_eq : after.grammar = doc.grammar
  order_eq : after.order = doc.order.take niche.position ++
    (left ++ (block ++ (right ++ doc.order.drop niche.position)))
  new : ∀ l ∈ left ++ block ++ right, ¬ doc.Has l
  left_eq : left.map after.textOf = niche.left
  right_eq : right.map after.textOf = niche.right
  nonempty : block ≠ []
  first : after.firstLeaf? b = block.head?
  last : after.lastLeaf? b = block.getLast?

theorem Filled.placed {room : Document} {niche : Niche} {left block right : List Leaf}
    (hf : Filled room after b (niche.position + left.length) block) (ha : after.Aligned)
    (hr : doc.Rewired room.toForest b) (hgrammar : room.grammar = doc.grammar)
    (horder : room.order = doc.order.take niche.position ++
      (left ++ (right ++ doc.order.drop niche.position)))
    (hle : niche.position ≤ doc.order.length) (hhas : ∀ l ∈ left ++ right, room.Has (.leaf l))
    (hnew : ∀ l ∈ left ++ right, ¬ doc.Has (.leaf l)) (hleft : left.map room.textOf = niche.left)
    (hright : right.map room.textOf = niche.right) (hblock : block ≠ []) :
    Placed doc after b niche left block right where
  aligned := ha
  rewired := hr.trans hf.rewired
  grammar_eq := hf.grammar_eq.trans hgrammar
  order_eq := by
    have hlength : niche.position + left.length =
        (doc.order.take niche.position ++ left).length := by
      simp [Nat.min_eq_left hle]
    rw [hf.order_eq]
    show room.order.take _ ++ block ++ room.order.drop _ = _
    rw [horder, ← append_assoc (doc.order.take _), append_assoc _ block,
      splice_append hlength, append_assoc]
  new l hl := by
    simp only [mem_append] at hl
    rcases hl with (hl | hl) | hl
    · exact hnew l (mem_append_left _ hl)
    · exact fun hd => hf.new l hl (hr.has _ hd)
    · exact hnew l (mem_append_right _ hl)
  left_eq := by
    rw [← hleft]
    exact map_congr_left fun l hl => hf.rewired.textOf l (hhas l (mem_append_left _ hl))
  right_eq := by
    rw [← hright]
    exact map_congr_left fun l hl => hf.rewired.textOf l (hhas l (mem_append_right _ hl))
  nonempty := hblock
  first := hf.first
  last := hf.last

section

variable (h : doc.Aligned) (hb : doc.Has b) (hnil : doc.children b = [])
include h hb hnil

/-- The content of an optional comes to stand in its place. -/
theorem Aligned.placed (hf : fragment.Aligned)
    (hne : fragment.coveredLeaves fragment.root ≠ []) (hplain : doc.StandsPlain rule b) :
    ∃ left block right, Placed doc (doc.fillOptional rule b fragment).2 b (doc.niche rule b)
        left block right ∧
      join (block.map (doc.fillOptional rule b fragment).2.textOf) =
        rule.opening ++ fragment.code ++ rule.closing := by
  have hafter := h.fillOptional hb hnil hf rule
  have hrule : rule.placement = .spaced ∨ rule.placement = .adjacent :=
    hplain.elim Or.inr fun hspaced => Or.inl hspaced.1
  have hle := doc.niche_position_le rule b
  rcases optionalPlace_niche hplain with ⟨hleft, hright, hplace⟩ | ⟨hsides, hplace⟩
  · obtain ⟨block, hblock, hfilled, htext⟩ := exists_filled hrule hplace h.tree hb hnil hf.tree hne
      hafter.tree
    refine ⟨[], block, [], hfilled.placed hafter (.refl _ b) rfl ?_ hle ?_ ?_ hleft.symm
      hright.symm hblock, htext⟩ <;> simp
  · let room := doc.withSpace (doc.niche rule b).position
    let space := (doc.newToken " ").1
    have hroom : room.Aligned := (h.loose_newToken " ").insertAt _
    have hrewired : doc.Rewired room.toForest b := (Rewired.refl _ b).addToken " "
    have hspace : room.Has space := has_newToken ..
    have hnew : ¬ doc.Has space := not_has_newToken doc " "
    have horder : room.order = doc.order.take (doc.niche rule b).position ++ [space] ++
        doc.order.drop (doc.niche rule b).position := rfl
    have htexts : [space].map room.textOf = [" "] := by
      simp only [map_cons, map_nil, List.cons.injEq, and_true]
      exact textOf_newToken doc " "
    obtain ⟨block, hblock, hfilled, htext⟩ := exists_filled hrule hplace hroom.tree
      (hrewired.has _ hb) (hnil ▸ rfl) hf.tree hne hafter.tree
    rcases hsides with ⟨hleft, hright⟩ | ⟨hleft, hright⟩
    · rw [hleft] at hfilled
      refine ⟨[space], block, [], hfilled.placed hafter hrewired rfl ?_ hle ?_ ?_ ?_ ?_ hblock,
        htext⟩
      · simpa using horder
      · simpa using hspace
      · simpa using hnew
      · rw [hleft, htexts]
      · rw [hright, map_nil]
    · rw [hleft] at hfilled
      refine ⟨[], block, [space], hfilled.placed hafter hrewired rfl ?_ hle ?_ ?_ ?_ ?_ hblock,
        htext⟩
      · simpa using horder
      · simpa using hspace
      · simpa using hnew
      · rw [hleft, map_nil]
      · rw [hright, htexts]

end

/-! ### What the tree around an optional sees of its content -/

section

variable (hr : doc.Rewired after.toForest b) (h : doc.Linked) (hb : doc.Has b)
  (hnil : doc.children b = [])
include hr

theorem parent_of_rewired (hb : doc.Has b) (hnil : doc.children b = []) :
    after.parent b = doc.parent b :=
  hr.parent _ hb (by rw [hnil]; exact not_mem_nil)

include h

theorem shapeOf_of_rewired {parent : Branch} (hparent : doc.parent b = some parent)
    (hgrammar : after.grammar = doc.grammar) : after.shapeOf parent = doc.shapeOf parent := by
  rw [shapeOf, shapeOf, hgrammar, hr.kindOf parent (h.has_parent hparent)]

variable (ha : after.Linked)
include ha

theorem mem_visibleLeaves_of_rewired
    (hsame : ∀ l, doc.Has (.leaf l) → (l ∈ after.order ↔ l ∈ doc.order))
    (hnil : doc.children b = []) {c : Branch} {l : Leaf} (hl : doc.Has (.leaf l)) :
    l ∈ after.visibleLeaves c ↔ l ∈ doc.visibleLeaves c := by
  rw [mem_visibleLeaves, mem_visibleLeaves, hsame l hl, ha.mem_leaves, h.mem_leaves,
    hr.around_iff h hnil hl]

variable (hsame : ∀ l ∈ doc.leftLeaves b ++ doc.rightLeaves b,
  (l ∈ after.order ↔ l ∈ doc.order))
include hb hsame

theorem neighbours_of_rewired : after.leftLeaf? b = doc.leftLeaf? b ∧
    after.rightLeaf? b = doc.rightLeaf? b := by
  obtain ⟨hleft, hright⟩ := hr.beside_eq h ha hb
  have hfilter : ∀ ls : List Leaf,
      (∀ l ∈ ls, l ∈ doc.leftLeaves b ++ doc.rightLeaves b) →
      ls.filter after.order.contains = ls.filter doc.order.contains := by
    intro ls hls
    refine filter_congr fun l hl => ?_
    simp only [contains_eq_mem, hsame l (hls l hl)]
  constructor
  · rw [leftLeaf?_eq ha, leftLeaf?_eq h, hleft, hfilter _ fun l => mem_append_left _]
  · rw [rightLeaf?_eq ha, rightLeaf?_eq h, hright, hfilter _ fun l => mem_append_right _]

theorem isEnclosed_of_rewired : after.isEnclosed b = doc.isEnclosed b := by
  obtain ⟨hleft, hright⟩ := neighbours_of_rewired hr h hb ha hsame
  unfold isEnclosed
  rw [hleft, hright]
  cases hl : doc.leftLeaf? b with
  | none => rfl
  | some x =>
    cases hy : doc.rightLeaf? b with
    | none => rfl
    | some y =>
      rw [leftLeaf?_eq h] at hl
      rw [rightLeaf?_eq h] at hy
      have hx := (mem_filter.1 (mem_of_getLast? hl)).1
      have hy := (mem_filter.1 (mem_of_head? hy)).1
      dsimp only
      rw [hr.textOf x (h.has_beside _ x (mem_append_left _ hx)),
        hr.textOf y (h.has_beside _ y (mem_append_right _ hy))]

end

theorem closeRoom_plain (doc : Document) {parent : Branch}
    (hparent : doc.parent b = some parent)
    (htuple : ∀ delimiter, doc.shapeOf parent ≠ .tuple delimiter) :
    doc.closeRoom b =
      if doc.shapeOf parent = .plain .tight ∨ doc.isEnclosed b = true then doc
      else doc.closePlainRoom parent b := by
  simp only [closeRoom, hparent]
  split
  · next delimiter hshape => exact absurd hshape (htuple delimiter)
  · next hshape => simp [hshape]
  · next hshape =>
    have htight : doc.shapeOf parent ≠ .plain .tight := fun he => hshape he
    simp [htight]

/-! ### The content goes -/

namespace Placed

variable {niche : Niche} {left block right : List Leaf} {i : Nat}
  (hp : Placed doc after b niche left block right)
include hp

theorem mem_order (hl : doc.Has l) : l ∈ after.order ↔ l ∈ doc.order := by
  have hnew := fun hm => hp.new l hm hl
  simp only [mem_append] at hnew
  have hold : l ∈ doc.order ↔
      l ∈ doc.order.take niche.position ∨ l ∈ doc.order.drop niche.position := by
    rw [← mem_append, take_append_drop]
  rw [hp.order_eq, hold]
  simp only [mem_append]
  tauto

theorem mem_visibleLeaves (h : doc.Aligned) (hnil : doc.children b = []) (hl : doc.Has l)
    (c : Branch) : l ∈ after.visibleLeaves c ↔ l ∈ doc.visibleLeaves c :=
  mem_visibleLeaves_of_rewired hp.rewired h.tree.linked hp.aligned.tree.linked
    (fun _ => hp.mem_order) hnil hl

theorem exists_outer (h : doc.Aligned) (hnil : doc.children b = []) {parent : Branch} {range : Span}
    (hr : doc.range? parent = some range) :
    ∃ outer, after.range? parent = some outer := by
  obtain ⟨x, -, -, hx, -⟩ := exists_of_range? hr
  have hx := mem_of_head? hx
  have hhas := h.tree.order_has x (Document.mem_visibleLeaves.1 hx).2
  exact exists_range? ((hp.mem_visibleLeaves h hnil hhas parent).2 hx)

variable (hle : niche.position ≤ doc.order.length)
include hle

theorem range?_eq : after.range? b =
    some ⟨niche.position + left.length, niche.position + left.length + block.length⟩ := by
  have hlength : (doc.order.take niche.position ++ left).length =
      niche.position + left.length := by
    simp [Nat.min_eq_left hle]
  have horder : after.order = (doc.order.take niche.position ++ left) ++
      (block ++ (right ++ doc.order.drop niche.position)) := by
    rw [hp.order_eq, append_assoc]
  rw [range?_of_block hp.aligned.tree.order_nodup horder hp.nonempty hp.first hp.last, hlength]

theorem getElem?_of_lt (hi : i < niche.position) : after.order[i]? = doc.order[i]? := by
  rw [hp.order_eq, getElem?_append_left (by simp; omega), getElem?_take_of_lt hi]

theorem getElem?_of_ge (hi : niche.position ≤ i) :
    after.order[i + (left.length + block.length + right.length)]? = doc.order[i]? := by
  have hlength : (doc.order.take niche.position).length = niche.position := by
    simp [Nat.min_eq_left hle]
  rw [hp.order_eq, getElem?_append_right (by omega), getElem?_append_right (by omega),
    getElem?_append_right (by omega), getElem?_append_right (by omega),
    getElem?_drop, hlength]
  congr 1
  omega

section

variable {parent : Branch} {outer : Span} (h : doc.Aligned) (hnil : doc.children b = [])
  (hparent : doc.parent b = some parent)
  (houter : after.range? parent = some outer)
include h hnil

include houter

theorem exists_start (hlt : outer.start < niche.position) :
    ∃ x ∈ doc.visibleLeaves parent, doc.position? x = some outer.start := by
  obtain ⟨x, -, -, hx, -, hi, -⟩ := exists_of_range? houter
  have hold : doc.order[outer.start]? = some x := by
    rw [← hp.getElem?_of_lt hle hlt]
    exact getElem?_of_idxOf? hi
  have hhas := h.tree.order_has x (mem_of_getElem? hold)
  exact ⟨x, (hp.mem_visibleLeaves h hnil hhas parent).1 (mem_of_head? hx),
    idxOf?_of_getElem? h.tree.order_nodup hold⟩

theorem exists_stop
    (hlt : niche.position + (left.length + block.length + right.length) < outer.stop) :
    ∃ x ∈ doc.visibleLeaves parent, ∃ i, doc.position? x = some i ∧
      niche.position ≤ i := by
  obtain ⟨-, x, j, -, hx, -, hj, hstop⟩ := exists_of_range? houter
  obtain ⟨i, hi⟩ : ∃ i, j = i + (left.length + block.length + right.length) :=
    ⟨_, (Nat.sub_add_cancel (by omega)).symm⟩
  have hold : doc.order[i]? = some x := by
    rw [← hp.getElem?_of_ge hle (by omega), ← hi]
    exact getElem?_of_idxOf? hj
  have hhas := h.tree.order_has x (mem_of_getElem? hold)
  exact ⟨x, (hp.mem_visibleLeaves h hnil hhas parent).1 (mem_of_getLast? hx), i,
    idxOf?_of_getElem? h.tree.order_nodup hold, by omega⟩

variable {x : Leaf} (hx : x ∈ doc.visibleLeaves parent) (hi : doc.position? x = some i)
include hx hi

theorem outer_start_le (hlt : i < niche.position) : outer.start ≤ i := by
  have hold := getElem?_of_idxOf? hi
  have hhas := h.tree.order_has x (mem_of_getElem? hold)
  rw [← hp.getElem?_of_lt hle hlt] at hold
  exact (mem_range_of_sublist hp.aligned.tree.order_nodup (hp.aligned.visible _) houter
    ((hp.mem_visibleLeaves h hnil hhas parent).2 hx)
    (idxOf?_of_getElem? hp.aligned.tree.order_nodup hold)).1

theorem lt_outer_stop (hge : niche.position ≤ i) :
    i + (left.length + block.length + right.length) < outer.stop := by
  have hold := getElem?_of_idxOf? hi
  have hhas := h.tree.order_has x (mem_of_getElem? hold)
  rw [← hp.getElem?_of_ge hle hge] at hold
  exact (mem_range_of_sublist hp.aligned.tree.order_nodup (hp.aligned.visible _) houter
    ((hp.mem_visibleLeaves h hnil hhas parent).2 hx)
    (idxOf?_of_getElem? hp.aligned.tree.order_nodup hold)).2

end

end Placed

theorem closePlainRoom_eq {parent : Branch} {outer inner : Span}
    (houter : doc.range? parent = some outer)
    (hinner : doc.range? b = some inner) :
    doc.closePlainRoom parent b =
      if outer.start < inner.start && Text.isBlank (doc.layout.getD (inner.start - 1) "") then
        doc.cut ⟨inner.start - 1, inner.start⟩
      else if inner.stop < outer.stop && isGap (doc.layout.getD inner.stop "") then
        doc.cut ⟨inner.stop, inner.stop + 1⟩
      else doc := by
  simp only [closePlainRoom, houter, hinner]

theorem Aligned.beside_trivia {parent : Branch} {x : Leaf} {i : Nat} (h : doc.Aligned)
    (hparent : doc.parent b = some parent) (hnil : doc.children b = [])
    (hx : x ∈ doc.visibleLeaves parent) (hi : doc.position? x = some i) :
    i < (doc.trivia b).start ∨ (doc.trivia b).stop ≤ i := by
  have hmem : x ∈ doc.toForest.surroundings b := by
    rw [h.tree.linked.surroundings_of_parent hparent]
    exact mem_append_right _ (mem_append_left _ (mem_visibleLeaves.1 hx).1)
  rw [Forest.surroundings, leaves_of_children_nil hnil, nil_append] at hmem
  rcases mem_append.1 hmem with hleft | hright
  · exact Or.inl (h.lt_trivia_start hleft hi)
  · exact Or.inr (h.trivia_stop_le hright hi)

namespace Placed

variable {niche : Niche} {left block right : List Leaf} {parent : Branch}
  (hp : Placed doc after b niche left block right)
  (hle : niche.position ≤ doc.order.length) (h : doc.Aligned) (hnil : doc.children b = [])
include hp hle h hnil

theorem closePlainRoom_hidden (hleft : left = []) (hright : right = [])
    (hr : doc.range? parent = none) : after.closePlainRoom parent b = after := by
  subst hleft hright
  have hinner := hp.range?_eq hle
  rw [range?_eq_none] at hr
  cases houter : after.range? parent with
  | none => simp only [closePlainRoom, houter]
  | some outer =>
    have hstart : ¬ outer.start < niche.position := by
      intro hlt
      obtain ⟨x, hx, -⟩ := hp.exists_start hle h hnil houter hlt
      rw [hr] at hx
      exact not_mem_nil hx
    have hstop : ¬ niche.position + block.length < outer.stop := by
      intro hlt
      obtain ⟨x, hx, -⟩ := hp.exists_stop hle h hnil houter (by simpa using hlt)
      rw [hr] at hx
      exact not_mem_nil hx
    simp [closePlainRoom_eq houter hinner, hstart, hstop]

theorem closePlainRoom_left {space : Leaf} (hleft : left = [space])
    (hblank : Text.isBlank (after.textOf space) = true) {range : Span}
    (hr : doc.range? parent = some range) (hlt : range.start < niche.position) :
    after.closePlainRoom parent b = after.cut ⟨niche.position, niche.position + 1⟩ := by
  subst hleft
  have hinner := hp.range?_eq hle
  obtain ⟨outer, houter⟩ := hp.exists_outer h hnil hr
  obtain ⟨x, -, -, hx, -, hi, -⟩ := exists_of_range? hr
  have hstart := hp.outer_start_le hle h hnil houter (mem_of_head? hx) hi hlt
  have htext : after.layout[niche.position]? = some (after.textOf space) := by
    rw [layout, getElem?_map, hp.order_eq, getElem?_append_right (by simp)]
    simp [Nat.min_eq_left hle]
  rw [closePlainRoom_eq houter hinner]
  simp [htext, hblank, show outer.start < niche.position + 1 by omega]

theorem closePlainRoom_right {space : Leaf} (hleft : left = []) (hright : right = [space])
    (hgap : isGap (after.textOf space) = true) {range : Span}
    (hr : doc.range? parent = some range) (hge : niche.position ≤ range.start) :
    after.closePlainRoom parent b = after.cut
      ⟨niche.position + block.length, niche.position + block.length + 1⟩ := by
  subst hleft hright
  have hinner := hp.range?_eq hle
  obtain ⟨outer, houter⟩ := hp.exists_outer h hnil hr
  obtain ⟨x, -, -, hx, -, hi, -⟩ := exists_of_range? hr
  have hstop := hp.lt_outer_stop hle h hnil houter (mem_of_head? hx) hi hge
  have hstart : ¬ outer.start < niche.position := by
    intro hlt
    obtain ⟨y, hy, hj⟩ := hp.exists_start hle h hnil houter hlt
    have hbounds := mem_range_of_sublist h.tree.order_nodup (h.visible _) hr hy hj
    omega
  have htext : after.layout[niche.position + block.length]? = some (after.textOf space) := by
    rw [layout, getElem?_map, hp.order_eq, getElem?_append_right (by simp)]
    simp [Nat.min_eq_left hle]
  rw [closePlainRoom_eq houter hinner]
  simp only [length_nil, Nat.zero_add, length_singleton] at hstop
  simp [htext, hgap, hstart, show niche.position + block.length < outer.stop by omega]

end Placed

theorem order_cut_block {xs ys : List Leaf} (mid : List Leaf) {i : Nat}
    (ho : doc.order = xs ++ (mid ++ ys)) (hi : xs.length = i) :
    doc.cut ⟨i, i + mid.length⟩ = { doc with order := xs ++ ys } := by
  have hcut : (doc.cut ⟨i, i + mid.length⟩).order = xs ++ ys := by
    rw [order_cut _ (Nat.le_add_right ..), ho, ← hi]
    exact cut_middle ..
  rw [← hcut]
  rfl

section

variable {left block right : List Leaf}
  (hp : Placed doc after b (doc.niche rule b) left block right) (h : doc.Aligned)
  (hb : doc.Has b) (hnil : doc.children b = [])
include hp h hb hnil

theorem Placed.closeRoom_eq (hrule : rule.placement = .spaced)
    (htuple : ∀ parent delimiter, doc.parent b = some parent →
      doc.shapeOf parent ≠ .tuple delimiter) :
    after.closeRoom b = { after with
      order := doc.order.take (doc.niche rule b).position ++
        (block ++ doc.order.drop (doc.niche rule b).position) } := by
  have hlinked := h.tree.linked
  have hle := doc.niche_position_le rule b
  have hparent := parent_of_rewired hp.rewired hb hnil
  have hclose : ∀ parent, doc.parent b = some parent → after.closeRoom b =
      if doc.shapeOf parent = .plain .tight ∨ doc.isEnclosed b = true then after
      else after.closePlainRoom parent b := by
    intro parent hdoc
    have hshape := shapeOf_of_rewired hp.rewired hlinked hdoc hp.grammar_eq
    rw [after.closeRoom_plain (hparent.trans hdoc) fun delimiter => hshape ▸ htuple _ _ hdoc,
      hshape, isEnclosed_of_rewired hp.rewired hlinked hb hp.aligned.tree.linked fun l hl =>
        hp.mem_order (hlinked.has_beside _ l hl)]
  have hlength : (doc.order.take (doc.niche rule b).position).length =
      (doc.niche rule b).position := by
    simp [hle]
  have hbare : left = [] → right = [] → after.order =
      doc.order.take (doc.niche rule b).position ++
        (block ++ doc.order.drop (doc.niche rule b).position) := by
    rintro rfl rfl
    simpa using hp.order_eq
  rcases doc.niche_cases rule b with ⟨hnone, he⟩ | ⟨parent, -, hdoc, ⟨hwhy, he⟩ | ⟨hwhy, range, hr,
    ⟨hlt, he⟩ | ⟨hge, he⟩⟩⟩ <;> rw [he] at hp hle hlength hbare ⊢
  · have hleft := map_eq_nil_iff.1 hp.left_eq
    have hright := map_eq_nil_iff.1 hp.right_eq
    rw [← hbare hleft hright]
    simp only [closeRoom, hparent.trans (hnone hrule)]
  · have hleft := map_eq_nil_iff.1 hp.left_eq
    have hright := map_eq_nil_iff.1 hp.right_eq
    rw [← hbare hleft hright, hclose parent hdoc]
    split
    · rfl
    · next hnot => exact hp.closePlainRoom_hidden hle h hnil hleft hright (by tauto)
  · obtain ⟨space, hleft, hspace⟩ := map_eq_singleton_iff.1 hp.left_eq
    have hright := map_eq_nil_iff.1 hp.right_eq
    rw [hclose parent hdoc, if_neg hwhy, hp.closePlainRoom_left hle h hnil hleft
      (by rw [hspace]; decide) hr hlt]
    refine order_cut_block [space] ?_ hlength
    rw [hp.order_eq, hleft, hright]
    simp
  · have hleft := map_eq_nil_iff.1 hp.left_eq
    obtain ⟨space, hright, hspace⟩ := map_eq_singleton_iff.1 hp.right_eq
    -- what the container shows is behind the place, not in it
    have hbehind : (doc.trivia b).stop ≤ range.start := by
      obtain ⟨x, -, -, hx, -, hi, -⟩ := exists_of_range? hr
      exact (h.beside_trivia hdoc hnil (mem_of_head? hx) hi).resolve_left (by omega)
    rw [hclose parent hdoc, if_neg hwhy, hp.closePlainRoom_right hle h hnil hleft hright
      (by rw [hspace]; decide) hr hbehind]
    have horder : after.order = (doc.order.take (doc.trivia b).stop ++ block) ++
        ([space] ++ doc.order.drop (doc.trivia b).stop) := by
      rw [hp.order_eq, hleft, hright]
      simp
    rw [← append_assoc]
    exact order_cut_block [space] horder (by rw [length_append, hlength])

/-- Once the content is gone the tokens of the text are those from before it came. -/
theorem Placed.clearOptional_eq (hplain : doc.StandsPlain rule b) :
    after.clearOptional rule b =
      (({ after with order := doc.order } : Document).clearChildren b).updateComments := by
  have hle := doc.niche_position_le rule b
  have hlength : (doc.order.take (doc.niche rule b).position).length =
      (doc.niche rule b).position := by
    simp [hle]
  simp only [clearOptional, hp.range?_eq hle]
  rcases hplain with hrule | ⟨hrule, htuple⟩
  · have he : doc.niche rule b = ⟨(doc.trivia b).start, [], []⟩ := by
      simp [niche, hrule]
    rw [he] at hp hlength
    have hleft := map_eq_nil_iff.1 hp.left_eq
    have hright := map_eq_nil_iff.1 hp.right_eq
    have horder := hp.order_eq
    simp only [hleft, hright, nil_append] at horder
    simp only [cutOptional, hrule, he, hleft, length_nil, Nat.add_zero]
    rw [order_cut_block block horder hlength, take_append_drop]
  · have hclosed := hp.closeRoom_eq h hb hnil hrule htuple
    have hvisible := hp.aligned.visibleLeaves_closeRoom b
    have hthin : (after.closeRoom b).order.Nodup :=
      ((Thinned.refl hp.aligned.tree).closeRoom b).tree.order_nodup
    have horder : (after.closeRoom b).order = doc.order.take (doc.niche rule b).position ++
        (block ++ doc.order.drop (doc.niche rule b).position) := by
      rw [hclosed]
    have hrange := range?_of_block hthin horder hp.nonempty
      (by rw [firstLeaf?, hvisible]; exact hp.first) (by rw [lastLeaf?, hvisible]; exact hp.last)
    simp only [cutOptional, hrule, hrange]
    rw [hlength, order_cut_block block horder hlength, take_append_drop, hclosed]

end

/-! ### The text as it was -/

/-- A document whose optional is absent as before, with the same text and the same tree around it.
The tables may have grown. -/
structure Restored (doc other : Document) (b : Branch) : Prop where
  aligned : other.Aligned
  rewired : doc.Rewired other.toForest b
  grammar_eq : other.grammar = doc.grammar
  order_eq : other.order = doc.order
  children_eq : other.children b = []

namespace Restored

theorem clearChildren (h : doc.Aligned) (b : Branch) : Restored doc (doc.clearChildren b) b :=
  ⟨((Thinned.refl h.tree).clearChildren b).aligned h, (Rewired.refl _ b).clearChildren, rfl,
    rfl, by rw [children_clearChildren, if_pos rfl]⟩

variable (hs : Restored doc other b)
include hs

theorem trans {third : Document} (hs' : Restored other third b) : Restored doc third b :=
  ⟨hs'.aligned, hs.rewired.trans hs'.rewired, hs'.grammar_eq.trans hs.grammar_eq,
    hs'.order_eq.trans hs.order_eq, hs'.children_eq⟩

variable (h : doc.Aligned)
include h

theorem layout_eq : other.layout = doc.layout := by
  rw [layout, layout, hs.order_eq]
  exact map_congr_left fun l hl => hs.rewired.textOf l (h.tree.order_has l hl)

variable (hnil : doc.children b = [])
include hnil

theorem range?_eq {c : Branch} (hc : doc.Has c) : other.range? c = doc.range? c := by
  refine range?_congr hs.order_eq (h.tree.linked.leaves_congr hs.aligned.tree.linked c ?_)
  intro d hd
  by_cases he : d = b
  · rw [he, hs.children_eq, hnil]
  · exact hs.rewired.children d (hd.has_inside hc) he

variable (hb : doc.Has b)
include hb

theorem niche_eq (rule : OptionalRule) : other.niche rule b = doc.niche rule b := by
  have hlinked := h.tree.linked
  have hsame : ∀ l ∈ doc.leftLeaves b ++ doc.rightLeaves b,
      (l ∈ other.order ↔ l ∈ doc.order) := by
    intro l _
    rw [hs.order_eq]
  have hother := hs.aligned.tree.linked
  obtain ⟨hleft, hright⟩ := neighbours_of_rewired hs.rewired hlinked hb hother hsame
  have htrivia : other.trivia b = doc.trivia b := by
    unfold trivia position?
    rw [hleft, hright, hs.order_eq]
  simp only [niche]
  rw [htrivia, parent_of_rewired hs.rewired hb hnil,
    isEnclosed_of_rewired hs.rewired hlinked hb hother hsame]
  cases hparent : doc.parent b with
  | none => rfl
  | some parent =>
    rw [elim_some, elim_some,
      shapeOf_of_rewired hs.rewired hlinked hparent hs.grammar_eq,
      hs.range?_eq h hnil (hlinked.has_parent hparent)]

theorem standsPlain (hplain : doc.StandsPlain rule b) : other.StandsPlain rule b := by
  refine hplain.imp_right fun hspaced => ⟨hspaced.1, fun parent delimiter hparent => ?_⟩
  rw [parent_of_rewired hs.rewired hb hnil] at hparent
  rw [shapeOf_of_rewired hs.rewired h.tree.linked hparent hs.grammar_eq]
  exact hspaced.2 parent delimiter hparent

end Restored

def textWith (doc : Document) (niche : Niche) (content : String) : String :=
  Layout.join (doc.layout.take niche.position ++ niche.left) ++
    (content ++ Layout.join (niche.right ++ doc.layout.drop niche.position))

theorem Placed.text_eq {niche : Niche} {left block right : List Leaf}
    (hp : Placed doc after b niche left block right) (h : doc.Aligned) :
    after.text = doc.textWith niche (join (block.map after.textOf)) := by
  have hold : ∀ ls : List Leaf, ls ⊆ doc.order → ls.map after.textOf = ls.map doc.textOf :=
    fun ls hls => map_congr_left fun l hl => hp.rewired.textOf l (h.tree.order_has l (hls hl))
  rw [text, layout, hp.order_eq, ← append_assoc, map_append, map_append,
    map_append, map_append, hp.left_eq, hp.right_eq, hold _ (take_subset ..),
    hold _ (drop_subset ..), map_take, map_drop, join_append,
    join_append _ (_ ++ _)]
  rfl

theorem Placed.restored {left block right : List Leaf}
    (hp : Placed doc after b (doc.niche rule b) left block right) (h : doc.Aligned)
    (hb : doc.Has b) (hnil : doc.children b = []) (hplain : doc.StandsPlain rule b) :
    Restored doc (after.clearOptional rule b) b := by
  refine ⟨hp.aligned.clearOptional rule b, ?_, ?_, ?_, children_clearOptional ..⟩ <;>
    rw [hp.clearOptional_eq h hb hnil hplain]
  · exact hp.rewired.clearChildren
  · exact hp.grammar_eq
  · rfl

theorem coveredLeaves_ne_nil (h : doc.Aligned) {node : Node}
    (hvisible : doc.isVisible node = true) : doc.coveredLeaves node ≠ [] := by
  obtain ⟨x, hx⟩ := isSome_iff_exists.1 hvisible
  have hx := mem_of_head? hx
  exact ne_nil_of_mem ((mem_coveredLeaves h.tree.order_nodup (h.visible node)).2
    ⟨x, hx, x, hx, Or.inl rfl, Or.inl rfl⟩)

theorem aligned_wrapFor (hf : fragment.Aligned) (rule : OptionalRule) :
    (if fragment.rootKind = rule.element then fragment
      else fragment.wrapRoot rule.element).Aligned := by
  split
  · exact hf
  · exact hf.wrapRoot _

theorem Restored.clearOptional (h : doc.Aligned) (hnil : doc.children b = [])
    (rule : OptionalRule) : Restored doc (doc.clearOptional rule b) b := by
  have hnone : doc.range? b = none := by
    rw [range?_eq_none, visibleLeaves, leaves_of_children_nil hnil, filter_nil]
  have hclear : doc.clearOptional rule b = doc.clearChildren b := by
    simp only [Document.clearOptional, hnone]
  rw [hclear]
  exact .clearChildren h b

section

variable {start : Document} (hs : Restored doc (start.clearOptional rule b) b) (h : doc.Aligned)
  (hb : doc.Has b) (hnil : doc.children b = []) (hplain : doc.StandsPlain rule b)
  (hf : fragment.Aligned) (hvisible : fragment.isVisible fragment.root = true)
include hs h hb hnil hplain hf hvisible

theorem Restored.placed : ∃ left block right,
    Placed (start.clearOptional rule b) (start.setOptional rule b fragment).2 b
        ((start.clearOptional rule b).niche rule b) left block right ∧
      join (block.map (start.setOptional rule b fragment).2.textOf) =
        rule.opening ++ fragment.code ++ rule.closing := by
  obtain ⟨-, hcovered, hcode⟩ := wrapFor_spec hf.tree rule
  obtain ⟨left, block, right, hp, htext⟩ := hs.aligned.placed (hs.rewired.has _ hb) hs.children_eq
    (aligned_wrapFor hf rule) (hcovered ▸ coveredLeaves_ne_nil hf hvisible)
    (hs.standsPlain h hnil hb hplain)
  exact ⟨left, block, right, hp, hcode ▸ htext⟩

/-- What an optional becomes depends on the text and the tree around it when it is absent, and not
on what it was. -/
theorem Restored.text_setOptional : (start.setOptional rule b fragment).2.text =
    doc.textWith (doc.niche rule b) (rule.opening ++ fragment.code ++ rule.closing) := by
  obtain ⟨left, block, right, hp, htext⟩ := hs.placed h hb hnil hplain hf hvisible
  rw [hp.text_eq hs.aligned, htext, textWith, textWith, hs.layout_eq h, hs.niche_eq h hnil hb]

end

theorem Placed.visibleText_eq {niche : Niche} {left block right : List Leaf}
    (hp : Placed doc after b niche left block right) (hle : niche.position ≤ doc.order.length) :
    after.visibleText b = join (block.map after.textOf) := by
  have hlength : (doc.order.take niche.position ++ left).length =
      niche.position + left.length := by
    simp [Nat.min_eq_left hle]
  rw [Document.visibleText_eq, coveredLeaves, hp.range?_eq hle]
  show join (((after.order.drop _).take _).map _) = _
  rw [hp.order_eq, ← append_assoc, ← hlength, drop_left, Nat.add_sub_cancel_left,
    take_left]

end Document

namespace Edit

variable {doc fragment : Document} {optional : Branch} {rule : OptionalRule}

open Document

/-- An absent optional that gets a content without lines or delimiters of its own loses it again
without a trace in the text, so of two contents only the last is left. -/
theorem layout_set_clearOptional (h : doc.IsTree) (ho : doc.Ordered)
    (hb : doc.Has (.branch optional)) (hrule : doc.optionalRule? optional = some rule)
    (hnil : doc.children optional = [])
    (hplain : rule.placement = .adjacent ∨ rule.placement = .spaced ∧ ∀ parent delimiter,
      doc.parent (.branch optional) = some parent → doc.shapeOf parent ≠ .tuple delimiter)
    (hf : fragment.IsTree) (hfo : fragment.Ordered) (hkind : rule.accepts fragment.rootKind = true)
    (hvisible : fragment.isVisible (.branch fragment.root) = true) :
    ∃ added filled cleared, (set optional fragment).run doc = .ok added filled ∧
      filled.visibleText (.branch optional) = rule.opening ++ fragment.code ++ rule.closing ∧
      (clearOptional optional).run filled = .ok () cleared ∧ cleared.layout = doc.layout ∧
      cleared.children optional = [] ∧
      ∀ other : Document, other.IsTree → other.Ordered → rule.accepts other.rootKind = true →
        other.isVisible (.branch other.root) = true → ∃ added₁ once added₂ twice,
          (set optional other).run doc = .ok added₁ once ∧
          (set optional other).run filled = .ok added₂ twice ∧ twice.text = once.text := by
  have ha : doc.Aligned := ⟨h, ho⟩
  have hplain : doc.StandsPlain rule optional := hplain
  have habsent := Restored.clearOptional ha hnil rule
  obtain ⟨left, block, right, hp, htext⟩ := habsent.placed ha hb hnil hplain ⟨hf, hfo⟩ hvisible
  have hrestored := habsent.trans (hp.restored habsent.aligned (habsent.rewired.has _ hb)
    habsent.children_eq (habsent.standsPlain ha hnil hb hplain))
  have hrewired := habsent.rewired.trans hp.rewired
  have hrule' : (doc.setOptional rule optional fragment).2.optionalRule? optional = some rule := by
    rw [optionalRule?, hp.grammar_eq, habsent.grammar_eq, hrewired.kindOf optional hb]
    exact hrule
  refine ⟨_, _, _, run_set hrule hkind, (hp.visibleText_eq (niche_position_le ..)).trans htext,
    run_clearOptional hrule', hrestored.layout_eq ha, hrestored.children_eq, ?_⟩
  intro other ht hto hkind hvisible
  refine ⟨_, _, _, _, run_set hrule hkind, run_set hrule' hkind, ?_⟩
  rw [hrestored.text_setOptional ha hb hnil hplain ⟨ht, hto⟩ hvisible,
    habsent.text_setOptional ha hb hnil hplain ⟨ht, hto⟩ hvisible]

/-- A class loses its base and the space before it; a comment behind the name stays where it is. -/
theorem layout_set_clearOptional_extends :
    let start : Builder := { grammar := .javaScript, source := "class A/**/ \x7b\x7d" }
    let calls : List Builder.Call :=
      [.openNode .classDefinition, .token "class", .token "A", .openNode .extendsOptional,
        .closeNode, .comment "/**/", .token "\x7b", .token "\x7d", .closeNode]
    let fragment := Document.ofSource .javaScript .identifier "B"
    ∃ doc rule, (start.run calls).finish = .ok doc ∧ doc.IsTree ∧ doc.Ordered ∧
      doc.optionalRule? ⟨1⟩ = some rule ∧ doc.children ⟨1⟩ = [] ∧ rule.placement = .spaced ∧
      ∃ added filled cleared, (set ⟨1⟩ fragment).run doc = .ok added filled ∧
        filled.visibleText (.branch ⟨1⟩) = "extends B" ∧
        (clearOptional ⟨1⟩).run filled = .ok () cleared ∧
        cleared.layout = ["class", " ", "A", "/*", "*/", " ", "\x7b", "\x7d"] ∧
        cleared.children ⟨1⟩ = [] ∧ ∃ added₁ once added₂ twice,
          (set ⟨1⟩ (Document.ofSource .javaScript .extendsType "C")).run doc = .ok added₁ once ∧
          (set ⟨1⟩ (Document.ofSource .javaScript .extendsType "C")).run filled =
            .ok added₂ twice ∧ twice.text = once.text := by
  intro start calls fragment
  let doc := (start.run calls).built
  let rule : OptionalRule :=
    { element := .extendsType, inner := [.typeReference, .identifier], opening := "extends " }
  have hfinish : (start.run calls).finish = .ok doc := by decide +kernel
  obtain ⟨htree, hordered⟩ := Builder.isTree_of_run hfinish
  have hrule : doc.optionalRule? ⟨1⟩ = some rule := by decide +kernel
  have hplain : ∀ parent delimiter, doc.parent (.branch ⟨1⟩) = some parent →
      doc.shapeOf parent ≠ .tuple delimiter := by
    intro parent delimiter hp
    obtain rfl : parent = ⟨0⟩ := Option.some.inj (hp.symm.trans (by decide +kernel))
    have hshape : doc.shapeOf ⟨0⟩ = .plain .space := by decide +kernel
    rw [hshape]
    nofun
  have hf : fragment.Aligned := Document.aligned_ofSource ..
  have hempty : doc.children ⟨1⟩ = [] := by decide +kernel
  obtain ⟨added, filled, cleared, hset, htext, hclear, hlayout, hnil, htwice⟩ :=
    layout_set_clearOptional htree hordered (by decide +kernel) hrule hempty (Or.inr ⟨rfl, hplain⟩)
      hf.tree hf.ordered (by decide +kernel) (by decide +kernel)
  have hother : (Document.ofSource .javaScript .extendsType "C").Aligned :=
    Document.aligned_ofSource ..
  refine ⟨doc, rule, hfinish, htree, hordered, hrule, hempty, rfl, added, filled, cleared, hset,
    htext.trans (by decide +kernel), hclear, hlayout.trans (by decide +kernel), hnil, ?_⟩
  exact htwice _ hother.tree hother.ordered (by decide +kernel) (by decide +kernel)

end Edit

end Lossless
