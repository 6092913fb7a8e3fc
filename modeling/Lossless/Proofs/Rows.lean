import Lossless.Proofs.Rewired
import Lossless.Proofs.Trees

/-! Rows between two brackets: containers that follow each other in the text, some of them with a
delimiter and a space before them. What a change has to show so that a container stays a row, and
where the parts of a row are. -/

namespace Lossless

open List Option Node

theorem splice_append {α : Type} {xs ys : List α} {n : Nat} (h : n = xs.length) (new : List α) :
    (xs ++ ys).take n ++ (new ++ (xs ++ ys).drop n) = xs ++ (new ++ ys) := by
  rw [take_left' h.symm, drop_left' h.symm]

theorem cut_middle {α : Type} (xs mid ys : List α) :
    (xs ++ (mid ++ ys)).take xs.length ++ (xs ++ (mid ++ ys)).drop (xs.length + mid.length) =
      xs ++ ys := by
  simp

/-- A part of a row: the tokens that it covers, and the delimiter and the space before it. -/
structure Entry where
  joint : Option (Leaf × Leaf) := none
  element : Branch
  leaves : List Leaf
deriving DecidableEq, Repr

namespace Entry

def jointLeaves (e : Entry) : List Leaf :=
  e.joint.toList.flatMap fun (delimiter, space) => [delimiter, space]

def tokens (e : Entry) : List Leaf :=
  e.jointLeaves ++ e.leaves

def nodes (e : Entry) : List Node :=
  (e.joint.toList.map fun (delimiter, _) => .leaf delimiter) ++ [.branch e.element]

def body (entries : List Entry) : List Leaf :=
  entries.flatMap tokens

def children (entries : List Entry) : List Node :=
  entries.flatMap nodes

@[simp] theorem body_nil : body [] = [] := rfl

@[simp] theorem children_nil : children [] = [] := rfl

@[simp] theorem body_append (es fs : List Entry) : body (es ++ fs) = body es ++ body fs :=
  flatMap_append

@[simp] theorem body_cons (e : Entry) (es : List Entry) :
    body (e :: es) = e.jointLeaves ++ (e.leaves ++ body es) := by
  rw [body, flatMap_cons, tokens, append_assoc]
  rfl

@[simp] theorem children_append (es fs : List Entry) :
    children (es ++ fs) = children es ++ children fs :=
  flatMap_append

@[simp] theorem children_cons (e : Entry) (es : List Entry) :
    children (e :: es) = e.nodes ++ children es :=
  flatMap_cons

theorem leaves_subset_body {e : Entry} {es : List Entry} (he : e ∈ es) : e.leaves ⊆ body es := by
  intro l hl
  exact mem_flatMap.2 ⟨e, he, by simp [tokens, hl]⟩

theorem joint_mem_body {e : Entry} {es : List Entry} {j : Leaf × Leaf} (he : e ∈ es)
    (hj : e.joint = some j) : j.1 ∈ body es ∧ j.2 ∈ body es := by
  constructor <;> exact mem_flatMap.2 ⟨e, he, by simp [tokens, jointLeaves, hj]⟩

theorem element_mem_children {e : Entry} {es : List Entry} (he : e ∈ es) :
    branch e.element ∈ children es :=
  mem_flatMap.2 ⟨e, he, by simp [nodes]⟩

/-- The tokens among which neighbours are found. A space is in no container. -/
def shown (entries : List Entry) : List Leaf :=
  entries.flatMap fun e => e.joint.toList.map Prod.fst ++ e.leaves

theorem shown_append (es fs : List Entry) : shown (es ++ fs) = shown es ++ shown fs :=
  flatMap_append

theorem shown_cons (e : Entry) (es : List Entry) :
    shown (e :: es) = e.joint.toList.map Prod.fst ++ e.leaves ++ shown es :=
  flatMap_cons

theorem mem_jointLeaves {e : Entry} {l : Leaf} (hl : l ∈ e.joint.toList.map Prod.fst) :
    l ∈ e.jointLeaves := by
  cases hj : e.joint <;> simp_all [jointLeaves]

theorem shown_subset_body (es : List Entry) : shown es ⊆ body es := by
  intro l hl
  obtain ⟨e, he, hl⟩ := mem_flatMap.1 hl
  refine mem_flatMap.2 ⟨e, he, ?_⟩
  rw [tokens, mem_append]
  exact (mem_append.1 hl).imp_left mem_jointLeaves

end Entry

structure Brackets where
  before : List Leaf
  opening : Leaf
  closing : Leaf
  after : List Leaf

def Brackets.around (s : Brackets) (body : List Leaf) : List Leaf :=
  s.before ++ s.opening :: (body ++ s.closing :: s.after)

/-- A container is around the nodes that it contains. -/
theorem Forest.Linked.contains_iff {f : Forest} (hf : f.Linked) {b : Branch} (node : Node) :
    f.contains b node = true ↔ f.Around b node := by
  revert node
  refine hf.upward (fun node hp => ?_) fun node p hp ih => ?_
  · rw [contains, ancestors_of_none hp]
    constructor
    · intro h
      rw [show node = .branch b by simpa using h]
      exact .self
    · intro h
      cases h with
      | self => simp
      | step hp' _ =>
        rw [hp] at hp'
        cases hp'
  · rw [contains, Bool.or_eq_true, beq_iff_eq, branch.injEq] at ih
    rw [contains, hf.ancestors_of_parent hp, contains_cons, Bool.or_eq_true, Bool.or_eq_true,
      beq_iff_eq, beq_iff_eq, @eq_comm _ b p, ih]
    constructor
    · rintro (rfl | h)
      · exact .self
      · exact .step hp h
    · intro h
      cases h with
      | self => exact Or.inl rfl
      | step hp' h =>
        rw [hp] at hp'
        cases hp'
        exact Or.inr h

namespace Document

structure Covers (doc : Document) (e : Entry) : Prop where
  within : ∀ l ∈ doc.visibleLeaves e.element, l ∈ e.leaves
  first : doc.firstLeaf? e.element = e.leaves.head?
  last : doc.lastLeaf? e.element = e.leaves.getLast?

def entryTexts (doc : Document) (entries : List Entry) : List String :=
  entries.map fun e => Layout.join (e.leaves.map doc.textOf)

/-- A container between brackets consists of the given entries. -/
structure Row (doc : Document) (list : Branch) (s : Brackets) (entries : List Entry) : Prop where
  tree : doc.IsTree
  order_eq : doc.order = s.around (Entry.body entries)
  children_eq : doc.children list = Entry.children entries
  covers : ∀ e ∈ entries, doc.Covers e
  left : doc.leftLeaf? list = some s.opening
  right : doc.rightLeaf? list = some s.closing
  outside : ∀ l ∈ doc.leftLeaves list ++ doc.rightLeaves list,
    l ∉ Entry.body entries

variable {doc doc' : Document} {list : Branch} {s : Brackets} {entries entries' : List Entry}
  {e e' f : Entry} {node n : Node} {body : List Leaf} {l : Leaf}

theorem Row.has_list (h : doc.Row list s entries) : doc.Has list := by
  have hleft := h.left
  rw [leftLeaf?_eq h.tree.linked] at hleft
  cases hp : doc.parent list with
  | none =>
    rw [Forest.leftLeaves_of_none hp] at hleft
    cases hleft
  | some p => exact Forest.has_of_parent hp

theorem visibleLeaves_congr (hl : doc'.leaves node = doc.leaves node)
    (ho : ∀ l ∈ doc.leaves node, l ∈ doc'.order ↔ l ∈ doc.order) :
    doc'.visibleLeaves node = doc.visibleLeaves node := by
  rw [visibleLeaves, visibleLeaves, hl]
  refine filter_congr fun l hm => ?_
  simp only [contains_eq_mem, ho l hm]

theorem range?_congr (horder : doc'.order = doc.order)
    (hleaves : doc'.leaves node = doc.leaves node) : doc'.range? node = doc.range? node := by
  simp only [range?, firstLeaf?, lastLeaf?, visibleLeaves, position?, hleaves, horder]

theorem Covers.congr (h : doc.Covers e) (hd : doc.Linked)
    (hleaves : doc'.leaves e.element = doc.leaves e.element)
    (hkept : e.leaves ⊆ doc'.order)
    (hold : ∀ l ∈ doc'.order, doc.Has (.leaf l) → l ∈ doc.order) : doc'.Covers e := by
  have hvisible : doc'.visibleLeaves e.element =
      doc.visibleLeaves e.element := by
    refine visibleLeaves_congr hleaves fun l hl => ⟨fun ho => ?_, fun ho => ?_⟩
    · exact hold l ho (hd.has_of_mem_leaves hl)
    · exact hkept (h.within l (mem_visibleLeaves.2 ⟨hl, ho⟩))
  refine ⟨?_, ?_, ?_⟩
  · rw [hvisible]; exact h.within
  · rw [firstLeaf?, hvisible]; exact h.first
  · rw [lastLeaf?, hvisible]; exact h.last

theorem mem_around :
    l ∈ s.around body ↔ l ∈ body ∨ l ∈ s.around [] := by
  simp only [Brackets.around, mem_append, mem_cons, not_mem_nil, false_or]
  tauto

theorem not_mem_body_of_nodup (hn : (s.around body).Nodup)
    (hl : l ∈ s.around []) : l ∉ body := by
  intro hb
  simp only [Brackets.around, nodup_append, nodup_cons, mem_append, mem_cons,
    nil_append] at hn hl
  obtain ⟨-, ⟨hopening, -, -, hafter⟩, hbefore⟩ := hn
  rcases hl with hl | rfl | hl
  · exact hbefore l hl l (by simp [hb]) rfl
  · exact hopening (by simp [hb])
  · exact hafter l hb l (by simpa using hl) rfl

theorem Row.mem_order (h : doc.Row list s entries) (hl : l ∈ Entry.body entries) :
    l ∈ doc.order := by
  rw [h.order_eq]
  exact mem_around.2 (Or.inl hl)

theorem Row.mem_order_outside (h : doc.Row list s entries) (hl : l ∈ s.around []) :
    l ∈ doc.order := by
  rw [h.order_eq]
  exact mem_around.2 (Or.inr hl)

/-- What a change to a row has to show: the order and the children are those of the new entries, and
an element is as it was or covers what its entry says. -/
theorem Row.step (h : doc.Row list s entries) (htree : doc'.IsTree)
    (hleft : doc'.leftLeaves list = doc.leftLeaves list)
    (hright : doc'.rightLeaves list = doc.rightLeaves list)
    (horder : doc'.order = s.around (Entry.body entries'))
    (hchildren : doc'.children list = Entry.children entries')
    (hold : ∀ l ∈ doc'.order, doc.Has (.leaf l) → l ∈ doc.order)
    (hcovers : ∀ e ∈ entries', (∃ e₀ ∈ entries, e₀.element = e.element ∧ e₀.leaves = e.leaves ∧
      doc'.leaves (.branch e.element) = doc.leaves (.branch e.element)) ∨ doc'.Covers e) :
    doc'.Row list s entries' := by
  have hlinked := h.tree.linked
  -- tokens beside the row are as visible as they were
  have hbeside : ∀ l ∈ doc.leftLeaves list ++ doc.rightLeaves list,
      l ∈ doc'.order ↔ l ∈ doc.order := by
    intro l hl
    refine ⟨fun ho => hold l ho (hlinked.has_beside _ l hl), fun ho => ?_⟩
    rw [h.order_eq, mem_around] at ho
    rw [horder, mem_around]
    exact Or.inr (ho.resolve_left (h.outside l hl))
  have hfilter : ∀ ls : List Leaf,
      ls ⊆ doc.leftLeaves list ++ doc.rightLeaves list →
      ls.filter doc'.order.contains = ls.filter doc.order.contains := by
    intro ls hls
    refine filter_congr fun l hl => ?_
    simp only [contains_eq_mem, hbeside l (hls hl)]
  refine ⟨htree, horder, hchildren, ?_, ?_, ?_, ?_⟩
  · intro e he
    rcases hcovers e he with ⟨e₀, he₀, helement, hleaves, hsame⟩ | hnew
    · have hcover := (h.covers e₀ he₀).congr hlinked (helement ▸ hsame) ?_ hold
      · exact ⟨helement ▸ hleaves ▸ hcover.within, helement ▸ hleaves ▸ hcover.first,
          helement ▸ hleaves ▸ hcover.last⟩
      · intro l hl
        rw [horder]
        exact mem_around.2 (Or.inl (Entry.leaves_subset_body he (hleaves ▸ hl)))
    · exact hnew
  · rw [leftLeaf?_eq htree.linked, hleft, hfilter _ (subset_append_left ..),
      ← leftLeaf?_eq hlinked]
    exact h.left
  · rw [rightLeaf?_eq htree.linked, hright, hfilter _ (subset_append_right ..),
      ← rightLeaf?_eq hlinked]
    exact h.right
  · intro l hl hb
    rw [hleft, hright] at hl
    have ho : l ∈ doc'.order := by
      rw [horder]
      exact mem_around.2 (Or.inl hb)
    have hd := (hbeside l hl).1 ho
    rw [h.order_eq, mem_around] at hd
    rcases hd with hd | hd
    · exact h.outside l hl hd
    · exact not_mem_body_of_nodup (horder ▸ htree.order_nodup) hd hb

theorem Row.step_of_rewired (h : doc.Row list s entries) (hr : doc.Rewired doc'.toForest list)
    (htree : doc'.IsTree) (horder : doc'.order = s.around (Entry.body entries'))
    (hchildren : doc'.children list = Entry.children entries')
    (hold : ∀ l ∈ doc'.order, doc.Has (.leaf l) → l ∈ doc.order)
    (hcovers : ∀ e ∈ entries', (∃ e₀ ∈ entries, e₀.element = e.element ∧ e₀.leaves = e.leaves) ∨
      doc'.Covers e) : doc'.Row list s entries' := by
  have hlinked := h.tree.linked
  obtain ⟨hleft, hright⟩ := hr.beside_eq hlinked htree.linked h.has_list
  refine h.step htree hleft hright horder hchildren hold fun e he => ?_
  refine (hcovers e he).imp_left fun ⟨e₀, he₀, helement, hleaves⟩ => ⟨e₀, he₀, helement, hleaves, ?_⟩
  have hchild : branch e.element ∈ doc.children list := by
    rw [h.children_eq, ← helement]
    exact Entry.element_mem_children he₀
  exact hr.leaves_eq hlinked htree.linked (hlinked.has_child hchild)
    (hlinked.not_around_of_child hchild)

/-! ### Where the entries are -/

theorem erase_middle {xs ys : List Node} (hn : (xs ++ n :: ys).Nodup) :
    (xs ++ n :: ys).erase n = xs ++ ys := by
  have hxs : n ∉ xs := fun hm => (nodup_append.1 hn).2.2 n hm n (by simp) rfl
  rw [erase_append_right _ hxs, erase_cons_head]


section

variable {xs ys mid block : List Leaf} {l r : Leaf}

theorem position?_of_head (hn : doc.order.Nodup) (ho : doc.order = xs ++ ys)
    (hr : ys.head? = some r) : doc.position? r = some xs.length := by
  refine idxOf?_of_getElem? hn ?_
  rw [ho, getElem?_append_right (Nat.le_refl _), Nat.sub_self, ← head?_eq_getElem?, hr]

theorem position?_of_last (hn : doc.order.Nodup) (ho : doc.order = xs ++ ys)
    (hl : xs.getLast? = some l) : doc.position? l = some (xs.length - 1) := by
  have hpos : 0 < xs.length := length_pos_iff.2 fun hnil => by simp [hnil] at hl
  refine idxOf?_of_getElem? hn ?_
  rw [ho, getElem?_append_left (by omega), ← getLast?_eq_getElem?, hl]

/-- A node with its trivia is what its neighbours leave between them. -/
theorem trivia_of_block (hn : doc.order.Nodup) (ho : doc.order = xs ++ (mid ++ ys))
    (hleft : doc.leftLeaf? node = xs.getLast?) (hright : doc.rightLeaf? node = ys.head?) :
    doc.trivia node = ⟨xs.length, xs.length + mid.length⟩ := by
  have hstop : ((doc.rightLeaf? node).bind doc.position?).getD doc.order.length =
      xs.length + mid.length := by
    rw [hright]
    cases hr : ys.head? with
    | none => simp [ho, head?_eq_none_iff.1 hr]
    | some r =>
      have ho' : doc.order = (xs ++ mid) ++ ys := by rw [ho, append_assoc]
      simp [position?_of_head hn ho' hr]
  cases hl : xs.getLast? with
  | none =>
    obtain rfl := getLast?_eq_none_iff.1 hl
    simp [trivia, hleft, hstop]
  | some l =>
    have hpos : 0 < xs.length := length_pos_iff.2 fun hnil => by simp [hnil] at hl
    simp only [trivia, hleft, hl, bind_some, position?_of_last hn ho hl, hstop,
      Nat.sub_add_cancel hpos, Nat.max_eq_left (Nat.le_add_right ..)]

theorem trivia_stop_of_block (hn : doc.order.Nodup) (ho : doc.order = xs ++ ys)
    (hleft : ∀ l ∈ doc.leftLeaf? node, l ∈ xs) (hright : doc.rightLeaf? node = ys.head?) :
    (doc.trivia node).stop = xs.length := by
  have hstop : ((doc.rightLeaf? node).bind doc.position?).getD doc.order.length = xs.length := by
    rw [hright]
    cases hr : ys.head? with
    | none => simp [ho, head?_eq_none_iff.1 hr]
    | some r => simp [position?_of_head hn ho hr]
  cases hl : doc.leftLeaf? node with
  | none => simp [trivia, hl, hstop]
  | some l =>
    obtain ⟨i, hi⟩ := exists_idxOf? (hleft l hl)
    have hpos : doc.position? l = some i := by
      refine idxOf?_of_getElem? hn ?_
      rw [ho, getElem?_append_left (idxOf?_lt_length hi), getElem?_of_idxOf? hi]
    simp only [trivia, hl, bind_some, hpos, hstop]
    exact Nat.max_eq_left (idxOf?_lt_length hi)

theorem range?_of_block (hn : doc.order.Nodup)
    (ho : doc.order = xs ++ (block ++ ys)) (hne : block ≠ [])
    (hfirst : doc.firstLeaf? node = block.head?) (hlast : doc.lastLeaf? node = block.getLast?) :
    doc.range? node = some ⟨xs.length, xs.length + block.length⟩ := by
  have hlen : 0 < block.length := length_pos_iff.2 hne
  have ho' : doc.order = (xs ++ block) ++ ys := by rw [ho, append_assoc]
  rw [head?_eq_some_head hne] at hfirst
  rw [getLast?_eq_some_getLast hne] at hlast
  have hi : doc.position? (block.head hne) = some xs.length :=
    position?_of_head hn ho (by rw [head?_append_of_ne_nil _ hne, head?_eq_some_head hne])
  have hj : doc.position? (block.getLast hne) = some ((xs ++ block).length - 1) :=
    position?_of_last hn ho' (by simp [getLast?_append, getLast?_eq_some_getLast hne])
  rw [range?_eq_some hfirst hlast hi hj, length_append]
  congr 2
  omega

end

theorem around_body (s : Brackets) (pre post : List Entry) (e : Entry) :
    s.around (Entry.body (pre ++ e :: post)) =
      (s.before ++ s.opening :: (Entry.body pre ++ e.jointLeaves)) ++
        (e.leaves ++ (Entry.body post ++ s.closing :: s.after)) := by
  simp [Brackets.around]

variable {pre post : List Entry}

theorem Row.range?_entry (h : doc.Row list s (pre ++ e :: post)) (hne : e.leaves ≠ []) :
    doc.range? e.element =
      some ⟨(s.before ++ s.opening :: (Entry.body pre ++ e.jointLeaves)).length,
        (s.before ++ s.opening :: (Entry.body pre ++ e.jointLeaves)).length + e.leaves.length⟩ := by
  have he := h.covers e (by simp)
  exact range?_of_block h.tree.order_nodup (h.order_eq.trans (around_body s pre post e)) hne
    he.first he.last

theorem Covers.range?_eq_none (h : doc.Covers e) (hnil : e.leaves = []) :
    doc.range? e.element = none := by
  rw [Document.range?_eq_none]
  exact eq_nil_iff_forall_not_mem.2 fun l hl => by simpa [hnil] using h.within l hl

theorem Row.coveredLeaves_entry (h : doc.Row list s entries) (he : e ∈ entries) :
    doc.coveredLeaves e.element = e.leaves := by
  obtain ⟨pre, post, rfl⟩ := append_of_mem he
  by_cases hne : e.leaves = []
  · rw [coveredLeaves, (h.covers e he).range?_eq_none hne, hne]
  · rw [coveredLeaves, h.range?_entry hne]
    show (doc.order.drop _).take _ = e.leaves
    rw [h.order_eq, around_body, drop_left, Nat.add_sub_cancel_left, take_left]

theorem children_entry (pre post : List Entry) (e : Entry) :
    Entry.children (pre ++ e :: post) =
      (Entry.children pre ++ e.joint.toList.map fun j => leaf j.1) ++
        branch e.element :: Entry.children post := by
  simp [Entry.nodes]

theorem Row.idxOf?_entry (h : doc.Row list s (pre ++ e :: post)) :
    (doc.children list).idxOf? (.branch e.element) =
      some (Entry.children pre ++
        e.joint.toList.map fun j => leaf j.1).length := by
  have hnd := h.tree.linked.once list
  rw [h.children_eq, children_entry] at hnd ⊢
  refine idxOf?_append_cons fun hm => ?_
  exact (nodup_append.1 hnd).2.2 _ hm _ (by simp) rfl

theorem mem_of_mem_replace (hf : f ∈ pre ++ e' :: post) :
    f ∈ pre ++ e :: post ∨ f = e' := by
  simp only [mem_append, mem_cons] at hf ⊢
  tauto

theorem Row.step_of_element {new : List Leaf} (h : doc.Row list s (pre ++ e :: post))
    (hr : doc.Rewired doc'.toForest e.element) (htree : doc'.IsTree)
    (horder : doc'.order = s.around (Entry.body (pre ++ { e with leaves := new } :: post)))
    (hold : ∀ l ∈ doc'.order, doc.Has (.leaf l) → l ∈ doc.order)
    (hcovers : doc'.Covers { e with leaves := new }) :
    doc'.Row list s (pre ++ { e with leaves := new } :: post) := by
  have hlinked := h.tree.linked
  have hchild : branch e.element ∈ doc.children list := by
    rw [h.children_eq]
    exact Entry.element_mem_children (by simp)
  have hinside : doc.Around list e.element := .of_child hlinked hchild
  have hne : list ≠ e.element := by
    rintro he
    exact hlinked.not_around_of_child hchild (he ▸ .self)
  obtain ⟨hleft, hright⟩ : doc'.leftLeaves list = doc.leftLeaves list ∧
      doc'.rightLeaves list = doc.rightLeaves list := by
    refine hlinked.beside_congr htree.linked (fun b hb hout => ?_) fun b hb => ?_
    · refine hr.children b hb ?_
      rintro rfl
      exact hout hinside
    · exact hr.parent_of_around hlinked (hlinked.has_child hchild) (hinside.trans hb)
  have hnd := hlinked.once list
  rw [h.children_eq, children_entry] at hnd
  have hother : ∀ f ∈ pre ++ post, f.element ≠ e.element := by
    intro f hf he
    have hmem : branch e.element ∈ Entry.children (pre ++ post) := by
      rw [← he]
      exact Entry.element_mem_children hf
    rw [Entry.children_append, mem_append] at hmem
    rw [nodup_append, nodup_cons] at hnd
    rcases hmem with hmem | hmem
    · exact hnd.2.2 _ (mem_append_left _ hmem) _ (by simp) rfl
    · exact hnd.2.1.1 hmem
  refine h.step htree hleft hright horder ?_ hold fun f hf => ?_
  · rw [hr.children list h.has_list hne, h.children_eq]
    simp [Entry.nodes]
  · have hf : f ∈ pre ++ post ∨ f = { e with leaves := new } := by
      simp only [mem_append, mem_cons] at hf ⊢
      tauto
    rcases hf with hf | rfl
    · have hmem : f ∈ pre ++ e :: post := by
        simp only [mem_append, mem_cons] at hf ⊢
        tauto
      have hchild' : branch f.element ∈ doc.children list := by
        rw [h.children_eq]
        exact Entry.element_mem_children hmem
      refine Or.inl ⟨f, hmem, rfl, rfl, ?_⟩
      refine hr.leaves_eq hlinked htree.linked (hlinked.has_child hchild') fun ha => ?_
      exact hother f hf (hlinked.eq_of_around hchild' hchild ha .self)
    · exact Or.inr hcovers

/-! ### Neighbours in the row -/

section

variable (h : doc.Row list s entries)
include h

theorem Row.visibleLeaves_subset {es : List Entry} (hes : es ⊆ entries) :
    (Entry.children es).flatMap doc.visibleLeaves ⊆ Entry.body es := by
  induction es with
  | nil => simp
  | cons e es ih =>
    have he := h.covers e (hes (by simp))
    have hrest := ih fun f hf => hes (by simp [hf])
    have hjoint : (e.joint.toList.map fun j => leaf j.1).flatMap
        doc.visibleLeaves ⊆ e.jointLeaves := by
      cases hj : e.joint with
      | none => simp
      | some j =>
        intro l hl
        simp only [toList_some, map_cons, map_nil, flatMap_cons,
          flatMap_nil, append_nil, visibleLeaves_leaf] at hl
        split at hl
        · simp [Entry.jointLeaves, hj, mem_singleton.1 hl]
        · cases hl
    intro l hl
    rw [Entry.children_cons, Entry.nodes, flatMap_append, flatMap_append,
      flatMap_singleton, mem_append, mem_append] at hl
    rw [Entry.body_cons, mem_append, mem_append]
    rcases hl with (hl | hl) | hl
    · exact Or.inl (hjoint hl)
    · exact Or.inr (Or.inl (he.within l hl))
    · exact Or.inr (Or.inr (hrest hl))

theorem Row.not_contains (hl : l ∈ s.around []) : doc.contains list l = false := by
  rw [Bool.eq_false_iff]
  intro hc
  have hlinked := h.tree.linked
  have hmem := hlinked.mem_leaves.2 ((hlinked.contains_iff _).1 hc)
  have hvisible := mem_visibleLeaves.2 ⟨hmem, h.mem_order_outside hl⟩
  rw [visibleLeaves_branch hlinked, h.children_eq] at hvisible
  exact not_mem_body_of_nodup (h.order_eq ▸ h.tree.order_nodup) hl
    (h.visibleLeaves_subset (Subset.refl _) hvisible)

theorem Row.contains_of_child (hn : node ∈ doc.children list)
    (hl : l ∈ doc.visibleLeaves node) : doc.contains list l = true := by
  have hlinked := h.tree.linked
  rw [hlinked.contains_iff, ← hlinked.mem_leaves, hlinked.leaves_branch]
  exact mem_flatMap.2 ⟨node, hn, (mem_visibleLeaves.1 hl).1⟩

variable {xs ys : List Node} {l : Leaf} (hxy : doc.children list = xs ++ node :: ys)
include hxy

theorem Row.parent_of_split : doc.parent node = some list ∧ node ∉ xs := by
  have hnd := h.tree.linked.once list
  rw [hxy] at hnd
  exact ⟨h.tree.linked.down (by simp [hxy]),
    fun hm => (nodup_append.1 hnd).2.2 _ hm _ (by simp) rfl⟩

theorem Row.leftLeaf?_child : doc.leftLeaf? node =
    (xs.reverse.findSome? doc.lastLeaf?).or (some s.opening) := by
  have hlinked := h.tree.linked
  obtain ⟨hp, hxs⟩ := h.parent_of_split hxy
  have hleft := h.left
  rw [leftLeaf?_eq hlinked] at hleft
  rw [leftLeaf?_eq hlinked, hlinked.leftLeaves_of_parent hp hxy hxs, filter_append,
    filter_flatMap_leaves, getLast?_append, getLast?_flatMap_visibleLeaves, hleft]

theorem Row.rightLeaf?_child : doc.rightLeaf? node =
    (ys.findSome? doc.firstLeaf?).or (some s.closing) := by
  have hlinked := h.tree.linked
  obtain ⟨hp, hxs⟩ := h.parent_of_split hxy
  have hright := h.right
  rw [rightLeaf?_eq hlinked] at hright
  rw [rightLeaf?_eq hlinked, hlinked.rightLeaves_of_parent hp hxy hxs, filter_append,
    filter_flatMap_leaves, head?_append, head?_flatMap_visibleLeaves, hright]

theorem Row.filter_leftLeaf? :
    (doc.leftLeaf? node).filter (fun l => doc.contains list (.leaf l)) =
      xs.reverse.findSome? doc.lastLeaf? := by
  rw [h.leftLeaf?_child hxy]
  cases hl : xs.reverse.findSome? doc.lastLeaf? with
  | none => simp [h.not_contains (l := s.opening) (by simp [Brackets.around])]
  | some l =>
    obtain ⟨x, hx, hlast⟩ := exists_of_findSome?_eq_some hl
    have hchild : x ∈ doc.children list := by simp [hxy, mem_reverse.1 hx]
    simp [h.contains_of_child hchild (mem_of_getLast? hlast)]

theorem Row.filter_rightLeaf? :
    (doc.rightLeaf? node).filter (fun l => doc.contains list (.leaf l)) =
      ys.findSome? doc.firstLeaf? := by
  rw [h.rightLeaf?_child hxy]
  cases hl : ys.findSome? doc.firstLeaf? with
  | none => simp [h.not_contains (l := s.closing) (by simp [Brackets.around])]
  | some l =>
    obtain ⟨x, hx, hfirst⟩ := exists_of_findSome?_eq_some hl
    have hchild : x ∈ doc.children list := by simp [hxy, hx]
    simp [h.contains_of_child hchild (mem_of_head? hfirst)]

end

section

variable (h : doc.Row list s entries) {es : List Entry} (hes : es ⊆ entries)
include h hes

theorem Row.findSome?_lastLeaf? :
    (Entry.children es).reverse.findSome? doc.lastLeaf? = (Entry.shown es).getLast? := by
  rw [← getLast?_flatMap_visibleLeaves]
  induction es with
  | nil => rfl
  | cons e es ih =>
    have hmem : e ∈ entries := hes (by simp)
    have hlast : (doc.visibleLeaves e.element).getLast? = e.leaves.getLast? :=
      (h.covers e hmem).last
    rw [Entry.children_cons, Entry.nodes, Entry.shown_cons, flatMap_append,
      getLast?_append, ih fun f hf => hes (by simp [hf]), getLast?_append,
      flatMap_append, flatMap_singleton, getLast?_append, hlast,
      getLast?_append]
    cases hj : e.joint with
    | none => simp
    | some j => simp [h.mem_order (Entry.joint_mem_body hmem hj).1]

theorem Row.findSome?_firstLeaf? :
    (Entry.children es).findSome? doc.firstLeaf? = (Entry.body es).head? := by
  rw [← head?_flatMap_visibleLeaves]
  induction es with
  | nil => rfl
  | cons e es ih =>
    have hmem : e ∈ entries := hes (by simp)
    have hfirst : (doc.visibleLeaves e.element).head? = e.leaves.head? :=
      (h.covers e hmem).first
    rw [Entry.children_cons, Entry.nodes, Entry.body_cons, flatMap_append,
      head?_append, ih fun f hf => hes (by simp [hf]), flatMap_append,
      flatMap_singleton, head?_append, hfirst, head?_append, head?_append]
    cases hj : e.joint with
    | none => simp [Entry.jointLeaves, hj]
    | some j => simp [Entry.jointLeaves, hj, h.mem_order (Entry.joint_mem_body hmem hj).1]

end

end Document

end Lossless
