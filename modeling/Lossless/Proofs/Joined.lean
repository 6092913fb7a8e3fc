import Lossless.Edit.List
import Lossless.Proofs.Layouts
import Lossless.Proofs.Rows

/-! Lists between two brackets: elements with a delimiter and a space between them, and nothing
else. What an edit has to show so that a list stays of this form. -/

namespace Lossless

open List Forest Entry

/-- The first and the last text have ink. -/
def Layout.InkedEnds (ts : Layout) : Prop :=
  (∃ t ∈ ts.head?, Text.isBlank t = false) ∧ ∃ t ∈ ts.getLast?, Text.isBlank t = false

instance (ts : Layout) : Decidable ts.InkedEnds :=
  inferInstanceAs (Decidable (_ ∧ _))

namespace Entry

/-- The first entry has nothing before it, and all others have a delimiter. -/
structure Alternate (entries : List Entry) : Prop where
  first : ∀ e ∈ entries.head?, e.joint = none
  later : ∀ e ∈ entries.tail, e.joint.isSome = true

theorem Alternate.insertAfter {pre post : List Entry} {p e : Entry}
    (h : Alternate (pre ++ p :: post)) (he : e.joint.isSome) :
    Alternate (pre ++ p :: e :: post) := by
  cases pre with
  | nil =>
    refine ⟨h.first, fun f hf => ?_⟩
    rcases mem_cons.1 hf with rfl | hf
    · exact he
    · exact h.later f hf
  | cons q pre =>
    refine ⟨h.first, fun f hf => ?_⟩
    have hf : f ∈ pre ++ p :: e :: post := hf
    simp only [mem_append, mem_cons] at hf
    rcases hf with hf | rfl | rfl | hf
    · exact h.later f (by simp [hf])
    · exact h.later f (by simp)
    · exact he
    · exact h.later f (by simp [hf])

theorem Alternate.insertFirst {post : List Entry} {e new : Entry} (h : Alternate (e :: post))
    (hnew : new.joint = none) (j : Leaf × Leaf) :
    Alternate (new :: { e with joint := some j } :: post) := by
  refine ⟨fun f hf => ?_, fun f hf => ?_⟩
  · cases hf
    exact hnew
  · rcases mem_cons.1 hf with rfl | hf
    · rfl
    · exact h.later f hf

theorem Alternate.erase {pre post : List Entry} {e : Entry} (h : Alternate (pre ++ e :: post))
    (he : e.joint.isSome) : Alternate (pre ++ post) := by
  cases pre with
  | nil =>
    rw [h.first e rfl] at he
    cases he
  | cons q pre =>
    refine ⟨h.first, fun f hf => h.later f ?_⟩
    have hf : f ∈ pre ++ post := hf
    show f ∈ pre ++ e :: post
    rcases mem_append.1 hf with hf | hf <;> simp [hf]

theorem Alternate.eraseFirst {post : List Entry} {e f : Entry} (h : Alternate (e :: f :: post)) :
    Alternate ({ f with joint := none } :: post) :=
  ⟨fun g hg => by cases hg; rfl, fun g hg => h.later g (mem_cons_of_mem _ hg)⟩

end Entry

/-- A list in one line, without anything that edits would add or keep by themselves. -/
structure ListRule.IsPlain (rule : ListRule) : Prop where
  inLine : rule.multiline = false
  delimiter : Text.isBlank rule.delimiter = false
  padding : rule.padding = none
  placeholder : rule.placeholder = none
  retained : rule.retained = []

namespace Document

structure Fills (doc : Document) (rule : ListRule) (e : Entry) : Prop where
  accepted : rule.accepts (doc.kindOf e.element) = true
  within : ∀ l ∈ doc.visibleLeaves e.element, l ∈ e.leaves
  first : doc.firstLeaf? e.element = e.leaves.head?
  last : doc.lastLeaf? e.element = e.leaves.getLast?
  inked : Layout.InkedEnds (e.leaves.map doc.textOf)

/-- A list between brackets consists of the given entries. -/
structure Joined (doc : Document) (rule : ListRule) (list : Branch) (s : Brackets)
    (entries : List Entry) : Prop where
  tree : doc.IsTree
  rule_eq : doc.listRule? list = some rule
  parent_plain : ∀ p, doc.parent list = some p →
    doc.optionalRule? p = none ∧ doc.grammar.isTuple (doc.kindOf p) = false
  order_eq : doc.order = s.around (Entry.body entries)
  children_eq : doc.children list = Entry.children entries
  alternate : Entry.Alternate entries
  fills : ∀ e ∈ entries, doc.Fills rule e
  joint : ∀ e ∈ entries, ∀ j, e.joint = some j →
    doc.textOf j.1 = rule.delimiter ∧ doc.textOf j.2 = " "
  left : doc.leftLeaf? list = some s.opening
  right : doc.rightLeaf? list = some s.closing
  enclosed : enclosures.contains (doc.textOf s.opening, doc.textOf s.closing) = true
  outside : ∀ l ∈ doc.leftLeaves list ++ doc.rightLeaves list,
    l ∉ Entry.body entries

variable {doc doc' : Document} {rule : ListRule} {list : Branch} {s : Brackets}
  {entries entries' : List Entry} {e : Entry}

theorem Fills.covers (h : doc.Fills rule e) : doc.Covers e :=
  ⟨h.within, h.first, h.last⟩

theorem Joined.row (h : doc.Joined rule list s entries) : doc.Row list s entries :=
  ⟨h.tree, h.order_eq, h.children_eq, fun e he => (h.fills e he).covers, h.left, h.right, h.outside⟩

theorem Joined.has_list (h : doc.Joined rule list s entries) : doc.Has list :=
  h.row.has_list

/-- What a change to the list has to show: the order and the children are those of the new entries,
and whatever is new in them is as it should be. -/
theorem Joined.step (h : doc.Joined rule list s entries) (hr : doc.Rewired doc'.toForest list)
    (hgrammar : doc'.grammar = doc.grammar) (htree : doc'.IsTree)
    (horder : doc'.order = s.around (body entries'))
    (hchildren : doc'.children list = children entries')
    (halternate : Alternate entries')
    (hold : ∀ l ∈ doc'.order, doc.Has (.leaf l) → l ∈ doc.order)
    (hfills : ∀ e ∈ entries', (∃ e₀ ∈ entries, e₀.element = e.element ∧ e₀.leaves = e.leaves) ∨
      doc'.Fills rule e)
    (hjoint : ∀ e ∈ entries', ∀ j, e.joint = some j → (∃ e₀ ∈ entries, e₀.joint = some j) ∨
      doc'.textOf j.1 = rule.delimiter ∧ doc'.textOf j.2 = " ") :
    doc'.Joined rule list s entries' := by
  have hlinked := h.tree.linked
  have hrow := h.row.step_of_rewired hr htree horder hchildren hold fun e he =>
    (hfills e he).imp_right Fills.covers
  have hparent : doc'.parent list = doc.parent list :=
    hr.parent_of_around hlinked h.has_list .self
  have htext : ∀ l ∈ doc.order, doc'.textOf l = doc.textOf l := fun l hl =>
    hr.textOf l (h.tree.order_has l hl)
  have houter : ∀ l ∈ s.around [], doc'.textOf l = doc.textOf l := fun l hl =>
    htext l (h.row.mem_order_outside hl)
  refine ⟨htree, ?_, ?_, horder, hchildren, halternate, ?_, ?_, hrow.left, hrow.right, ?_,
    hrow.outside⟩
  · rw [listRule?, hgrammar, hr.kindOf list h.has_list]
    exact h.rule_eq
  · intro p hp
    rw [hparent] at hp
    rw [optionalRule?, hgrammar, hr.kindOf p (hlinked.has_parent hp)]
    exact h.parent_plain p hp
  · intro e he
    rcases hfills e he with ⟨e₀, he₀, helement, hleaves⟩ | hnew
    · have hchild : Node.branch e₀.element ∈ doc.children list := by
        rw [h.children_eq]
        exact element_mem_children he₀
      have hcover := hrow.covers e he
      have hfill := h.fills e₀ he₀
      refine ⟨?_, hcover.within, hcover.first, hcover.last, ?_⟩
      · rw [← helement, hr.kindOf _ (hlinked.has_child hchild)]
        exact hfill.accepted
      · rw [← hleaves, map_congr_left fun l hl =>
          htext l (h.row.mem_order (leaves_subset_body he₀ hl))]
        exact hfill.inked
    · exact hnew
  · intro e he j hj
    rcases hjoint e he j hj with ⟨e₀, he₀, hj₀⟩ | hnew
    · obtain ⟨h₁, h₂⟩ := joint_mem_body he₀ hj₀
      rw [htext _ (h.row.mem_order h₁), htext _ (h.row.mem_order h₂)]
      exact h.joint e₀ he₀ j hj₀
    · exact hnew
  · rw [houter s.opening (by simp [Brackets.around]), houter s.closing (by simp [Brackets.around])]
    exact h.enclosed

theorem Joined.updateComments (h : doc.Joined rule list s entries) :
    doc.updateComments.Joined rule list s entries :=
  h.step (Rewired.refl ..) rfl h.tree.updateComments h.order_eq h.children_eq h.alternate
    (fun _ hl _ => hl) (fun e he => .inl ⟨e, he, rfl, rfl⟩) fun e he _ hj => .inl ⟨e, he, hj⟩

/-! ### Where the entries are -/

theorem Fills.leaves_ne_nil (h : doc.Fills rule e) : e.leaves ≠ [] := by
  intro he
  obtain ⟨⟨t, ht, -⟩, -⟩ := h.inked
  rw [he] at ht
  cases ht

variable {pre post : List Entry}

theorem Joined.range?_entry (h : doc.Joined rule list s (pre ++ e :: post)) :
    doc.range? e.element =
      some ⟨(s.before ++ s.opening :: (body pre ++ e.jointLeaves)).length,
        (s.before ++ s.opening :: (body pre ++ e.jointLeaves)).length + e.leaves.length⟩ :=
  h.row.range?_entry (h.fills e (by simp)).leaves_ne_nil

theorem Joined.coveredLeaves_entry (h : doc.Joined rule list s entries) (he : e ∈ entries) :
    doc.coveredLeaves e.element = e.leaves :=
  h.row.coveredLeaves_entry he

theorem Joined.listElements_eq (h : doc.Joined rule list s entries) :
    doc.listElements rule list = entries.map element := by
  have hbranches : doc.branches list = entries.map element := by
    rw [branches, h.children_eq]
    have key : ∀ es : List Entry,
        (children es).filterMap Node.branch? = es.map element := by
      intro es
      induction es with
      | nil => rfl
      | cons e es ih =>
        rw [children_cons, filterMap_append, ih]
        cases hj : e.joint <;> simp [nodes, hj, Node.branch?, filterMap_cons]
    exact key entries
  rw [listElements, hbranches, filter_eq_self]
  intro b hb
  obtain ⟨e, he, rfl⟩ := mem_map.1 hb
  exact (h.fills e he).accepted

theorem Joined.range?_list (h : doc.Joined rule list s (e :: post)) :
    ∃ range, doc.range? list = some range ∧ range.start = s.before.length + 1 := by
  have he := h.fills e (by simp)
  have hnone : e.joint = none := h.alternate.first e (by simp)
  have hfirst : doc.firstLeaf? list = e.leaves.head? := by
    have hsome := he.first.trans (head?_eq_some_head he.leaves_ne_nil)
    rw [firstLeaf?, visibleLeaves_branch h.tree.linked, h.children_eq, children_cons,
      nodes, hnone, ← he.first, head?_flatMap_visibleLeaves]
    simp [hsome]
  have hmem : e.leaves.head he.leaves_ne_nil ∈ doc.visibleLeaves list :=
    mem_of_head? (hfirst.trans (head?_eq_some_head _))
  obtain ⟨range, hrange⟩ := exists_range? hmem
  refine ⟨range, hrange, ?_⟩
  -- the list and its first element start with the same token
  obtain ⟨first, -, -, hf, -, hpos, -⟩ := exists_of_range? hrange
  have h' : doc.Joined rule list s ([] ++ e :: post) := h
  obtain ⟨first', -, -, hf', -, hpos', -⟩ := exists_of_range? h'.range?_entry
  rw [hfirst, ← he.first, hf'] at hf
  cases hf
  rw [hpos'] at hpos
  rw [← Option.some.inj hpos]
  simp [jointLeaves, hnone]

/-- The text between the brackets is the trivia of the list. -/
theorem Joined.trivia_eq (h : doc.Joined rule list s entries) :
    doc.trivia list =
      ⟨s.before.length + 1, s.before.length + 1 + (body entries).length⟩ := by
  have ho : doc.order =
      (s.before ++ [s.opening]) ++ (body entries ++ s.closing :: s.after) := by
    rw [h.order_eq, Brackets.around]
    simp
  rw [trivia_of_block h.tree.order_nodup ho (by simp [h.left]) (by simp [h.right])]
  simp

theorem Joined.makeRoom_eq (h : doc.Joined rule list s entries) :
    doc.makeRoom list = ((doc.trivia list).stop, doc) := by
  have henclosed : doc.isEnclosed list := by
    rw [isEnclosed, h.left, h.right]
    exact h.enclosed
  rw [makeRoom]
  split
  · next hp =>
    have hleft := h.left
    rw [leftLeaf?_eq h.tree.linked, leftLeaves_of_none hp] at hleft
    cases hleft
  · next p hp =>
    have htuple := (h.parent_plain p hp).2
    rw [Grammar.isTuple] at htuple
    split
    · next d hd =>
      rw [shapeOf] at hd
      rw [hd] at htuple
      cases htuple
    · rfl
    · split
      · rfl
      · rw [if_pos henclosed]

end Document

end Lossless
