import Lossless.Edit.Remove
import Lossless.Proofs.Rewired

/-! What every step of an edit keeps. Tables only grow, what is in them keeps its kind and its text,
and a container that comes in under another one is new. -/

namespace Lossless.Document

open List Option Forest Node

theorem mem_listElements {doc : Document} {rule : ListRule} {list b : Branch} :
    b ∈ doc.listElements rule list ↔
      .branch b ∈ doc.children list ∧ rule.accepts (doc.kindOf b) := by
  rw [listElements, mem_filter, branches, mem_filterMap]
  refine and_congr_left fun _ => ⟨?_, fun h => ⟨_, h, rfl⟩⟩
  rintro ⟨n, hn, hb⟩
  cases n <;> cases hb
  exact hn

theorem listElements_of_nil {doc : Document} {list : Branch} (h : doc.children list = [])
    (rule : ListRule) : doc.listElements rule list = [] := by
  rw [listElements, branches, h]
  rfl

/-- A document after some steps. The kinds of a new child and of what holds it are as `ok` says. -/
structure Evolves (ok : Kind → Kind → Prop) (doc doc' : Document) : Prop where
  start : doc.Linked
  linked : doc'.Linked
  grammar : doc'.grammar = doc.grammar
  root : doc'.root = doc.root
  has : ∀ node, doc.Has node → doc'.Has node
  kindOf : ∀ b, doc.Has (.branch b) → doc'.kindOf b = doc.kindOf b
  textOf : ∀ l, doc.Has (.leaf l) → doc'.textOf l = doc.textOf l
  edges : ∀ p c, Node.branch c ∈ doc'.children p → Node.branch c ∈ doc.children p ∨
    ¬ doc.Has c ∧ ok (doc'.kindOf p) (doc'.kindOf c)

/-- A document after some steps, with new children of any kind. -/
abbrev Grows : Document → Document → Prop := Evolves fun _ _ => True

variable {ok : Kind → Kind → Prop} {doc mid after fragment : Document} {b c list : Branch}
  {node : Node} {delimiter : Option Leaf}

namespace Evolves

theorem refl (h : doc.Linked) : Evolves ok doc doc :=
  ⟨h, h, rfl, rfl, fun _ h => h, fun _ _ => rfl, fun _ _ => rfl, fun _ _ h => .inl h⟩

section

variable (h : Evolves ok doc mid)
include h

theorem trans (h' : Evolves ok mid after) : Evolves ok doc after where
  start := h.start
  linked := h'.linked
  grammar := h'.grammar.trans h.grammar
  root := h'.root.trans h.root
  has n hn := h'.has n (h.has n hn)
  kindOf b hb := (h'.kindOf b (h.has _ hb)).trans (h.kindOf b hb)
  textOf l hl := (h'.textOf l (h.has _ hl)).trans (h.textOf l hl)
  edges p c hc := by
    rcases h'.edges p c hc with hc | ⟨hnew, hok⟩
    · refine (h.edges p c hc).imp_right fun ⟨hnew, hok⟩ => ⟨hnew, ?_⟩
      rwa [h'.kindOf p (has_of_mem_children hc), h'.kindOf c (h.linked.has_child hc)]
    · exact .inr ⟨fun hd => hnew (h.has _ hd), hok⟩

theorem congr (hf : after.toForest = mid.toForest)
    (hg : after.grammar = mid.grammar) (hr : after.root = mid.root) : Evolves ok doc after := by
  refine ⟨h.start, ?_, hg.trans h.grammar, hr.trans h.root, ?_, ?_, ?_, ?_⟩ <;> rw [hf]
  · exact h.linked
  · exact h.has
  · exact h.kindOf
  · exact h.textOf
  · exact h.edges

theorem insertAt (p : Nat) (leaves : List Leaf) : Evolves ok doc (mid.insertAt p leaves) :=
  h.congr rfl rfl rfl

theorem cut (span : Span) : Evolves ok doc (mid.cut span) :=
  h.congr rfl rfl rfl

theorem discard (leaves : List Leaf) : Evolves ok doc (mid.discard leaves) :=
  h.congr rfl rfl rfl

theorem updateComments : Evolves ok doc mid.updateComments :=
  h.congr rfl rfl rfl

theorem not_around (hb : doc.Has b) (hc : ¬ doc.Has c) : ¬ mid.Around c b := by
  intro ha
  have key : ∀ node, mid.Around c node → ∀ b, node = .branch b → ¬ doc.Has b := by
    intro node ha
    induction ha with
    | self =>
      rintro _ ⟨⟩
      exact hc
    | step hp _ ih =>
      rintro b rfl hb
      -- the edge above an old container is an old one
      rcases h.edges _ b (h.linked.up hp) with hold | ⟨hnew, -⟩
      · exact ih _ rfl (has_of_mem_children hold)
      · exact hnew hb
  exact key _ ha b rfl hb

/-! ### Tables -/

theorem newToken (text : String) : Evolves ok doc (mid.newToken text).2 where
  start := h.start
  linked := h.linked.addToken rfl
  grammar := h.grammar
  root := h.root
  has n hn := has_newToken_of_has (h.has n hn) text
  kindOf := h.kindOf
  textOf l hl := (textOf_newToken_of_has (h.has _ hl) text).trans (h.textOf l hl)
  edges := h.edges

theorem newLiteral (text : String) : Evolves ok doc (mid.newLiteral text).2 := by
  rw [Document.newLiteral]
  split
  · exact h
  · exact h.newToken text

theorem graft (hf : fragment.Linked)
    (hok : ∀ p c, branch c ∈ fragment.children p →
      ok (fragment.kindOf p) (fragment.kindOf c)) :
    Evolves ok doc (mid.graft fragment).2 where
  start := h.start
  linked := linked_graft h.linked hf
  grammar := h.grammar
  root := h.root
  has n hn := has_graft_iff.2 (.inl (h.has n hn))
  kindOf b hb := (kindOf_graft_of_has (h.has _ hb) fragment).trans (h.kindOf b hb)
  textOf l hl := (textOf_graft_of_has (h.has _ hl) fragment).trans (h.textOf l hl)
  edges p c hc := by
    rcases mid.has_or_rehomeBranch p with hp | ⟨q, rfl⟩
    · rw [children_graft_of_has hp] at hc
      rw [kindOf_graft_of_has hp, kindOf_graft_of_has (h.linked.has_child hc)]
      exact h.edges p c hc
    · rw [children_graft_rehome] at hc
      obtain ⟨n, hn, he⟩ := mem_map.1 hc
      cases n with
      | leaf l => cases he
      | branch d =>
        cases he
        refine .inr ⟨fun hd => not_has_rehome mid d (h.has _ hd), ?_⟩
        rw [kindOf_graft_rehome, kindOf_graft_rehome]
        exact hok q d hn

/-! ### Children -/

theorem insertChild (hb : mid.Has (.branch b)) (hn : mid.Has node)
    (hfree : mid.parent node = none)
    (hc : ∀ c, node = .branch c →
      ¬ doc.Has node ∧ ok (mid.kindOf b) (mid.kindOf c) ∧ ¬ mid.Around c b) (i : Nat) :
    Evolves ok doc (mid.insertChild b i node) where
  start := h.start
  linked := h.linked.insertChild hb hn hfree fun c hc' => (hc c hc').2.2
  grammar := h.grammar
  root := h.root
  has n hn := has_insertChild.2 (h.has n hn)
  kindOf b hb := (kindOf_insertChild ..).trans (h.kindOf b hb)
  textOf l hl := (textOf_insertChild ..).trans (h.textOf l hl)
  edges p d hd := by
    have hkind : ∀ x, (mid.insertChild b i node).kindOf x = mid.kindOf x :=
      fun x => kindOf_insertChild ..
    have hchildren : (mid.insertChild b i node).children p = _ := children_insertChild hb i node p
    rw [hchildren] at hd
    rw [hkind, hkind]
    split at hd
    · next hp =>
      rw [mem_append, mem_cons] at hd
      rcases hd with hd | hd | hd
      · exact h.edges p d (hp ▸ mem_of_mem_take hd)
      · exact .inr ⟨hd ▸ (hc d hd.symm).1, hp ▸ (hc d hd.symm).2.1⟩
      · exact h.edges p d (hp ▸ mem_of_mem_drop hd)
    · exact h.edges p d hd

theorem insertLeaf {l : Leaf} (hb : mid.Has b)
    (hl : mid.Has l) (hfree : mid.parent l = none) (i : Nat) :
    Evolves ok doc (mid.insertChild b i l) :=
  h.insertChild hb hl hfree (fun c hc => by cases hc) i

theorem removeChild (b : Branch) (node : Node) : Evolves ok doc (mid.removeChild b node) where
  start := h.start
  linked := h.linked.removeChild b node
  grammar := h.grammar
  root := h.root
  has n hn := has_removeChild.2 (h.has n hn)
  kindOf b hb := (kindOf_removeChild ..).trans (h.kindOf b hb)
  textOf l hl := (textOf_removeChild ..).trans (h.textOf l hl)
  edges p c hc := by
    have hkind : ∀ x, (mid.removeChild b node).kindOf x = mid.kindOf x :=
      fun x => kindOf_removeChild ..
    have hchildren : (mid.removeChild b node).children p = _ := children_removeChild ..
    rw [hchildren] at hc
    rw [hkind, hkind]
    refine h.edges p c ?_
    split at hc
    · next hp => exact hp ▸ mem_of_mem_erase hc
    · exact hc

theorem clearChildren (b : Branch) : Evolves ok doc (mid.clearChildren b) where
  start := h.start
  linked := h.linked.clearChildren b
  grammar := h.grammar
  root := h.root
  has n hn := has_clearChildren.2 (h.has n hn)
  kindOf b hb := (kindOf_clearChildren ..).trans (h.kindOf b hb)
  textOf l hl := (textOf_clearChildren ..).trans (h.textOf l hl)
  edges p c hc := by
    have hkind : ∀ x, (mid.clearChildren b).kindOf x = mid.kindOf x :=
      fun x => kindOf_clearChildren ..
    have hchildren : (mid.clearChildren b).children p = _ := children_clearChildren ..
    rw [hchildren] at hc
    rw [hkind, hkind]
    refine h.edges p c ?_
    split at hc
    · cases hc
    · exact hc

theorem free (hc : doc.Has c) (hfree : doc.parent c = none) : mid.parent c = none := by
  cases hp : mid.parent c with
  | none => rfl
  | some p =>
    rcases h.edges p c (h.linked.up hp) with hold | ⟨hnew, -⟩
    · rw [h.start.down hold] at hfree
      cases hfree
    · exact absurd hc hnew

theorem insertChildren {nodes : List Node} (hlist : doc.Has list)
    (hhas : ∀ n ∈ nodes, mid.Has n) (hfree : ∀ n ∈ nodes, mid.parent n = none)
    (hnodup : nodes.Nodup) (hnew : ∀ c, branch c ∈ nodes →
      ¬ doc.Has (.branch c) ∧ ok (mid.kindOf list) (mid.kindOf c)) (i : Nat) :
    Evolves ok doc (mid.insertChildren list i nodes) := by
  induction nodes with
  | nil => exact h
  | cons n nodes ih =>
    obtain ⟨hn, hnodup⟩ := nodup_cons.1 hnodup
    obtain ⟨hhas', hhas⟩ := forall_mem_cons.1 hhas
    obtain ⟨hfree', hfree⟩ := forall_mem_cons.1 hfree
    have hev := ih hhas hfree hnodup fun c hc => hnew c (mem_cons_of_mem n hc)
    rw [insertChildren_cons]
    refine hev.insertChild (hev.has _ hlist) ((has_insertChildren i nodes).2 hhas')
      ((parent_insertChildren hhas hn).trans hfree') ?_ i
    rintro c rfl
    obtain ⟨hc, hok⟩ := hnew c mem_cons_self
    rw [kindOf_insertChildren, kindOf_insertChildren]
    exact ⟨hc, hok, hev.not_around hlist hc⟩

end

end Evolves

/-! ### Room -/

/-- A new delimiter with a space behind it in a tuple. -/
def separateSlot (doc : Document) (tuple : Branch) (delimiter : String) (position index : Nat) :
    Document :=
  let (separator, doc) := doc.newToken delimiter
  let (space, doc) := doc.newToken " "
  (doc.insertAt position [separator, space]).insertChild tuple index separator

theorem makeSlotRoom_cases (doc : Document) (tuple : Branch) (slot : Node) (delimiter : String) :
    let index := ((doc.children tuple).idxOf? slot).getD 0
    (∃ l i, doc.leftLeaf? slot = some l ∧ doc.position? l = some i ∧
      (doc.makeSlotRoom tuple slot delimiter).2 = doc.separateSlot tuple delimiter (i + 1) index) ∨
    (∃ r i, doc.rightLeaf? slot = some r ∧ doc.position? r = some i ∧
      (doc.makeSlotRoom tuple slot delimiter).2 = doc.separateSlot tuple delimiter i (index + 1)) ∨
    (doc.makeSlotRoom tuple slot delimiter).2 = doc := by
  intro index
  rw [makeSlotRoom]
  dsimp only
  split
  · next _ i hi =>
    obtain ⟨l, hl, hpos⟩ := bind_eq_some_iff.1 hi
    exact .inl ⟨l, i, (filter_eq_some_iff.1 hl).1, hpos, rfl⟩
  · next i _ hi =>
    obtain ⟨r, hr, hpos⟩ := bind_eq_some_iff.1 hi
    exact .inr (.inl ⟨r, i, (filter_eq_some_iff.1 hr).1, hpos, rfl⟩)
  · exact .inr (.inr rfl)

theorem evolves_separateSlot (h : doc.Linked) (hb : doc.Has b) (delimiter : String)
    (position index : Nat) : Evolves ok doc (doc.separateSlot b delimiter position index) := by
  refine ((((Evolves.refl h).newToken delimiter).newToken " ").insertAt position _).insertLeaf
    (has_newToken_of_has (has_newToken_of_has hb _) _)
    (has_newToken_of_has (has_newToken doc delimiter) " ") ?_ index
  exact (parent_newToken ..).trans ((parent_newToken ..).trans
    (parent_of_not_has (not_has_newToken doc delimiter)))

theorem rewired_separateSlot (hb : doc.Has b) (delimiter : String) (p i : Nat) :
    doc.Rewired (doc.separateSlot b delimiter p i).toForest b :=
  ((Rewired.refl doc.toForest b).addToken delimiter |>.addToken " ").insertChild
    (has_newToken_of_has (has_newToken_of_has hb _) _) (not_has_newToken doc delimiter)
    (has_newToken_of_has (has_newToken doc delimiter) " ") i

theorem children_separateSlot (hb : doc.Has b) (delimiter : String) (p i : Nat) :
    (doc.separateSlot b delimiter p i).children b =
      (doc.children b).take i ++ ([.leaf (doc.newToken delimiter).1] ++ (doc.children b).drop i) :=
  (children_insertChild (has_newToken_of_has (has_newToken_of_has hb _) _) ..).trans
    (if_pos rfl)

theorem evolves_makeRoom (h : doc.Linked) (b : Branch) : Evolves ok doc (doc.makeRoom b).2 := by
  have hrefl : Evolves ok doc doc := .refl h
  rw [makeRoom]
  split
  · exact hrefl
  · next p hp =>
    split
    · next delimiter _ =>
      have htuple := h.has_parent hp
      rcases makeSlotRoom_cases doc p b delimiter with
        ⟨_, _, -, -, he⟩ | ⟨_, _, -, -, he⟩ | he
      · exact he ▸ evolves_separateSlot h htuple ..
      · exact he ▸ evolves_separateSlot h htuple ..
      · exact he.symm ▸ hrefl
    · exact hrefl
    · split
      · exact hrefl
      · split
        · exact hrefl
        · dsimp only
          split
          · exact (hrefl.newToken " ").insertAt ..
          · exact (hrefl.newToken " ").insertAt ..

theorem makeRoom_cases (doc : Document) (b : Branch) :
    (∀ c, (doc.makeRoom b).2.children c = doc.children c) ∨
      ∃ tuple delimiter position index, doc.parent b = some tuple ∧
        (doc.makeRoom b).2 = doc.separateSlot tuple delimiter position index := by
  have hrefl : ∀ c, doc.children c = doc.children c := fun _ => rfl
  rw [makeRoom]
  split
  · exact .inl hrefl
  · next p hp =>
    split
    · next delimiter _ =>
      rcases makeSlotRoom_cases doc p b delimiter with
        ⟨q, i, -, -, he⟩ | ⟨q, i, -, -, he⟩ | he
      · exact .inr ⟨p, delimiter, _, _, hp, he⟩
      · exact .inr ⟨p, delimiter, _, _, hp, he⟩
      · exact .inl fun c => by rw [he]
    · exact .inl hrefl
    · split
      · exact .inl hrefl
      · split
        · exact .inl hrefl
        · dsimp only
          split <;> exact .inl hrefl

theorem children_makeRoom_subset (h : doc.Linked) (b c : Branch) :
    doc.children c ⊆ (doc.makeRoom b).2.children c := by
  rcases doc.makeRoom_cases b with he | ⟨tuple, delimiter, position, index, hp, he⟩
  · rw [he]
    exact List.Subset.refl _
  · intro n hn
    have htuple := h.has_parent hp
    rw [he]
    by_cases hc : c = tuple
    · subst hc
      rw [children_separateSlot htuple, singleton_append, mem_append, mem_cons,
        or_left_comm, ← mem_append, take_append_drop]
      exact .inr hn
    · exact ((rewired_separateSlot htuple ..).children c (has_of_mem_children hn) hc).symm ▸ hn

theorem children_makeRoom (h : doc.Linked) (b : Branch) :
    (doc.makeRoom b).2.children b = doc.children b := by
  rcases doc.makeRoom_cases b with he | ⟨tuple, delimiter, position, index, hp, he⟩
  · exact he b
  · have hne : b ≠ tuple := fun heq => h.not_around_of_child (h.up hp) (heq ▸ .self)
    rw [he]
    exact (rewired_separateSlot (h.has_parent hp) ..).children b (has_of_parent hp) hne

/-! ### Elements beside others -/

section

variable (doc : Document) (rule : ListRule) (list : Branch) (fragment : Document)

/-- A fragment behind an element, with a delimiter and a space between them. -/
def putAfter (previous : Branch) : Document :=
  let (graft, doc) := doc.graftVisible fragment
  let (delimiter, doc) := doc.newLiteral rule.delimiter
  let (space, doc) := doc.newToken " "
  let position := ((doc.range? previous).getD (doc.trivia previous)).stop
  let index := (((doc.children list).idxOf? (.branch previous)).map (· + 1)).getD 0
  ((doc.insertAt position (delimiter.toList ++ space :: graft.leaves)).insertChildren list index
    (delimiter.toList.map Node.leaf ++ [.branch graft.root])).updateComments

/-- A fragment before all elements, the first of which starts at a position. -/
def putFirst (position : Nat) : Document :=
  let (graft, doc) := doc.graftVisible fragment
  let (delimiter, doc) := doc.newLiteral rule.delimiter
  let (space, doc) := doc.newToken " "
  ((doc.insertAt position (graft.leaves ++ delimiter.toList ++ [space])).insertChildren list 0
    (.branch graft.root :: delimiter.toList.map Node.leaf)).updateComments

/-- A fragment in a list that shows nothing. -/
def putAlone : Document :=
  let (graft, doc) := doc.graftVisible fragment
  let (_, doc) := doc.newLiteral rule.delimiter
  let (position, doc) := doc.makeRoom list
  ((doc.insertAt position graft.leaves).insertChildren list 0 [.branch graft.root]).updateComments

def stock : Option Leaf × Document :=
  (doc.graftVisible fragment).2.newLiteral rule.delimiter

theorem insertBeside_eq (index : Nat) :
    (doc.insertBeside rule list index fragment).2 =
      match if index = 0 then none else (doc.listElements rule list)[index - 1]?,
        if (doc.listElements rule list).isEmpty then none
          else (doc.stock rule fragment).2.range? list with
      | some previous, _ => doc.putAfter rule list fragment previous
      | none, some range => doc.putFirst rule list fragment range.start
      | none, none => doc.putAlone rule list fragment := by
  rw [insertBeside]
  dsimp only [stock]
  generalize (if index = 0 then none else (doc.listElements rule list)[index - 1]?) = previous
  generalize (if (doc.listElements rule list).isEmpty = true then none
    else ((doc.graftVisible fragment).2.newLiteral rule.delimiter).2.range? list) = range
  cases previous with
  | some previous => rfl
  | none => cases range <;> rfl

end

/-! #### What is in stock -/

theorem newLiteral_cases (doc : Document) (text : String) :
    doc.newLiteral text = (none, doc) ∨
      doc.newLiteral text = (some (doc.newToken text).1, (doc.newToken text).2) := by
  rw [newLiteral]
  split
  · exact .inl rfl
  · exact .inr rfl

/-- The root of the fragment and the delimiter wait for their places. -/
structure Waiting (doc grown : Document) (fragment : Document) (delimiter : Option Leaf) : Prop where
  root_has : grown.Has (doc.rehomeBranch fragment.root)
  root_free : grown.parent (doc.rehomeBranch fragment.root) = none
  root_kind : grown.kindOf (doc.rehomeBranch fragment.root) = fragment.rootKind
  mark_has : ∀ l ∈ delimiter, grown.Has l
  mark_free : ∀ l ∈ delimiter, grown.parent l = none

theorem Waiting.newToken (h : Waiting doc mid fragment delimiter)
    (text : String) : Waiting doc (mid.newToken text).2 fragment delimiter where
  root_has := has_newToken_of_has h.root_has text
  root_free := (parent_newToken ..).trans h.root_free
  root_kind := h.root_kind
  mark_has l hl := has_newToken_of_has (h.mark_has l hl) text
  mark_free l hl := (parent_newToken ..).trans (h.mark_free l hl)

theorem Waiting.insertAt (h : Waiting doc mid fragment delimiter)
    (p : Nat) (leaves : List Leaf) : Waiting doc (mid.insertAt p leaves) fragment delimiter :=
  ⟨h.root_has, h.root_free, h.root_kind, h.mark_has, h.mark_free⟩

theorem Waiting.evolves (h : Waiting doc mid fragment delimiter)
    (he : Evolves ok mid after) : Waiting doc after fragment none where
  root_has := he.has _ h.root_has
  root_free := he.free h.root_has h.root_free
  root_kind := (he.kindOf _ h.root_has).trans h.root_kind
  mark_has l hl := by cases hl
  mark_free l hl := by cases hl

theorem waiting_graft (hf : fragment.IsTree) (doc : Document) :
    Waiting doc (doc.graft fragment).2 fragment none where
  root_has := has_graft_iff.2 (.inr ⟨_, hf.root_has, rfl⟩)
  root_free := by
    refine (parent_graft_rehome doc fragment fragment.root).trans ?_
    rw [hf.root_free]
    rfl
  root_kind := kindOf_graft_rehome ..
  mark_has l hl := by cases hl
  mark_free l hl := by cases hl

theorem waiting_stock (hf : fragment.IsTree) (doc : Document) (rule : ListRule) :
    Waiting doc (doc.stock rule fragment).2 fragment (doc.stock rule fragment).1 := by
  have hgraft := waiting_graft hf doc
  rw [stock]
  show Waiting doc ((doc.graft fragment).2.newLiteral rule.delimiter).2 fragment
    ((doc.graft fragment).2.newLiteral rule.delimiter).1
  rcases newLiteral_cases (doc.graft fragment).2 rule.delimiter with he | he
  · rw [he]
    exact hgraft
  · rw [he]
    have := hgraft.newToken rule.delimiter
    refine ⟨this.root_has, this.root_free, this.root_kind, ?_, ?_⟩
    · rintro _ ⟨⟩
      exact has_newToken ..
    · rintro _ ⟨⟩
      exact (parent_newToken ..).trans (parent_of_not_has (not_has_newToken _ _))

/-- The root comes in under a list, with the delimiter on one side or without it. -/
theorem Evolves.insertStock (h : Evolves ok doc mid)
    (hw : Waiting doc mid fragment delimiter) (hlist : doc.Has list)
    (hok : ok (doc.kindOf list) fragment.rootKind) (nodes : List Node) (hnodup : nodes.Nodup)
    (hnodes : ∀ n ∈ nodes, n ∈ delimiter.toList.map leaf ∨
      n = .branch (doc.rehomeBranch fragment.root)) (i : Nat) :
    Evolves ok doc (mid.insertChildren list i nodes) := by
  have hmark : ∀ n ∈ delimiter.toList.map leaf, ∃ l ∈ delimiter, n = .leaf l := by
    intro n hn
    obtain ⟨l, hl, rfl⟩ := mem_map.1 hn
    exact ⟨l, mem_toList.1 hl, rfl⟩
  refine h.insertChildren hlist ?_ ?_ hnodup ?_ i
  · intro n hn
    rcases hnodes n hn with hn | rfl
    · obtain ⟨l, hl, rfl⟩ := hmark n hn
      exact hw.mark_has l hl
    · exact hw.root_has
  · intro n hn
    rcases hnodes n hn with hn | rfl
    · obtain ⟨l, hl, rfl⟩ := hmark n hn
      exact hw.mark_free l hl
    · exact hw.root_free
  · intro c hc
    rcases hnodes _ hc with hn | he
    · obtain ⟨l, -, he⟩ := hmark _ hn
      cases he
    · cases he
      rw [h.kindOf list hlist, hw.root_kind]
      exact ⟨not_has_rehome doc (.branch fragment.root), hok⟩

section

variable (h : doc.Linked) (hlist : doc.Has list) (hf : fragment.IsTree)
  (hedges : ∀ p c, branch c ∈ fragment.children p → ok (fragment.kindOf p) (fragment.kindOf c))
include h hf hedges

theorem evolves_stock (rule : ListRule) : Evolves ok doc (doc.stock rule fragment).2 :=
  ((Evolves.refl h).graft hf.linked hedges).newLiteral rule.delimiter

variable (hok : ok (doc.kindOf list) fragment.rootKind)
include hlist hok

theorem evolves_insertBeside (rule : ListRule) (index : Nat) :
    Evolves ok doc (doc.insertBeside rule list index fragment).2 := by
  have hstock := evolves_stock h hf hedges rule
  have hw := waiting_stock hf doc rule
  let marks := (doc.stock rule fragment).1.toList.map leaf
  let root := branch (doc.rehomeBranch fragment.root)
  rw [insertBeside_eq]
  split
  · refine (((hstock.newToken " ").insertAt _ _).insertStock ((hw.newToken " ").insertAt _ _) hlist
      hok (marks ++ [root]) ?_ ?_ _).updateComments
    · simp only [marks, root]
      cases (doc.stock rule fragment).1 <;> simp
    · intro n hn
      exact (mem_append.1 hn).imp_right mem_singleton.1
  · refine (((hstock.newToken " ").insertAt _ _).insertStock ((hw.newToken " ").insertAt _ _) hlist
      hok (root :: marks) ?_ ?_ 0).updateComments
    · simp only [marks, root]
      cases (doc.stock rule fragment).1 <;> simp
    · intro n hn
      exact (mem_cons.1 hn).symm
  · have hroom : Evolves ok _ ((doc.stock rule fragment).2.makeRoom list).2 :=
      evolves_makeRoom hstock.linked list
    refine (((hstock.trans hroom).insertAt _ _).insertStock ((hw.evolves hroom).insertAt _ _) hlist
      hok [root] (nodup_singleton _) ?_ 0).updateComments
    intro n hn
    exact .inr (mem_singleton.1 hn)

end

/-! ### Elements that go -/

def dropMark (doc : Document) (list : Branch) : Option Leaf → Document
  | none => doc
  | some mark => (doc.discard [mark]).removeChild list mark

theorem detachElement_eq (doc : Document) (rule : ListRule) (list element : Branch) :
    doc.detachElement rule list element =
      let dropped := doc.dropMark list (doc.delimiterOf? rule list element)
      ((dropped.range? element).elim dropped fun range =>
        dropped.cut (dropped.layout.widenOneSide range)).updateComments.removeChild list
          element := by
  rw [detachElement]
  cases doc.delimiterOf? rule list element with
  | none =>
    simp only [dropMark]
    cases doc.range? element <;> rfl
  | some mark =>
    simp only [dropMark]
    cases ((doc.discard [mark]).removeChild list mark).range? element <;> rfl

theorem detachElement_cases (doc : Document) (rule : ListRule) (list element : Branch) :
    ∃ mark mid, doc.detachElement rule list element =
        mid.updateComments.removeChild list element ∧
      (mid = doc.dropMark list mark ∨ ∃ span, mid = (doc.dropMark list mark).cut span) := by
  refine ⟨doc.delimiterOf? rule list element, _, detachElement_eq .., ?_⟩
  cases (doc.dropMark list (doc.delimiterOf? rule list element)).range? element with
  | none => exact .inl rfl
  | some range => exact .inr ⟨_, rfl⟩

theorem evolves_detachElement (h : doc.Linked) (rule : ListRule) (list element : Branch) :
    Evolves ok doc (doc.detachElement rule list element) := by
  obtain ⟨mark, mid, heq, hmid⟩ := doc.detachElement_cases rule list element
  have hmark : Evolves ok doc (doc.dropMark list mark) := by
    cases mark with
    | none => exact .refl h
    | some mark => exact ((Evolves.refl h).discard _).removeChild ..
  rw [heq]
  refine Evolves.removeChild (Evolves.updateComments ?_) _ _
  rcases hmid with rfl | ⟨span, rfl⟩
  · exact hmark
  · exact hmark.cut span

theorem Evolves.newIndentedBreak (h : Evolves ok doc mid) (indent : String) :
    Evolves ok doc (mid.newIndentedBreak indent).2 :=
  (h.newToken Layout.lineBreak).newLiteral indent

theorem evolves_emptyList (h : doc.Linked) (rule : ListRule) (list : Branch) :
    Evolves ok doc (doc.emptyList rule list) := by
  rw [emptyList]
  refine Evolves.updateComments ?_
  dsimp only
  split
  · exact ((((Evolves.refl h).clearChildren list).cut _).newIndentedBreak _).insertAt ..
  · exact ((Evolves.refl h).clearChildren list).cut _

end Lossless.Document
