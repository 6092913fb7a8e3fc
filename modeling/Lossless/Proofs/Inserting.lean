import Lossless.Proofs.Evolving
import Lossless.Proofs.Grafting
import Lossless.Proofs.Joined

/-! Elements put into a list between brackets: after an element, before the first one, and into an
empty list. -/

namespace Lossless

open List Layout Entry Node

namespace Document

variable {doc grown fragment after : Document} {rule : ListRule} {list root previous : Branch}
  {s : Brackets} {entries : List Entry} {new : List Leaf} {texts : Layout} {index : Nat}

/-- A document that has taken in an element. Its tokens `new` spell the given texts and are not in
the text yet. -/
structure Stocked (doc grown : Document) (rule : ListRule) (list root : Branch)
    (new : List Leaf) (texts : Layout) : Prop where
  rewired : doc.Rewired grown.toForest list
  tree : grown.IsTree
  grammar_eq : grown.grammar = doc.grammar
  root_eq : grown.root = doc.root
  order_eq : grown.order = doc.order
  children_eq : grown.children list = doc.children list
  element_has : grown.Has root
  element_new : ¬ doc.Has root
  element_free : grown.parent root = none
  accepted : rule.accepts (grown.kindOf root) = true
  leaves_new : ∀ l ∈ grown.leaves root, ¬ doc.Has l
  new_new : ∀ l ∈ new, ¬ doc.Has l
  new_has : ∀ l ∈ new, grown.Has l
  nodup : new.Nodup
  first : ((grown.leaves root).filter new.contains).head? = new.head?
  last : ((grown.leaves root).filter new.contains).getLast? = new.getLast?
  texts_eq : new.map grown.textOf = texts
  inked : texts.InkedEnds

theorem Stocked.newToken (h : Stocked doc grown rule list root new texts) (text : String) :
    Stocked doc (grown.newToken text).2 rule list root new texts where
  rewired := h.rewired.addToken text
  tree := h.tree.newToken text
  grammar_eq := h.grammar_eq
  root_eq := h.root_eq
  order_eq := h.order_eq
  children_eq := h.children_eq
  element_has := has_newToken_of_has h.element_has text
  element_new := h.element_new
  element_free := by rw [parent_newToken, h.element_free]
  accepted := h.accepted
  leaves_new := by rw [leaves_newToken h.tree.linked]; exact h.leaves_new
  new_new := h.new_new
  new_has l hl := has_newToken_of_has (h.new_has l hl) text
  nodup := h.nodup
  first := by rw [leaves_newToken h.tree.linked]; exact h.first
  last := by rw [leaves_newToken h.tree.linked]; exact h.last
  texts_eq := by
    rw [← h.texts_eq]
    exact map_congr_left fun l hl => textOf_newToken_of_has (h.new_has l hl) text
  inked := h.inked

theorem Stocked.graft (hd : doc.IsTree) (hlist : doc.Has list) (hf : fragment.IsTree)
    (hkind : rule.accepts fragment.rootKind)
    (hink : InkedEnds
      ((fragment.coveredLeaves fragment.root).map fragment.textOf)) :
    Stocked doc (doc.graftVisible fragment).2 rule list (doc.graftVisible fragment).1.root
      (doc.graftVisible fragment).1.leaves
      ((fragment.coveredLeaves fragment.root).map fragment.textOf) := by
  let covered := fragment.coveredLeaves fragment.root
  have hleaves : (doc.graft fragment).2.leaves (doc.rehomeBranch fragment.root) =
      (fragment.leaves fragment.root).map doc.rehomeLeaf :=
    leaves_graft_rehome hd.linked hf.linked fragment.root
  have hnew : ∀ l, ¬ doc.Has (doc.rehomeLeaf l) := fun l => not_has_rehome doc l
  have hcov : covered ≠ [] := by
    intro he
    obtain ⟨⟨t, ht, -⟩, -⟩ := hink
    rw [show fragment.coveredLeaves fragment.root = [] from he] at ht
    cases ht
  obtain ⟨hfirst, hlast⟩ := ends_graft_covered hd.linked hf.linked hcov
  refine
    { rewired := Forest.Rewired.graft hlist
      tree := hd.graft hf.linked
      grammar_eq := rfl
      root_eq := rfl
      order_eq := rfl
      children_eq := children_graft_of_has hlist fragment
      element_has := has_graft_iff.2 (.inr ⟨.branch fragment.root, hf.root_has, rfl⟩)
      element_new := not_has_rehome doc fragment.root
      element_free := ?_
      accepted := ?_
      leaves_new := ?_
      new_new := ?_
      new_has := ?_
      nodup := (coveredLeaves_nodup hf.order_nodup _).map doc.rehomeLeaf_injective
      first := hfirst
      last := hlast
      texts_eq := ?_
      inked := hink }
  · have := parent_graft_rehome doc fragment fragment.root
    rw [hf.root_free] at this
    exact this
  · refine (congrArg (rule.accepts ·) ?_).trans hkind
    exact kindOf_graft_rehome doc fragment fragment.root
  · intro l hl
    obtain ⟨m, -, rfl⟩ := mem_map.1 (hleaves ▸ hl)
    exact hnew m
  · intro l hl
    obtain ⟨m, -, rfl⟩ := mem_map.1 hl
    exact hnew m
  · intro l hl
    obtain ⟨m, hm, rfl⟩ := mem_map.1 hl
    exact has_graft_iff.2
      (.inr ⟨.leaf m, hf.order_has m (coveredLeaves_subset _ _ hm), rfl⟩)
  · show (covered.map doc.rehomeLeaf).map (doc.graft fragment).2.textOf = covered.map fragment.textOf
    rw [map_map]
    exact map_congr_left fun l _ => textOf_graft_rehome doc fragment l

theorem Stocked.fills (h : Stocked doc grown rule list root new texts)
    (helement : e.element = root) (hnew : e.leaves = new)
    (hkind : after.kindOf root = grown.kindOf root)
    (hleaves : after.leaves root = grown.leaves root)
    (htext : ∀ l, after.textOf l = grown.textOf l)
    (horder : ∀ l ∈ grown.leaves root, l ∈ after.order ↔ l ∈ new) :
    after.Fills rule e := by
  have hvisible : after.visibleLeaves root =
      (grown.leaves root).filter new.contains := by
    rw [visibleLeaves, hleaves]
    refine filter_congr fun l hl => ?_
    simp only [contains_eq_mem, horder l hl]
  refine ⟨?_, ?_, ?_, ?_, ?_⟩
  · rw [helement, hkind]
    exact h.accepted
  · rw [helement, hvisible, hnew]
    intro l hl
    exact contains_iff_mem.1 (mem_filter.1 hl).2
  · rw [helement, firstLeaf?, hvisible, hnew, h.first]
  · rw [helement, lastLeaf?, hvisible, hnew, h.last]
  · rw [hnew, map_congr_left fun l _ => htext l, h.texts_eq]
    exact h.inked

/-- Tokens that go into the text with the element, some of them as nodes beside it. -/
structure Spare (doc grown : Document) (root : Branch) (new spare joints : List Leaf) : Prop where
  nodup : spare.Nodup
  new_new : ∀ l ∈ spare, ¬ doc.Has l
  has : ∀ l ∈ spare, grown.Has l
  apart : ∀ l ∈ spare, l ∉ new
  hidden : ∀ l ∈ spare, l ∉ grown.leaves root
  joints_sub : joints <+ spare
  free : ∀ l ∈ joints, grown.parent l = none

theorem Spare.none (doc grown : Document) (root : Branch) (new : List Leaf) :
    Spare doc grown root new [] [] := by
  refine ⟨nodup_nil, ?_, ?_, ?_, ?_, Sublist.refl _, ?_⟩ <;> intro l hl <;> cases hl

structure Housed (doc grown after : Document) (list root : Branch) (new tokens : List Leaf) :
    Prop where
  tree : after.IsTree
  rewired : doc.Rewired after.toForest list
  tokens_new : ∀ l ∈ tokens, ¬ doc.Has l
  mem_order : ∀ l, l ∈ after.order ↔ l ∈ tokens ∨ l ∈ doc.order
  leaves_eq : after.leaves root = grown.leaves root
  shown : ∀ l ∈ grown.leaves root, l ∈ after.order ↔ l ∈ new

section

variable {p i : Nat} {spare joints tokens : List Leaf} {nodes : List Node}

theorem Stocked.children_insert (hst : Stocked doc grown rule list root new texts)
    (hlist : doc.Has list) (hi : i ≤ (doc.children list).length) (b : Branch) :
    ((grown.insertAt p tokens).insertChildren list i nodes).children b =
      if b = list then (doc.children list).take i ++ (nodes ++ (doc.children list).drop i)
      else grown.children b := by
  have hlist' : (grown.insertAt p tokens).Has list := hst.rewired.has _ hlist
  have hchild : (grown.insertAt p tokens).children list = doc.children list := hst.children_eq
  rw [children_insertChildren hlist' (hchild ▸ hi), hchild]
  rfl

/-- The element goes into the text and under the list, with the tokens that separate it. -/
theorem Stocked.house (hd : doc.IsTree) (hlist : doc.Has list)
    (hst : Stocked doc grown rule list root new texts)
    (hspare : Spare doc grown root new spare joints) (htokens : tokens ~ spare ++ new)
    (hnodes : nodes ~ joints.map leaf ++ [.branch root])
    (hi : i ≤ (doc.children list).length) :
    Housed doc grown ((grown.insertAt p tokens).insertChildren list i nodes) list root new
      tokens := by
  have htoken : ∀ l, l ∈ tokens ↔ l ∈ spare ∨ l ∈ new := fun l => by
    rw [htokens.mem_iff, mem_append]
  have hnode : ∀ n ∈ nodes, (∃ l ∈ joints, n = .leaf l) ∨ n = .branch root := by
    intro n hn
    rw [hnodes.mem_iff, mem_append, mem_map, mem_singleton] at hn
    rcases hn with ⟨l, hl, he⟩ | he
    · exact .inl ⟨l, hl, he.symm⟩
    · exact .inr he
  have htokens_nodup : tokens.Nodup := by
    rw [htokens.nodup_iff, nodup_append]
    exact ⟨hspare.nodup, hst.nodup, fun a ha b hb he => hspare.apart a ha (he ▸ hb)⟩
  have htokens_new : ∀ l ∈ tokens, ¬ doc.Has l := fun l hl =>
    ((htoken l).1 hl).elim (hspare.new_new l) (hst.new_new l)
  have htokens_has : ∀ l ∈ tokens, grown.Has l := fun l hl =>
    ((htoken l).1 hl).elim (hspare.has l) (hst.new_has l)
  have hnodes_nodup : nodes.Nodup := by
    rw [hnodes.nodup_iff, nodup_append]
    refine ⟨(hspare.nodup.sublist hspare.joints_sub).map fun l m h => leaf.inj h,
      nodup_singleton _, ?_⟩
    rintro a ha b hb rfl
    obtain ⟨l, -, rfl⟩ := mem_map.1 ha
    cases mem_singleton.1 hb
  have hnodes_new : ∀ n ∈ nodes, ¬ doc.Has n := by
    intro n hn
    rcases hnode n hn with ⟨l, hl, rfl⟩ | rfl
    · exact hspare.new_new l (hspare.joints_sub.subset hl)
    · exact hst.element_new
  have hnodes_has : ∀ n ∈ nodes, grown.Has n := by
    intro n hn
    rcases hnode n hn with ⟨l, hl, rfl⟩ | rfl
    · exact hspare.has l (hspare.joints_sub.subset hl)
    · exact hst.element_has
  have hnodes_free : ∀ n ∈ nodes, grown.parent n = none := by
    intro n hn
    rcases hnode n hn with ⟨l, hl, rfl⟩ | rfl
    · exact hspare.free l hl
    · exact hst.element_free
  have hat : (grown.insertAt p tokens).IsTree := by
    refine hst.tree.insertAt htokens_nodup htokens_has (fun l hl ho => ?_) p
    rw [hst.order_eq] at ho
    exact htokens_new l hl (hd.order_has l ho)
  have hroot : doc.Has (.branch (grown.insertAt p tokens).root) := by
    show doc.Has grown.root
    rw [hst.root_eq]
    exact hd.root_has
  obtain ⟨htree, hrew⟩ := IsTree.insertChildren (i := i) hd.linked hlist hroot hat hst.rewired
    hnodes_new hnodes_has hnodes_free hnodes_nodup
  have hmem : ∀ l, l ∈ ((grown.insertAt p tokens).insertChildren list i nodes).order ↔
      l ∈ tokens ∨ l ∈ doc.order := by
    intro l
    rw [order_insertChildren, mem_insertAt, hst.order_eq]
  refine ⟨htree, hrew, htokens_new, hmem, ?_, ?_⟩
  · refine hst.tree.linked.leaves_congr htree.linked root fun c hc => ?_
    rw [hst.children_insert hlist hi, if_neg]
    rintro rfl
    exact hst.rewired.not_around hd.linked hlist hst.element_new hc
  · intro l hl
    rw [hmem]
    refine ⟨fun ho => ?_, fun hn => .inl ((htoken l).2 (.inr hn))⟩
    refine ho.elim (fun ht => ?_) fun ho => ?_
    · exact ((htoken l).1 ht).resolve_left fun hs => hspare.hidden l hs hl
    · exact absurd (hd.order_has l ho) (hst.leaves_new l hl)

theorem Joined.insert {entries' : List Entry} (h : doc.Joined rule list s entries)
    (hst : Stocked doc grown rule list root new texts)
    (hspare : Spare doc grown root new spare joints) (htokens : tokens ~ spare ++ new)
    (hnodes : nodes ~ joints.map leaf ++ [.branch root])
    (hi : i ≤ (doc.children list).length)
    (horder : doc.order.take p ++ (tokens ++ doc.order.drop p) = s.around (body entries'))
    (hchildren : (doc.children list).take i ++ (nodes ++ (doc.children list).drop i) =
      children entries')
    (halternate : Alternate entries')
    (hentries : ∀ e ∈ entries', (∃ e₀ ∈ entries, e₀.element = e.element ∧ e₀.leaves = e.leaves) ∨
      e.element = root ∧ e.leaves = new)
    (hjoint : ∀ e ∈ entries', ∀ j, e.joint = some j → (∃ e₀ ∈ entries, e₀.joint = some j) ∨
      grown.textOf j.1 = rule.delimiter ∧ grown.textOf j.2 = " ") :
    ((grown.insertAt p tokens).insertChildren list i nodes).Joined rule list s entries' := by
  have hs := hst.house (p := p) h.tree h.has_list hspare htokens hnodes hi
  refine h.step hs.rewired ?_ hs.tree ?_ ?_ halternate ?_ ?_ ?_
  · rw [grammar_insertChildren]
    exact hst.grammar_eq
  · rw [order_insertChildren, insertAt, hst.order_eq, append_assoc]
    exact horder
  · rw [hst.children_insert h.has_list hi, if_pos rfl]
    exact hchildren
  · intro l hl hhas
    exact ((hs.mem_order l).1 hl).resolve_left fun ht => hs.tokens_new l ht hhas
  · intro e he
    refine (hentries e he).imp_right ?_
    rintro ⟨helement, hleaves⟩
    exact hst.fills helement hleaves (kindOf_insertChildren ..) hs.leaves_eq
      (textOf_insertChildren i nodes _) hs.shown
  · intro e he j hj
    refine (hjoint e he j hj).imp_right ?_
    rintro ⟨h₁, h₂⟩
    rw [textOf_insertChildren, textOf_insertChildren]
    exact ⟨h₁, h₂⟩

end

/-! ### The three places -/

theorem newLiteral_of_nonempty {text : String} (h : text.isEmpty = false) (doc : Document) :
    doc.newLiteral text = (some (doc.newToken text).1, (doc.newToken text).2) := by
  simp [newLiteral, h]

section

variable (hdelimiter : rule.delimiter.isEmpty = false)
include hdelimiter

theorem insertBeside_after (hindex : index ≠ 0)
    (hprevious : (doc.listElements rule list)[index - 1]? = some previous) :
    (doc.insertBeside rule list index fragment).2 =
      let graft := doc.graftVisible fragment
      let delimiter := graft.2.newToken rule.delimiter
      let space := delimiter.2.newToken " "
      ((space.2.insertAt ((space.2.range? previous).getD
          (space.2.trivia previous)).stop
          (delimiter.1 :: space.1 :: graft.1.leaves)).insertChildren list
        ((((space.2.children list).idxOf? (.branch previous)).map (· + 1)).getD 0)
        [.leaf delimiter.1, .branch graft.1.root]).updateComments := by
  rw [insertBeside_eq, if_neg hindex, hprevious]
  simp only [putAfter, newLiteral_of_nonempty hdelimiter]
  rfl

theorem insertBeside_before {range : Span} (helements : (doc.listElements rule list).isEmpty = false)
    (hrange : ((doc.graftVisible fragment).2.newToken rule.delimiter).2.range? list =
      some range) :
    (doc.insertBeside rule list 0 fragment).2 =
      let graft := doc.graftVisible fragment
      let delimiter := graft.2.newToken rule.delimiter
      let space := delimiter.2.newToken " "
      ((space.2.insertAt range.start (graft.1.leaves ++ [delimiter.1, space.1])).insertChildren list
        0 [.branch graft.1.root, .leaf delimiter.1]).updateComments := by
  rw [insertBeside_eq, if_pos rfl, helements, stock, newLiteral_of_nonempty hdelimiter, hrange]
  simp only [Bool.false_eq_true, if_false, putFirst, newLiteral_of_nonempty hdelimiter,
    Option.toList_some, append_assoc]
  rfl

theorem insertBeside_empty (helements : doc.listElements rule list = []) :
    (doc.insertBeside rule list index fragment).2 =
      let graft := doc.graftVisible fragment
      let delimiter := graft.2.newToken rule.delimiter
      let room := delimiter.2.makeRoom list
      ((room.2.insertAt room.1 graft.1.leaves).insertChildren list 0
        [.branch graft.1.root]).updateComments := by
  rw [insertBeside_eq, helements]
  simp only [getElem?_nil, ite_self, isEmpty_nil, if_true, putAlone,
    newLiteral_of_nonempty hdelimiter]

end

theorem Stocked.separators (h : Stocked doc grown rule list root new texts) :
    let delimiter := grown.newToken rule.delimiter
    let space := delimiter.2.newToken " "
    Stocked doc space.2 rule list root new texts ∧
      Spare doc space.2 root new [delimiter.1, space.1] [delimiter.1] ∧
      space.2.textOf delimiter.1 = rule.delimiter ∧ space.2.textOf space.1 = " " := by
  intro delimiter space
  have hδ : ¬ grown.Has delimiter.1 := not_has_newToken grown _
  have hδ' : delimiter.2.Has delimiter.1 := has_newToken grown _
  have hσ : ¬ delimiter.2.Has space.1 := not_has_newToken delimiter.2 " "
  have hne : delimiter.1 ≠ space.1 := fun he => hσ (he ▸ hδ')
  have hleaves : space.2.leaves root = grown.leaves root :=
    (leaves_newToken (h.tree.newToken _).linked " " root).trans
      (leaves_newToken h.tree.linked _ root)
  have hspare : ∀ l ∈ [delimiter.1, space.1], ¬ grown.Has l ∧ space.2.Has l := by
    simp only [mem_cons, not_mem_nil, or_false]
    rintro l (rfl | rfl)
    · exact ⟨hδ, has_newToken_of_has hδ' " "⟩
    · exact ⟨fun hh => hσ (has_newToken_of_has hh _), has_newToken delimiter.2 " "⟩
  refine ⟨(h.newToken _).newToken " ", ⟨?_, ?_, ?_, ?_, ?_, ?_, ?_⟩, ?_, textOf_newToken ..⟩
  · simpa using hne
  · exact fun l hl hd => (hspare l hl).1 (h.rewired.has _ hd)
  · exact fun l hl => (hspare l hl).2
  · exact fun l hl hn => (hspare l hl).1 (h.new_has l hn)
  · intro l hl hm
    rw [hleaves] at hm
    exact (hspare l hl).1 (h.tree.linked.has_of_mem_leaves hm)
  · simp
  · intro l hl
    rw [mem_singleton.1 hl]
    exact (parent_newToken ..).trans ((parent_newToken ..).trans (Forest.parent_of_not_has hδ))
  · exact (textOf_newToken_of_has hδ' " ").trans (textOf_newToken grown _)

theorem Joined.stocked (h : doc.Joined rule list s entries)
    (hst : Stocked doc grown rule list root new texts) : grown.Joined rule list s entries :=
  h.step hst.rewired hst.grammar_eq hst.tree (hst.order_eq.trans h.order_eq)
    (hst.children_eq.trans h.children_eq) h.alternate (fun _ hl _ => hst.order_eq ▸ hl)
    (fun e he => .inl ⟨e, he, rfl, rfl⟩) fun e he _ hj => .inl ⟨e, he, hj⟩

variable {pre post : List Entry} {e : Entry} {delimiter space : Leaf}

theorem Joined.insertAfter (h : doc.Joined rule list s (pre ++ e :: post))
    (hst : Stocked doc grown rule list root new texts)
    (hspare : Spare doc grown root new [delimiter, space] [delimiter])
    (hdelimiter : grown.textOf delimiter = rule.delimiter) (hspace : grown.textOf space = " ") :
    ((grown.insertAt ((grown.range? e.element).getD
          (grown.trivia e.element)).stop (delimiter :: space :: new)).insertChildren list
        ((((grown.children list).idxOf? (.branch e.element)).map (· + 1)).getD 0)
        [.leaf delimiter, .branch root]).Joined rule list s
      (pre ++ e :: ⟨some (delimiter, space), root, new⟩ :: post) := by
  have hgrown := h.stocked hst
  have horder : doc.order = (s.before ++ s.opening :: (body pre ++ e.jointLeaves) ++ e.leaves) ++
      (body post ++ s.closing :: s.after) := by
    rw [h.order_eq, around_body, append_assoc _ e.leaves]
  have hkids : doc.children list =
      (children pre ++ (e.joint.toList.map fun j => leaf j.1) ++ [.branch e.element]) ++
        children post := by
    rw [h.children_eq, children_append, children_cons, nodes]
    simp only [append_assoc]
  rw [hgrown.range?_entry, hgrown.row.idxOf?_entry]
  simp only [Option.getD_some, Option.map_some]
  refine h.insert hst hspare (Perm.refl _) (Perm.refl _) ?_ ?_ ?_
    (h.alternate.insertAfter rfl) ?_ ?_
  · simp only [hkids, length_append, length_singleton]
    omega
  · rw [horder, splice_append (length_append ..).symm]
    simp [Brackets.around, jointLeaves]
  · rw [hkids, splice_append (by simp only [length_append, length_singleton])]
    simp [nodes]
  · intro f hf
    simp only [mem_append, mem_cons] at hf
    rcases hf with hf | rfl | rfl | hf
    · exact .inl ⟨f, by simp [hf], rfl, rfl⟩
    · exact .inl ⟨f, by simp, rfl, rfl⟩
    · exact .inr ⟨rfl, rfl⟩
    · exact .inl ⟨f, by simp [hf], rfl, rfl⟩
  · intro f hf j hj
    simp only [mem_append, mem_cons] at hf
    rcases hf with hf | rfl | rfl | hf
    · exact .inl ⟨f, by simp [hf], hj⟩
    · exact .inl ⟨f, by simp, hj⟩
    · cases hj
      exact .inr ⟨hdelimiter, hspace⟩
    · exact .inl ⟨f, by simp [hf], hj⟩

theorem Joined.insertFirst (h : doc.Joined rule list s (e :: post))
    (hst : Stocked doc grown rule list root new texts)
    (hspare : Spare doc grown root new [delimiter, space] [delimiter])
    (hdelimiter : grown.textOf delimiter = rule.delimiter) (hspace : grown.textOf space = " ") :
    ((grown.insertAt (s.before.length + 1) (new ++ [delimiter, space])).insertChildren list 0
        [.branch root, .leaf delimiter]).Joined rule list s
      (⟨none, root, new⟩ :: { e with joint := some (delimiter, space) } :: post) := by
  have hnone : e.joint = none := h.alternate.first e (by simp)
  have horder : doc.order = (s.before ++ [s.opening]) ++
      (e.leaves ++ (body post ++ s.closing :: s.after)) := by
    rw [h.order_eq]
    simp [Brackets.around, jointLeaves, hnone]
  refine h.insert hst hspare perm_append_comm (Perm.swap ..) (Nat.zero_le _) ?_ ?_
    (h.alternate.insertFirst rfl _) ?_ ?_
  · rw [horder, splice_append (by simp only [length_append, length_singleton])]
    simp [Brackets.around, jointLeaves]
  · rw [h.children_eq]
    simp [nodes, hnone]
  · intro f hf
    simp only [mem_cons] at hf
    rcases hf with rfl | rfl | hf
    · exact .inr ⟨rfl, rfl⟩
    · exact .inl ⟨e, by simp, rfl, rfl⟩
    · exact .inl ⟨f, by simp [hf], rfl, rfl⟩
  · intro f hf j hj
    simp only [mem_cons] at hf
    rcases hf with rfl | rfl | hf
    · cases hj
    · cases hj
      exact .inr ⟨hdelimiter, hspace⟩
    · exact .inl ⟨f, by simp [hf], hj⟩

theorem Joined.insertOnly (h : doc.Joined rule list s [])
    (hst : Stocked doc grown rule list root new texts) :
    ((grown.insertAt (s.before.length + 1) new).insertChildren list 0
        [.branch root]).Joined rule list s [⟨none, root, new⟩] := by
  have horder : doc.order = (s.before ++ [s.opening]) ++ s.closing :: s.after := by
    rw [h.order_eq]
    simp [Brackets.around]
  refine h.insert hst (Spare.none ..) (Perm.refl _) (Perm.refl _) (Nat.zero_le _) ?_ ?_
    ⟨fun f hf => by cases hf; rfl, fun f hf => by cases hf⟩ ?_ ?_
  · rw [horder, splice_append (by simp only [length_append, length_singleton])]
    simp [Brackets.around, jointLeaves]
  · rw [h.children_eq]
    simp [nodes]
  · intro f hf
    rw [mem_singleton.1 hf]
    exact .inr ⟨rfl, rfl⟩
  · intro f hf j hj
    rw [mem_singleton.1 hf] at hj
    cases hj

theorem insertIdx_append {α : Type} (xs ys : List α) (a : α) :
    (xs ++ ys).insertIdx xs.length a = xs ++ a :: ys := by
  induction xs with
  | nil => rfl
  | cons x xs ih => rw [cons_append, length_cons, insertIdx_succ_cons, ih]; rfl

theorem Joined.entryTexts_stocked (h : doc.Joined rule list s entries)
    (hst : Stocked doc grown rule list root new texts) :
    grown.entryTexts entries = doc.entryTexts entries := by
  refine map_congr_left fun e he => congrArg join (map_congr_left fun l hl => ?_)
  refine hst.rewired.textOf l (h.tree.order_has l ?_)
  rw [h.order_eq]
  exact mem_around.2 (.inl (leaves_subset_body he hl))

theorem entryTexts_insert (doc : Document) (list : Branch) (p i : Nat) (tokens : List Leaf)
    (nodes : List Node) (es : List Entry) :
    (((doc.insertAt p tokens).insertChildren list i nodes).updateComments).entryTexts es =
      doc.entryTexts es := by
  refine map_congr_left fun e _ => congrArg join (map_congr_left fun l _ => ?_)
  exact textOf_insertChildren i nodes (doc.insertAt p tokens) l

/-- A fragment with ink at both ends becomes the entry at an index. -/
theorem Joined.insertBeside (h : doc.Joined rule list s entries)
    (hindex : index ≤ entries.length) (hdelimiter : rule.delimiter.isEmpty = false)
    (hf : fragment.IsTree) (hkind : rule.accepts fragment.rootKind)
    (hink : InkedEnds
      ((fragment.coveredLeaves fragment.root).map fragment.textOf)) :
    ∃ entries', (doc.insertBeside rule list index fragment).2.Joined rule list s entries' ∧
      (doc.insertBeside rule list index fragment).2.entryTexts entries' =
        (doc.entryTexts entries).insertIdx index fragment.code := by
  have hst := Stocked.graft h.tree h.has_list hf hkind hink
  obtain ⟨hst₂, hspare, hδ, hσ⟩ := hst.separators
  have hcode : fragment.code = join
      ((fragment.coveredLeaves fragment.root).map fragment.textOf) := visibleText_eq ..
  cases index with
  | succ k =>
    obtain ⟨pre, e, post, rfl, rfl⟩ : ∃ pre e post, entries = pre ++ e :: post ∧ pre.length = k := by
      refine ⟨entries.take k, entries[k], entries.drop (k + 1), ?_, by simp; omega⟩
      rw [getElem_cons_drop, take_append_drop]
    have hprevious : (doc.listElements rule list)[pre.length + 1 - 1]? = some e.element := by
      rw [h.listElements_eq]
      simp
    rw [insertBeside_after hdelimiter (Nat.succ_ne_zero _) hprevious]
    refine ⟨_, (h.insertAfter hst₂ hspare hδ hσ).updateComments, (entryTexts_insert ..).trans ?_⟩
    have hlen : pre.length + 1 = (pre ++ [e]).length := by simp
    rw [← h.entryTexts_stocked hst₂, hcode, ← hst₂.texts_eq, hlen, append_cons, entryTexts,
      append_cons pre e post, ← insertIdx_append, map_insertIdx]
    rfl
  | zero =>
    cases entries with
    | cons e post =>
      obtain ⟨range, hrange, hstart⟩ := (h.stocked (hst.newToken rule.delimiter)).range?_list
      have helements : (doc.listElements rule list).isEmpty = false := by
        rw [h.listElements_eq]
        rfl
      rw [insertBeside_before hdelimiter helements hrange, hstart]
      refine ⟨_, (h.insertFirst hst₂ hspare hδ hσ).updateComments, (entryTexts_insert ..).trans ?_⟩
      rw [← h.entryTexts_stocked hst₂, hcode, ← hst₂.texts_eq]
      rfl
    | nil =>
      have hst₁ := hst.newToken rule.delimiter
      have hroom := (h.stocked hst₁).makeRoom_eq
      rw [insertBeside_empty hdelimiter h.listElements_eq]
      simp only [hroom, (h.stocked hst₁).trivia_eq]
      refine ⟨_, (h.insertOnly hst₁).updateComments, (entryTexts_insert ..).trans ?_⟩
      rw [hcode, ← hst₁.texts_eq]
      rfl

end Document

end Lossless
