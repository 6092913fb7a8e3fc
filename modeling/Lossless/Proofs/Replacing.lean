import Lossless.Proofs.Attaching
import Lossless.Proofs.Reachable
import Lossless.Proofs.Rows

/-! Fragments in the place of a container. The bytes of the container go, the code of the fragment
stands there, and the new node has the seat of the old one. -/

namespace Lossless

open List Layout Text

namespace Layout

variable (ts : Layout) (i : Nat)

theorem offsetAt_eq_bytes : ts.offsetAt i = bytes (join (ts.take i)).toList := by
  rw [bytes_toList, utf8ByteSize_join, offsetAt]

theorem toList_join_split :
    ts.join.toList = (join (ts.take i)).toList ++ (join (ts.drop i)).toList := by
  rw [← String.toList_append, ← join_append, take_append_drop]

theorem takeBytes_offsetAt :
    takeBytes (ts.offsetAt i) ts.join.toList = (join (ts.take i)).toList := by
  rw [offsetAt_eq_bytes, ts.toList_join_split i, takeBytes_append]

theorem dropBytes_offsetAt :
    dropBytes (ts.offsetAt i) ts.join.toList = (join (ts.drop i)).toList := by
  rw [offsetAt_eq_bytes, ts.toList_join_split i, dropBytes_append]

end Layout

namespace Document

variable {doc after fragment : Document} {node : Node} {old parent : Branch}

/-- The positions of a node in the text. An invisible node has none, behind its left neighbour. -/
def seat (doc : Document) (node : Node) : Span :=
  (doc.range? node).getD ⟨(doc.trivia node).start, (doc.trivia node).start⟩

theorem byteRange_eq_seat (doc : Document) (node : Node) : doc.byteRange node =
    ⟨doc.layout.offsetAt (doc.seat node).start, doc.layout.offsetAt (doc.seat node).stop⟩ := by
  unfold byteRange seat
  cases hr : doc.range? node with
  | some r => rfl
  | none =>
    unfold trivia
    cases (doc.leftLeaf? node).bind doc.position? with
    | some i => rfl
    | none => simp [offsetAt, size]

theorem Aligned.order_discard_seat (h : doc.Aligned) (node : Node) :
    (doc.discard (doc.coveredLeaves node)).order =
      doc.order.take (doc.seat node).start ++ doc.order.drop (doc.seat node).stop := by
  unfold seat
  cases hr : doc.range? node with
  | none => simp [coveredLeaves, hr, Document.discard]
  | some r =>
    have hlt := range_nonempty h.tree.order_nodup (h.visible node) hr
    exact order_discard_covered h.tree.order_nodup hr hlt.le

theorem Aligned.seat_start_le (h : doc.Aligned) (node : Node) :
    (doc.seat node).start ≤ doc.order.length := by
  have hlength := doc.trivia_stop_le_length node
  unfold seat
  cases hr : doc.range? node with
  | none => exact (doc.trivia_start_le node).trans hlength
  | some r =>
    have hlt := range_nonempty h.tree.order_nodup (h.visible node) hr
    have hstop := (h.range_bounds hr).2
    show r.start ≤ doc.order.length
    omega

/-- A node whose tokens in the text lie in a block, the first and the last of it included, covers
the block. -/
theorem coveredLeaves_of_block {xs block ys : List Leaf} (hn : doc.order.Nodup)
    (ho : doc.order = xs ++ (block ++ ys))
    (hin : ∀ l ∈ doc.leaves node, l ∈ doc.order → l ∈ block)
    (hfirst : ((doc.leaves node).filter block.contains).head? = block.head?)
    (hlast : ((doc.leaves node).filter block.contains).getLast? = block.getLast?) :
    doc.coveredLeaves node = block := by
  have hvisible : doc.visibleLeaves node = (doc.leaves node).filter block.contains := by
    refine filter_congr fun l hl => ?_
    have hiff : l ∈ doc.order ↔ l ∈ block :=
      ⟨hin l hl, fun hm => ho ▸ mem_append_right _ (mem_append_left _ hm)⟩
    simp [hiff]
  by_cases hne : block = []
  · have hnone : doc.range? node = none := by
      rw [range?_eq_none, hvisible, hne]
      simp
    rw [coveredLeaves, hnone, hne]
  · rw [coveredLeaves, range?_of_block hn ho hne (by rw [firstLeaf?, hvisible, hfirst])
      (by rw [lastLeaf?, hvisible, hlast])]
    show (doc.order.drop _).take _ = block
    rw [ho, drop_left, Nat.add_sub_cancel_left, take_left]

/-! ### A fragment in the place of a container -/

section

variable (h : doc.Aligned) (hf : fragment.Aligned)
  (hp : doc.parent old = some parent)
include h

theorem Aligned.order_swapped (parent old : Branch) (fragment : Document) :
    (Edit.swapped doc old parent fragment).order =
      doc.order.take (doc.seat old).start ++
        ((fragment.coveredLeaves fragment.root).map doc.rehomeLeaf ++
          doc.order.drop (doc.seat old).stop) := by
  have hstart : ((doc.range? old).getD (doc.trivia old)).start =
      (doc.seat old).start := by
    unfold seat
    cases doc.range? old <;> rfl
  show ((doc.discard (doc.coveredLeaves old)).insertAt
    ((doc.range? old).getD (doc.trivia old)).start _).order = _
  rw [hstart]
  show (doc.discard _).order.take _ ++ _ ++ (doc.discard _).order.drop _ = _
  rw [h.order_discard_seat, append_assoc]
  refine splice_append ?_ _
  rw [List.length_take, Nat.min_eq_left (h.seat_start_le _)]

theorem Aligned.textOf_swapped (parent old : Branch) (fragment : Document) :
    (∀ l ∈ doc.order, (Edit.swapped doc old parent fragment).textOf l = doc.textOf l) ∧
      ∀ l, (Edit.swapped doc old parent fragment).textOf (doc.rehomeLeaf l) =
        fragment.textOf l := by
  have htext : ∀ l, (Edit.swapped doc old parent fragment).textOf l =
      (doc.graft fragment).2.textOf l := Forest.textOf_replaceChild _ _ _ _
  exact ⟨fun l hl => (htext l).trans (textOf_graft_of_has (h.tree.order_has l hl) fragment),
    fun l => (htext _).trans (textOf_graft_rehome doc fragment l)⟩

theorem Aligned.layout_swapped (parent old : Branch) (fragment : Document) :
    (Edit.swapped doc old parent fragment).layout =
      doc.layout.take (doc.seat old).start ++
        ((fragment.coveredLeaves fragment.root).map fragment.textOf ++
          doc.layout.drop (doc.seat old).stop) := by
  obtain ⟨hold, hnew⟩ := h.textOf_swapped parent old fragment
  rw [layout, h.order_swapped, map_append, map_append, map_map, layout,
    ← map_take, ← map_drop]
  congr 1
  · exact map_congr_left fun l hl => hold l (mem_of_mem_take hl)
  congr 1
  · exact map_congr_left fun l _ => hnew l
  · exact map_congr_left fun l hl => hold l (mem_of_mem_drop hl)

/-- The text keeps its bytes before and after those of the container. -/
theorem Aligned.text_swapped (parent old : Branch) (fragment : Document) :
    (Edit.swapped doc old parent fragment).text.toList =
      takeBytes (doc.byteRange old).start doc.text.toList ++
        (fragment.code.toList ++
          dropBytes (doc.byteRange old).stop doc.text.toList) := by
  rw [byteRange_eq_seat, text, text, takeBytes_offsetAt, dropBytes_offsetAt, code,
    visibleText_eq, h.layout_swapped, join_append, join_append, String.toList_append,
    String.toList_append]

include hp

theorem Aligned.children_swapped (fragment : Document) (c : Branch) :
    (Edit.swapped doc old parent fragment).children c =
      if c = parent then
        (doc.children parent).replace old (doc.rehomeBranch fragment.root)
      else (doc.graft fragment).2.children c := by
  have hb := h.tree.linked.has_parent hp
  have hgrown : (doc.substitute old fragment).2.Has parent := has_graft_iff.2 (Or.inl hb)
  have hsame : (doc.substitute old fragment).2.children parent = doc.children parent :=
    children_graft_of_has hb fragment
  rw [← hsame]
  exact Forest.children_replaceChild hgrown _ _ c

theorem Aligned.siblings_swapped (fragment : Document) :
    ∃ xs ys, doc.children parent = xs ++ .branch old :: ys ∧
      (Edit.swapped doc old parent fragment).children parent =
        xs ++ .branch (doc.rehomeBranch fragment.root) :: ys := by
  obtain ⟨xs, ys, hxy, hxs, -⟩ := h.tree.linked.exists_siblings hp
  refine ⟨xs, ys, hxy, ?_⟩
  rw [h.children_swapped hp, if_pos rfl, hxy, replace_append, if_neg hxs]
  simp

theorem Aligned.children_swapped_rehome (fragment : Document) (c : Branch) :
    (Edit.swapped doc old parent fragment).children (doc.rehomeBranch c) =
      (fragment.children c).map doc.rehome := by
  rw [h.children_swapped hp, if_neg]
  · exact children_graft_rehome doc fragment c
  · rintro rfl
    exact not_has_rehome doc c (h.tree.linked.has_parent hp)

include hf

theorem Aligned.leaves_swapped :
    (Edit.swapped doc old parent fragment).leaves (doc.rehomeBranch fragment.root) =
      (fragment.leaves fragment.root).map doc.rehomeLeaf := by
  have hd := h.tree.linked
  rw [← rehome, ← leaves_graft_rehome hd hf.tree.linked]
  refine (linked_graft hd hf.tree.linked).leaves_congr (h.swapped hf hp).tree.linked _ fun c hc => ?_
  rw [h.children_swapped hp, if_neg]
  rintro rfl
  exact not_around_graft hd (hd.has_parent hp) fragment.root hc

theorem Aligned.coveredLeaves_swapped :
    (Edit.swapped doc old parent fragment).coveredLeaves
        (doc.rehomeBranch fragment.root) =
      (fragment.coveredLeaves fragment.root).map doc.rehomeLeaf := by
  have hd := h.tree.linked
  have hleaves := h.leaves_swapped hf hp
  have hends : fragment.coveredLeaves fragment.root ≠ [] → _ :=
    ends_graft_covered hd hf.tree.linked
  rw [← rehome, leaves_graft_rehome hd hf.tree.linked, ← hleaves] at hends
  refine coveredLeaves_of_block (h.swapped hf hp).tree.order_nodup (h.order_swapped parent old
    fragment) (fun l hl ho => ?_) ?_ ?_
  · rw [hleaves] at hl
    obtain ⟨m, -, rfl⟩ := mem_map.1 hl
    have hnew : doc.rehomeLeaf m ∉ doc.order := fun ho =>
      not_has_rehome doc m (h.tree.order_has _ ho)
    rw [h.order_swapped, mem_append, mem_append] at ho
    rcases ho with ho | ho | ho
    · exact absurd (mem_of_mem_take ho) hnew
    · exact ho
    · exact absurd (mem_of_mem_drop ho) hnew
  · by_cases hne : fragment.coveredLeaves fragment.root = []
    · simp [hne]
    · exact (hends hne).1
  · by_cases hne : fragment.coveredLeaves fragment.root = []
    · simp [hne]
    · exact (hends hne).2

theorem Aligned.visibleText_swapped :
    (Edit.swapped doc old parent fragment).visibleText (doc.rehomeBranch fragment.root) =
      fragment.code := by
  rw [code, visibleText_eq, visibleText_eq, h.coveredLeaves_swapped hf hp, map_map]
  congr 1
  exact map_congr_left fun l _ => (h.textOf_swapped parent old fragment).2 l

end

end Document

/-! ### Replacing -/

namespace Grammar

variable {g : Grammar} {parent kind : Kind}

theorem wrapper?_of_accepts (h : ∀ element, g.elementKind? parent = some element →
    g.accepts parent kind = true) :
    g.wrapper? parent kind = (g.elementKind? parent).filter (kind != ·) := by
  unfold wrapper? elementKind? accepts at *
  cases hshape : g.shape parent with
  | list rule =>
    rw [hshape] at h
    have hkind : kind = rule.element ∨ kind ∈ rule.inner := by
      simpa [ListRule.accepts] using h _ rfl
    by_cases he : kind = rule.element
    · simp [he, Option.filter_some]
    · simp [he, hkind.resolve_left he, Option.filter_some]
  | optional rule =>
    rw [hshape] at h
    have hkind : kind = rule.element ∨ kind ∈ rule.inner := by
      simpa [OptionalRule.accepts] using h _ rfl
    by_cases he : kind = rule.element
    · simp [he, Option.filter_some]
    · simp [he, hkind.resolve_left he, Option.filter_some]
  | _ => rfl

end Grammar

namespace Edit

variable {doc after fragment : Document} {node added parent : Branch}

theorem placedIn_eq
    (h : ∀ element, doc.grammar.elementKind? (doc.kindOf parent) = some element →
      doc.canAdd parent fragment.rootKind = true) :
    placedIn doc parent fragment =
      ((doc.grammar.wrapper? (doc.kindOf parent) fragment.rootKind).map fragment.wrapRoot).getD
        fragment := by
  rw [Grammar.wrapper?_of_accepts h, placedIn]
  cases doc.grammar.elementKind? (doc.kindOf parent) with
  | none => rfl
  | some element =>
    by_cases he : fragment.rootKind = element <;> simp [he, Option.filter_some]

theorem exists_of_run_replace (h : (replace node fragment).run doc = .ok added after) :
    ∃ parent, doc.parent node = some parent ∧
      (∀ element, doc.grammar.elementKind? (doc.kindOf parent) = some element →
        doc.canAdd parent fragment.rootKind = true) ∧
      added = doc.rehomeBranch (placedIn doc parent fragment).root ∧
      after = swapped doc node parent (placedIn doc parent fragment) := by
  have hswap : ∀ parent placed, (replace.swap node parent placed).run doc = .ok added after →
      added = doc.rehomeBranch placed.root ∧ after = swapped doc node parent placed := by
    intro parent placed hrun
    unfold replace.swap at hrun
    obtain ⟨new, mid, hnew, hrun⟩ := run_bind_eq_ok hrun
    cases hnew
    rw [run_get_bind] at hrun
    split at hrun
    · cases hrun
      exact ⟨rfl, rfl⟩
    · cases hrun
  unfold replace at h
  rw [run_get_bind] at h
  dsimp only at h
  by_cases hroot : node = doc.root
  · rw [if_pos hroot] at h
    cases h
  · rw [if_neg hroot] at h
    cases hp : doc.parent node with
    | none =>
      rw [hp] at h
      cases h
    | some parent =>
      refine ⟨parent, rfl, ?_⟩
      rw [hp] at h
      dsimp only at h
      unfold placedIn
      cases he : doc.grammar.elementKind? (doc.kindOf parent) with
      | none =>
        rw [he] at h
        refine ⟨fun element hsome => ?_, hswap parent fragment h⟩
        cases hsome
      | some element =>
        rw [he] at h
        dsimp only at h
        split at h
        · cases h
        · next hkind => exact ⟨fun _ _ => by simpa using hkind, hswap parent _ h⟩

/-- A fragment that is put in the place of a container brings its code in the place of the bytes of
the container, and leaves the bytes before and after them as they were. Its node has the seat of the
old one among the children, shows the code, and is wrapped where the parent holds the kind of the
fragment as an inner kind only. -/
theorem text_replace (h : doc.IsTree) (ho : doc.Ordered) (hf : fragment.IsTree)
    (hfo : fragment.Ordered) (hrun : (replace node fragment).run doc = .ok added after) :
    after.text.toList = Text.takeBytes (doc.byteRange (.branch node)).start doc.text.toList ++
        (fragment.code.toList ++
          Text.dropBytes (doc.byteRange (.branch node)).stop doc.text.toList) ∧
      after.visibleText (.branch added) = fragment.code ∧
      ∃ parent xs ys, doc.parent (.branch node) = some parent ∧
        after.parent (.branch added) = some parent ∧
        doc.children parent = xs ++ .branch node :: ys ∧
        after.children parent = xs ++ .branch added :: ys ∧
        (doc.grammar.wrapper? (doc.kindOf parent) fragment.rootKind = none →
          after.kindOf added = fragment.rootKind) ∧
        ∀ element, doc.grammar.wrapper? (doc.kindOf parent) fragment.rootKind = some element →
          after.kindOf added = element ∧ ∃ inner, after.children added = [.branch inner] ∧
            after.kindOf inner = fragment.rootKind := by
  obtain ⟨parent, hp, hkind, rfl, rfl⟩ := exists_of_run_replace hrun
  have hd : doc.Aligned := ⟨h, ho⟩
  have hplaced := placedIn_eq hkind
  have hkindOf : ∀ (placed : Document) b,
      (swapped doc node parent placed).kindOf (doc.rehomeBranch b) = placed.kindOf b :=
    fun placed b => (Forest.kindOf_replaceChild ..).trans (Document.kindOf_graft_rehome doc placed b)
  have hcode : (placedIn doc parent fragment).Aligned ∧
      (placedIn doc parent fragment).code = fragment.code := by
    rw [hplaced]
    cases doc.grammar.wrapper? (doc.kindOf parent) fragment.rootKind with
    | none => exact ⟨⟨hf, hfo⟩, rfl⟩
    | some element =>
      refine ⟨Document.Aligned.wrapRoot ⟨hf, hfo⟩ element, ?_⟩
      show (fragment.wrapRoot element).code = fragment.code
      rw [Document.code, Document.code, Document.visibleText_eq, Document.visibleText_eq,
        Document.coveredLeaves_wrapRoot hf]
      exact congrArg Layout.join (List.map_congr_left fun l _ => Document.textOf_wrapRoot ..)
  obtain ⟨xs, ys, hxy, hxy'⟩ := hd.siblings_swapped hp (placedIn doc parent fragment)
  refine ⟨?_, ?_, parent, xs, ys, hp, ?_, hxy, hxy', fun hnone => ?_, fun element hsome => ?_⟩
  · rw [hd.text_swapped, hcode.2]
  · rw [hd.visibleText_swapped hcode.1 hp, hcode.2]
  · exact (hd.swapped hcode.1 hp).tree.linked.down (hxy' ▸ List.mem_append_right _ List.mem_cons_self)
  · rw [hkindOf, hplaced, hnone]
    rfl
  · rw [hplaced, hsome, hkindOf, hd.children_swapped_rehome hp]
    refine ⟨fragment.rootKind_wrapRoot element, doc.rehomeBranch fragment.root, ?_, ?_⟩
    · rw [Option.map_some, Option.getD_some, Document.children_wrapRoot, if_pos rfl]
      rfl
    · rw [hkindOf]
      exact Document.kindOf_wrapRoot hf.root_has element

/-- A call takes the place of a statement of three bytes, and becomes a statement itself. -/
theorem text_replace_call :
    let start : Builder := { grammar := .javaScript, source := "é;\ng;" }
    let calls : List Builder.Call :=
      [.openNode .statementList, .openNode .statement, .token "é", .token ";", .closeNode,
        .openNode .statement, .token "g", .token ";", .closeNode, .closeNode]
    let fragment := Document.ofSource .javaScript .call "h()"
    ∃ doc added after, (start.run calls).finish = .ok doc ∧ doc.IsTree ∧ doc.Ordered ∧
      doc.byteRange (.branch ⟨1⟩) = ⟨0, 3⟩ ∧ (replace ⟨1⟩ fragment).run doc = .ok added after ∧
      after.text.toList = "h()\ng;".toList ∧ after.visibleText (.branch added) = "h()" ∧
      after.children ⟨0⟩ = [.branch added, .branch ⟨2⟩] ∧ after.kindOf added = .statement ∧
      ∃ inner, after.children added = [.branch inner] ∧ after.kindOf inner = .call := by
  intro start calls fragment
  let doc := (start.run calls).built
  have hfinish : (start.run calls).finish = .ok doc := by decide +kernel
  obtain ⟨htree, hordered⟩ := Builder.isTree_of_run hfinish
  have hf : fragment.Aligned := Document.aligned_ofSource ..
  have hbytes : doc.byteRange (.branch ⟨1⟩) = ⟨0, 3⟩ := by decide +kernel
  have hok : (EStateM.run' (replace ⟨1⟩ fragment) doc).isSome = true := by decide +kernel
  cases hrun : (replace ⟨1⟩ fragment).run doc with
  | error e after =>
    delta EStateM.run' at hok
    rw [hrun] at hok
    cases hok
  | ok added after =>
    obtain ⟨htext, hshown, parent, xs, ys, hp, -, hold, hnew, -, hwrapped⟩ :=
      text_replace htree hordered hf.tree hf.ordered hrun
    have hparent : parent = ⟨0⟩ := Option.some.inj (hp.symm.trans (by decide +kernel))
    subst hparent
    refine ⟨doc, added, after, hfinish, htree, hordered, hbytes, hrun, ?_, ?_, ?_,
      hwrapped .statement (by decide +kernel)⟩
    · rw [htext, hbytes]
      decide +kernel
    · rw [hshown]
      decide +kernel
    · rw [hnew]
      have hsplit : doc.children ⟨0⟩ = [.branch ⟨1⟩, .branch ⟨2⟩] := by decide +kernel
      rw [hsplit] at hold
      cases xs with
      | nil =>
        cases hold
        rfl
      | cons x xs =>
        have hmem : Node.branch ⟨1⟩ ∈ [Node.branch ⟨2⟩] := by
          rw [(List.cons.inj hold).2]
          simp
        exact absurd hmem (by decide)

end Edit

end Lossless
