import Lossless.Proofs.Vacated
import Lossless.Proofs.WholeLines

/-! Elements that come in on lines of their own. A fragment that is no more than its root is laid
out as its indentation, a block from the first to the last token of the root, and a break. -/

namespace Lossless.Layout

open List

theorem opens_afterBreaks {ts : Layout} (h : ts.getLast?.all isBreak) (n : Nat) :
    (ts.take (afterBreaks n ts)).getLast?.all isBreak := by
  induction ts generalizing n with
  | nil => simp
  | cons t ts ih =>
    cases n with
    | zero => rfl
    | succ n =>
      rw [afterBreaks, Nat.add_comm, take_succ_cons, getLast?_cons]
      rcases ts.eq_nil_or_concat' with rfl | ⟨xs, x, rfl⟩
      · simpa using h
      · have hrest := ih (by simpa [getLast?_cons] using h) (if isBreak t then n else n + 1)
        cases hlast : ((xs ++ [x]).take
            (afterBreaks (if isBreak t then n else n + 1) (xs ++ [x]))).getLast? with
        | some last => simpa [hlast] using hrest
        | none =>
          by_cases hbreak : isBreak t
          · simpa using hbreak
          · rw [if_neg hbreak, getLast?_eq_none_iff, take_eq_nil_iff] at hlast
            have hpos : afterBreaks (n + 1) (xs ++ [x]) ≠ 0 := by
              cases xs <;> simp [afterBreaks]
            simp [hpos] at hlast

end Lossless.Layout

namespace Lossless.Document

open List

variable {doc base fragment laid mid : Document} {rule : ListRule} {list b : Branch}
  {us block tail front rest xs : List Leaf} {nl first l x : Leaf} {p line : Nat} {f : Forest}

theorem textOf_increaseIndent (hx : doc.Has x) (hink : Text.isBlank (doc.textOf x) = false)
    (b : Branch) (unit : String) : (doc.increaseIndent b unit).textOf x = doc.textOf x := by
  rw [increaseIndent]
  split
  · rfl
  · exact Forest.textOf_indentTokens hx hink

theorem order_endLine (horder : doc.order = front ++ [x])
    (htext : Layout.isBreak (doc.textOf x) = false) :
    ∃ last, doc.endLine.order = front ++ [x, last] ∧
      doc.endLine.textOf last = Layout.lineBreak := by
  have hends : (doc.order.isEmpty || doc.endsWithBreak) = false := by
    rw [endsWithBreak, layout, horder, map_append, map_singleton, getLast?_concat,
      Option.any_some, htext, Bool.or_false]
    simp
  have hlaid : doc.endLine = (doc.newToken Layout.lineBreak).2.insertAt doc.order.length
      [(doc.newToken Layout.lineBreak).1] := by
    rw [endLine, hends]
    rfl
  refine ⟨(doc.newToken Layout.lineBreak).1, ?_, ?_⟩
  · rw [hlaid]
    show doc.order.take _ ++ _ ++ doc.order.drop _ = _
    rw [take_length, drop_length, horder]
    simp
  · rw [hlaid]
    exact doc.textOf_newToken Layout.lineBreak

/-! ### Fragments laid out -/

theorem indentTokens_of_breaks
    (h : ∀ l ∈ tail, Layout.isBreak (f.textOf l)) (unit : String) (opensLine : Bool) :
    indentTokens unit opensLine tail f = (tail, f) := by
  induction tail generalizing opensLine with
  | nil => rfl
  | cons l tail ih =>
    rw [indentTokens]
    dsimp only
    rw [h l mem_cons_self, ih fun m hm => h m (by simp [hm])]
    simp

theorem indentTokens_append
    (hhas : ∀ l ∈ xs ++ tail, f.Has (.leaf l))
    (hlast : ∀ l ∈ xs.getLast?, Text.isBlank (f.textOf l) = false)
    (htail : ∀ l ∈ tail, Layout.isBreak (f.textOf l)) (unit : String) (opensLine : Bool) :
    ∃ ys, (indentTokens unit opensLine (xs ++ tail) f).1 = ys ++ tail ∧
      ys.getLast? = xs.getLast? := by
  induction xs generalizing opensLine f with
  | nil => exact ⟨[], by rw [nil_append, indentTokens_of_breaks htail], rfl⟩
  | cons m xs ih =>
    -- neither the last ink nor a break is white space that grows
    have hrest : ∀ g : Forest, (∀ l, f.Has l → g.Has l) →
        (∀ l ∈ xs ++ tail, Layout.isGap (f.textOf l) = false → g.textOf l = f.textOf l) →
        ∀ opensLine, ∃ ys, (indentTokens unit opensLine (xs ++ tail) g).1 = ys ++ tail ∧
          (m :: ys).getLast? = (m :: xs).getLast? := by
      intro g hg htext opensLine
      obtain ⟨ys, hys, hends⟩ := ih (fun l hl => hg l (hhas l (mem_cons_of_mem m hl)))
        (fun l hl => by
          have hink := hlast l (by simp_all [getLast?_cons])
          rwa [htext l (mem_append_left _ (mem_of_getLast? hl)) (by
            rw [Layout.isGap, hink, Bool.and_false])])
        (fun l hl => by
          have hbreak := htail l hl
          rwa [htext l (mem_append_right _ hl) (by simp [Layout.isGap, hbreak])])
        opensLine
      exact ⟨ys, hys, by rw [getLast?_cons, getLast?_cons, hends]⟩
    rw [cons_append, indentTokens]
    dsimp only
    split
    · next hopen =>
      obtain ⟨-, hbreak⟩ := Bool.and_eq_true_iff.1 hopen
      split
      · next hblank =>
        obtain ⟨ys, hys, hends⟩ := hrest (f.setText m (f.textOf m ++ unit))
          (fun l hl => (Forest.Retexted.setText f m _).has _ hl)
          (fun l _ hgap => by
            rw [Forest.textOf, Forest.setText, Forest.token_modifyToken, if_neg, Forest.textOf]
            rintro ⟨rfl, -⟩
            simp [Layout.isGap, hblank, hbreak] at hgap) (Layout.isBreak (f.textOf m ++ unit))
        exact ⟨m :: ys, congrArg (m :: ·) hys, hends⟩
      · obtain ⟨ys, hys, hends⟩ := hrest (f.addToken { text := unit }).2
          (fun l hl => Forest.has_addToken hl _)
          (fun l hl _ => Forest.textOf_addToken_of_has (hhas l (mem_cons_of_mem m hl)) _) false
        exact ⟨_ :: m :: ys, congrArg (fun ls => _ :: m :: ls) hys, by
          rw [getLast?_cons_cons, hends]⟩
    · obtain ⟨ys, hys, hends⟩ := hrest f (fun _ hl => hl) (fun _ _ _ => rfl)
        (Layout.isBreak (f.textOf m))
      exact ⟨m :: ys, congrArg (m :: ·) hys, hends⟩

/-- A fragment that is no more than its root, with ink at both ends and perhaps a break behind
it. -/
def Compact (fragment : Document) : Prop :=
  fragment.coveredLeaves fragment.root <+: fragment.order ∧
    fragment.layout.drop (fragment.coveredLeaves fragment.root).length ∈
      [[], [Layout.lineBreak]] ∧
    Layout.InkedEnds ((fragment.coveredLeaves fragment.root).map fragment.textOf)

instance (fragment : Document) : Decidable fragment.Compact :=
  inferInstanceAs (Decidable (_ ∧ _ ∧ _))

theorem Compact.wrap (h : fragment.Compact) (hf : fragment.IsTree) (rule : ListRule) :
    (rule.wrap fragment).Compact := by
  have horder : (rule.wrap fragment).order = fragment.order := by
    rw [ListRule.wrap]
    split <;> rfl
  have htexts : (rule.wrap fragment).textOf = fragment.textOf :=
    funext fun l => ListRule.textOf_wrap l
  rw [Compact, ListRule.coveredLeaves_wrap hf, layout, horder, htexts]
  exact h

theorem Compact.exists_ends (h : fragment.Compact) : ∃ first rest tail,
    fragment.order = first :: (rest ++ tail) ∧
      fragment.firstLeaf? fragment.root = some first ∧
      fragment.lastLeaf? fragment.root = (first :: rest).getLast? ∧
      Text.isBlank (fragment.textOf first) = false ∧
      (∀ l ∈ (first :: rest).getLast?, Text.isBlank (fragment.textOf l) = false) ∧
      (tail = [] ∨ ∃ nl, tail = [nl] ∧ Layout.isBreak (fragment.textOf nl)) := by
  obtain ⟨⟨tail, horder⟩, htail, ⟨_, hhead, hfirst⟩, _, hlast, hink⟩ := h
  rw [head?_map, Option.mem_def, Option.map_eq_some_iff] at hhead
  rw [getLast?_map, Option.mem_def, Option.map_eq_some_iff] at hlast
  obtain ⟨first, hhead, rfl⟩ := hhead
  obtain ⟨last, hlast, rfl⟩ := hlast
  obtain ⟨hends, hends'⟩ := coveredLeaves_ends (ne_nil_of_mem (mem_of_head? hhead))
  obtain ⟨rest, hrest⟩ := head?_eq_some_iff.1 hhead
  rw [layout, ← horder, ← map_drop, drop_left] at htail
  rw [hrest] at horder hlast hends hends'
  refine ⟨first, rest, tail, horder.symm, hends.symm, hends'.symm, hfirst, fun l hl => ?_, ?_⟩
  · obtain rfl := Option.some.inj (hl.symm.trans hlast)
    exact hink
  · rcases tail with _ | ⟨nl, _ | ⟨_, _⟩⟩
    · exact .inl rfl
    · have htext : fragment.textOf nl = Layout.lineBreak := by simpa using htail
      exact .inr ⟨nl, rfl, by rw [htext]; rfl⟩
    · simp at htail

/-- A document whose text is an indentation, a block from the first to the last token of its root,
and a break. -/
structure InLines (laid : Document) (indent : String) (us block : List Leaf) (nl : Leaf) :
    Prop where
  order_eq : laid.order = us ++ (block ++ [nl])
  indent_eq : us.map laid.textOf = if indent.isEmpty then [] else [indent]
  ne_nil : block ≠ []
  first : laid.firstLeaf? laid.root = block.head?
  last : laid.lastLeaf? laid.root = block.getLast?
  ends : Layout.isBreak (laid.textOf nl) = true

theorem Aligned.order_increaseIndent (hf : fragment.Aligned)
    (horder : fragment.order = first :: (rest ++ tail))
    (hfirst : Text.isBlank (fragment.textOf first) = false)
    (hlast : ∀ l ∈ (first :: rest).getLast?, Text.isBlank (fragment.textOf l) = false)
    (htail : ∀ l ∈ tail, Layout.isBreak (fragment.textOf l)) (unit : String) :
    let moved := fragment.increaseIndent fragment.root unit
    ∃ us ys, moved.order = us ++ (first :: ys ++ tail) ∧
      us.map moved.textOf = (if unit.isEmpty then [] else [unit]) ∧
      (first :: ys).getLast? = (first :: rest).getLast? ∧
      ∀ l ∈ tail, Layout.isBreak (moved.textOf l) := by
  intro moved
  by_cases hunit : unit.isEmpty
  · have hsame : moved = fragment := if_pos hunit
    rw [hsame, if_pos hunit]
    exact ⟨[], rest, horder, rfl, rfl, htail⟩
  · let blank := (fragment.toForest.addToken { text := unit }).1
    let grown := (fragment.toForest.addToken { text := unit }).2
    have hhas : ∀ l ∈ rest ++ tail, fragment.Has (.leaf l) := fun l hl =>
      hf.tree.order_has l (horder ▸ mem_cons_of_mem first hl)
    have htext : ∀ l ∈ rest ++ tail, grown.textOf l = fragment.textOf l := fun l hl =>
      Forest.textOf_addToken_of_has (hhas l hl) _
    have hmoved : moved = { fragment with
        toForest := (indentTokens unit false (rest ++ tail) grown).2
        order := blank :: first :: (indentTokens unit false (rest ++ tail) grown).1 } := by
      have hnot := Layout.isBreak_of_ink hfirst
      simp [moved, Document.increaseIndent, hunit, mapAround,
        hf.trivia_of_free hf.tree.root_free, leavesIn, horder, take_of_length_le, indentTokens,
        hfirst, hnot, blank, grown]
    obtain ⟨ys, hys, hends⟩ := indentTokens_append (f := grown)
      (fun l hl => Forest.has_addToken (hhas l hl) _)
      (fun l hl => by
        rw [htext l (mem_append_left _ (mem_of_getLast? hl))]
        exact hlast l (by simp_all [getLast?_cons]))
      (fun l hl => by
        rw [htext l (mem_append_right _ hl)]
        exact htail l hl) unit false
    have hkept : ∀ l, grown.Has (.leaf l) →
        (Layout.isGap (grown.textOf l) = true → l ∉ rest ++ tail) →
        moved.textOf l = grown.textOf l := by
      intro l hl hgap
      rw [hmoved]
      exact Forest.textOf_indentTokens_of_kept hl hgap
    have hblank : moved.textOf blank = unit := by
      refine (hkept blank (Forest.has_new_token ..) fun _ hm => ?_).trans
        (textOf_newToken fragment unit)
      exact fragment.toForest.not_has_addToken _ (hhas blank hm)
    refine ⟨[blank], ys, ?_, ?_, ?_, fun l hl => ?_⟩
    · rw [hmoved, hys]
      rfl
    · rw [if_neg hunit, map_singleton, hblank]
    · rw [getLast?_cons, getLast?_cons, hends]
    · have hbreak := htail l hl
      rw [← htext l (mem_append_right _ hl)] at hbreak
      rwa [hkept l (Forest.has_addToken (hhas l (mem_append_right _ hl)) _) fun hgap => by
        simp [Layout.isGap, hbreak] at hgap]

/-- Ending a line leaves the tokens as they are and brings in a new one at most. -/
theorem endLine_spec (hl : doc.Has l) :
    doc.endLine.textOf l = doc.textOf l ∧ (l ∈ doc.endLine.order ↔ l ∈ doc.order) := by
  rcases doc.endLine_cases with he | he <;> rw [he]
  · exact ⟨rfl, Iff.rfl⟩
  · refine ⟨textOf_newToken_of_has hl _, mem_insertAt.trans (or_iff_right fun hm => ?_)⟩
    rw [mem_singleton.1 hm] at hl
    exact not_has_newToken _ _ hl

theorem visibleLeaves_lineFragment (hf : fragment.IsTree) (doc : Document) (list b : Branch) :
    (doc.lineFragment list fragment).visibleLeaves b =
      fragment.visibleLeaves b := by
  have hmoved := hf.increaseIndent fragment.root (doc.indent list)
  refine (relaid_lineFragment hf doc list).visibleLeaves_eq hf (fun l hl => ?_)
    (fun l hl hhas => mem_of_mem_increaseIndent
      ((endLine_spec (hmoved.retexted.has _ hhas)).2.1 hl) hhas) b
  exact (endLine_spec (hmoved.retexted.has _ (hf.order_has l hl))).2.2
    ((fragment.sublist_increaseIndent ..).subset hl)

/-- A fragment that is no more than its root is laid out as a block of lines. -/
theorem Compact.inLines (h : fragment.Compact) (hf : fragment.Aligned) (doc : Document)
    (list : Branch) : ∃ us block nl,
      (doc.lineFragment list fragment).InLines (doc.indent list) us block nl := by
  let moved := fragment.increaseIndent fragment.root (doc.indent list)
  have hmoved := hf.tree.increaseIndent fragment.root (doc.indent list)
  obtain ⟨first, rest, tail, horder, hfirst, hlast, hink, hink', htail⟩ := h.exists_ends
  have hbreaks : ∀ l ∈ tail, Layout.isBreak (fragment.textOf l) := by
    rcases htail with rfl | ⟨nl, rfl, hnl⟩
    · exact forall_mem_nil _
    · exact forall_mem_singleton.2 hnl
  obtain ⟨us, ys, hus, htexts, hends, hbreaks'⟩ :=
    hf.order_increaseIndent horder hink hink' hbreaks (doc.indent list)
  have hshown := visibleLeaves_lineFragment hf.tree doc list fragment.root
  have hroot : (doc.lineFragment list fragment).root = fragment.root :=
    (relaid_lineFragment hf.tree doc list).root
  have key : ∀ nl, (doc.lineFragment list fragment).order = us ++ (first :: ys ++ [nl]) →
      Layout.isBreak ((doc.lineFragment list fragment).textOf nl) = true →
      (doc.lineFragment list fragment).InLines (doc.indent list) us (first :: ys) nl := by
    intro nl hlaid hnl
    refine ⟨hlaid, ?_, cons_ne_nil _ _, ?_, ?_, hnl⟩
    · rw [← htexts]
      refine map_congr_left fun l hl => (endLine_spec (hmoved.tree.order_has l ?_)).1
      rw [hus]
      exact mem_append_left _ hl
    · rw [hroot, firstLeaf?, hshown]
      exact hfirst
    · rw [hroot, lastLeaf?, hshown, hends]
      exact hlast
  rcases htail with rfl | ⟨nl, rfl, -⟩
  · obtain ⟨init, last, hinit⟩ := (eq_nil_or_concat' (first :: ys)).resolve_left (by simp)
    have hlast' : last ∈ (first :: rest).getLast? := by rw [← hends, hinit]; simp
    have hhas : last ∈ fragment.order := by
      rw [horder, append_nil]
      exact mem_of_getLast? hlast'
    have hnot : Layout.isBreak (moved.textOf last) = false := by
      rw [textOf_increaseIndent (hf.tree.order_has last hhas) (hink' last hlast')]
      exact Layout.isBreak_of_ink (hink' last hlast')
    obtain ⟨nl, hnl, htext⟩ := order_endLine
      (show moved.order = (us ++ init) ++ [last] by rw [hus, append_nil, hinit]; simp) hnot
    refine ⟨us, _, nl, key nl (hnl.trans (by rw [hinit]; simp)) ?_⟩
    exact (congrArg Layout.isBreak htext).trans rfl
  · have hnl : Layout.isBreak (moved.textOf nl) := hbreaks' nl (mem_singleton_self nl)
    have hsame : moved.endLine = moved := by
      have hends : moved.endsWithBreak := by
        rw [endsWithBreak, layout, hus, ← append_assoc, map_append, map_singleton,
          getLast?_concat]
        exact hnl
      rw [endLine, hends, Bool.or_true, if_pos rfl]
    refine ⟨us, _, nl, key nl ((congrArg order hsame).trans hus) ?_⟩
    exact (congrArg (fun d : Document => Layout.isBreak (d.textOf nl)) hsame).trans hnl

/-! ### Lines that come in -/

theorem LinePlace.opens (hbreak : doc.endsWithBreak) (h : doc.LinePlace line base p) :
    base = doc ∧ (doc.layout.take p).getLast?.all Layout.isBreak ∧
      (doc.layout.take p = [] → line = 0) := by
  have hne : doc.layout ≠ [] := by
    intro hnil
    simp [endsWithBreak, hnil] at hbreak
  have hends : doc.layout.getLast?.all Layout.isBreak := by
    rw [endsWithBreak, getLast?_eq_some_getLast hne] at hbreak
    rwa [getLast?_eq_some_getLast hne]
  rcases h with ⟨-, hbase, rfl⟩ | ⟨-, rfl, rfl⟩
  · refine ⟨hbase, Layout.opens_afterBreaks hends line, fun hnil => ?_⟩
    rw [take_eq_nil_iff, or_iff_left hne, Layout.lineTokens] at hnil
    obtain ⟨t, ts, hcons⟩ := exists_cons_of_ne_nil hne
    cases line with
    | zero => rfl
    | succ n =>
      rw [hcons, Layout.afterBreaks] at hnil
      dsimp only at hnil
      omega
  · have hsame : doc.endLine = doc := by rw [endLine, hbreak, Bool.or_true, if_pos rfl]
    rw [hsame, ← length_map doc.textOf, ← layout, take_length]
    exact ⟨rfl, hends, fun hnil => absurd hnil hne⟩

theorem kindsOf_congr (hkids : mid.children b = doc.children b)
    (hkinds : ∀ c, mid.kindOf c = doc.kindOf c) : mid.kindsOf b = doc.kindsOf b := by
  rw [kindsOf, kindsOf, hkids, funext hkinds]

theorem kindsOf_of_retexted (h : doc.Retexted mid.toForest) (b : Branch) :
    mid.kindsOf b = doc.kindsOf b :=
  kindsOf_congr (h.children b) h.kindOf

theorem kindsOf_graft_rehome (doc laid : Document) (b : Branch) :
    (doc.graft laid).2.kindsOf (doc.rehomeBranch b) = laid.kindsOf b := by
  rw [kindsOf, kindsOf, kindOf_graft_rehome, children_graft_rehome, head?_map]
  cases (laid.children b).head? with
  | none => rfl
  | some n =>
    cases n with
    | leaf l => rfl
    | branch c => exact congrArg (laid.kindOf b :: [·]) (kindOf_graft_rehome ..)

/-- The lines of a fragment are in the text, and no container claims them yet. -/
theorem IsTree.withTokens (h : base.IsTree) (hlist : base.Has list)
    (hl : laid.IsTree) (p : Nat) :
    (base.withTokens p laid).IsTree ∧
      (base.withTokens p laid).Unseated list (base.rehomeBranch laid.root) ∧
      (base.withTokens p laid).visibleLeaves (base.rehomeBranch laid.root) =
        (laid.visibleLeaves laid.root).map base.rehomeLeaf := by
  have hn : Fresh base (base.graft laid).2 list (laid.order.map base.rehomeLeaf) :=
    .graft h hlist hl hl.order_nodup (Subset.refl _)
  refine ⟨hn.tree.insertAt hn.nodup hn.has (fun l hl ho => hn.new l hl (h.order_has l ho)) p,
    (unseated_graft h hlist hl).insertAt p _, ?_⟩
  exact visibleLeaves_rehome h rfl (leaves_graft_rehome h.linked hl.linked laid.root)
    (Sublist.refl _) (fun l _ hm => (mem_map_of_injective (rehomeLeaf_injective base)).1 hm)
    hl.linked

/-- A document that has taken in an element on lines of its own, at a position of its text. -/
structure TakesLines (doc mid : Document) (list added : Branch) (p : Nat) (us block : List Leaf)
    (nl : Leaf) : Prop where
  tree : mid.IsTree
  rewired : doc.Rewired mid.toForest list
  grammar_eq : mid.grammar = doc.grammar
  child : .branch added ∈ mid.children list
  order_eq : mid.order = (doc.order.take p ++ us) ++ (block ++ nl :: doc.order.drop p)
  indent_eq : us.map mid.textOf =
    if (doc.indent list).isEmpty then [] else [doc.indent list]
  ne_nil : block ≠ []
  first : mid.firstLeaf? added = block.head?
  last : mid.lastLeaf? added = block.getLast?
  ends : Layout.isBreak (mid.textOf nl) = true
  opens : (doc.layout.take p).getLast?.all Layout.isBreak = true

section

variable (h : doc.IsTree) (hlist : doc.Has list)
include h hlist

theorem exists_takesLines (hbreak : doc.endsWithBreak) (hdelimiter : rule.delimiter = "")
    (hf : fragment.Aligned) (hcompact : fragment.Compact) (line : Nat) :
    let lines := doc.insertLines rule list line fragment false
    ∃ p us block nl, TakesLines doc lines.2 list lines.1 p us block nl ∧
      lines.2.kindsOf lines.1 = fragment.kindsOf fragment.root ∧
      (doc.layout.take p = [] → line = 0) := by
  obtain ⟨base, p, hplace, hinsert⟩ := doc.insertLines_element rule list line fragment
  obtain ⟨rfl, hopens, hstart⟩ := hplace.opens hbreak
  obtain ⟨us, block, nl, hlined⟩ := hcompact.inLines hf base list
  have hrelaid := relaid_lineFragment hf.tree base list
  generalize base.lineFragment list fragment = laid at hinsert hlined hrelaid
  have hnone : ∀ d : Document, d.addDelimiter rule list (base.rehomeBranch laid.root) = d := by
    intro d
    rw [addDelimiter]
    split
    · rfl
    · rw [newLiteral, hdelimiter, if_pos (by rfl)]
  obtain ⟨i, hi⟩ : ∃ i, (base.withTokens p laid).placeChild list
      (base.rehomeBranch laid.root) =
        (base.withTokens p laid).insertChild list i (base.rehomeBranch laid.root) :=
    ⟨_, rfl⟩
  rw [hnone, hi] at hinsert
  rw [hinsert]
  obtain ⟨hgrown, hout, hshown⟩ := h.withTokens hlist hrelaid.tree p
  have hrewired : base.Rewired (base.withTokens p laid).toForest list := Forest.Rewired.graft hlist
  have hlist' := hrewired.has _ hlist
  have hkids := fun c => Forest.children_insertChild hlist' i
    (base.rehomeBranch laid.root) c
  have htexts : ∀ ls : List Leaf, (ls.map base.rehomeLeaf).map ((base.withTokens p laid).insertChild
      list i (base.rehomeBranch laid.root)).textOf = ls.map laid.textOf := by
    intro ls
    rw [map_map]
    exact map_congr_left fun l _ =>
      (Forest.textOf_insertChild ..).trans (textOf_graft_rehome base laid l)
  have hshown : ((base.withTokens p laid).insertChild list i
      (base.rehomeBranch laid.root)).visibleLeaves (base.rehomeBranch laid.root) =
        (laid.visibleLeaves laid.root).map base.rehomeLeaf :=
    (congrArg (filter _) ((hout.leaves_insertChild hlist' hgrown i).1 _ hout.outside)).trans
      hshown
  refine ⟨p, us.map base.rehomeLeaf, block.map base.rehomeLeaf, base.rehomeLeaf nl, ⟨?_, ?_, rfl, ?_,
    ?_, (htexts us).trans hlined.indent_eq, by simpa using hlined.ne_nil, ?_, ?_, ?_, hopens⟩, ?_,
    hstart⟩
  · exact (hgrown.insertChild hlist' hout.has hout.free hout.root hout.outside).updateComments
  · exact hrewired.insertChild hlist' (not_has_rehome base laid.root) hout.has i
  · refine (hkids list).symm ▸ ?_
    rw [if_pos rfl]
    simp
  · show base.order.take p ++ laid.order.map base.rehomeLeaf ++ base.order.drop p = _
    rw [hlined.order_eq]
    simp
  · rw [firstLeaf?, head?_map, ← hlined.first, firstLeaf?, ← head?_map]
    exact congrArg _ hshown
  · rw [lastLeaf?, getLast?_map, ← hlined.last, lastLeaf?, ← getLast?_map]
    exact congrArg _ hshown
  · have htext := singleton_inj.1 (htexts [nl])
    exact (congrArg Layout.isBreak htext).trans hlined.ends
  · have hne : base.rehomeBranch laid.root ≠ list := by
      rintro rfl
      exact not_has_rehome base laid.root hlist
    have hput : ((base.withTokens p laid).insertChild list i
        (base.rehomeBranch laid.root)).kindsOf (base.rehomeBranch laid.root) =
          (base.graft laid).2.kindsOf (base.rehomeBranch laid.root) :=
      kindsOf_congr ((hkids _).trans (if_neg hne)) fun b => Forest.kindOf_insertChild ..
    rw [← hrelaid.root, ← kindsOf_of_retexted hrelaid.retexted]
    exact hput.trans (kindsOf_graft_rehome base laid laid.root)

end

end Lossless.Document
