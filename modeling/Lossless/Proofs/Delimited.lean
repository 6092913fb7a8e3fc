import Lossless.Proofs.Calls
import Lossless.Proofs.Fragments
import Lossless.Proofs.Inserting
import Lossless.Proofs.Removing
import Lossless.Proofs.Runs

/-! Delimited lists as sequences of texts. Between its brackets a list shows the texts of its
elements with a delimiter and a space between them, whatever is put in and taken out. -/

namespace Lossless

open List Layout Entry

variable {doc doc' fragment : Document} {rule : ListRule} {list : Branch} {s : Brackets}
  {entries : List Entry} {e : Entry} {l : Leaf}

namespace Document

def elementTexts (doc : Document) (list : Branch) : List String :=
  (doc.elements list).map fun e => doc.visibleText (.branch e)

/-- A list stands between two brackets that are a pair. Between them there is nothing but its
elements, each from ink to ink, with a delimiter and a space before all but the first. -/
structure Delimited (doc : Document) (rule : ListRule) (list : Branch) (s : Brackets)
    (entries : List Entry) : Prop where
  rule_eq : doc.listRule? list = some rule
  parent_plain : ∀ p, doc.parent list = some p →
    doc.optionalRule? p = none ∧ doc.grammar.isTuple (doc.kindOf p) = false
  order_eq : doc.order = s.around (Entry.body entries)
  children_eq : doc.children list = Entry.children entries
  alternate : Entry.Alternate entries
  accepted : ∀ e ∈ entries, rule.accepts (doc.kindOf e.element) = true
  covered : ∀ e ∈ entries, doc.coveredLeaves (.branch e.element) = e.leaves
  inked : ∀ e ∈ entries, Layout.InkedEnds (e.leaves.map doc.textOf)
  joint : ∀ e ∈ entries, ∀ j, e.joint = some j →
    doc.textOf j.1 = rule.delimiter ∧ doc.textOf j.2 = " "
  left : doc.leftLeaf? list = some s.opening
  right : doc.rightLeaf? list = some s.closing
  enclosed : enclosures.contains (doc.textOf s.opening, doc.textOf s.closing) = true

theorem before_of_mem_body {body : List Leaf} (hl : l ∈ body) :
    Before (s.around body) s.opening l ∧ Before (s.around body) l s.closing := by
  constructor
  · exact (before_cons (by simp [hl])).mono (sublist_append_right ..)
  · have : Before (body ++ s.closing :: s.after) l s.closing := before_append hl (by simp)
    exact (this.mono (sublist_cons_self ..)).mono (sublist_append_right ..)

section

variable (h : doc.Delimited rule list s entries) (htree : doc.IsTree) (hordered : doc.Ordered)
include h htree hordered

theorem Delimited.not_mem_body
    (hl : l ∈ doc.leftLeaves list ++ doc.rightLeaves list) :
    l ∉ body entries := by
  intro hbody
  have hn : (s.around (body entries)).Nodup := h.order_eq ▸ htree.order_nodup
  obtain ⟨hopening, hclosing⟩ := before_of_mem_body (s := s) hbody
  have hsub := surroundings_sublist htree hordered list
  rw [filter_append, filter_append] at hsub
  have hvisible : doc.order.contains l := by
    rw [contains_iff_mem, h.order_eq]
    exact mem_around.2 (.inl hbody)
  have hleft := h.left
  have hright := h.right
  rw [leftLeaf?_eq htree.linked] at hleft
  rw [rightLeaf?_eq htree.linked] at hright
  rw [h.order_eq] at hsub hleft hright hvisible
  rcases mem_append.1 hl with hl | hl
  · -- the opening bracket is the last token on the left
    obtain ⟨init, hinit⟩ := getLast?_eq_some_iff.1 hleft
    have hp := pairwise_before ((sublist_append_left ..).trans hsub)
    have hm := mem_filter.2 ⟨hl, hvisible⟩
    rw [hinit] at hp hm
    rcases mem_append.1 hm with hm | hm
    · exact before_asymm hn hopening ((pairwise_append.1 hp).2.2 l hm _ (by simp))
    · exact hopening.ne hn (mem_singleton.1 hm).symm
  · -- the closing bracket is the first token on the right
    obtain ⟨rest, hrest⟩ := head?_eq_some_iff.1 hright
    have hp := pairwise_before (((sublist_append_right ..).trans
      (sublist_append_right ..)).trans hsub)
    have hm := mem_filter.2 ⟨hl, hvisible⟩
    rw [hrest] at hp hm
    rcases mem_cons.1 hm with hm | hm
    · exact hclosing.ne hn hm
    · exact before_asymm hn hclosing ((pairwise_cons.1 hp).1 l hm)

theorem Delimited.fills (he : e ∈ entries) : doc.Fills rule e := by
  have hcovered := h.covered e he
  have hne : doc.coveredLeaves e.element ≠ [] := by
    intro hnil
    obtain ⟨⟨t, ht, -⟩, -⟩ := h.inked e he
    rw [← hcovered, hnil] at ht
    cases ht
  obtain ⟨hfirst, hlast⟩ := coveredLeaves_ends hne
  rw [hcovered] at hfirst hlast
  refine ⟨h.accepted e he, fun l hl => ?_, hfirst.symm, hlast.symm, h.inked e he⟩
  obtain ⟨r, hr⟩ := exists_range? hl
  obtain ⟨i, hi⟩ := exists_position (mem_visibleLeaves.1 hl).2
  obtain ⟨hstart, hstop⟩ := mem_range_of_sublist htree.order_nodup
    ((ordered_iff htree).1 hordered _) hr hl hi
  rw [← hcovered, coveredLeaves, hr]
  have hget : ((doc.order.drop r.start).take (r.stop - r.start))[i - r.start]? = some l := by
    rw [getElem?_take_of_lt (by omega), getElem?_drop, Nat.add_sub_cancel' hstart]
    exact getElem?_of_idxOf? hi
  exact mem_of_getElem? hget

theorem Delimited.joined : doc.Joined rule list s entries where
  tree := htree
  rule_eq := h.rule_eq
  parent_plain := h.parent_plain
  order_eq := h.order_eq
  children_eq := h.children_eq
  alternate := h.alternate
  fills _ he := h.fills htree hordered he
  joint := h.joint
  left := h.left
  right := h.right
  enclosed := h.enclosed
  outside _ hl := h.not_mem_body htree hordered hl

end

/-! ### Texts -/

theorem Joined.elements_eq (h : doc.Joined rule list s entries) :
    doc.elements list = entries.map element := by
  have hshape : doc.shapeOf list = .list rule := by
    have hrule := h.rule_eq
    rw [listRule?, Grammar.listRule?] at hrule
    rw [shapeOf]
    split at hrule
    · next hs => rw [hs, Option.some.inj hrule]
    · cases hrule
  rw [elements, hshape]
  exact h.listElements_eq

theorem Joined.elementTexts_eq (h : doc.Joined rule list s entries) :
    doc.elementTexts list = doc.entryTexts entries := by
  rw [elementTexts, h.elements_eq, map_map]
  refine map_congr_left fun e he => ?_
  rw [Function.comp_apply, visibleText_eq, h.coveredLeaves_entry he]

theorem join_jointLeaves {j : Leaf × Leaf} (hj : e.joint = some j)
    (ht : doc.textOf j.1 = rule.delimiter ∧ doc.textOf j.2 = " ") :
    join (e.jointLeaves.map doc.textOf) = rule.delimiter ++ " " := by
  simp [jointLeaves, hj, ht.1, ht.2, join]

theorem join_body (hlater : ∀ f ∈ entries, f.joint.isSome)
    (hjoint : ∀ f ∈ entries, ∀ j, f.joint = some j →
      doc.textOf j.1 = rule.delimiter ∧ doc.textOf j.2 = " ") :
    join ((body (e :: entries)).map doc.textOf) =
      join (e.jointLeaves.map doc.textOf) ++
        (rule.delimiter ++ " ").intercalate (doc.entryTexts (e :: entries)) := by
  induction entries generalizing e with
  | nil => simp [entryTexts, join_append]
  | cons f entries ih =>
    obtain ⟨j, hj⟩ := Option.isSome_iff_exists.1 (hlater f (by simp))
    have hrest := ih (e := f) (fun g hg => hlater g (by simp [hg]))
      fun g hg => hjoint g (by simp [hg])
    rw [join_jointLeaves hj (hjoint f (by simp) j hj)] at hrest
    rw [body_cons, map_append, map_append, join_append, join_append,
      hrest]
    simp only [entryTexts, map_cons, String.intercalate_cons_cons, String.append_assoc]

theorem Joined.join_body (h : doc.Joined rule list s entries) :
    join ((body entries).map doc.textOf) =
      (rule.delimiter ++ " ").intercalate (doc.elementTexts list) := by
  rw [h.elementTexts_eq]
  cases entries with
  | nil => rfl
  | cons e entries =>
    have hlater : ∀ f ∈ entries, f.joint.isSome := h.alternate.later
    rw [Document.join_body hlater fun f hf => h.joint f (mem_cons_of_mem _ hf)]
    simp [jointLeaves, h.alternate.first e rfl, join]

end Document

/-! ### Steps -/

inductive ListStep where
  | add (index : Nat) (fragment : Document)
  | remove (index : Nat)
  | clear

namespace ListStep

def run (list : Branch) : ListStep → Edit Unit
  | add index fragment => discard <| Edit.add list index fragment
  | remove index => do
    match ((← get).elements list)[index]? with
    | some element => discard <| Edit.removeElement list element
    | none => return
  | clear => Edit.clearList list

def onTexts : ListStep → List String → List String
  | add index fragment, texts => texts.insertIdx index fragment.code
  | remove index, texts => texts.eraseIdx index
  | clear, _ => []

/-- The step is possible in a list of so many elements. What is added is no comment, and starts and
ends with ink. -/
def Fits (rule : ListRule) (count : Nat) : ListStep → Prop
  | add index fragment => index ≤ count ∧ fragment.IsTree ∧ fragment.rootKind ≠ .comment ∧
      rule.accepts fragment.rootKind = true ∧
      Layout.InkedEnds ((fragment.coveredLeaves fragment.root).map fragment.textOf)
  | remove index => index < count
  | clear => True

def FitAll (rule : ListRule) : List ListStep → List String → Prop
  | [], _ => True
  | step :: steps, texts => step.Fits rule texts.length ∧ FitAll rule steps (step.onTexts texts)

end ListStep

namespace Edit

open Document

variable (h : doc.Joined rule list s entries) (hplain : rule.IsPlain)
include h hplain

theorem run_add {index : Nat} (hindex : index ≤ entries.length)
    (hkind : rule.accepts fragment.rootKind) :
    (add list index fragment).run doc =
      .ok (doc.insertBeside rule list index (rule.wrap fragment)).1
        (doc.insertBeside rule list index (rule.wrap fragment)).2 := by
  have hlength : ¬ (doc.listElements rule list).length < index := by
    rw [h.listElements_eq, length_map]
    omega
  simp [add, run_listRule h.rule_eq, checkKind, hkind, hlength, placeholder?, hplain.placeholder,
    dropPlaceholder]

theorem run_removeElement (he : e ∈ entries) :
    ∃ taken, (removeElement list e.element).run doc =
      .ok taken (doc.detachElement rule list e.element) := by
  have hparent : doc.parent e.element = some list := by
    refine h.tree.linked.down ?_
    rw [h.children_eq]
    exact element_mem_children he
  have haround : doc.optionalAround? list = none := by
    rw [optionalAround?]
    cases hp : doc.parent list with
    | none => rfl
    | some p => simp [(h.parent_plain p hp).1]
  refine ⟨doc.extract e.element (doc.coveredLeaves e.element), ?_⟩
  simp [removeElement, run_listRule h.rule_eq, hparent, takeFrom, ListRule.isPadded, hplain.padding,
    takeElement, haround, refill, hplain.placeholder]

theorem run_clearList : (clearList list).run doc = .ok () (doc.emptyList rule list) := by
  have haround : (doc.emptyList rule list).optionalAround? list = none := by
    have hempty := h.emptyList hplain.inLine
    rw [optionalAround?]
    cases hp : (doc.emptyList rule list).parent list with
    | none => rfl
    | some p => simp [(hempty.parent_plain p hp).1]
  have hfirst : doc.retainedFirst? rule list = none := by
    simp [retainedFirst?, hplain.retained]
  simp [clearList, run_listRule h.rule_eq, hfirst, haround, refill, hplain.placeholder]

end Edit

/-! ### Runs -/

section

open Document

/-- One step on a list is the same step on the texts of its elements. -/
theorem ListStep.exists_run (step : ListStep) (h : doc.Joined rule list s entries)
    (hplain : rule.IsPlain) (hfits : step.Fits rule entries.length) :
    ∃ doc' entries', (step.run list).run doc = .ok () doc' ∧ doc'.Joined rule list s entries' ∧
      doc'.entryTexts entries' = step.onTexts (doc.entryTexts entries) ∧
      doc.Grows doc' := by
  have hdelimiter : rule.delimiter.isEmpty = false := by
    have hblank := hplain.delimiter
    by_contra hempty
    rw [Bool.not_eq_false, String.isEmpty_iff] at hempty
    rw [hempty] at hblank
    cases hblank
  cases step with
  | add index fragment =>
    obtain ⟨hindex, htree, hcomment, hkind, hink⟩ := hfits
    have hwrap : (rule.wrap fragment).IsTree := ListRule.isTree_wrap htree
    have hroot : rule.accepts (rule.wrap fragment).rootKind := by
      rw [ListRule.rootKind_wrap hcomment, ListRule.accepts, beq_self_eq_true, Bool.true_or]
    have htexts : ((rule.wrap fragment).coveredLeaves (.branch (rule.wrap fragment).root)).map
        (rule.wrap fragment).textOf =
        (fragment.coveredLeaves fragment.root).map fragment.textOf := by
      rw [ListRule.coveredLeaves_wrap htree]
      exact map_congr_left fun l _ => ListRule.textOf_wrap l
    have hcode : (rule.wrap fragment).code = fragment.code := by
      rw [code, code, visibleText_eq, visibleText_eq, htexts]
    obtain ⟨entries', hjoined, hnew⟩ := h.insertBeside hindex hdelimiter hwrap hroot
      (htexts.symm ▸ hink)
    rw [hcode] at hnew
    refine ⟨_, entries', ?_, hjoined, hnew, ?_⟩
    · simp [ListStep.run, Edit.run_add h hplain hindex hkind]
    · exact evolves_insertBeside h.tree.linked h.has_list hwrap (fun _ _ _ => trivial) trivial ..
  | remove index =>
    have hindex : index < entries.length := hfits
    obtain ⟨pre, e, post, rfl, rfl⟩ : ∃ pre e post, entries = pre ++ e :: post ∧
        pre.length = index := by
      refine ⟨entries.take index, entries[index], entries.drop (index + 1), ?_, by simp; omega⟩
      rw [getElem_cons_drop, take_append_drop]
    obtain ⟨entries', hjoined, hnew⟩ := h.detachElement hdelimiter
    obtain ⟨taken, hrun⟩ := Edit.run_removeElement h hplain (e := e) (by simp)
    have helement : (doc.elements list)[pre.length]? = some e.element := by
      rw [h.elements_eq]
      simp
    refine ⟨_, entries', ?_, hjoined, hnew, evolves_detachElement h.tree.linked ..⟩
    simp [ListStep.run, helement, hrun]
  | clear =>
    exact ⟨_, [], Edit.run_clearList h hplain, h.emptyList hplain.inLine, rfl,
      evolves_emptyList h.tree.linked ..⟩

/-- Steps on a list are the same steps on the texts of its elements. -/
theorem ListStep.exists_run_all (steps : List ListStep) (h : doc.Joined rule list s entries)
    (hplain : rule.IsPlain) (hfits : ListStep.FitAll rule steps (doc.entryTexts entries)) :
    ∃ doc' entries', (steps.forM (ListStep.run list)).run doc = .ok () doc' ∧
      doc'.Joined rule list s entries' ∧
      doc'.entryTexts entries' =
        steps.foldl (fun texts step => step.onTexts texts) (doc.entryTexts entries) ∧
      doc.Grows doc' := by
  induction steps generalizing doc entries with
  | nil => exact ⟨doc, entries, rfl, h, rfl, .refl h.tree.linked⟩
  | cons step steps ih =>
    obtain ⟨hstep, hsteps⟩ := hfits
    have hcount : (doc.entryTexts entries).length = entries.length := length_map ..
    obtain ⟨mid, entries₁, hrun, hjoined, htexts, hev⟩ := step.exists_run h hplain (hcount ▸ hstep)
    obtain ⟨doc', entries', hrun', hjoined', htexts', hev'⟩ := ih hjoined (htexts ▸ hsteps)
    refine ⟨doc', entries', ?_, hjoined', ?_, hev.trans hev'⟩
    · rw [forM_eq_forM, forM_cons, EStateM.run_bind, hrun]
      exact hrun'
    · rw [htexts', htexts, foldl_cons]

/-- A delimited list is a sequence of texts. After any run of steps its brackets are still there with
what is outside them, and between them stand the texts that the same steps leave of the texts of its
elements, joined by the delimiter and a space. -/
theorem delimited_run (hplain : rule.IsPlain) (htree : doc.IsTree) (hordered : doc.Ordered)
    (h : doc.Delimited rule list s entries) {steps : List ListStep}
    (hfits : ListStep.FitAll rule steps (doc.elementTexts list)) :
    ∃ doc' body, (steps.forM (ListStep.run list)).run doc = .ok () doc' ∧
      doc'.order = s.around body ∧
      (∀ l ∈ s.around [], doc'.textOf l = doc.textOf l) ∧
      doc'.elementTexts list =
        steps.foldl (fun texts step => step.onTexts texts) (doc.elementTexts list) ∧
      Layout.join (body.map doc'.textOf) =
        (rule.delimiter ++ " ").intercalate (doc'.elementTexts list) := by
  have hjoined := h.joined htree hordered
  rw [hjoined.elementTexts_eq] at hfits ⊢
  obtain ⟨doc', entries', hrun, hjoined', htexts, hev⟩ :=
    ListStep.exists_run_all steps hjoined hplain hfits
  refine ⟨doc', Entry.body entries', hrun, hjoined'.order_eq, fun l hl => ?_, ?_,
    hjoined'.join_body⟩
  · refine hev.textOf l (htree.order_has l ?_)
    rw [h.order_eq]
    exact mem_around.2 (.inr hl)
  · rw [hjoined'.elementTexts_eq, htexts]

/-- Arguments of a call, one of them on two lines. -/
theorem delimited_run_arguments :
    let start : Builder := { grammar := .javaScript, source := "f(a, b)" }
    let calls : List Builder.Call :=
      [.openNode .program, .openNode .call, .openNode .identifier, .token "f", .closeNode,
        .token "(", .openNode .argumentList, .openNode .argument, .token "a", .closeNode, .token ",",
        .openNode .argument, .token "b", .closeNode, .closeNode, .token ")", .closeNode, .closeNode]
    let steps : List ListStep :=
      [.add 1 (.ofSource .javaScript .argument "x +\n y"), .remove 0,
        .add 2 (.ofSource .javaScript .argument "z")]
    let s : Brackets := ⟨[⟨0⟩], ⟨1⟩, ⟨6⟩, []⟩
    ∃ doc doc' body, (start.run calls).finish = .ok doc ∧
      (steps.forM (ListStep.run ⟨3⟩)).run doc = .ok () doc' ∧ doc'.order = s.around body ∧
      Layout.join (body.map doc'.textOf) = "x +\n y, b, z" := by
  intro start calls steps s
  let doc := (start.run calls).built
  let entries : List Entry := [⟨none, ⟨4⟩, [⟨2⟩]⟩, ⟨some (⟨3⟩, ⟨4⟩), ⟨5⟩, [⟨5⟩]⟩]
  let rule : ListRule := .delimited .argument ","
  have hfinish : (start.run calls).finish = .ok doc := by decide +kernel
  have hplain : rule.IsPlain := ⟨rfl, by decide, rfl, rfl, rfl⟩
  have hdelimited : doc.Delimited rule ⟨3⟩ s entries := by
    refine ⟨by decide +kernel, fun p hp => ?_, by decide +kernel, by decide +kernel,
      ⟨by decide, by decide⟩, by decide +kernel, by decide +kernel, by decide, ?_, by decide +kernel,
      by decide, by decide⟩
    · obtain rfl : p = ⟨1⟩ := Option.some.inj (hp.symm.trans (by decide +kernel))
      decide +kernel
    · have hjoint : ∀ e ∈ entries, ∀ j ∈ e.joint,
          doc.textOf j.1 = rule.delimiter ∧ doc.textOf j.2 = " " := by decide +kernel
      exact hjoint
  have hfits : ListStep.FitAll rule steps (doc.elementTexts ⟨3⟩) := by
    have htexts : doc.elementTexts ⟨3⟩ = ["a", "b"] := by decide +kernel
    rw [htexts]
    refine ⟨⟨by decide, isTree_ofSource .., by decide, by decide, by decide⟩, Nat.zero_lt_succ _,
      ⟨by decide, isTree_ofSource .., by decide, by decide, by decide⟩, trivial⟩
  obtain ⟨htree, hordered⟩ := Builder.isTree_of_run hfinish
  obtain ⟨doc', body, hrun, horder, -, htexts, hjoin⟩ :=
    delimited_run hplain htree hordered hdelimited hfits
  refine ⟨doc, doc', body, hfinish, hrun, horder, ?_⟩
  rw [hjoin, htexts]
  decide +kernel

end

end Lossless
