import Lossless.Proofs.Clearing
import Lossless.Proofs.Keeping
import Lossless.Proofs.Placing

/-! Fragments that come in as the content of an optional or in the place of a container. -/

namespace Lossless

open List Forest Node

/-! ### Children -/

theorem replace_eq_insert {α : Type} [BEq α] [LawfulBEq α] {a : α} (b : α) {xs : List α}
    (h : a ∈ xs) : xs.replace a b =
      (xs.erase a).take (xs.idxOf a) ++ b :: (xs.erase a).drop (xs.idxOf a) := by
  induction xs with
  | nil => cases h
  | cons x xs ih =>
    by_cases hx : a = x
    · subst hx
      simp
    · have hbeq : (a == x) = false := beq_false_of_ne hx
      have ha := (mem_cons.1 h).resolve_left hx
      simp [replace_cons, hbeq, Ne.symm hx, ih ha]

namespace Forest

variable {f g : Forest} {b : Branch} {old new : Node}

/-- Another child comes in where one has left. -/
def exchange (f : Forest) (b : Branch) (old new : Node) : Forest :=
  (f.removeChild b old).insertChild b ((f.children b).idxOf old) new

theorem children_replaceChild_eq (hold : old ∈ f.children b) (new : Node) (c : Branch) :
    (f.replaceChild b old new).children c = (f.exchange b old new).children c := by
  have hb := has_of_mem_children hold
  rw [exchange, children_insertChild (has_removeChild.2 hb), children_replaceChild hb,
    children_removeChild, children_removeChild, if_pos rfl]
  split
  · exact replace_eq_insert new hold
  · rfl

theorem parent_replaceChild_eq (hold : old ∈ f.children b) (hhas : f.Has old) (hn : f.Has new)
    (m : Node) : (f.replaceChild b old new).parent m = (f.exchange b old new).parent m := by
  rw [exchange, parent_insertChild (has_removeChild.2 hn), parent_removeChild]
  simp only [replaceChild, parent_setParent, has_setParent, has_setChildren, parent_setChildren, hn,
    hold, hhas, and_true]

theorem Rewired.replaceChild (h : Rewired f g b) (hold : old ∈ g.children b)
    (hhas : g.Has old) (hnew : ¬ f.Has new) (hn : g.Has new) :
    Rewired f (g.replaceChild b old new) b := by
  have hexchange : Rewired f (g.exchange b old new) b :=
    (h.removeChild old).insertChild (has_removeChild.2 (has_of_mem_children hold)) hnew
      (has_removeChild.2 hn) _
  have hkids := children_replaceChild_eq hold new
  refine ⟨fun n hn => has_replaceChild.2 (h.has n hn), fun c hc => ?_, fun l hl => ?_, fun c hc hne => ?_,
    fun n hn hc => ?_, fun n hn hf => ?_⟩
  · exact (kindOf_replaceChild ..).trans (h.kindOf c hc)
  · exact (textOf_replaceChild ..).trans (h.textOf l hl)
  · exact (hkids c).trans (hexchange.children c hc hne)
  · exact (parent_replaceChild_eq hold hhas ‹_› n).trans (hexchange.parent n hn hc)
  · exact hexchange.old n (hkids b ▸ hn) hf

end Forest

namespace Document

variable {ok : Kind → Kind → Prop} {doc mid after fragment : Document}
  {b node c optional parent : Branch} {mark : Option Leaf}

namespace Evolves

theorem of_eq (h : Evolves ok doc mid) (hg : after.grammar = mid.grammar)
    (hr : after.root = mid.root) (hhas : ∀ n, mid.Has n → after.Has n)
    (hkind : ∀ b, after.kindOf b = mid.kindOf b) (htext : ∀ l, after.textOf l = mid.textOf l)
    (hchildren : ∀ b, after.children b = mid.children b)
    (hparent : ∀ n, after.parent n = mid.parent n) : Evolves ok doc after where
  start := h.start
  linked := h.linked.of_eq hchildren hparent
  grammar := hg.trans h.grammar
  root := hr.trans h.root
  has n hn := hhas n (h.has n hn)
  kindOf b hb := (hkind b).trans (h.kindOf b hb)
  textOf l hl := (htext l).trans (h.textOf l hl)
  edges p c hc := by
    rw [hchildren] at hc
    rw [hkind, hkind]
    exact h.edges p c hc

theorem replaceChild {old : Node} (h : Evolves ok doc mid)
    (hb : doc.Has b) (hold : old ∈ mid.children b) (hc : mid.Has c)
    (hfree : mid.parent c = none) (hnew : ¬ doc.Has c)
    (hok : ok (mid.kindOf b) (mid.kindOf c)) :
    Evolves ok doc (mid.replaceChild b old c) := by
  have hgone := h.removeChild b old
  have hfree' : (mid.removeChild b old).parent c = none := by
    refine (parent_removeChild ..).trans ?_
    rw [hfree, ite_self]
  have hexchange : Evolves ok doc ((mid.removeChild b old).insertChild b
      ((mid.children b).idxOf old) c) := by
    refine hgone.insertChild (hgone.has _ hb) (has_removeChild.2 hc) hfree' ?_ _
    rintro _ ⟨⟩
    have hkind : ∀ x, (mid.removeChild b old).kindOf x = mid.kindOf x :=
      fun x => kindOf_removeChild ..
    rw [hkind, hkind]
    exact ⟨hnew, hok, hgone.not_around hb hnew⟩
  refine hexchange.of_eq rfl rfl ?_ ?_ ?_ ?_ ?_
  · intro n hn
    exact has_replaceChild.2 (has_removeChild.1 (has_insertChild.1 hn))
  · intro x
    exact (kindOf_replaceChild ..).trans
      ((kindOf_insertChild ..).trans (kindOf_removeChild ..)).symm
  · intro l
    refine Eq.trans ?_ ((textOf_insertChild ..).trans (textOf_removeChild ..)).symm
    exact textOf_replaceChild ..
  · exact children_replaceChild_eq hold _
  · exact parent_replaceChild_eq hold (h.linked.has_child hold) hc

theorem pushChildren {nodes : List Node} (h : Evolves ok doc mid) (hb : doc.Has b)
    (hhas : ∀ n ∈ nodes, mid.Has n) (hfree : ∀ n ∈ nodes, mid.parent n = none)
    (hnodup : nodes.Nodup) (hnew : ∀ c, branch c ∈ nodes →
      ¬ doc.Has (.branch c) ∧ ok (mid.kindOf b) (mid.kindOf c)) :
    Evolves ok doc (nodes.foldl (·.pushChild b ·) mid) := by
  induction nodes generalizing mid with
  | nil => exact h
  | cons n nodes ih =>
    obtain ⟨hn, hnodup⟩ := nodup_cons.1 hnodup
    have hpush : mid.pushChild b n = mid.insertChild b (mid.children b).length n :=
      congrArg (fun f => { mid with toForest := f }) (pushChild_eq_insertChild ..)
    have hkind : ∀ x, (mid.pushChild b n).kindOf x = mid.kindOf x :=
      fun x => kindOf_pushChild ..
    rw [foldl_cons]
    refine ih ?_ ?_ ?_ hnodup ?_
    · rw [hpush]
      refine h.insertChild (h.has _ hb) (hhas n mem_cons_self)
        (hfree n mem_cons_self) ?_ _
      rintro c rfl
      obtain ⟨hc, hok⟩ := hnew c mem_cons_self
      exact ⟨hc, hok, h.not_around hb hc⟩
    · intro m hm
      exact has_pushChild.2 (hhas m (mem_cons_of_mem _ hm))
    · intro m hm
      refine (parent_pushChild (hhas n mem_cons_self) b m).trans ?_
      rw [if_neg (ne_of_mem_of_not_mem hm hn)]
      exact hfree m (mem_cons_of_mem _ hm)
    · intro c hc
      rw [hkind, hkind]
      exact hnew c (mem_cons_of_mem _ hc)

theorem clearOptional (h : Evolves ok doc mid) (rule : OptionalRule) (optional : Branch) :
    Evolves ok doc (mid.clearOptional rule optional) := by
  rcases mid.clearOptional_cases rule optional with he | ⟨trimmed, htrimmed, he⟩ <;> rw [he]
  · exact h.clearChildren optional
  · exact ((h.trans (htrimmed.evolves ok h.linked)).clearChildren optional).updateComments

end Evolves

/-! ### Optionals -/

theorem evolves_optionalPlace (h : doc.Linked) (rule : OptionalRule) (optional : Branch) :
    Evolves ok doc (doc.optionalPlace rule optional).2 := by
  unfold optionalPlace
  dsimp only
  split
  · exact evolves_makeRoom h optional
  · exact .refl h
  · split
    · exact .refl h
    · exact (Evolves.refl h).newToken _
  · exact .refl h

/-- The content of an optional is the fragment, indented and ended as its place asks. -/
theorem optionalContent_cases (hf : fragment.IsTree) (doc : Document) (rule : OptionalRule)
    (optional : Branch) : ∃ laid, fragment.Relaid laid ∧
      (doc.optionalContent rule optional fragment).1.root = doc.rehomeBranch fragment.root ∧
      ((doc.optionalContent rule optional fragment).2 = (doc.graft laid).2 ∨
        (doc.optionalContent rule optional fragment).2 = ((doc.graft laid).2.newToken " ").2) := by
  have hindent := hf.increaseIndent fragment.root (doc.indent optional)
  unfold optionalContent
  dsimp only
  split
  · have hline := hindent.trans hindent.tree.endLine
    refine ⟨_, hline, ?_, .inl rfl⟩
    exact congrArg doc.rehomeBranch hline.root
  · refine ⟨_, hindent, ?_, .inr rfl⟩
    exact congrArg doc.rehomeBranch hindent.root
  · exact ⟨fragment, .refl hf, rfl, .inl rfl⟩
  · exact ⟨fragment, .refl hf, rfl, .inl rfl⟩

theorem Waiting.newLiteral (h : Waiting doc mid fragment mark)
    (text : String) : Waiting doc (mid.newLiteral text).2 fragment mark := by
  rcases mid.newLiteral_cases text with he | he <;> rw [he]
  · exact h
  · exact h.newToken text

theorem Waiting.newMark (h : Waiting doc mid fragment mark) (text : String) :
    Waiting doc (mid.newLiteral text).2 fragment (mid.newLiteral text).1 := by
  have hnext := h.newLiteral text
  refine ⟨hnext.root_has, hnext.root_free, hnext.root_kind, ?_, ?_⟩
  · intro l hl
    rcases mid.newLiteral_cases text with he | he <;> rw [he] at hl ⊢ <;> cases hl
    exact has_newToken ..
  · intro l hl
    rcases mid.newLiteral_cases text with he | he <;> rw [he] at hl ⊢ <;> cases hl
    exact (parent_newToken ..).trans (parent_of_not_has (not_has_newToken _ _))

section

variable (h : doc.Linked) (hf : fragment.IsTree)
  (hedges : ∀ p c, branch c ∈ fragment.children p → ok (fragment.kindOf p) (fragment.kindOf c))
include h hf hedges

theorem evolves_optionalContent (rule : OptionalRule) (optional : Branch) :
    Evolves ok doc (doc.optionalContent rule optional fragment).2 ∧
      Waiting doc (doc.optionalContent rule optional fragment).2 fragment none := by
  obtain ⟨laid, hlaid, -, he⟩ := optionalContent_cases hf doc rule optional
  have hgraft : Evolves ok doc (doc.graft laid).2 := by
    refine (Evolves.refl h).graft hlaid.tree.linked fun p c hc => ?_
    rw [hlaid.retexted.kindOf, hlaid.retexted.kindOf]
    exact hedges p c (hlaid.retexted.children p ▸ hc)
  have hwaiting : Waiting doc (doc.graft laid).2 fragment none := by
    have hw := waiting_graft hlaid.tree doc
    exact ⟨hlaid.root ▸ hw.root_has, hlaid.root ▸ hw.root_free,
      hlaid.root ▸ hw.root_kind.trans hlaid.rootKind, hw.mark_has, hw.mark_free⟩
  rcases he with he | he <;> rw [he]
  · exact ⟨hgraft, hwaiting⟩
  · exact ⟨hgraft.newToken " ", hwaiting.newToken " "⟩

theorem evolves_fillOptional (hb : doc.Has optional)
    (hok : ok (doc.kindOf optional) fragment.rootKind) (rule : OptionalRule) :
    Evolves ok doc (doc.fillOptional rule optional fragment).2 := by
  have hplace : Evolves ok doc (doc.optionalPlace rule optional).2 :=
    evolves_optionalPlace h rule optional
  unfold fillOptional
  dsimp only
  generalize doc.optionalPlace rule optional = place at hplace ⊢
  obtain ⟨hcontent, hwait⟩ := evolves_optionalContent hplace.linked hf hedges rule optional
  obtain ⟨-, -, hroot, -⟩ := optionalContent_cases hf place.2 rule optional
  generalize place.2.optionalContent rule optional fragment = content at hcontent hwait hroot ⊢
  have hopen := hwait.newMark rule.opening
  have hopened := (hplace.trans hcontent).newLiteral rule.opening
  generalize content.2.newLiteral rule.opening = opening at hopen hopened ⊢
  have hclose := hopen.newMark rule.closing
  have hopen' := hopen.newLiteral rule.closing
  have hclosed := hopened.newLiteral rule.closing
  have hfresh : ∀ l ∈ (opening.2.newLiteral rule.closing).1, ¬ opening.2.Has l := by
    intro l hl
    rcases opening.2.newLiteral_cases rule.closing with he | he <;> rw [he] at hl <;> cases hl
    exact not_has_newToken _ _
  generalize opening.2.newLiteral rule.closing = closing at hclose hopen' hclosed hfresh ⊢
  have hcases : ∀ n ∈ opening.1.toList.map leaf ++ [.branch content.1.root] ++
      closing.1.toList.map leaf, (∃ l ∈ opening.1, n = .leaf l) ∨
        n = .branch (place.2.rehomeBranch fragment.root) ∨ ∃ l ∈ closing.1, n = .leaf l := by
    intro n hn
    rw [hroot] at hn
    simpa [or_assoc, eq_comm] using hn
  refine Evolves.updateComments (Evolves.pushChildren (hclosed.insertAt ..) hb ?_ ?_ ?_ ?_)
  · intro n hn
    rcases hcases n hn with ⟨l, hl, rfl⟩ | rfl | ⟨l, hl, rfl⟩
    · exact hopen'.mark_has l hl
    · exact hclose.root_has
    · exact hclose.mark_has l hl
  · intro n hn
    rcases hcases n hn with ⟨l, hl, rfl⟩ | rfl | ⟨l, hl, rfl⟩
    · exact hopen'.mark_free l hl
    · exact hclose.root_free
    · exact hclose.mark_free l hl
  · have hne : ∀ l ∈ opening.1, ∀ m ∈ closing.1, l ≠ m := by
      rintro l hl _ hm rfl
      exact hfresh l hm (hopen.mark_has l hl)
    cases ho : opening.1 <;> cases hc : closing.1 <;> simp
    exact hne _ ho _ hc
  · intro c hc
    rcases hcases _ hc with ⟨_, _, he⟩ | he | ⟨_, _, he⟩ <;> cases he
    refine ⟨fun hd => not_has_rehome place.2 fragment.root (hplace.has _ hd), ?_⟩
    have hkind : ∀ x, (closing.2.insertAt place.1.1 (place.1.2 ++ opening.1.toList ++
      content.1.leaves ++ closing.1.toList)).kindOf x = closing.2.kindOf x := fun _ => rfl
    rw [hkind, hkind, hclosed.kindOf _ hb, hclose.root_kind]
    exact hok

theorem evolves_swapped (hp : doc.parent node = some parent)
    (hok : ok (doc.kindOf parent) fragment.rootKind) :
    Evolves ok doc (doc.substitute node fragment).2 ∧
      Evolves ok doc (Edit.swapped doc node parent fragment) := by
  have hgraft : Evolves ok doc ((doc.discard (doc.coveredLeaves node)).graft fragment).2 :=
    ((Evolves.refl h).discard _).graft hf.linked hedges
  have hsub : Evolves ok doc (doc.substitute node fragment).2 := hgraft.insertAt ..
  have hw := waiting_graft hf (doc.discard (doc.coveredLeaves node))
  refine ⟨hsub, Evolves.updateComments (hsub.replaceChild (h.has_parent hp) ?_ hw.root_has hw.root_free
    (not_has_rehome doc fragment.root) ?_)⟩
  · have hchildren : (doc.substitute node fragment).2.children parent = doc.children parent :=
      children_graft_of_has (h.has_parent hp) ..
    exact hchildren ▸ h.up hp
  · have hkind : (doc.substitute node fragment).2.kindOf (doc.substitute node fragment).1 =
      fragment.rootKind := hw.root_kind
    rw [hsub.kindOf _ (h.has_parent hp), hkind]
    exact hok

end

end Document
end Lossless
