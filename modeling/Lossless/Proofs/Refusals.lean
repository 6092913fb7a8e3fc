import Lossless.Grammar.Python
import Lossless.Proofs.Calls
import Lossless.Proofs.Clearing
import Lossless.Proofs.Placing

/-! Refused edits. Every public edit of an ordered tree either goes through or is refused before it
has changed anything. -/

namespace Lossless

open List Option Forest Document ListRule EStateM

inductive Request where
  | openList (list : Branch)
  | openOptional (optional : Branch)
  | addAtLine (list : Branch) (line : Nat) (fragment : Document)
  | add (list : Branch) (index : Nat) (fragment : Document)
  | removeElement (list element : Branch)
  | clearList (list : Branch)
  | set (optional : Branch) (fragment : Document)
  | clearOptional (optional : Branch)
  | remove (node : Node)
  | replace (node : Branch) (fragment : Document)

namespace Request

def run : Request → Edit Unit
  | .openList list => discard <| Edit.listRule list
  | .openOptional optional => discard <| Edit.optionalRule optional
  | .addAtLine list line fragment => discard <| Edit.addAtLine list line fragment
  | .add list index fragment => discard <| Edit.add list index fragment
  | .removeElement list element => discard <| Edit.removeElement list element
  | .clearList list => Edit.clearList list
  | .set optional fragment => discard <| Edit.set optional fragment
  | .clearOptional optional => Edit.clearOptional optional
  | .remove node => Edit.remove node
  | .replace node fragment => discard <| Edit.replace node fragment

def fragment? : Request → Option Document
  | .addAtLine _ _ fragment | .add _ _ fragment | .set _ fragment | .replace _ fragment =>
    some fragment
  | _ => none

end Request

namespace Edit

variable {α β : Type} {doc mid fragment : Document} {rule : ListRule}
  {list element b optional parent retained : Branch} {e : Error} {elements : List Branch}
  {r : Removal}

/-- An edit that fails only before it has changed anything, and says why. -/
def Refuses (x : Edit α) (doc : Document) : Prop :=
  ∀ e after, x.run doc = .error e after →
    after = doc ∧ (e.category = .contract ∨ e = .detachedNode)

namespace Refuses

theorem of_ok {x : Edit α} (h : ∃ a after, x.run doc = .ok a after) : x.Refuses doc := by
  intro e after he
  obtain ⟨a, after', ha⟩ := h
  rw [ha] at he
  cases he

theorem throw (h : e.category = .contract ∨ e = .detachedNode) :
    (MonadExcept.throw e : Edit α).Refuses doc := by
  rintro _ _ ⟨⟩
  exact ⟨rfl, h⟩

/-- What follows a step refuses if the step changes nothing, and goes through if it does. -/
theorem bind {x : Edit α} {f : α → Edit β} (hx : x.Refuses doc)
    (hf : ∀ a mid, x.run doc = .ok a mid →
      mid = doc ∧ (f a).Refuses doc ∨ ∃ b after, (f a).run mid = .ok b after) :
    (x >>= f).Refuses doc := by
  intro e after hrun
  rcases run_bind_eq_error hrun with he | ⟨a, mid, ha, he⟩
  · exact hx e after he
  · rcases hf a mid ha with ⟨hmid, hf⟩ | ⟨b, after', hb⟩
    · exact hf e after (hmid ▸ he)
    · rw [hb] at he
      cases he

theorem bind_error {x : Edit α} {f : α → Edit β} (h : x.run doc = .error e doc)
    (he : e.category = .contract) : (x >>= f).Refuses doc := by
  intro e' after hrun
  rw [run_bind, h] at hrun
  cases hrun
  exact ⟨rfl, Or.inl he⟩

theorem discard {x : Edit α} (h : x.Refuses doc) : (Functor.discard x).Refuses doc := by
  intro e after he
  rw [run_discard] at he
  cases hx : x.run doc with
  | ok a mid =>
    rw [hx] at he
    cases he
  | error e' mid =>
    rw [hx] at he
    cases he
    exact h e after hx

end Refuses

theorem refuses_listRule (list : Branch) : (listRule list).Refuses doc := by
  intro e after he
  simp only [listRule, run_bind, run_get] at he
  split at he
  · cases he
  · cases he
    exact ⟨rfl, Or.inl rfl⟩

theorem run_listRule_eq_ok (h : (listRule list).run doc = .ok rule mid) :
    mid = doc ∧ doc.listRule? list = some rule := by
  simp only [listRule, run_bind, run_get] at h
  split at h
  · next hrule =>
    cases h
    exact ⟨rfl, hrule⟩
  · cases h

theorem refuses_optionalRule (optional : Branch) : (optionalRule optional).Refuses doc := by
  intro e after he
  simp only [optionalRule, run_bind, run_get] at he
  split at he
  · cases he
  · cases he
    exact ⟨rfl, Or.inl rfl⟩

theorem run_optionalRule_eq_ok {rule : OptionalRule}
    (h : (optionalRule optional).run doc = .ok rule mid) :
    mid = doc ∧ doc.optionalRule? optional = some rule := by
  simp only [optionalRule, run_bind, run_get] at h
  split at h
  · next hrule =>
    cases h
    exact ⟨rfl, hrule⟩
  · cases h

theorem Refuses.withRule {f : ListRule → Edit α}
    (h : ∀ rule, doc.listRule? list = some rule → (f rule).Refuses doc) :
    (listRule list >>= f).Refuses doc := by
  refine (refuses_listRule list).bind fun rule mid hrun => Or.inl ?_
  obtain ⟨hmid, hrule⟩ := run_listRule_eq_ok hrun
  exact ⟨hmid, h rule hrule⟩

theorem Refuses.get {f : Document → Edit α} (h : (f doc).Refuses doc) :
    (MonadState.get >>= f : Edit α).Refuses doc :=
  h

theorem Refuses.checkKind {x : Edit α}
    (h : fragment.rootKind = .comment ∨ rule.accepts fragment.rootKind = true → x.Refuses doc) :
    (checkKind rule list fragment >>= fun _ => x).Refuses doc := by
  intro e after he
  by_cases hkind : fragment.rootKind = .comment ∨ rule.accepts fragment.rootKind = true
  · refine h hkind e after ?_
    simpa [Edit.checkKind, hkind] using he
  · simp [Edit.checkKind, hkind] at he
    obtain ⟨rfl, rfl⟩ := he
    exact ⟨rfl, Or.inl rfl⟩

/-! ### Lists -/

section

variable (h : doc.IsTree) (ho : doc.Ordered)
include h ho

theorem level_of_ordered (hc : .branch element ∈ doc.children list) : doc.Level list element :=
  ⟨bracketed_of_ordered h ho (has_of_mem_children hc), hc,
    (ordered_iff h).1 ho _⟩

theorem unfolds_of_ordered (rule : ListRule) (list : Branch) : doc.Unfolds rule list := by
  by_cases hlist : doc.Has list
  · exact (bracketed_of_ordered h ho hlist).unfolds rule
  · intro hs
    obtain ⟨r, hr, -⟩ := exists_right_of_isSqueezed h.linked hs
    rw [rightLeaves_of_none (parent_of_not_has hlist)] at hr
    cases hr

theorem refuses_removeElement (list element : Branch) : (removeElement list element).Refuses doc := by
  refine .withRule fun rule hrule => .get ?_
  split
  · next hp => exact .of_ok (exists_run_takeFrom (level_of_ordered h ho (h.linked.up hp)) rule)
  · split
    · exact .throw (Or.inl rfl)
    · exact .throw (Or.inl rfl)

end

theorem listElements_of_placeholder? (h : doc.placeholder? rule list = some element) :
    doc.listElements rule list = [element] := by
  rw [placeholder?] at h
  obtain ⟨placeholder, -, h⟩ := bind_eq_some_iff.1 h
  split at h
  · split at h
    · next only hone =>
      split at h
      · cases h
        exact hone
      · cases h
    · cases h
  · cases h

theorem mem_of_placeholder? (h : doc.placeholder? rule list = some element) :
    element ∈ doc.listElements rule list :=
  listElements_of_placeholder? h ▸ mem_singleton_self _

theorem exists_run_dropPlaceholder {placeholder : Option Branch}
    (h : ∀ p ∈ placeholder, ∃ taken after, (takeFrom rule list p).run doc = .ok taken after) :
    ∃ after, (dropPlaceholder rule list placeholder).run doc = .ok () after := by
  cases placeholder with
  | none => exact ⟨doc, rfl⟩
  | some p =>
    obtain ⟨taken, after, hrun⟩ := h p rfl
    exact ⟨after, by simp [dropPlaceholder, hrun]⟩

section

variable (h : doc.IsTree) (ho : doc.Ordered) (hf : fragment.IsTree)
include h ho hf

theorem exists_run_dropPlaceholder_beside (rule : ListRule) (list : Branch) (index : Nat) :
    ∃ after, (dropPlaceholder rule list (doc.placeholder? rule list)).run
      (doc.insertBeside rule list index (rule.wrap fragment)).2 = .ok () after := by
  refine exists_run_dropPlaceholder fun p hp => exists_run_takeFrom ?_ rule
  have hchild := (mem_listElements.1 (mem_of_placeholder? hp)).1
  exact (level_of_ordered h ho hchild).insertBeside (isTree_wrap hf) rule index

theorem refuses_add (list : Branch) (index : Nat) : (add list index fragment).Refuses doc := by
  refine .withRule fun rule hrule => .checkKind fun _ => .get ?_
  dsimp only
  split
  · exact .throw (Or.inl rfl)
  · obtain ⟨after, hdrop⟩ := exists_run_dropPlaceholder_beside h ho hf rule list index
    exact .of_ok (exists_run_bind (run_modifyGet ..)
      (exists_run_bind hdrop ⟨_, after, rfl⟩))

theorem exists_run_dropPlaceholder_lines (rule : ListRule) (list : Branch) (line : Nat) :
    ∃ after, (dropPlaceholder rule list (doc.placeholder? rule list)).run
      ((doc.unfolded list).insertLines rule list line (rule.wrap fragment)
        (fragment.rootKind = .comment)).2 = .ok () after := by
  refine exists_run_dropPlaceholder fun p hp => ?_
  have hmem := mem_listElements.1 (mem_of_placeholder? hp)
  have hlevel := (level_of_ordered h ho hmem.1).unfolded
  have hwrap : (rule.wrap fragment).IsTree := isTree_wrap hf
  by_cases hcomment : fragment.rootKind = .comment
  · rw [decide_eq_true hcomment]
    exact exists_run_takeFrom (hlevel.insertLines hwrap rule line) rule
  · rw [decide_eq_false hcomment]
    have hlinked := hlevel.bracketed.tree.linked
    have hlist := hlevel.bracketed.has
    obtain ⟨hadded, hkind, hnew, hold⟩ := mem_insertLines hlinked hlist hwrap rule line
    have hunfolded : doc.Grows (doc.unfolded list) :=
      (Evolves.refl h.linked).unfolded list
    have hlines : (doc.unfolded list).Grows
        ((doc.unfolded list).insertLines rule list line (rule.wrap fragment) false).2 :=
      evolves_insertLines hlinked hlist hwrap (fun _ _ _ => trivial) (fun _ => trivial)
        rule line
    have hp : (doc.unfolded list).Has p := hlinked.has_child hlevel.child
    obtain ⟨taken, after, hrun, -⟩ := run_takeFrom_of_other
      (mem_listElements.2 ⟨hold _ hlevel.child, by
        rw [hlines.kindOf p hp, hunfolded.kindOf p (h.linked.has_child hmem.1)]
        exact hmem.2⟩)
      (mem_listElements.2 ⟨hadded, by
        rw [hkind, rootKind_wrap hcomment, accepts, beq_self_eq_true,
          Bool.true_or]⟩)
      (fun he => hnew (he ▸ hp)) hlines.linked
    exact ⟨taken, after, hrun⟩

theorem refuses_addAtLine (list : Branch) (line : Nat) :
    (addAtLine list line fragment).Refuses doc := by
  refine .withRule fun rule hrule => .checkKind fun hkind => .get ?_
  dsimp only
  split
  · rcases run_placeClause doc rule list line fragment with ⟨-, index, hrun⟩ | ⟨-, hrun⟩
    · have hindent := hf.increaseIndent fragment.root (doc.indent list)
      obtain ⟨after, hdrop⟩ :=
        exists_run_dropPlaceholder_beside h ho hindent.tree.trimStart.tree rule list index
      exact .of_ok (exists_run_bind hrun (exists_run_bind hdrop ⟨_, after, rfl⟩))
    · exact .bind_error hrun rfl
  · rcases run_placeAtLine (unfolds_of_ordered h ho rule list) line fragment with
      ⟨-, hrun⟩ | ⟨-, -, hrun⟩
    · obtain ⟨after, hdrop⟩ := exists_run_dropPlaceholder_lines h ho hf rule list _
      refine .of_ok (exists_run_bind hrun (exists_run_bind hdrop ?_))
      split
      · exact ⟨_, _, rfl⟩
      · exact ⟨_, _, rfl⟩
    · exact .bind_error hrun rfl

end

/-- The loop that clears a list around its first element goes through, and what every removal beside
that element leaves of the elements to come is left to the end. -/
theorem exists_run_clear_along {P : List Branch → Document → Prop}
    (hskip : ∀ d es, P (retained :: es) d → P es d)
    (hstep : ∀ d e es taken mid, P (e :: es) d → e ∈ d.listElements rule list →
      retained ∈ d.listElements rule list → retained ≠ e →
        (takeFrom rule list e).run d = .ok taken mid → P es mid)
    (hdoc : P elements doc) (hd : doc.Linked)
    (hrule : doc.listRule? list = some rule) (hretained : retained ∈ doc.listElements rule list)
    (hnodup : elements.Nodup) (hmem : ∀ e ∈ elements, e ∈ doc.listElements rule list) :
    ∃ after, (elements.forM fun e =>
      if e = retained then pure () else discard <| removeElement list e : Edit Unit).run doc =
        .ok () after ∧ P [] after := by
  induction elements generalizing doc with
  | nil => exact ⟨doc, rfl, hdoc⟩
  | cons e elements ih =>
    obtain ⟨he, hnodup⟩ := nodup_cons.1 hnodup
    have hrest : ∀ e' ∈ elements, e' ∈ doc.listElements rule list :=
      fun e' h => hmem e' (mem_cons_of_mem _ h)
    rw [List.forM]
    by_cases hkeep : e = retained
    · rw [if_pos hkeep]
      exact ih (hskip doc elements (hkeep ▸ hdoc)) hd hrule hretained hnodup hrest
    · have helement := hmem e mem_cons_self
      obtain ⟨taken, mid, hrun, hleaves⟩ :=
        run_takeFrom_of_other helement hretained (Ne.symm hkeep) hd
      have hkept : ∀ b ∈ doc.listElements rule list, b ≠ e → b ∈ mid.listElements rule list := by
        intro b hb hne
        obtain ⟨hb, haccepts⟩ := mem_listElements.1 hb
        refine mem_listElements.2 ⟨hleaves.children b hne hb, ?_⟩
        rwa [hleaves.evolves.kindOf b (hd.has_child hb)]
      have hlist := has_of_mem_children (mem_listElements.1 hretained).1
      have hrule' : mid.listRule? list = some rule := by
        rw [listRule?, hleaves.evolves.grammar, hleaves.evolves.kindOf list hlist]
        exact hrule
      have hmid := hstep doc e elements taken mid hdoc helement hretained (Ne.symm hkeep) hrun
      obtain ⟨after, hafter⟩ := ih hmid hleaves.evolves.linked hrule'
        (hkept retained hretained (Ne.symm hkeep)) hnodup
        fun b hb => hkept b (hrest b hb) fun heq => he (heq ▸ hb)
      refine ⟨after, ?_⟩
      have hparent := hd.down (mem_listElements.1 helement).1
      have hremove : (removeElement list e).run doc = .ok taken mid := by
        simp [removeElement, run_listRule hrule, hparent, hrun]
      rw [if_neg hkeep, run_bind, run_discard, hremove]
      exact hafter

/-- The loop that clears a list around its first element keeps what every removal beside that
element keeps. -/
theorem exists_run_clear {P : Document → Prop}
    (hstep : ∀ d e taken mid, P d → e ∈ d.listElements rule list →
      retained ∈ d.listElements rule list → retained ≠ e →
        (takeFrom rule list e).run d = .ok taken mid → P mid)
    (hdoc : P doc) (hd : doc.Linked)
    (hrule : doc.listRule? list = some rule) (hretained : retained ∈ doc.listElements rule list)
    (hnodup : elements.Nodup) (hmem : ∀ e ∈ elements, e ∈ doc.listElements rule list) :
    ∃ after, (elements.forM fun e =>
      if e = retained then pure () else discard <| removeElement list e : Edit Unit).run doc =
        .ok () after ∧ P after :=
  exists_run_clear_along (P := fun _ => P) (fun _ _ h => h)
    (fun d e _ taken mid => hstep d e taken mid) hdoc hd hrule hretained hnodup hmem

theorem refuses_clearList (h : doc.Linked) (list : Branch) : (clearList list).Refuses doc := by
  refine .withRule fun rule hrule => .get ?_
  split
  · next retained hretained =>
    have hmem := mem_of_head? (filter_eq_some_iff.1 hretained).1
    have hnodup := listElements_nodup h rule list
    have hkept : ∀ d e taken mid, True → e ∈ listElements d rule list →
        retained ∈ d.listElements rule list → retained ≠ e →
          (takeFrom rule list e).run d = .ok taken mid → True := fun _ _ _ _ _ _ _ _ _ => trivial
    obtain ⟨after, hrun, -⟩ := exists_run_clear hkept trivial h hrule hmem
      (nodup_reverse.2 hnodup) fun e he => mem_reverse.1 he
    exact .of_ok ⟨(), after, hrun⟩
  · refine .of_ok (exists_run_bind (run_modify ..) ?_)
    have hnil := doc.children_clearedList rule list
    obtain ⟨after, hrun⟩ := exists_run_refill (unfolds_of_children_nil hnil rule)
    exact ⟨(), after, hrun⟩

/-! ### Optionals, removal and replacement -/

theorem refuses_set (optional : Branch) (fragment : Document) :
    (set optional fragment).Refuses doc := by
  refine (refuses_optionalRule optional).bind fun rule mid hrun => Or.inl ?_
  refine ⟨(run_optionalRule_eq_ok hrun).1, ?_⟩
  split
  · exact .of_ok ⟨_, _, rfl⟩
  · exact .get (.throw (Or.inl rfl))

theorem refuses_clearOptional (optional : Branch) : (clearOptional optional).Refuses doc := by
  refine (refuses_optionalRule optional).bind fun rule mid hrun => Or.inl ?_
  exact ⟨(run_optionalRule_eq_ok hrun).1, .of_ok ⟨_, _, rfl⟩⟩

/-- A removal is for reasons of a node itself or of a container that holds it; the node may be any
container on the way to the top. -/
theorem removal_cases (doc : Document) (node : Node) : doc.removal node = .nothing ∨
    (∃ n, doc.ownRemoval? n = some (doc.removal node)) ∨
      ∃ n p, doc.removalFrom? p n = some (doc.removal node) := by
  rw [removal]
  generalize doc.ancestors node = outer
  induction outer generalizing node with
  | nil =>
    rw [removalAlong]
    cases hr : doc.ownRemoval? node with
    | none => exact Or.inl rfl
    | some r => exact Or.inr (Or.inl ⟨node, hr⟩)
  | cons p outer ih =>
    rw [removalAlong]
    cases hr : doc.ownRemoval? node with
    | some r => exact Or.inr (Or.inl ⟨node, hr⟩)
    | none =>
      cases hp : doc.removalFrom? p node with
      | some r => exact Or.inr (Or.inr ⟨node, p, hp⟩)
      | none => exact ih p

theorem removalFrom?_cases {node : Node}
    (h : doc.removalFrom? parent node = some r) : r = .child parent node ∨
      (∃ element, r = .element parent element) ∨ (∃ rule, r = .optional parent rule) ∨
        r = .refused (.notAnElement (doc.kindOf parent)) := by
  have hplain : (if doc.keepsContent parent node || parent = doc.root then
      some (Removal.child parent node) else none) = some r → r = .child parent node := by
    split
    · exact fun h => (some.inj h).symm
    · exact nofun
  simp only [removalFrom?] at h
  split at h
  · split at h
    · split at h
      · next element _ => exact Or.inr (Or.inl ⟨element, (some.inj h).symm⟩)
      · exact Or.inr (Or.inr (Or.inr (some.inj h).symm))
    · exact Or.inl (hplain h)
  · next rule _ => exact Or.inr (Or.inr (Or.inl ⟨rule, (some.inj h).symm⟩))
  · cases h
  · exact Or.inl (hplain h)

theorem ownRemoval?_cases {node : Node} (h : doc.ownRemoval? node = some r) :
    r = .refused .rootRemoval ∨ (∃ b, r = .comment b ∧ doc.kindOf b = .comment) ∨
      ∃ b rule, r = .optional b rule := by
  cases node with
  | leaf l => cases h
  | branch b =>
    rw [ownRemoval?] at h
    split at h
    · exact Or.inl (some.inj h).symm
    · split at h
      · next hkind =>
        have hkind := (Bool.and_eq_true_iff.1 hkind).1
        exact Or.inr (Or.inl ⟨b, (some.inj h).symm, of_decide_eq_true hkind⟩)
      · obtain ⟨rule, -, hrule⟩ := map_eq_some_iff.1 h
        exact Or.inr (Or.inr ⟨b, rule, hrule.symm⟩)

theorem category_of_refused {node : Node} (h : doc.removal node = .refused e) :
    e.category = .contract := by
  rcases removal_cases doc node with hr | ⟨n, hr⟩ | ⟨n, p, hr⟩ <;> rw [h] at hr
  · cases hr
  · rcases ownRemoval?_cases hr with hr | ⟨_, hr, -⟩ | ⟨_, _, hr⟩ <;> cases hr
    rfl
  · rcases removalFrom?_cases hr with hr | ⟨_, hr⟩ | ⟨_, hr⟩ | hr <;> cases hr
    rfl

theorem kindOf_of_removal {node : Node} (h : doc.removal node = .comment b) :
    doc.kindOf b = .comment := by
  rcases removal_cases doc node with hr | ⟨n, hr⟩ | ⟨n, p, hr⟩ <;> rw [h] at hr
  · cases hr
  · rcases ownRemoval?_cases hr with hr | ⟨_, hr, hkind⟩ | ⟨_, _, hr⟩ <;> cases hr
    exact hkind
  · rcases removalFrom?_cases hr with hr | ⟨_, hr⟩ | ⟨_, hr⟩ | hr <;> cases hr

theorem refuses_remove (h : doc.IsTree) (ho : doc.Ordered) (node : Node) :
    (remove node).Refuses doc := by
  refine .get ?_
  split
  · exact .of_ok ⟨_, _, rfl⟩
  · exact .of_ok ⟨_, _, rfl⟩
  · exact (refuses_removeElement h ho _ _).discard
  · exact .of_ok ⟨_, _, rfl⟩
  · exact .of_ok ⟨_, _, rfl⟩
  · next e he => exact .throw (Or.inl (category_of_refused he))

theorem exists_run_swap (h : doc.Linked) {node parent : Branch}
    (hp : doc.parent node = some parent) (fragment : Document) :
    ∃ added after, (replace.swap node parent fragment).run doc = .ok added after := by
  have hmem : .branch node ∈ (doc.substitute node fragment).2.children parent := by
    have hchildren : (doc.substitute node fragment).2.children parent = doc.children parent :=
      children_graft_of_has (h.has_parent hp) fragment
    exact hchildren ▸ h.up hp
  refine exists_run_bind (run_modifyGet ..) ?_
  refine exists_run_bind (run_get _) ?_
  rw [if_pos (contains_iff_mem.2 hmem)]
  exact ⟨_, _, rfl⟩

theorem refuses_replace (h : doc.Linked) (node : Branch) (fragment : Document) :
    (replace node fragment).Refuses doc := by
  refine .get ?_
  dsimp only
  by_cases hroot : node = doc.root
  · rw [if_pos hroot]
    exact .bind_error rfl rfl
  · rw [if_neg hroot]
    cases hp : doc.parent node with
    | none => exact .throw (Or.inr rfl)
    | some parent =>
      dsimp only
      split
      · split
        · exact .throw (Or.inl rfl)
        · exact .of_ok (exists_run_swap h hp _)
      · exact .of_ok (exists_run_swap h hp _)

end Edit

end Lossless
