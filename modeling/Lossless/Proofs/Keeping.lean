import Lossless.Proofs.Refilling

/-! What edits keep, whether they succeed or are refused. An edit is a few steps on a document, and
a property that survives each step survives the edit. -/

namespace Lossless.Edit

open Document EStateM

variable {α β : Type} {P : Document → Prop} {rule : ListRule} {list optional : Branch}
  {doc fragment : Document}

/-- The document that an edit leaves. -/
def left (x : Edit α) (doc : Document) : Document :=
  match x.run doc with
  | .ok _ after => after
  | .error _ after => after

theorem left_of_ok {x : Edit α} {doc after : Document} {a : α} (h : x.run doc = .ok a after) :
    x.left doc = after := by
  unfold left
  rw [h]

theorem left_bind_of_ok {x : Edit α} {f : α → Edit β} {doc mid : Document} {a : α}
    (h : x.run doc = .ok a mid) : (x >>= f).left doc = (f a).left mid := by
  unfold left
  rw [run_bind, h]

theorem left_get_bind (f : Document → Edit α) (doc : Document) :
    (get >>= f).left doc = (f doc).left doc :=
  rfl

theorem left_discard (x : Edit α) (doc : Document) : (discard x).left doc = x.left doc := by
  unfold left
  rw [run_discard]
  cases x.run doc <;> rfl

theorem left_listRule_bind (f : ListRule → Edit α) (doc : Document) :
    (listRule list >>= f).left doc =
      match doc.listRule? list with
      | some rule => (f rule).left doc
      | none => doc := by
  unfold left
  rw [run_bind]
  unfold listRule
  rw [run_get_bind]
  cases doc.listRule? list <;> rfl

theorem left_optionalRule_bind (f : OptionalRule → Edit α) (doc : Document) :
    (optionalRule optional >>= f).left doc =
      match doc.optionalRule? optional with
      | some rule => (f rule).left doc
      | none => doc := by
  unfold left
  rw [run_bind]
  unfold optionalRule
  rw [run_get_bind]
  cases doc.optionalRule? optional <;> rfl

theorem left_listRule (list : Branch) (doc : Document) : (listRule list).left doc = doc := by
  unfold listRule
  rw [left_get_bind]
  split <;> rfl

theorem left_optionalRule (optional : Branch) (doc : Document) :
    (optionalRule optional).left doc = doc := by
  unfold optionalRule
  rw [left_get_bind]
  split <;> rfl

theorem left_checkKind_bind (fragment : Document) (f : Unit → Edit α) (doc : Document) :
    (checkKind rule list fragment >>= f).left doc =
      if fragment.rootKind = .comment || rule.accepts fragment.rootKind then (f ()).left doc
      else doc := by
  unfold checkKind
  cases fragment.rootKind = .comment || rule.accepts fragment.rootKind <;> rfl

def Keeps (P : Document → Prop) (x : Edit α) : Prop :=
  ∀ doc, P doc → P (x.left doc)

namespace Keeps

theorem pure (a : α) : Keeps P (Pure.pure a) :=
  fun _ h => h

theorem modify {f : Document → Document} (h : ∀ doc, P doc → P (f doc)) :
    Keeps P (MonadState.modifyGet fun doc => ((), f doc)) :=
  h

theorem modifyGet {f : Document → α × Document} (h : ∀ doc, P doc → P (f doc).2) :
    Keeps P (MonadState.modifyGet f) :=
  h

theorem bind {x : Edit α} {f : α → Edit β} (hx : Keeps P x) (hf : ∀ a, Keeps P (f a)) :
    Keeps P (x >>= f) := by
  intro doc hdoc
  have hmid := hx doc hdoc
  unfold left at hmid ⊢
  rw [run_bind]
  cases hrun : x.run doc with
  | ok a mid =>
    rw [hrun] at hmid
    exact hf a mid hmid
  | error e mid =>
    rw [hrun] at hmid
    exact hmid

theorem get {f : Document → Edit α} (h : ∀ doc, P doc → P ((f doc).left doc)) :
    Keeps P (MonadState.get >>= f) :=
  h

theorem discard {x : Edit α} (h : Keeps P x) : Keeps P (Functor.discard x) := by
  intro doc hdoc
  rw [left_discard]
  exact h doc hdoc

theorem forM {f : α → Edit Unit} (h : ∀ a, Keeps P (f a)) (xs : List α) : Keeps P (xs.forM f) := by
  induction xs with
  | nil => exact pure ()
  | cons x xs ih =>
    exact bind (h x) fun _ => ih

theorem listRule {f : ListRule → Edit α}
    (h : ∀ rule doc, P doc → doc.listRule? list = some rule → P ((f rule).left doc)) :
    Keeps P (Edit.listRule list >>= f) := by
  intro doc hdoc
  rw [left_listRule_bind]
  split
  · next rule hrule => exact h rule doc hdoc hrule
  · exact hdoc

end Keeps

/-! ### Elements come -/

section

variable {fragment : Document}

theorem keeps_placeAtLine (hunfold : ∀ doc, P doc → P (doc.unfoldBody list))
    (hlines : ∀ doc line, P doc →
      P (doc.insertLines rule list line (rule.wrap fragment) (fragment.rootKind = .comment)).2)
    (line : Nat) : Keeps P (placeAtLine rule list line fragment) := by
  unfold placeAtLine
  refine .get fun doc hdoc => ?_
  have hrest : ∀ choose : List Nat → Nat, Keeps P (MonadState.get >>= fun d : Document =>
      if (d.linesFor rule list).contains (choose (d.linesFor rule list)) then
        MonadState.modifyGet fun doc => doc.insertLines rule list (choose (d.linesFor rule list))
          (rule.wrap fragment) (fragment.rootKind = .comment)
      else MonadExcept.throw
        (.lineUnavailable (choose (d.linesFor rule list)) (d.linesFor rule list))) := by
    intro choose
    refine .get fun d hd => ?_
    split
    · exact hlines d _ hd
    · exact hd
  dsimp only
  split
  · exact Keeps.bind (.modify hunfold) (fun _ => hrest (·.getLast?.getD line)) doc hdoc
  · exact hrest (fun _ => line) doc hdoc

theorem keeps_placeClause (hclause : ∀ doc index indent, P doc → P (doc.insertBeside rule list index
      (rule.wrap (fragment.increaseIndent fragment.root indent).trimStart)).2) (line : Nat) :
    Keeps P (placeClause rule list line fragment) := by
  unfold placeClause
  refine .get fun doc hdoc => ?_
  dsimp only
  split
  · exact hclause doc _ _ hdoc
  · exact hdoc

end

theorem keeps_padAround (hbreaks : ∀ doc p n, P doc → P (doc.insertBreaks p n))
    (hdoc : P doc) (rule : ListRule) (list added : Branch) (isComment : Bool) :
    P (doc.padAround rule list added isComment) := by
  have hseparate : ∀ (d : Document) left right new, P d →
      P (d.separate rule list left right new) := by
    intro d left right new hd
    obtain ⟨p, n, he⟩ := d.separate_cases rule list left right new
    rw [he]
    exact hbreaks d p n hd
  unfold padAround
  dsimp only
  split
  · exact hdoc
  · split <;> split
    · exact hdoc
    · exact hseparate _ _ _ _ hdoc
    · exact hseparate _ _ _ _ hdoc
    · exact hseparate _ _ _ _ (hseparate _ _ _ _ hdoc)

theorem keeps_refill (hunfold : ∀ doc, P doc → P (doc.unfoldBody list))
    (hbreaks : ∀ doc p n, P doc → P (doc.insertBreaks p n))
    (hlines : ∀ doc line grammar text, P doc → P (doc.insertLines rule list line
      (rule.wrap (.ofSource grammar rule.element text)) (rule.element = .comment)).2)
    (hclause : ∀ doc index indent grammar text, P doc →
      let fragment : Document := .ofSource grammar rule.element text
      P (doc.insertBeside rule list index
        (rule.wrap (fragment.increaseIndent fragment.root indent).trimStart)).2) :
    Keeps P (refill rule list) := by
  unfold refill
  refine .get fun doc hdoc => ?_
  split
  · split
    · split
      · exact Keeps.discard
          (keeps_placeClause (fun d index indent hd => hclause d index indent _ _ hd) _) doc hdoc
      · refine Keeps.bind
          (keeps_placeAtLine hunfold (fun d line hd => hlines d line _ _ hd) _) (fun added => ?_)
          doc hdoc
        split
        · exact .modify fun d hd => keeps_padAround hbreaks hd ..
        · exact .pure _
    · exact hdoc
  · exact hdoc

/-! ### Elements go -/

theorem keeps_withoutBlank (hcut : ∀ doc lines, P doc → P (doc.cutLines lines))
    (hdoc : P doc) (rule : ListRule) (list element : Branch) :
    P (doc.withoutBlank rule list element) := by
  have habove : ∀ d most, P d → P (d.cutBlankAbove list element most) := by
    intro d most hd
    unfold cutBlankAbove
    split
    · exact hd
    · split
      · exact hd
      · exact hcut d _ hd
  have hbelow : ∀ d most, P d → P (d.cutBlankBelow list element most) := by
    intro d most hd
    unfold cutBlankBelow
    split
    · exact hd
    · split
      · exact hd
      · exact hcut d _ hd
  unfold withoutBlank
  dsimp only
  split <;> split
  · exact habove _ _ (hbelow _ _ hdoc)
  · exact habove _ _ hdoc
  · exact hbelow _ _ hdoc
  · exact hdoc

/-- A property survives what edits do around the elements of a list. -/
structure Survives (P : Document → Prop) (rule : ListRule) (list : Branch) : Prop where
  unfold : ∀ doc, P doc → P (doc.unfoldBody list)
  cutLines : ∀ doc lines, P doc → P (doc.cutLines lines)
  breaks : ∀ doc p n, P doc → P (doc.insertBreaks p n)
  clear : ∀ doc optional rule, P doc → doc.optionalAround? list = some (optional, rule) →
    P (doc.clearOptional rule optional)
  refill : Keeps P (refill rule list)

namespace Survives

variable {element : Branch} (h : Survives P rule list)
include h

theorem takeElement (hdetach : ∀ doc, P doc → P (doc.detachElement rule list element)) :
    Keeps P (takeElement rule list element) := by
  unfold Edit.takeElement
  refine .get fun doc hdoc => ?_
  dsimp only
  split
  · next hlast =>
    split at hlast
    · exact h.clear doc _ _ hdoc hlast
    · cases hlast
  · refine Keeps.bind (.modify hdetach) (fun _ => ?_) doc hdoc
    exact .bind h.refill fun _ => .pure _

theorem takeFrom (hdetach : ∀ doc, P doc → P (doc.detachElement rule list element)) :
    Keeps P (takeFrom rule list element) := by
  unfold Edit.takeFrom
  split
  · intro doc hdoc
    have htaken := h.takeElement hdetach _ (keeps_withoutBlank h.cutLines hdoc rule list element)
    unfold left at htaken ⊢
    rw [run_takePadded]
    cases hrun : (Edit.takeElement rule list element).run (doc.withoutBlank rule list element) with
    | error e after =>
      rw [hrun] at htaken
      exact htaken
    | ok taken after =>
      rw [hrun] at htaken
      obtain ⟨p, n, hrejoin⟩ := after.rejoin_cases rule list
        ((doc.listElements rule list).idxOf element)
      dsimp only
      rw [hrejoin]
      exact h.breaks after p n htaken
  · exact h.takeElement hdetach

theorem dropPlaceholder {placeholder : Option Branch} (hdetach : ∀ element ∈ placeholder, ∀ doc,
      P doc → P (doc.detachElement rule list element)) :
    Keeps P (dropPlaceholder rule list placeholder) := by
  unfold Edit.dropPlaceholder
  split
  · exact .pure _
  · exact .discard (h.takeFrom (hdetach _ rfl))

end Survives

/-! ### Whole edits -/

theorem left_removeElement (hdoc : P doc) (element : Branch)
    (h : ∀ rule, doc.listRule? list = some rule → doc.parent element = some list →
      Survives P rule list ∧ ∀ d, P d → P (d.detachElement rule list element)) :
    P ((removeElement list element).left doc) := by
  unfold removeElement
  rw [left_listRule_bind]
  split
  · next rule hrule =>
    rw [left_get_bind]
    split
    · next hparent =>
      obtain ⟨hsurvives, hdetach⟩ := h rule hrule hparent
      exact hsurvives.takeFrom hdetach doc hdoc
    · split <;> exact hdoc
  · exact hdoc

section

variable {fragment doc : Document}
  (h : ∀ rule doc, P doc → doc.listRule? list = some rule → Survives P rule list)
  (hdetach : ∀ rule doc element, P doc → P (doc.detachElement rule list element))
include h hdetach

theorem keeps_clearList (hempty : ∀ doc rule, P doc → P (doc.emptyList rule list)) :
    Keeps P (clearList list) := by
  unfold clearList
  refine .listRule fun rule doc hdoc hrule => ?_
  have hsurvives := h rule doc hdoc hrule
  rw [left_get_bind]
  split
  · refine Keeps.forM (fun e => ?_) _ doc hdoc
    split
    · exact .pure _
    · refine .discard fun d hd => left_removeElement hd e fun rule hrule _ => ?_
      exact ⟨h rule d hd hrule, fun d => hdetach rule d e⟩
  · refine Keeps.bind (.modify fun d hd => ?_) (fun _ => hsurvives.refill) doc hdoc
    dsimp only
    split
    · exact hempty d rule hd
    · next hfound => exact hsurvives.clear _ _ _ (hempty d rule hd) hfound

/-- A fragment comes on lines or as a clause, as the list shows when the edit starts. -/
theorem left_addAtLine (hdoc : P doc) (line : Nat)
    (hclause : ∀ rule, doc.listRule? list = some rule → doc.isInline rule list = true →
      fragment.rootKind = .comment ∨ rule.accepts fragment.rootKind = true →
      ∀ d index indent, P d → P (d.insertBeside rule list index
        (rule.wrap (fragment.increaseIndent fragment.root indent).trimStart)).2)
    (hlines : ∀ rule, doc.listRule? list = some rule → doc.isInline rule list = false →
      fragment.rootKind = .comment ∨ rule.accepts fragment.rootKind = true →
      ∀ d line, P d →
        P (d.insertLines rule list line (rule.wrap fragment) (fragment.rootKind = .comment)).2) :
    P ((addAtLine list line fragment).left doc) := by
  unfold addAtLine
  rw [left_listRule_bind]
  split
  · next rule hrule =>
    have hsurvives := h rule doc hdoc hrule
    rw [left_checkKind_bind]
    split
    · next hkind =>
      rw [Bool.or_eq_true, decide_eq_true_eq] at hkind
      rw [left_get_bind]
      dsimp only
      split
      · next hinline =>
        refine Keeps.bind (keeps_placeClause (hclause rule hrule hinline hkind) line)
          (fun added => ?_) doc hdoc
        exact .bind (hsurvives.dropPlaceholder fun e _ d => hdetach rule d e) fun _ => .pure added
      · next hinline =>
        have hinline := Bool.not_eq_true _ ▸ hinline
        refine Keeps.bind (keeps_placeAtLine hsurvives.unfold (hlines rule hrule hinline hkind) line)
          (fun added => ?_) doc hdoc
        refine .bind (hsurvives.dropPlaceholder fun e _ d => hdetach rule d e) fun _ => ?_
        split
        · exact .bind (.modify fun d hd => keeps_padAround hsurvives.breaks hd ..) fun _ => .pure _
        · exact .pure _
    · exact hdoc
  · exact hdoc

theorem left_add (hdoc : P doc) (index : Nat)
    (hbeside : ∀ rule, doc.listRule? list = some rule →
      fragment.rootKind = .comment ∨ rule.accepts fragment.rootKind = true →
      ∀ d, P d → P (d.insertBeside rule list index (rule.wrap fragment)).2) :
    P ((add list index fragment).left doc) := by
  unfold add
  rw [left_listRule_bind]
  split
  · next rule hrule =>
    rw [left_checkKind_bind]
    split
    · next hkind =>
      rw [Bool.or_eq_true, decide_eq_true_eq] at hkind
      rw [left_get_bind]
      dsimp only
      split
      · exact hdoc
      · refine Keeps.bind (.modifyGet (hbeside rule hrule hkind)) (fun added => ?_) doc hdoc
        refine .bind ((h rule doc hdoc hrule).dropPlaceholder fun e _ d => hdetach rule d e) fun _ => ?_
        exact .pure added
    · exact hdoc
  · exact hdoc

end

theorem left_set (hdoc : P doc)
    (hset : ∀ rule, doc.optionalRule? optional = some rule →
      rule.accepts fragment.rootKind = true → P (doc.setOptional rule optional fragment).2) :
    P ((set optional fragment).left doc) := by
  unfold set
  rw [left_optionalRule_bind]
  split
  · next rule hrule =>
    split
    · next hkind => exact hset rule hrule hkind
    · exact hdoc
  · exact hdoc

theorem left_clearOptional (hdoc : P doc)
    (hclear : ∀ rule, P (doc.clearOptional rule optional)) :
    P ((clearOptional optional).left doc) := by
  unfold clearOptional
  rw [left_optionalRule_bind]
  split
  · next rule _ => exact hclear rule
  · exact hdoc

theorem left_remove (hdoc : P doc) (node : Node)
    (hcomment : ∀ b, doc.removal node = .comment b → P (doc.removeComment b))
    (hclear : ∀ rule optional, P (doc.clearOptional rule optional))
    (helement : ∀ list element, P ((removeElement list element).left doc))
    (hchild : ∀ parent child, P (doc.detachChild parent child)) :
    P ((remove node).left doc) := by
  unfold remove
  rw [left_get_bind]
  split
  · next hremoval => exact hcomment _ hremoval
  · exact hclear _ _
  · rw [left_discard]
    exact helement _ _
  · exact hchild _ _
  · exact hdoc
  · exact hdoc

/-! #### Replacing -/

def placedIn (doc : Document) (parent : Branch) (fragment : Document) : Document :=
  match doc.grammar.elementKind? (doc.kindOf parent) with
  | some element =>
    if fragment.rootKind = element then fragment else fragment.wrapRoot element
  | none => fragment

def swapped (doc : Document) (node parent : Branch) (fragment : Document) : Document :=
  ((doc.substitute node fragment).2.replaceChild parent node
    (.branch (doc.substitute node fragment).1)).updateComments

theorem left_swap (doc : Document) (node parent : Branch) (fragment : Document) :
    (replace.swap node parent fragment).left doc = swapped doc node parent fragment ∨
      (replace.swap node parent fragment).left doc = (doc.substitute node fragment).2 := by
  unfold replace.swap
  have hrun : ∀ f : Branch → Edit Branch, ((MonadState.modifyGet
      fun d : Document => d.substitute node fragment) >>= f).left doc =
        (f (doc.substitute node fragment).1).left (doc.substitute node fragment).2 :=
    fun _ => rfl
  rw [hrun, left_get_bind]
  split
  · exact .inl rfl
  · exact .inr rfl

theorem left_replace (hdoc : P doc) (node : Branch)
    (hswap : ∀ parent, doc.parent node = some parent → node ≠ doc.root →
      (∀ element, doc.grammar.elementKind? (doc.kindOf parent) = some element →
        doc.canAdd parent fragment.rootKind) →
      P (doc.substitute node (placedIn doc parent fragment)).2 ∧
        P (swapped doc node parent (placedIn doc parent fragment))) :
    P ((replace node fragment).left doc) := by
  have hleft : ∀ parent placed, P (doc.substitute node placed).2 →
      P (swapped doc node parent placed) → P ((replace.swap node parent placed).left doc) := by
    intro parent placed hsub hswap
    rcases left_swap doc node parent placed with he | he
    · exact he ▸ hswap
    · exact he ▸ hsub
  unfold replace
  rw [left_get_bind]
  dsimp only
  by_cases hroot : node = doc.root
  · rw [if_pos hroot]
    exact hdoc
  · rw [if_neg hroot]
    cases hp : doc.parent node with
    | none => exact hdoc
    | some parent =>
      have hswap := hswap parent hp hroot
      unfold placedIn at hswap
      dsimp only
      cases he : doc.grammar.elementKind? (doc.kindOf parent) with
      | none =>
        rw [he] at hswap
        obtain ⟨hsub, hswap⟩ := hswap fun element h => by cases h
        exact hleft parent fragment hsub hswap
      | some element =>
        rw [he] at hswap
        dsimp only at hswap ⊢
        split
        · exact hdoc
        · next hkind =>
          obtain ⟨hsub, hswap⟩ := hswap fun _ _ => by simpa using hkind
          exact hleft parent _ hsub hswap

end Lossless.Edit
