import Lossless.Proofs.Converting
import Lossless.Proofs.Keeping
import Lossless.Proofs.Placing

/-! Tokens in the order. Every step of every edit puts only tokens of the tables into the order, and
none of them twice. -/

namespace Lossless

open List Forest

/-- The parts of a row in the order in which they were made. -/
theorem perm_row {α : Type} (before opening middle closing : List α) :
    before ++ opening ++ middle ++ closing ~ closing ++ (opening ++ (middle ++ before)) := by
  refine perm_append_comm.trans (Perm.append_left _ ?_)
  rw [append_assoc, ← append_assoc opening]
  exact perm_append_comm

namespace Document

/-- The order and the tokens that wait for a place in it are different tokens of the tables. -/
structure Listed (doc : Document) (waiting : List Leaf) : Prop where
  has : ∀ l ∈ waiting ++ doc.order, doc.Has l
  nodup : (waiting ++ doc.order).Nodup

variable {doc mid fragment : Document} {waiting tokens order waiting' : List Leaf}

theorem IsTree.listed (h : doc.IsTree) : doc.Listed [] :=
  ⟨h.order_has, h.order_nodup⟩

namespace Listed

/-! ### Steps -/

theorem perm (h : doc.Listed waiting) (hp : waiting' ~ waiting) :
    doc.Listed waiting' where
  has l hl := h.has l ((hp.append_right _).subset hl)
  nodup := (hp.append_right _).nodup_iff.2 h.nodup

theorem drop (h : doc.Listed (tokens ++ waiting')) : doc.Listed waiting' where
  has l hl := h.has l (by rw [append_assoc]; exact mem_append_right _ hl)
  nodup := by
    have hn := h.nodup
    rw [append_assoc] at hn
    exact (nodup_append.1 hn).2.1

section

variable (h : doc.Listed waiting)
include h

theorem of_sublist (hs : order <+ doc.order) :
    Listed { doc with order } waiting where
  has l hl := h.has l ((Sublist.append_left hs _).subset hl)
  nodup := h.nodup.sublist (Sublist.append_left hs _)

theorem cut (span : Span) : (doc.cut span).Listed waiting :=
  h.of_sublist (cut_sublist doc span)

theorem discard (leaves : List Leaf) : (doc.discard leaves).Listed waiting :=
  h.of_sublist filter_sublist

theorem relink (ho : mid.order = doc.order)
    (hs : mid.tokens.size = doc.tokens.size) : mid.Listed waiting where
  has l hl := by
    rw [ho] at hl
    show l.index < mid.tokens.size
    rw [hs]
    exact h.has l hl
  nodup := by
    rw [ho]
    exact h.nodup

theorem updateComments : doc.updateComments.Listed waiting :=
  h.relink rfl rfl

theorem insertChild (b : Branch) (i : Nat) (node : Node) :
    (doc.insertChild b i node).Listed waiting :=
  h.relink rfl (by simp [Document.insertChild, Forest.insertChild])

theorem pushChild (b : Branch) (node : Node) : (doc.pushChild b node).Listed waiting :=
  h.relink rfl (by simp [Document.pushChild, Forest.pushChild])

theorem replaceChild (b : Branch) (old new : Node) : (doc.replaceChild b old new).Listed waiting :=
  h.relink rfl (by simp [Document.replaceChild, Forest.replaceChild])

theorem removeChild (b : Branch) (node : Node) : (doc.removeChild b node).Listed waiting := by
  refine h.relink rfl ?_
  unfold Document.removeChild Forest.removeChild
  dsimp only
  split <;> simp

theorem clearChildren (b : Branch) : (doc.clearChildren b).Listed waiting := by
  refine h.relink rfl ?_
  have horphan : ∀ (nodes : List Node) (f : Forest),
      (nodes.foldl (·.setParent · none) f).tokens.size = f.tokens.size := by
    intro nodes
    induction nodes with
    | nil => exact fun _ => rfl
    | cons n nodes ih =>
      intro f
      rw [foldl_cons, ih, size_tokens_setParent]
  exact (horphan ..).trans (size_tokens_setChildren ..)

theorem insertChildren (list : Branch) (i : Nat) (nodes : List Node) :
    (doc.insertChildren list i nodes).Listed waiting := by
  induction nodes with
  | nil => exact h
  | cons n nodes ih =>
    rw [insertChildren_cons]
    exact ih.insertChild ..

theorem placeChild (b : Branch) (node : Node) : (doc.placeChild b node).Listed waiting :=
  h.insertChild ..

end

theorem insertAt (h : doc.Listed (tokens ++ waiting)) (p : Nat) :
    (doc.insertAt p tokens).Listed waiting := by
  have hp : (doc.insertAt p tokens).order ~ tokens ++ doc.order := by
    show doc.order.take p ++ tokens ++ doc.order.drop p ~ _
    have hcomm : doc.order.take p ++ tokens ~ tokens ++ doc.order.take p := perm_append_comm
    have := hcomm.append_right (doc.order.drop p)
    rwa [append_assoc tokens, take_append_drop] at this
  have hall : waiting ++ (doc.insertAt p tokens).order ~ tokens ++ waiting ++ doc.order := by
    have := (hp.append_left waiting).trans (perm_append_comm_assoc ..)
    rwa [← append_assoc] at this
  exact ⟨fun l hl => h.has l (hall.subset hl), hall.nodup_iff.2 h.nodup⟩

section

variable (h : doc.Listed waiting)
include h

theorem newToken (text : String) :
    (doc.newToken text).2.Listed ((doc.newToken text).1 :: waiting) where
  has l hl := by
    rcases mem_cons.1 hl with rfl | hl
    · exact has_newToken doc text
    · exact has_newToken_of_has (h.has l hl) text
  nodup := nodup_cons.2 ⟨fun hl => not_has_newToken doc text (h.has _ hl), h.nodup⟩

theorem newLiteral (text : String) :
    (doc.newLiteral text).2.Listed ((doc.newLiteral text).1.toList ++ waiting) := by
  rcases newLiteral_cases doc text with he | he <;> rw [he]
  · exact h
  · exact h.newToken text

theorem newIndentedBreak (indent : String) :
    (doc.newIndentedBreak indent).2.Listed ((doc.newIndentedBreak indent).1 ++ waiting) :=
  ((h.newToken Layout.lineBreak).newLiteral indent).perm perm_middle.symm

theorem graft (hf : fragment.Listed []) (hn : tokens.Nodup)
    (hs : tokens ⊆ fragment.order) :
    (doc.graft fragment).2.Listed (tokens.map doc.rehomeLeaf ++ waiting) := by
  have hnew : ∀ l ∈ tokens.map doc.rehomeLeaf, ¬ doc.Has l := by
    intro l hl
    obtain ⟨m, -, rfl⟩ := mem_map.1 hl
    exact not_has_rehome doc m
  have hhas : ∀ l ∈ tokens.map doc.rehomeLeaf, (doc.graft fragment).2.Has l := by
    intro l hl
    obtain ⟨m, hm, rfl⟩ := mem_map.1 hl
    exact has_graft_iff.2 (.inr ⟨.leaf m, hf.has m (hs hm), rfl⟩)
  refine ⟨fun l hl => ?_, ?_⟩
  · rw [append_assoc, mem_append] at hl
    rcases hl with hl | hl
    · exact hhas l hl
    · exact has_graft_iff.2 (.inl (h.has l hl))
  · rw [append_assoc]
    refine nodup_append.2 ⟨hn.map (rehomeLeaf_injective doc), h.nodup, ?_⟩
    rintro l hl m hm rfl
    exact hnew l hl (h.has l hm)

theorem graftVisible (hf : fragment.Listed []) :
    (doc.graftVisible fragment).2.Listed ((doc.graftVisible fragment).1.leaves ++ waiting) :=
  h.graft hf (coveredLeaves_nodup hf.nodup _) (coveredLeaves_subset fragment _)

/-! ### Layouts -/

theorem insertNew (text : String) (p : Nat) :
    ((doc.newToken text).2.insertAt p [(doc.newToken text).1]).Listed waiting :=
  (h.newToken text).insertAt p

theorem insertBreaks (p n : Nat) : (doc.insertBreaks p n).Listed waiting := by
  induction n generalizing doc with
  | zero => exact h
  | succ n ih => exact ih (h.insertNew Layout.lineBreak p)

theorem endLine : doc.endLine.Listed waiting := by
  rcases endLine_cases doc with he | he <;> rw [he]
  · exact h
  · exact h.insertNew ..

theorem trimStart : doc.trimStart.Listed waiting :=
  h.of_sublist (dropWhile_sublist _)

theorem wrapRoot (kind : Kind) : (doc.wrapRoot kind).Listed waiting :=
  h.relink rfl (by simp [Document.wrapRoot, Forest.pushChild, addContainer])

end

theorem mapAround (h : doc.Listed []) (b : Branch)
    {change : Bool → List Leaf → Forest → List Leaf × Forest}
    (hchange : ∀ opensLine ls f, Shifted f (change opensLine ls f).2 ls (change opensLine ls f).1) :
    (doc.mapAround b change).Listed [] :=
  have horder := order_mapAround h.nodup h.has b hchange
  ⟨horder.2, horder.1⟩

theorem increaseIndent (h : doc.Listed []) (b : Branch) (unit : String) :
    (doc.increaseIndent b unit).Listed [] := by
  unfold Document.increaseIndent
  split
  · exact h
  · exact h.mapAround b fun opensLine ls f => (moved_indentTokens unit opensLine ls f).shifted

end Listed

theorem shifted_dedentTokens (unit : String) (opensLine : Bool) (ls : List Leaf) (f : Forest) :
    Shifted f (dedentTokens unit opensLine ls f).2 ls (dedentTokens unit opensLine ls f).1 := by
  have key : (dedentTokens unit opensLine ls f).1 <+ ls ∧
      ∀ l, f.Has l → (dedentTokens unit opensLine ls f).2.Has l := by
    induction ls generalizing opensLine f with
    | nil => exact ⟨Sublist.refl _, fun _ h => h⟩
    | cons l ls ih =>
      unfold dedentTokens
      dsimp only
      split
      · split
        · exact ⟨(ih _ _).1.cons l, (ih _ _).2⟩
        · refine ⟨(ih _ _).1.cons_cons l, fun m hm => (ih _ _).2 m ?_⟩
          exact (Retexted.setText f l _).has m hm
      · exact ⟨(ih _ _).1.cons_cons l, (ih _ _).2⟩
  exact ⟨key.2, fun l hl => .inl (key.1.subset hl), fun hn _ => hn.sublist key.1⟩

namespace Listed

theorem decreaseIndent (h : doc.Listed []) (b : Branch) (unit : String) :
    (doc.decreaseIndent b unit).Listed [] := by
  unfold Document.decreaseIndent
  split
  · exact h
  · exact h.mapAround b (shifted_dedentTokens unit)

/-! ### Tokens of fragments -/

theorem addTokens (h : doc.Listed []) (hf : fragment.Listed []) (p : Nat) :
    (doc.addTokens p fragment).2.Listed [] :=
  (h.graft hf hf.nodup (Subset.refl _)).insertAt p

theorem addTokensAtLine (h : doc.Listed []) (hf : fragment.Listed []) (line : Nat) :
    (doc.addTokensAtLine line fragment).2.Listed [] := by
  unfold Document.addTokensAtLine
  dsimp only
  split
  · exact h.addTokens hf.endLine _
  · exact h.endLine.addTokens hf.endLine _

theorem addDelimiter (h : doc.Listed []) (rule : ListRule) (list element : Branch) :
    (doc.addDelimiter rule list element).Listed [] := by
  rcases addDelimiter_cases doc rule list element with he | ⟨p, i, he⟩ <;> rw [he]
  · exact h
  · exact (h.insertNew ..).insertChild ..

theorem insertLines (h : doc.Listed []) (hf : fragment.Listed []) (rule : ListRule) (list : Branch)
    (line : Nat) (isComment : Bool) :
    (doc.insertLines rule list line fragment isComment).2.Listed [] := by
  have hadded := h.addTokensAtLine (hf.increaseIndent fragment.root (doc.indent list)) line
  unfold Document.insertLines
  dsimp only
  split
  · exact hadded.updateComments
  · exact ((hadded.placeChild ..).addDelimiter ..).updateComments

/-! ### Room -/

theorem separateSlot (h : doc.Listed waiting) (tuple : Branch) (delimiter : String) (p i : Nat) :
    (doc.separateSlot tuple delimiter p i).Listed waiting := by
  refine Listed.insertChild (Listed.insertAt ?_ p) ..
  exact ((h.newToken delimiter).newToken " ").perm (Perm.swap ..)

theorem makeRoom (h : doc.Listed waiting) (b : Branch) : (doc.makeRoom b).2.Listed waiting := by
  unfold Document.makeRoom
  dsimp only
  split
  · exact h
  · next parent _ =>
    split
    · next delimiter _ =>
      rcases makeSlotRoom_cases doc parent b delimiter with
        ⟨_, _, -, -, he⟩ | ⟨_, _, -, -, he⟩ | he
      · exact he ▸ h.separateSlot ..
      · exact he ▸ h.separateSlot ..
      · exact he.symm ▸ h
    · exact h
    · split
      · exact h
      · split
        · exact h
        · split <;> exact h.insertNew ..

theorem insertBeside (h : doc.Listed []) (hf : fragment.Listed []) (rule : ListRule) (list : Branch)
    (index : Nat) : (doc.insertBeside rule list index fragment).2.Listed [] := by
  have hstock := (h.graftVisible hf).newLiteral rule.delimiter
  rw [insertBeside_eq]
  split
  · refine (Listed.insertChildren (Listed.insertAt ?_ _) ..).updateComments
    refine (hstock.newToken " ").perm ?_
    rw [append_nil, append_nil]
    exact perm_middle
  · refine (Listed.insertChildren (Listed.insertAt ?_ _) ..).updateComments
    refine (hstock.newToken " ").perm ?_
    rw [append_nil, append_nil]
    have hlast : ∀ (xs ys : List Leaf) (l : Leaf), xs ++ ys ++ [l] ~ l :: (ys ++ xs) :=
      fun xs ys l => perm_append_comm.trans (Perm.append_left [l] perm_append_comm)
    exact hlast ..
  · exact (Listed.insertChildren ((hstock.drop.makeRoom list).insertAt _) ..).updateComments

section

variable (h : doc.Listed waiting)
include h

theorem closeRoom (b : Branch) : (doc.closeRoom b).Listed waiting := by
  unfold Document.closeRoom
  split
  · exact h
  · split
    · unfold closeSlotRoom
      split
      · exact h
      · dsimp only
        split
        · exact h.cut _
        · exact (h.cut _).removeChild ..
    · exact h
    · split
      · exact h
      · unfold closePlainRoom
        split
        · dsimp only
          split
          · exact h.cut _
          · split
            · exact h.cut _
            · exact h
        · exact h

end

/-! ### Elements and optionals go -/

theorem detachElement (h : doc.Listed waiting) (rule : ListRule) (list element : Branch) :
    (doc.detachElement rule list element).Listed waiting := by
  obtain ⟨mark, mid, heq, hmid⟩ := doc.detachElement_cases rule list element
  have hmark : (doc.dropMark list mark).Listed waiting := by
    cases mark with
    | none => exact h
    | some mark => exact (h.discard _).removeChild ..
  rw [heq]
  refine (Listed.updateComments ?_).removeChild ..
  rcases hmid with rfl | ⟨span, rfl⟩
  · exact hmark
  · exact hmark.cut span

theorem clearOptional (h : doc.Listed waiting) (rule : OptionalRule) (optional : Branch) :
    (doc.clearOptional rule optional).Listed waiting := by
  unfold Document.clearOptional
  split
  · exact h.clearChildren optional
  · refine (Listed.clearChildren ?_ optional).updateComments
    unfold cutOptional
    split
    · exact h.cut _
    · exact h.cut _
    · exact h.cut _
    · dsimp only
      split
      · exact h.closeRoom optional
      · exact (h.closeRoom optional).cut _

theorem unfoldBody (h : doc.Listed waiting) (list : Branch) :
    (doc.unfoldBody list).Listed waiting := by
  have hstrip : (doc.stripAround list).Listed waiting := (h.cut _).cut _
  unfold Document.unfoldBody
  dsimp only
  refine Listed.insertAt (Listed.newIndentedBreak ?_ _) _
  split
  · exact hstrip
  · exact (hstrip.newIndentedBreak _).insertAt _

theorem emptyList (h : doc.Listed waiting) (rule : ListRule) (list : Branch) :
    (doc.emptyList rule list).Listed waiting := by
  unfold Document.emptyList
  dsimp only
  refine Listed.updateComments ?_
  have hcut := fun span => (h.clearChildren list).cut span
  split
  · exact ((hcut _).newIndentedBreak _).insertAt _
  · exact hcut _

theorem removeComment (h : doc.Listed waiting) (comment : Branch) :
    (doc.removeComment comment).Listed waiting := by
  have hrest : Listed { doc with comments := doc.comments.filter (· != comment) } waiting :=
    h.relink rfl rfl
  unfold Document.removeComment
  dsimp only
  split
  · exact hrest
  · exact hrest.cut _

/-! ### Optionals come -/

theorem optionalPlace (h : doc.Listed []) (rule : OptionalRule) (optional : Branch) :
    (doc.optionalPlace rule optional).2.Listed (doc.optionalPlace rule optional).1.2 := by
  unfold Document.optionalPlace
  dsimp only
  split
  · exact h.makeRoom optional
  · exact h
  · split
    · exact h
    · exact h.newToken _
  · exact h

theorem optionalContent (h : doc.Listed waiting) (hf : fragment.Listed []) (rule : OptionalRule)
    (optional : Branch) : (doc.optionalContent rule optional fragment).2.Listed
      ((doc.optionalContent rule optional fragment).1.leaves ++ waiting) := by
  have hindent := hf.increaseIndent fragment.root (doc.indent optional)
  unfold Document.optionalContent
  dsimp only
  split
  · exact h.graft hindent.endLine hindent.endLine.nodup (Subset.refl _)
  · exact (h.graftVisible hindent).newToken " "
  · exact h.graftVisible hf
  · exact h.graftVisible hf

theorem fillOptional (h : doc.Listed []) (hf : fragment.Listed []) (rule : OptionalRule)
    (optional : Branch) : (doc.fillOptional rule optional fragment).2.Listed [] := by
  have hpush : ∀ (nodes : List Node) (d : Document), d.Listed [] →
      (nodes.foldl (·.pushChild optional ·) d).Listed [] := by
    intro nodes
    induction nodes with
    | nil => exact fun _ hd => hd
    | cons n nodes ih => exact fun d hd => ih _ (hd.pushChild optional n)
  have hstock := (((h.optionalPlace rule optional).optionalContent hf rule optional).newLiteral
    rule.opening).newLiteral rule.closing
  unfold Document.fillOptional
  dsimp only
  refine (hpush _ _ (Listed.insertAt ?_ _)).updateComments
  refine hstock.perm ?_
  rw [append_nil]
  exact perm_row ..

theorem setOptional (h : doc.Listed []) (hf : fragment.Listed []) (rule : OptionalRule)
    (optional : Branch) : (doc.setOptional rule optional fragment).2.Listed [] := by
  unfold Document.setOptional
  dsimp only
  refine (h.clearOptional rule optional).fillOptional ?_ rule optional
  split
  · exact hf
  · exact hf.wrapRoot _

/-! ### Replacing -/

theorem substitute (h : doc.Listed []) (hf : fragment.Listed []) (node : Branch) :
    (doc.substitute node fragment).2.Listed [] :=
  ((h.discard _).graftVisible hf).insertAt _

end Listed

/-! ### Copies -/

theorem foldl_forest_eq {α β γ : Type} (view : Forest → γ)
    {step : List α × Forest → β → List α × Forest}
    (hstep : ∀ s x, view (step s x).2 = view s.2) (xs : List β)
    (start : List α × Forest) : view (xs.foldl step start).2 = view start.2 := by
  induction xs generalizing start with
  | nil => rfl
  | cons x xs ih => rw [foldl_cons, ih, hstep]

theorem texts_copyWithin (doc : Document) (copied : List Leaf) (n : Nat) :
    ∀ (parent : Option Branch) (b : Branch) (forest : Forest),
      (doc.copyWithin copied n parent b forest).2.tokens.map Token.text =
        forest.tokens.map Token.text := by
  induction n with
  | zero => exact fun _ _ _ => rfl
  | succ n ih =>
    intro parent b forest
    unfold copyWithin
    refine foldl_forest_eq (fun f => f.tokens.map Token.text) (fun start node => ?_) ..
    cases node with
    | leaf l =>
      dsimp only
      split
      · rfl
      · next k _ =>
        refine Array.ext (by simp) fun i _ _ => ?_
        simp only [Forest.setParent, modifyToken, Array.getElem_map, Array.getElem_modify]
        split <;> rfl
    | branch c => exact ih ..

theorem size_tokens_copyWithin (doc : Document) (copied : List Leaf) (n : Nat)
    (parent : Option Branch) (b : Branch) (forest : Forest) :
    (doc.copyWithin copied n parent b forest).2.tokens.size = forest.tokens.size := by
  simpa using congrArg Array.size (doc.texts_copyWithin copied n parent b forest)

theorem texts_extract (doc : Document) (b : Branch) (leaves : List Leaf) :
    (doc.extract b leaves).tokens.map Token.text = (leaves.map doc.textOf).toArray := by
  refine (foldl_forest_eq (fun f => f.tokens.map Token.text) (fun start comment => ?_) ..).trans
    ((texts_copyWithin ..).trans (by simp [Function.comp_def]))
  dsimp only
  split
  · rfl
  · split
    · exact texts_copyWithin ..
    · rfl

theorem listed_extract (doc : Document) (b : Branch) (leaves : List Leaf) :
    (doc.extract b leaves).Listed [] := by
  have hsize : (doc.extract b leaves).tokens.size = leaves.length := by
    simpa using congrArg Array.size (doc.texts_extract b leaves)
  have hinj : Function.Injective Leaf.mk := fun i j h => by cases h; rfl
  refine ⟨fun l hl => ?_, nodup_range.map hinj⟩
  obtain ⟨i, hi, rfl⟩ := mem_map.1 hl
  show i < (doc.extract b leaves).tokens.size
  rw [hsize]
  exact mem_range.1 hi

theorem Listed.cloneSubtree (doc : Document) (b : Branch) : (doc.cloneSubtree b).Listed [] := by
  have hfault : ∀ d : Document, d.Listed [] → Listed { d with fault := doc.fault } [] :=
    fun d hd => hd.relink rfl rfl
  unfold Document.cloneSubtree
  dsimp only
  apply hfault
  split
  · exact listed_extract ..
  · exact (listed_extract ..).endLine.decreaseIndent ..

end Document

end Lossless
