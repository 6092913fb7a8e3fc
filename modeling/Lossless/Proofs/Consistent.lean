import Lossless.Proofs.Extracts
import Lossless.Proofs.Kinds

/-! Consistent documents: parents and children agree, and nothing is around the root or around a
comment. Every request leaves a consistent document, as long as no list or optional asks for comments
as elements. -/

namespace Lossless

open List Forest

theorem nodup_eraseDups {α : Type} [DecidableEq α] (xs : List α) : xs.eraseDups.Nodup := by
  induction hn : xs.length using Nat.strong_induction_on generalizing xs with
  | _ n ih =>
    cases xs with
    | nil => exact nodup_nil
    | cons x xs =>
      rw [eraseDups_cons]
      refine nodup_cons.2 ⟨fun hx => ?_, ih _ ?_ _ rfl⟩
      · simp at hx
      · exact hn ▸ Nat.lt_succ_of_le (length_filter_le ..)

theorem eraseDups_filter {α : Type} [DecidableEq α] (p : α → Bool) (xs : List α) :
    (xs.filter p).eraseDups = xs.eraseDups.filter p := by
  induction hn : xs.length using Nat.strong_induction_on generalizing xs with
  | _ n ih =>
    cases xs with
    | nil => rfl
    | cons x xs =>
      have hlt : (xs.filter fun y => !y == x).length < n :=
        hn ▸ Nat.lt_succ_of_le (length_filter_le ..)
      rw [eraseDups_cons, filter_cons, filter_cons, ← ih _ hlt _ rfl]
      split
      · rw [eraseDups_cons, filter_filter, filter_filter]
        simp only [Bool.and_comm]
      · next hx =>
        rw [filter_filter]
        refine congrArg _ (filter_congr fun y _ => ?_)
        by_cases hy : y = x
        · simp [hy, hx]
        · simp [hy]

namespace Document

variable {doc : Document} {b : Branch}

/-! ### Lists of comments -/

theorem kindOf_of_commentOf? {l : Leaf} (h : doc.commentOf? l = some b) : doc.kindOf b = .comment :=
  eq_of_beq (find?_some (p := (doc.kindOf · == .comment)) h)

theorem mem_placedComments : b ∈ doc.placedComments ↔ ∃ l ∈ doc.order, doc.commentOf? l = some b :=
  mem_eraseDups.trans mem_filterMap

theorem listsComments_updateComments (doc : Document) : doc.updateComments.ListsComments where
  comments_once := nodup_eraseDups _
  comments_kind b hb := by
    obtain ⟨l, -, hl⟩ := mem_placedComments.1 hb
    exact kindOf_of_commentOf? hl

namespace ListsComments

variable {mid : Document}

theorem congr (h : doc.ListsComments) (hc : mid.comments = doc.comments)
    (hk : ∀ b, doc.kindOf b = .comment → mid.kindOf b = .comment) : mid.ListsComments where
  comments_once := hc ▸ h.comments_once
  comments_kind b hb := hk b (h.comments_kind b (hc ▸ hb))

theorem newLiteral (h : doc.ListsComments) (text : String) :
    (doc.newLiteral text).2.ListsComments := by
  unfold Document.newLiteral
  split
  · exact h
  · exact h.congr rfl fun _ hk => hk

theorem newIndentedBreak (h : doc.ListsComments) (indent : String) :
    (doc.newIndentedBreak indent).2.ListsComments :=
  (h.congr rfl fun _ hk => hk : (doc.newToken Layout.lineBreak).2.ListsComments).newLiteral indent

theorem insertBreaks (h : doc.ListsComments) (p n : Nat) : (doc.insertBreaks p n).ListsComments := by
  induction n generalizing doc with
  | zero => exact h
  | succ n ih => exact ih (h.congr rfl fun _ hk => hk)

theorem unfoldBody (h : doc.ListsComments) (list : Branch) : (doc.unfoldBody list).ListsComments := by
  have hput : ∀ (d : Document) indent p leaves, d.ListsComments →
      ((d.newIndentedBreak indent).2.insertAt p leaves).ListsComments :=
    fun d indent p leaves hd => (hd.newIndentedBreak indent).congr rfl fun _ hk => hk
  have hstrip : (doc.stripAround list).ListsComments := h.congr rfl fun _ hk => hk
  unfold Document.unfoldBody
  dsimp only
  split
  · exact hput _ _ _ _ hstrip
  · exact hput _ _ _ _ (hput _ _ _ _ hstrip)

end ListsComments

theorem closed_listsComments : Edit.Closed (fun _ => True) ListsComments where
  source _ _ _ := trivial
  clause _ _ _ := trivial
  wrapRoot _ _ _ := trivial
  unfold _ list h := h.unfoldBody list
  cutLines _ _ h := h.congr rfl fun _ hk => hk
  breaks _ p n h := h.insertBreaks p n
  lines _ _ _ _ _ _ _ _ := listsComments_updateComments _
  beside _ _ _ _ _ _ _ := listsComments_updateComments _
  detach doc rule list element _ := by
    unfold detachElement
    exact (listsComments_updateComments _).congr rfl fun b hk =>
      (kindOf_removeChild ..).trans hk
  empty _ _ _ _ := listsComments_updateComments _
  set _ _ _ _ _ _ := listsComments_updateComments _
  clear doc rule optional h := by
    unfold clearOptional
    split
    · exact h.congr rfl fun b hk => (kindOf_clearChildren ..).trans hk
    · exact listsComments_updateComments _
  comment doc b h := by
    have hfilter : ListsComments { doc with comments := doc.comments.filter (· != b) } :=
      ⟨h.comments_once.filter _, fun c hc => h.comments_kind c (mem_filter.1 hc).1⟩
    unfold removeComment
    dsimp only
    split
    · exact hfilter
    · exact hfilter.congr rfl fun _ hk => hk
  child _ _ _ _ := listsComments_updateComments _
  substitute doc node fragment h _ := by
    refine h.congr rfl fun b hk => ?_
    have hb : doc.Has b := by
      by_contra hnot
      rw [kindOf, container_of_not_has hnot] at hk
      cases hk
    have hkind : ((doc.discard (doc.coveredLeaves node)).graft fragment).2.kindOf b =
        doc.kindOf b := kindOf_graft_of_has hb fragment
    exact hkind.trans hk
  swap _ _ _ _ _ := listsComments_updateComments _

end Document

/-! ### Edits -/

/-- A request leaves a consistent document, whether it goes through or not. -/
theorem Request.consistent_left {doc : Document} (h : doc.Consistent) (request : Request)
    (hg : ∀ kind, doc.grammar.elementKind? kind ≠ some .comment)
    (hb : ∀ b ∈ request.container?, doc.Around doc.root (.branch b))
    (hf : ∀ fragment ∈ request.fragment?, fragment.Consistent ∧ fragment.rootKind ≠ .comment) :
    (request.run.left doc).Consistent := by
  -- no comment ever comes in under a container
  have hsuits : ∀ fragment ∈ request.fragment?,
      fragment.Suits (fun _ child => child ≠ .comment) doc.grammar := by
    intro fragment hm
    obtain ⟨hfragment, hkind⟩ := hf fragment hm
    refine ⟨hfragment.toIsTree, fun p c hc hcomment => ?_, fun _ _ => hkind, fun _ _ => hkind,
      fun _ _ _ _ _ => hkind⟩
    have hparent := hfragment.linked.down hc
    rw [hfragment.comments_free c hcomment] at hparent
    cases hparent
  have hplaced : request.misplaces doc = false := by
    have hkind := fun fragment hm => (hf fragment hm).2
    cases request with
    | add list index fragment => simp [misplaces, hkind fragment rfl]
    | addAtLine list line fragment => simp [misplaces, hkind fragment rfl]
    | _ => rfl
  have helement : ∀ kind element, doc.grammar.elementKind? kind = some element →
      element ≠ .comment := fun kind element he hc => hg kind (hc ▸ he)
  have hevolves := request.evolves_left_of helement h.linked
    (fun b hm => (hb b hm).has_inside h.root_has) hsuits hplaced
  have hlisted := closed_listed.left h.toIsTree.listed request fun fragment hm =>
    (hf fragment hm).1.toIsTree.listed
  have hcomments := Document.closed_listsComments.left h.toListsComments request fun _ _ => trivial
  refine ⟨⟨hevolves.linked, hevolves.root ▸ hevolves.has _ h.root_has,
    hevolves.root ▸ hevolves.free h.root_has h.root_free, hlisted.has, hlisted.nodup⟩, hcomments, ?_⟩
  intro b hcomment
  by_cases hhas : doc.Has b
  · exact hevolves.free hhas (h.comments_free b (hevolves.kindOf b hhas ▸ hcomment))
  · by_contra hparent
    obtain ⟨p, hp⟩ := Option.ne_none_iff_exists'.1 hparent
    rcases hevolves.edges p b (hevolves.linked.up hp) with hold | ⟨-, hkind⟩
    · exact hhas (h.linked.has_child hold)
    · exact hkind hcomment

/-- Requests keep a document consistent as long as no list or optional has comments for elements.
The clone of a node, and an element that was taken out of a list, are consistent unless the root is
a comment that goes along with them: then tokens stay children of the one copy and belong to the
other. -/
theorem Document.consistent_of_edits {doc : Document} (h : doc.Consistent) :
    (∀ request : Request, (∀ kind, doc.grammar.elementKind? kind ≠ some .comment) →
      (∀ b ∈ request.container?, doc.Around doc.root (.branch b)) →
      (∀ fragment ∈ request.fragment?, fragment.Consistent ∧ fragment.rootKind ≠ .comment) →
      (request.run.left doc).Consistent) ∧
    (∀ b, doc.Around doc.root (.branch b) → ((doc.cloneSubtree b).Consistent ↔
      ¬ doc.Engulfs b (doc.coveredLeaves (.branch b)))) ∧
    ∀ list element taken after, doc.Around doc.root (.branch list) →
      (Edit.removeElement list element).run doc = .ok taken after →
      ∃ rule, doc.listRule? list = some rule ∧
        let cut := doc.withoutPadding rule list element
        (taken.Consistent ↔ ¬ cut.Engulfs element (cut.coveredLeaves (.branch element))) := by
  refine ⟨fun request => request.consistent_left h, fun b => h.cloneSubtree_iff, ?_⟩
  intro list element taken after hlist hrun
  obtain ⟨rule, hrule, hparent, rfl⟩ := Edit.taken_eq hrun
  have hcut := h.withoutPadding rule list element
  obtain ⟨hforest, -, hroot⟩ := doc.withoutPadding_tables rule list element
  refine ⟨rule, hrule, hcut.extract_iff ?_⟩
  rw [hforest, hroot]
  exact .step hparent hlist

/-- A list of arguments in a comment: edits are sound, but not the clones of what is inside. -/
theorem Document.consistent_of_edits_comment :
    let doc := (((Document.ofSource .javaScript .argument "a").wrapRoot .argumentList).wrapRoot
      .comment).updateComments
    let request := Request.add ⟨1⟩ 1 (.ofSource .javaScript .argument "b")
    doc.Consistent ∧ (request.run.left doc).Consistent ∧ (request.run.left doc).text = "a, b" ∧
      (doc.cloneSubtree ⟨2⟩).Consistent ∧ ¬ (doc.cloneSubtree ⟨1⟩).Consistent ∧
      ∃ taken after, (Edit.removeElement ⟨1⟩ ⟨0⟩).run doc = .ok taken after ∧ ¬ taken.Consistent := by
  intro doc request
  have hargument : ∀ text, (ofSource .javaScript .argument text).Consistent := by
    intro text
    exact ⟨isTree_ofSource .., ⟨nodup_nil, fun _ hm => by cases hm⟩,
      fun b _ => parent_branch_ofSource ..⟩
  have hdoc : doc.Consistent := by
    refine ⟨(((hargument "a").toIsTree.wrapRoot _).wrapRoot _).updateComments,
      listsComments_updateComments _, fun b hb => ?_⟩
    by_cases hhas : doc.Has b
    · have hall : ∀ i < 3, doc.kindOf ⟨i⟩ = .comment → doc.parent (.branch ⟨i⟩) = none := by
        decide +kernel
      exact hall b.index (hhas.trans_le (by decide +kernel)) hb
    · exact parent_of_not_has hhas
  have helement : ∀ kind, doc.grammar.elementKind? kind ≠ some .comment := by
    have hall : ∀ kind ∈ Kind.all, Grammar.javaScript.elementKind? kind ≠ some .comment := by
      decide +kernel
    exact fun kind => hall kind (Grammar.mem_all kind)
  have hlist : doc.Around doc.root (.branch ⟨1⟩) :=
    .step (by decide +kernel) (show doc.Around doc.root doc.root from .self)
  obtain ⟨hedit, hclone, htaken⟩ := consistent_of_edits hdoc
  refine ⟨hdoc, hedit request helement ?_ ?_, by decide +kernel, ?_, ?_, ?_⟩
  · rintro b ⟨⟩
    exact hlist
  · rintro fragment ⟨⟩
    exact ⟨hargument "b", by decide +kernel⟩
  · exact (hclone ⟨2⟩ .self).2 fun he => he.1 rfl
  · rw [hclone ⟨1⟩ hlist, not_not]
    decide +kernel
  · have hengulfs : ((doc.listRule? ⟨1⟩).all fun rule =>
        let cut := doc.withoutPadding rule ⟨1⟩ ⟨0⟩
        decide (cut.Engulfs ⟨0⟩ (cut.coveredLeaves (.branch ⟨0⟩)))) = true := by decide +kernel
    have hok : (EStateM.run' (Edit.removeElement ⟨1⟩ ⟨0⟩) doc).isSome = true := by decide +kernel
    cases hrun : (Edit.removeElement ⟨1⟩ ⟨0⟩).run doc with
    | ok taken after =>
      obtain ⟨rule, hrule, hiff⟩ := htaken ⟨1⟩ ⟨0⟩ taken after hlist hrun
      rw [hrule] at hengulfs
      exact ⟨taken, after, rfl, fun hc => hiff.1 hc (of_decide_eq_true hengulfs)⟩
    | error e after =>
      delta EStateM.run' at hok
      rw [hrun] at hok
      cases hok

end Lossless
