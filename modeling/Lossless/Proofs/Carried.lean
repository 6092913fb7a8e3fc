import Lossless.Proofs.Retained

/-! What a node shows of a fragment. Fragments are indented, trimmed and wrapped on their way into a
document, and tokens are cut around them; their ink stays in its order with its texts. -/

namespace Lossless

open List Layout Document

theorem sublist_filter_map {α β : Type} {p q : α → Bool} {f g : α → β} {xs : List α}
    (h : ∀ x ∈ xs, p x = true → q x ∧ g x = f x) :
    (xs.filter p).map f <+ (xs.filter q).map g := by
  induction xs with
  | nil => exact .slnil
  | cons x xs ih =>
    have ih := ih fun y hy => h y (mem_cons_of_mem _ hy)
    cases hp : p x with
    | false =>
      rw [filter_cons_of_neg (by simp [hp]), filter_cons]
      split
      · exact ih.cons _
      · exact ih
    | true =>
      obtain ⟨hq, he⟩ := h x mem_cons_self hp
      rw [filter_cons_of_pos hp, filter_cons_of_pos hq, map_cons, map_cons, he]
      exact ih.cons_cons _

namespace Forest

theorem Retexted.leaves {f g : Forest} (h : f.Retexted g) (hf : f.Linked) (node : Node) :
    g.leaves node = f.leaves node := by
  cases node with
  | leaf l => rw [leaves_leaf, leaves_leaf]
  | branch b => exact hf.leaves_congr (h.linked hf) b fun c _ => h.children c

theorem textOf_indentTokens_of_kept {f : Forest} {l : Leaf} {unit : String} {opensLine : Bool}
    {ls : List Leaf} (hhas : f.Has l)
    (hkept : isGap (f.textOf l) = true → l ∉ ls) :
    (indentTokens unit opensLine ls f).2.textOf l = f.textOf l := by
  induction ls generalizing opensLine f with
  | nil => rfl
  | cons m ls ih =>
    have hkept' : isGap (f.textOf l) = true → l ∉ ls := fun hgap hl =>
      hkept hgap (mem_cons_of_mem m hl)
    rw [indentTokens]
    dsimp only
    split
    · next hopen =>
      split
      · next hblank =>
        have hne : m ≠ l := by
          rintro rfl
          refine hkept ?_ mem_cons_self
          rw [isGap, hblank, (Bool.and_eq_true_iff.1 hopen).2]
          rfl
        have htext : (f.setText m (f.textOf m ++ unit)).textOf l = f.textOf l := by
          rw [textOf, Forest.setText, token_modifyToken, if_neg (hne ·.1), textOf]
        exact (ih ((Retexted.setText f m _).has _ hhas) (htext ▸ hkept')).trans htext
      · have htext := textOf_addToken_of_has hhas { text := unit }
        exact (ih (has_addToken hhas _) (htext ▸ hkept')).trans htext
    · exact ih hhas hkept'

theorem textOf_indentTokens {f : Forest} {l : Leaf} {unit : String} {opensLine : Bool}
    {ls : List Leaf} (hhas : f.Has l) (hink : Text.isBlank (f.textOf l) = false) :
    (indentTokens unit opensLine ls f).2.textOf l = f.textOf l :=
  textOf_indentTokens_of_kept hhas fun hgap => by simp [isGap, hink] at hgap

end Forest

namespace Document

variable {doc after fragment laid : Document} {b : Branch} {gone tokens tokens' : List Leaf}

/-- The texts that a node shows, without white space. -/
def shownInk (doc : Document) (node : Node) : List String :=
  ((doc.visibleLeaves node).filter fun l => !Text.isBlank (doc.textOf l)).map doc.textOf

/-- A node claims the tokens of a fragment, and the ink of the fragment is among given tokens. -/
def Brings (doc : Document) (b : Branch) (tokens : List Leaf) (fragment : Document) : Prop :=
  ∃ place : Leaf → Leaf,
    doc.leaves b = (fragment.leaves fragment.root).map place ∧
    ∀ l ∈ fragment.leaves fragment.root, l ∈ fragment.ink →
      place l ∈ tokens ∧ doc.textOf (place l) = fragment.textOf l

def Carries (doc : Document) (b : Branch) (fragment : Document) : Prop :=
  doc.Brings b doc.order fragment

theorem Brings.congr (h : doc.Brings b tokens fragment)
    (hleaves : after.leaves b = doc.leaves b)
    (hkept : ∀ l ∈ doc.leaves b, l ∈ tokens → Text.isBlank (doc.textOf l) = false →
      l ∈ tokens' ∧ after.textOf l = doc.textOf l) : after.Brings b tokens' fragment := by
  obtain ⟨place, hplace, hink⟩ := h
  refine ⟨place, hleaves.trans hplace, fun l hl hl' => ?_⟩
  obtain ⟨hmem, htext⟩ := hink l hl hl'
  obtain ⟨hmem', htext'⟩ := hkept (place l) (hplace ▸ mem_map_of_mem hl) hmem
    (htext ▸ (mem_ink.1 hl').2)
  exact ⟨hmem', htext'.trans htext⟩

theorem Brings.insertAt (h : doc.Brings b tokens fragment) (p : Nat) :
    (doc.insertAt p tokens).Carries b fragment :=
  h.congr rfl fun _ _ hl _ => ⟨mem_insertAt.2 (.inl hl), rfl⟩

namespace Carries

theorem of_ink (hleaves : laid.leaves laid.root = fragment.leaves fragment.root)
    (hink : ∀ l ∈ fragment.ink, l ∈ laid.order ∧ laid.textOf l = fragment.textOf l) :
    laid.Carries laid.root fragment :=
  ⟨id, by rw [map_id, hleaves], fun l _ hl => hink l hl⟩

theorem trans (h : doc.Carries b laid) (h' : laid.Carries laid.root fragment) :
    doc.Carries b fragment := by
  obtain ⟨place, hleaves, hink⟩ := h
  obtain ⟨place', hleaves', hink'⟩ := h'
  refine ⟨place ∘ place', by rw [hleaves, hleaves', map_map], fun l hl hl' => ?_⟩
  obtain ⟨ho, htext⟩ := hink' l hl hl'
  obtain ⟨ho', htext'⟩ := hink (place' l) (hleaves' ▸ mem_map_of_mem hl)
    (mem_ink.2 ⟨ho, htext ▸ (mem_ink.1 hl').2⟩)
  exact ⟨ho', htext'.trans htext⟩

/-- What has been brought in stays while nothing of it goes. -/
theorem retains (h : doc.Carries b fragment) (hr : Retains doc after gone)
    (hleaves : after.leaves b = doc.leaves b)
    (hgone : ∀ l ∈ doc.leaves b, l ∈ doc.order → l ∉ gone) : after.Carries b fragment :=
  h.congr hleaves fun l hl ho hink =>
    ⟨hr.kept l (mem_ink.2 ⟨ho, hink⟩) (hgone l hl ho),
      hr.evolves.textOf l (hr.start.order_has l ho)⟩

/-- The node shows the ink of the fragment. -/
theorem shownInk (h : doc.Carries b fragment) :
    fragment.shownInk fragment.root <+ doc.shownInk b := by
  obtain ⟨place, hplace, hink⟩ := h
  rw [Document.shownInk, Document.shownInk, visibleLeaves, visibleLeaves, hplace,
    filter_filter, filter_filter, filter_map, map_map]
  refine sublist_filter_map fun l hl hinked => ?_
  have hinked : l ∈ fragment.ink := mem_ink.2 (by simpa [and_comm] using hinked)
  obtain ⟨ho, htext⟩ := hink l hl hinked
  simp [ho, htext, (mem_ink.1 hinked).2]

end Carries

theorem IsTree.carries_wrap (h : fragment.IsTree) (rule : ListRule) :
    (rule.wrap fragment).Carries (rule.wrap fragment).root fragment := by
  rw [ListRule.wrap]
  split
  · exact .of_ink rfl fun l hl => ⟨(mem_ink.1 hl).1, rfl⟩
  · exact .of_ink (leaves_wrapRoot h _) fun l hl => ⟨(mem_ink.1 hl).1, textOf_wrapRoot ..⟩

theorem Relaid.carries (hr : fragment.Relaid laid) (h : fragment.IsTree)
    (hink : ∀ l ∈ fragment.ink, l ∈ laid.order ∧ laid.textOf l = fragment.textOf l) :
    laid.Carries laid.root fragment := by
  refine .of_ink ?_ hink
  rw [hr.root]
  exact hr.retexted.leaves h.linked _

theorem IsTree.carries_increaseIndent (h : fragment.IsTree) (b : Branch) (unit : String) :
    (fragment.increaseIndent b unit).Carries (fragment.increaseIndent b unit).root fragment := by
  refine (h.increaseIndent b unit).carries h fun l hl => ?_
  obtain ⟨ho, hink⟩ := mem_ink.1 hl
  refine ⟨(fragment.sublist_increaseIndent b unit).subset ho, ?_⟩
  rw [Document.increaseIndent]
  split
  · rfl
  · exact Forest.textOf_indentTokens (h.order_has l ho) hink

theorem IsTree.carries_endLine (h : fragment.IsTree) :
    fragment.endLine.Carries fragment.endLine.root fragment := by
  refine h.endLine.carries h fun l hl => ?_
  have ho := (mem_ink.1 hl).1
  rcases fragment.endLine_cases with he | he <;> rw [he]
  · exact ⟨ho, rfl⟩
  · exact ⟨mem_insertAt.2 (.inr ho), textOf_newToken_of_has (h.order_has l ho) _⟩

theorem carries_trimStart (fragment : Document) :
    fragment.trimStart.Carries fragment.trimStart.root fragment := by
  refine .of_ink rfl fun l hl => ⟨?_, rfl⟩
  obtain ⟨ho, hink⟩ := mem_ink.1 hl
  rw [← takeWhile_append_dropWhile (p := fun l => Text.isBlank (fragment.textOf l))
    (l := fragment.order)] at ho
  refine (mem_append.1 ho).resolve_left fun hm => ?_
  rw [all_eq_true.1 all_takeWhile l hm] at hink
  cases hink

end Document

end Lossless
