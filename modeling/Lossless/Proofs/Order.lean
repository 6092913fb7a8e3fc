import Mathlib.Data.List.Nodup
import Mathlib.Tactic.Common

/-! Positions in an order without repetitions. That one entry stands before another is said by a
sublist of two, which growing the order keeps and shrinking it keeps between what is left. -/

namespace Lossless

open List

section

variable {α : Type} {order order' : List α} {x y z : α}

def Before (order : List α) (x y : α) : Prop :=
  [x, y] <+ order

theorem Before.mem_right (h : Before order x y) : y ∈ order :=
  h.subset (by simp)

theorem Before.mono (h : Before order x y) (hs : order <+ order') : Before order' x y :=
  Sublist.trans h hs

theorem before_append {xs ys : List α} (hx : x ∈ xs) (hy : y ∈ ys) : Before (xs ++ ys) x y :=
  (singleton_sublist.2 hx).append (singleton_sublist.2 hy)

theorem before_cons (hy : y ∈ order) : Before (x :: order) x y :=
  cons_sublist_cons.2 (singleton_sublist.2 hy)

theorem Before.of_cons (h : Before (z :: order) x y) (hx : x ≠ z) : Before order x y := by
  rcases sublist_cons_iff.1 h with h | ⟨r, hr, -⟩
  · exact h
  · exact absurd (cons.inj hr).1 hx

theorem Before.ne (hn : order.Nodup) (h : Before order x y) : x ≠ y := by
  rintro rfl
  have := hn.sublist h
  simp at this

theorem before_asymm (hn : order.Nodup) (h : Before order x y) : ¬ Before order y x := by
  induction order with
  | nil => cases h
  | cons a order ih =>
    obtain ⟨ha, hn'⟩ := nodup_cons.1 hn
    intro h'
    by_cases hx : x = a
    · subst hx
      exact ha (h'.of_cons (h'.ne hn)).mem_right
    · have hxy := h.of_cons hx
      have hy : y ≠ a := fun he => ha (he ▸ hxy.mem_right)
      exact ih hn' hxy (h'.of_cons hy)

/-- Entries that stand in the order one after the other are a part of it. -/
theorem sublist_of_before {xs : List α} (hn : order.Nodup) (hmem : ∀ x ∈ xs, x ∈ order)
    (hp : xs.Pairwise (Before order)) : xs <+ order := by
  induction order generalizing xs with
  | nil =>
    cases xs with
    | nil => exact Sublist.refl _
    | cons x xs => cases hmem x (by simp)
  | cons a order ih =>
    obtain ⟨ha, hn'⟩ := nodup_cons.1 hn
    cases xs with
    | nil => exact nil_sublist _
    | cons x xs =>
      obtain ⟨hx, hp⟩ := pairwise_cons.1 hp
      -- the first entry of the order is among the given ones only as the first of them
      have hxs : a ∉ xs := by
        intro hm
        have hb := hx a hm
        exact ha (hb.of_cons (hb.ne hn)).mem_right
      have htail : xs <+ order := by
        refine ih hn' (fun y hy => ?_) (hp.imp_of_mem fun hy _ h => h.of_cons ?_)
        · have hya : y ≠ a := fun he => hxs (he ▸ hy)
          exact mem_of_ne_of_mem hya (hmem y (by simp [hy]))
        · exact fun he => hxs (he ▸ hy)
      by_cases hxa : x = a
      · exact hxa ▸ htail.cons_cons x
      · refine Sublist.cons a (ih hn' (fun y hy => ?_) ?_)
        · rcases mem_cons.1 hy with rfl | hy
          · exact mem_of_ne_of_mem hxa (hmem y (by simp))
          · exact htail.subset hy
        · refine pairwise_cons.2 ⟨fun y hy => (hx y hy).of_cons hxa, ?_⟩
          exact hp.imp_of_mem fun hy _ h => h.of_cons fun he => hxs (he ▸ hy)

theorem pairwise_before {xs : List α} (h : xs <+ order) : xs.Pairwise (Before order) := by
  induction xs with
  | nil => exact Pairwise.nil
  | cons x xs ih =>
    refine pairwise_cons.2 ⟨fun y hy => ?_, ih ((sublist_cons_self x xs).trans h)⟩
    exact (before_cons hy).mono h

theorem Before.of_sublist (h : Before order x y) (hn : order.Nodup) (hs : order' <+ order)
    (hx : x ∈ order') (hy : y ∈ order') : Before order' x y := by
  induction hs with
  | slnil => cases hx
  | cons a hsub ih =>
    obtain ⟨ha, hn⟩ := nodup_cons.1 hn
    have hxa : x ≠ a := fun he => ha (he ▸ hsub.subset hx)
    exact ih (h.of_cons hxa) hn hx hy
  | cons_cons a hsub ih =>
    obtain ⟨ha, hn'⟩ := nodup_cons.1 hn
    by_cases hxa : x = a
    · subst hxa
      exact before_cons (mem_of_ne_of_mem (Ne.symm (h.ne hn)) hy)
    · have hya : y ≠ a := by
        rintro rfl
        exact ha (h.of_cons hxa).mem_right
      exact (ih (h.of_cons hxa) hn' (mem_of_ne_of_mem hxa hx)
        (mem_of_ne_of_mem hya hy)).mono (sublist_cons_self _ _)

end

section

variable {α : Type} [BEq α] [LawfulBEq α] {order : List α} {x y : α} {i j : Nat}

theorem idxOf?_append_cons {xs ys : List α} (h : x ∉ xs) :
    (xs ++ x :: ys).idxOf? x = some xs.length := by
  rw [idxOf?_eq_some_iff]
  refine ⟨by simp, by simp, fun j hj he => h ?_⟩
  rw [getElem_append_left hj] at he
  exact he ▸ getElem_mem hj

theorem exists_split_of_idxOf? (h : order.idxOf? x = some i) :
    ∃ xs ys, order = xs ++ x :: ys ∧ xs.length = i := by
  obtain ⟨hi, he, -⟩ := idxOf?_eq_some_iff.1 h
  refine ⟨order.take i, order.drop (i + 1), ?_, by simp; omega⟩
  rw [← he, getElem_cons_drop, take_append_drop]

theorem exists_idxOf? (h : x ∈ order) : ∃ i, order.idxOf? x = some i :=
  Option.isSome_iff_exists.1 (by simpa [isSome_idxOf?] using h)

theorem mem_of_idxOf? (h : order.idxOf? x = some i) : x ∈ order := by
  obtain ⟨xs, ys, rfl, -⟩ := exists_split_of_idxOf? h
  simp

theorem idxOf?_lt_length (h : order.idxOf? x = some i) : i < order.length :=
  (idxOf?_eq_some_iff.1 h).1

theorem getElem?_of_idxOf? (h : order.idxOf? x = some i) : order[i]? = some x := by
  obtain ⟨xs, ys, rfl, rfl⟩ := exists_split_of_idxOf? h
  simp

theorem idxOf?_of_getElem? (hn : order.Nodup) (h : order[i]? = some x) :
    order.idxOf? x = some i := by
  obtain ⟨hi, he⟩ := List.getElem?_eq_some_iff.1 h
  obtain ⟨j, hj⟩ := exists_idxOf? (mem_of_getElem? h)
  obtain ⟨hj', he'⟩ := List.getElem?_eq_some_iff.1 (getElem?_of_idxOf? hj)
  rw [hj, (hn.getElem_inj_iff).1 (he'.trans he.symm)]

theorem before_of_lt (hx : order.idxOf? x = some i) (hy : order.idxOf? y = some j) (h : i < j) :
    Before order x y := by
  have hy' := getElem?_of_idxOf? hy
  obtain ⟨xs, ys, rfl, rfl⟩ := exists_split_of_idxOf? hx
  obtain ⟨k, rfl⟩ : ∃ k, j = xs.length + (k + 1) := ⟨j - xs.length - 1, by omega⟩
  rw [getElem?_append_right (by omega), Nat.add_sub_cancel_left,
    getElem?_cons_succ] at hy'
  exact (before_cons (mem_of_getElem? hy')).mono (sublist_append_right _ _)

theorem lt_of_before (hn : order.Nodup) (h : Before order x y) (hx : order.idxOf? x = some i)
    (hy : order.idxOf? y = some j) : i < j := by
  rcases Nat.lt_trichotomy i j with hlt | heq | hgt
  · exact hlt
  · subst heq
    have := (getElem?_of_idxOf? hx).symm.trans (getElem?_of_idxOf? hy)
    exact absurd (Option.some.inj this) (h.ne hn)
  · exact absurd (before_of_lt hy hx hgt) (before_asymm hn h)

end

end Lossless
