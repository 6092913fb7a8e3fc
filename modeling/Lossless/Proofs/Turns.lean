import Lossless.Proofs.Layouts
import Lossless.Proofs.Rows

/-! Slots in turn. Along the slots of a tuple contents and delimiters alternate, whatever slots
without content stand among them. Then the tokens of the slots spell the contents with a delimiter
and a space between them. -/

namespace Lossless

open List Option Layout

/-- What was met last along the slots of a tuple. -/
inductive Turn where
  | start
  | filled
  | divided
deriving DecidableEq, Repr

namespace Turn

/-- A delimiter follows a content. -/
def divide : Turn → Option Turn
  | filled => some divided
  | start | divided => none

def fill : Turn → Option Turn
  | filled => none
  | start | divided => some filled

/-- The turn behind a slot, whose delimiter stands before its content. -/
def next (t : Turn) (e : Entry) : Option Turn :=
  (if e.joint.isSome then t.divide else some t).bind fun u =>
    if e.leaves.isEmpty then some u else u.fill

def along (t : Turn) (es : List Entry) : Option Turn :=
  es.foldlM next t

variable {t u : Turn} {e : Entry} {es fs : List Entry}

/-! ### One slot -/

theorem next_blank (t : Turn) (hj : e.joint = none) (hl : e.leaves = []) : t.next e = some t := by
  simp [next, hj, hl]

theorem next_content (ht : t ≠ filled) (hj : e.joint = none) (hl : e.leaves ≠ []) :
    t.next e = some filled := by
  cases t <;> simp_all [next, fill]

theorem next_joint (hj : e.joint.isSome = true) :
    filled.next e = some (if e.leaves = [] then divided else filled) := by
  by_cases hl : e.leaves = [] <;> simp [next, hj, hl, divide, fill]

theorem next_cases (h : t.next e = some u) :
    e.joint = none ∧ e.leaves = [] ∧ u = t ∨
      e.joint = none ∧ e.leaves ≠ [] ∧ t ≠ filled ∧ u = filled ∨
      e.joint.isSome = true ∧ t = filled ∧ e.leaves = [] ∧ u = divided ∨
      e.joint.isSome = true ∧ t = filled ∧ e.leaves ≠ [] ∧ u = filled := by
  cases hj : e.joint <;> by_cases hl : e.leaves = [] <;> cases t <;>
    simp [next, hj, hl, divide, fill] at h ⊢ <;> exact h.symm

/-! ### Several slots -/

@[simp] theorem along_nil (t : Turn) : t.along [] = some t := rfl

theorem along_cons (t : Turn) (e : Entry) (es : List Entry) :
    t.along (e :: es) = (t.next e).bind (along · es) :=
  foldlM_cons

theorem along_append (t : Turn) (es fs : List Entry) :
    t.along (es ++ fs) = (t.along es).bind (along · fs) :=
  foldlM_append

theorem along_cons_of (h : t.next e = some u) (es : List Entry) :
    t.along (e :: es) = u.along es := by
  rw [along_cons, h, bind_some]

theorem along_append_of (h : t.along es = some u) (fs : List Entry) :
    t.along (es ++ fs) = u.along fs := by
  rw [along_append, h, bind_some]

end Turn

namespace Entry

variable {es : List Entry} {e f : Entry} {t u : Turn} {delimiter : String}

def Blank (es : List Entry) : Prop :=
  ∀ e ∈ es, e.joint = none ∧ e.leaves = []

theorem Blank.body_eq (h : Blank es) : body es = [] := by
  refine flatMap_eq_nil_iff.2 fun e he => ?_
  simp [tokens, jointLeaves, h e he]

theorem Blank.shown_eq (h : Blank es) : shown es = [] := by
  refine flatMap_eq_nil_iff.2 fun e he => ?_
  simp [h e he]

theorem Blank.along (h : Blank es) (t : Turn) : t.along es = some t := by
  induction es with
  | nil => rfl
  | cons e es ih =>
    obtain ⟨hj, hl⟩ := h e (by simp)
    rw [Turn.along_cons_of (t.next_blank hj hl)]
    exact ih fun f hf => h f (by simp [hf])

theorem blank_cons : Blank (e :: es) ↔ (e.joint = none ∧ e.leaves = []) ∧ Blank es :=
  forall_mem_cons

/-- Every delimiter has a content before and behind it, with no other one in between. -/
def Settled (es : List Entry) : Prop :=
  ∃ u, Turn.start.along es = some u ∧ u ≠ .divided

theorem Blank.concat (h : Blank es) (hj : e.joint = none) (hl : e.leaves = []) :
    Blank (es ++ [e]) := by
  intro f hf
  rcases mem_append.1 hf with hf | hf
  · exact h f hf
  · rw [mem_singleton.1 hf]
    exact ⟨hj, hl⟩

theorem blank_nil : Blank [] := by simp [Blank]

theorem exists_of_along_cons (h : t.along (e :: es) = some u) :
    ∃ v, t.next e = some v ∧ v.along es = some u :=
  bind_eq_some_iff.1 (Turn.along_cons .. ▸ h)

theorem exists_of_along_concat (h : t.along (es ++ [e]) = some u) :
    ∃ v, t.along es = some v ∧ v.next e = some u := by
  obtain ⟨v, hv, he⟩ := bind_eq_some_iff.1 (Turn.along_append .. ▸ h)
  rw [Turn.along_cons, bind_eq_some_iff] at he
  obtain ⟨w, hw, he⟩ := he
  cases he
  exact ⟨v, hv, hw⟩

theorem blank_of_along (h : Turn.start.along es = some .start) : Blank es := by
  induction es using reverseRecOn with
  | nil => exact blank_nil
  | append_singleton es e ih =>
    obtain ⟨v, hv, he⟩ := exists_of_along_concat h
    rcases Turn.next_cases he with ⟨hj, hl, rfl⟩ | ⟨-, -, -, he⟩ | ⟨-, -, -, he⟩ | ⟨-, -, -, he⟩
    · exact (ih hv).concat hj hl
    all_goals cases he

theorem exists_content_of_along (h : Turn.start.along es = some .filled) :
    ∃ pre e post, es = pre ++ e :: post ∧ e.leaves ≠ [] ∧ Blank post := by
  induction es using reverseRecOn with
  | nil => cases h
  | append_singleton es e ih =>
    obtain ⟨v, hv, he⟩ := exists_of_along_concat h
    rcases Turn.next_cases he with ⟨hj, hl, rfl⟩ | ⟨-, hl, -⟩ | ⟨-, -, -, he⟩ | ⟨-, -, hl, -⟩
    · obtain ⟨pre, f, post, rfl, hf, hpost⟩ := ih hv
      exact ⟨pre, f, post ++ [e], by simp, hf, hpost.concat hj hl⟩
    · exact ⟨es, e, [], rfl, hl, blank_nil⟩
    · cases he
    · exact ⟨es, e, [], rfl, hl, blank_nil⟩

theorem getLast?_of_filled (h : Turn.start.along es = some .filled) :
    ∃ l, (shown es).getLast? = some l ∧ (body es).getLast? = some l := by
  obtain ⟨pre, e, post, rfl, hl, hpost⟩ := exists_content_of_along h
  refine ⟨e.leaves.getLast hl, ?_, ?_⟩
  · simp [shown_append, shown_cons, hpost.shown_eq, getLast?_append,
      getLast?_eq_some_getLast hl]
  · simp [hpost.body_eq, getLast?_append, getLast?_eq_some_getLast hl]

theorem Settled.getLast?_or (h : Settled es) (s : Brackets) :
    (shown es).getLast?.or (some s.opening) =
      (s.before ++ s.opening :: body es).getLast? := by
  obtain ⟨u, hu, hne⟩ := h
  cases u with
  | start =>
    have hblank := blank_of_along hu
    simp [hblank.shown_eq, hblank.body_eq]
  | filled =>
    obtain ⟨l, hshown, hbody⟩ := getLast?_of_filled hu
    simp [hshown, hbody, getLast?_append, getLast?_cons]
  | divided => exact absurd rfl hne

/-- Behind a delimiter: the last slot with anything in the text has that delimiter and no content. -/
theorem exists_joint_of_along (h : Turn.start.along es = some .divided) :
    ∃ pre f post j, es = pre ++ f :: post ∧ Turn.start.along pre = some .filled ∧
      f.joint = some j ∧ f.leaves = [] ∧ Blank post := by
  induction es using reverseRecOn with
  | nil => cases h
  | append_singleton es e ih =>
    obtain ⟨v, hv, he⟩ := exists_of_along_concat h
    rcases Turn.next_cases he with ⟨hj, hl, rfl⟩ | ⟨-, -, -, he⟩ | ⟨hj, rfl, hl, -⟩ | ⟨-, -, -, he⟩
    · obtain ⟨pre, f, post, j, rfl, hpre, hf, hnil, hpost⟩ := ih hv
      exact ⟨pre, f, post ++ [e], j, by simp, hpre, hf, hnil, hpost.concat hj hl⟩
    · cases he
    · obtain ⟨j, hj⟩ := isSome_iff_exists.1 hj
      exact ⟨es, e, [], j, rfl, hv, hj, hl, blank_nil⟩
    · cases he

theorem blank_or_exists_joint (h : Turn.filled.along es = some u) :
    Blank es ∨ ∃ pre f post j, es = pre ++ f :: post ∧ Blank pre ∧ f.joint = some j := by
  induction es with
  | nil => exact Or.inl blank_nil
  | cons e es ih =>
    obtain ⟨v, hv, hes⟩ := exists_of_along_cons h
    rcases Turn.next_cases hv with ⟨hj, hl, rfl⟩ | ⟨-, -, hne, -⟩ | ⟨hj, -⟩ | ⟨hj, -⟩
    · rcases ih hes with hblank | ⟨pre, f, post, j, rfl, hpre, hf⟩
      · exact Or.inl (blank_cons.2 ⟨⟨hj, hl⟩, hblank⟩)
      · exact Or.inr ⟨e :: pre, f, post, j, rfl, blank_cons.2 ⟨⟨hj, hl⟩, hpre⟩, hf⟩
    · exact absurd rfl hne
    all_goals
      obtain ⟨j, hj⟩ := isSome_iff_exists.1 hj
      exact Or.inr ⟨[], e, es, j, rfl, blank_nil, hj⟩

/-- At the start and behind a delimiter the same may follow, as long as a content follows. -/
theorem along_divided (h : Turn.start.along es = some u) (hne : ¬ Blank es) :
    Turn.divided.along es = some u := by
  induction es with
  | nil => exact absurd blank_nil hne
  | cons e es ih =>
    obtain ⟨v, hv, hes⟩ := exists_of_along_cons h
    rcases Turn.next_cases hv with ⟨hj, hl, rfl⟩ | ⟨hj, hl, -, rfl⟩ | ⟨-, ht, -⟩ | ⟨-, ht, -⟩
    · rw [Turn.along_cons_of (Turn.divided.next_blank hj hl)]
      exact ih hes fun hb => hne (blank_cons.2 ⟨⟨hj, hl⟩, hb⟩)
    · rw [Turn.along_cons_of (Turn.next_content (by simp) hj hl)]
      exact hes
    all_goals cases ht

theorem along_start (h : Turn.divided.along es = some u) (hu : u ≠ .divided) :
    Turn.start.along es = some u := by
  induction es with
  | nil => exact absurd (some.inj h).symm hu
  | cons e es ih =>
    obtain ⟨v, hv, hes⟩ := exists_of_along_cons h
    rcases Turn.next_cases hv with ⟨hj, hl, rfl⟩ | ⟨hj, hl, -, rfl⟩ | ⟨-, ht, -⟩ | ⟨-, ht, -⟩
    · rw [Turn.along_cons_of (Turn.start.next_blank hj hl)]
      exact ih hes
    · rw [Turn.along_cons_of (Turn.next_content (by simp) hj hl)]
      exact hes
    all_goals cases ht

/-! ### Changes -/

section

variable {ls rs : List Entry} {j : Leaf × Leaf} {new : List Leaf}

theorem blank_of_body (h : body es = []) : Blank es := by
  intro e he
  have htokens := flatMap_eq_nil_iff.1 h e he
  rw [tokens, append_eq_nil_iff] at htokens
  refine ⟨?_, htokens.2⟩
  cases hj : e.joint with
  | none => rfl
  | some j => simp [jointLeaves, hj] at htokens

theorem exists_of_along_split (h : t.along (ls ++ e :: rs) = some u) :
    ∃ v w, t.along ls = some v ∧ v.next e = some w ∧ w.along rs = some u := by
  obtain ⟨v, hv, he⟩ := bind_eq_some_iff.1 (Turn.along_append .. ▸ h)
  obtain ⟨w, hw, hrs⟩ := exists_of_along_cons he
  exact ⟨v, w, hv, hw, hrs⟩

theorem along_split (hls : t.along ls = some u) {v : Turn} (he : u.next e = some v)
    (rs : List Entry) : t.along (ls ++ e :: rs) = v.along rs := by
  rw [Turn.along_append_of hls, Turn.along_cons_of he]

/-- A content comes into a slot. With a content on its left it has a delimiter before it; or else,
with a content on its right, the next slot has one. -/
theorem Settled.fill (h : Settled (ls ++ e :: rs)) (hj : e.joint = none) (hl : e.leaves = [])
    (hls : Settled ls) :
    (Turn.start.along ls = some .filled ∧ ∀ j new, new ≠ [] →
        Settled (ls ++ { e with joint := some j, leaves := new } :: rs)) ∨
      (Blank ls ∧ Blank rs ∧ ∀ new, new ≠ [] → Settled (ls ++ { e with leaves := new } :: rs)) ∨
      (Blank ls ∧ ∃ f rest, rs = f :: rest ∧ f.joint = none ∧ ¬ Blank rs ∧ ∀ j new, new ≠ [] →
        Settled (ls ++ { e with leaves := new } :: { f with joint := some j } :: rest)) := by
  obtain ⟨u, hu, hdivided⟩ := h
  obtain ⟨v, w, hv, hw, hrs⟩ := exists_of_along_split hu
  rw [v.next_blank hj hl] at hw
  cases hw
  obtain ⟨v', hv', hne⟩ := hls
  rw [hv] at hv'
  cases hv'
  have hcontent : ∀ new, new ≠ [] → Turn.start.next { e with leaves := new } = some .filled :=
    fun new hnew => Turn.next_content (by simp) hj hnew
  cases v with
  | start =>
    have hleft := blank_of_along hv
    by_cases hblank : Blank rs
    · refine Or.inr (Or.inl ⟨hleft, hblank, fun new hnew => ⟨.filled, ?_, by simp⟩⟩)
      rw [along_split hv (hcontent new hnew), hblank.along]
    · refine Or.inr (Or.inr ⟨hleft, ?_⟩)
      cases rs with
      | nil => exact absurd blank_nil hblank
      | cons f rest =>
        obtain ⟨x, hx, hrest⟩ := exists_of_along_cons hrs
        have hdivide : ∀ j, Turn.filled.next { f with joint := some j } =
            some (if f.leaves = [] then .divided else .filled) := fun j => Turn.next_joint rfl
        rcases Turn.next_cases hx with ⟨hfj, hfl, rfl⟩ | ⟨hfj, hfl, -, rfl⟩ | ⟨-, ht, -⟩ | ⟨-, ht, -⟩
        · refine ⟨f, rest, rfl, hfj, hblank, fun j new hnew => ⟨u, ?_, hdivided⟩⟩
          rw [along_split hv (hcontent new hnew), Turn.along_cons_of (hdivide j), if_pos hfl]
          exact along_divided hrest fun hb => hblank (blank_cons.2 ⟨⟨hfj, hfl⟩, hb⟩)
        · refine ⟨f, rest, rfl, hfj, hblank, fun j new hnew => ⟨u, ?_, hdivided⟩⟩
          rw [along_split hv (hcontent new hnew), Turn.along_cons_of (hdivide j), if_neg hfl]
          exact hrest
        all_goals cases ht
  | filled =>
    refine Or.inl ⟨hv, fun j new hnew => ⟨u, ?_, hdivided⟩⟩
    have hboth : Turn.filled.next { e with joint := some j, leaves := new } = some .filled := by
      rw [Turn.next_joint rfl, if_neg hnew]
    rw [along_split hv hboth]
    exact hrs
  | divided => exact absurd rfl hne

/-- The slots with their contents, whatever delimiters stand among them. -/
def contents (es : List Entry) : List (Branch × List Leaf) :=
  es.map fun e => (e.element, e.leaves)

theorem contents_append (es fs : List Entry) : contents (es ++ fs) = contents es ++ contents fs :=
  map_append

theorem contents_cons (e : Entry) (es : List Entry) :
    contents (e :: es) = (e.element, e.leaves) :: contents es :=
  map_cons

/-- The neighbour of a slot among the other slots, on its left or else on its right. -/
def neighbour? (ls : List Entry) (e : Entry) (rs : List Entry) : Option Leaf :=
  (shown ls ++ e.joint.toList.map Prod.fst).getLast?.or (body rs).head?

theorem Settled.clear (h : Settled (ls ++ e :: rs)) (hl : e.leaves ≠ []) :
    ∃ ls' rs', contents ls' = contents ls ∧ contents rs' = contents rs ∧ Settled ls' ∧
      Settled (ls' ++ { e with joint := none, leaves := [] } :: rs') ∧
      (neighbour? ls e rs = none ∧ ls' ++ { e with joint := none } :: rs' = ls ++ e :: rs ∨
        ∃ pre f post j, ls ++ e :: rs = pre ++ f :: post ∧ f.joint = some j ∧ Settled pre ∧
          neighbour? ls e rs = some j.1 ∧
          ls' ++ { e with joint := none } :: rs' = pre ++ { f with joint := none } :: post) := by
  obtain ⟨u, hu, hdivided⟩ := h
  obtain ⟨v, w, hv, hw, hrs⟩ := exists_of_along_split hu
  have hempty : ∀ t : Turn, t.next { e with joint := none, leaves := [] } = some t := fun t =>
    t.next_blank rfl rfl
  rcases Turn.next_cases hw with ⟨-, hnil, -⟩ | ⟨hj, -, hne, rfl⟩ | ⟨-, -, hnil, -⟩ | ⟨hj, rfl, -, rfl⟩
  · exact absurd hnil hl
  · have he : { e with joint := none } = e := by rw [← hj]
    cases v with
    | start =>
      have hleft := blank_of_along hv
      rcases blank_or_exists_joint hrs with hright | ⟨pre, f, post, j, rfl, hpre, hf⟩
      · refine ⟨ls, rs, rfl, rfl, ⟨.start, hv, by simp⟩, ⟨.start, ?_, by simp⟩, Or.inl ⟨?_, by rw [he]⟩⟩
        · rw [along_split hv (hempty _), hright.along]
        · simp [neighbour?, hleft.shown_eq, hright.body_eq, hj]
      · obtain ⟨x, y, hx, hy, hpost⟩ := exists_of_along_split hrs
        rw [hpre.along] at hx
        cases hx
        rw [Turn.next_joint (by simp [hf])] at hy
        refine ⟨ls, pre ++ { f with joint := none } :: post, rfl, by simp [contents],
          ⟨.start, hv, by simp⟩, ⟨u, ?_, hdivided⟩,
          Or.inr ⟨ls ++ e :: pre, f, post, j, by simp, hf, ⟨.filled, ?_, by simp⟩, ?_, by simp [he]⟩⟩
        · rw [along_split hv (hempty _), Turn.along_append_of (hpre.along _)]
          by_cases hfl : f.leaves = []
          · rw [if_pos hfl] at hy
            cases hy
            have hplain : Turn.start.next { f with joint := none } = some .start :=
              Turn.next_blank _ rfl hfl
            rw [Turn.along_cons_of hplain]
            exact along_start hpost hdivided
          · rw [if_neg hfl] at hy
            cases hy
            have hcontent : Turn.start.next { f with joint := none } = some .filled :=
              Turn.next_content (by simp) rfl hfl
            rw [Turn.along_cons_of hcontent]
            exact hpost
        · rw [along_split hv hw, hpre.along]
        · simp [neighbour?, hleft.shown_eq, hj, hpre.body_eq, jointLeaves, hf]
    | filled => exact absurd rfl hne
    | divided =>
      obtain ⟨pre, f, post, j, rfl, hpre, hf, hfl, hpost⟩ := exists_joint_of_along hv
      have hplain : Turn.filled.next { f with joint := none } = some .filled :=
        Turn.next_blank _ rfl hfl
      have hkept : Turn.start.along (pre ++ { f with joint := none } :: post) = some .filled := by
        rw [along_split hpre hplain, hpost.along]
      refine ⟨pre ++ { f with joint := none } :: post, rs, by simp [contents], rfl,
        ⟨.filled, hkept, by simp⟩, ⟨u, ?_, hdivided⟩,
        Or.inr ⟨pre, f, post ++ e :: rs, j, by simp, hf, ⟨.filled, hpre, by simp⟩, ?_, by simp [he]⟩⟩
      · rw [along_split hkept (hempty _)]
        exact hrs
      · simp [neighbour?, shown_append, shown_cons, hpost.shown_eq, hf, hfl, hj,
          getLast?_append]
  · exact absurd hnil hl
  · obtain ⟨j, hj⟩ := isSome_iff_exists.1 hj
    refine ⟨ls, rs, rfl, rfl, ⟨.filled, hv, by simp⟩, ⟨u, ?_, hdivided⟩,
      Or.inr ⟨ls, e, rs, j, rfl, hj, ⟨.filled, hv, by simp⟩, ?_, rfl⟩⟩
    · rw [along_split hv (hempty _)]
      exact hrs
    · simp [neighbour?, hj, getLast?_append]

theorem Settled.of_length_le_two (h : Settled (ls ++ e :: rs)) (hl : e.leaves = [])
    (hlength : (ls ++ e :: rs).length ≤ 2) : e.joint = none ∧ Settled ls := by
  obtain ⟨u, hu, hdivided⟩ := h
  obtain ⟨v, w, hv, hw, hrs⟩ := exists_of_along_split hu
  have hright : w = .divided → rs ≠ [] := by
    rintro rfl rfl
    exact hdivided (some.inj hrs).symm
  have hleft : v = .filled → ls ≠ [] := by
    rintro rfl rfl
    cases hv
  simp only [length_append, length_cons] at hlength
  have hlong : ∀ {xs : List Entry}, xs ≠ [] → 0 < xs.length := length_pos_iff.2
  rcases Turn.next_cases hw with ⟨hj, -, rfl⟩ | ⟨-, hne, -⟩ | ⟨-, rfl, -, rfl⟩ | ⟨-, -, hne, -⟩
  · refine ⟨hj, w, hv, ?_⟩
    rintro rfl
    have := hlong (hright rfl)
    obtain ⟨pre, f, post, j, rfl, hpre, -⟩ := exists_joint_of_along hv
    have : pre ≠ [] := by
      rintro rfl
      cases hpre
    have := hlong this
    simp only [length_append, length_cons] at hlength
    omega
  · exact absurd hl hne
  · have := hlong (hright rfl)
    have := hlong (hleft rfl)
    omega
  · exact absurd hl hne

end

/-! ### Texts -/

def texts (textOf : Leaf → String) (es : List Entry) : List String :=
  es.filterMap fun e => if e.leaves = [] then none else some (Layout.join (e.leaves.map textOf))

theorem texts_cons_absent (textOf : Leaf → String) (hl : e.leaves = []) (es : List Entry) :
    texts textOf (e :: es) = texts textOf es := by
  simp [texts, hl]

theorem texts_cons_present (textOf : Leaf → String) (hl : e.leaves ≠ []) (es : List Entry) :
    texts textOf (e :: es) = join (e.leaves.map textOf) :: texts textOf es := by
  simp [texts, hl]

theorem texts_ne_nil (textOf : Leaf → String) (h : Turn.divided.along es = some u)
    (hu : u ≠ .divided) : texts textOf es ≠ [] := by
  induction es with
  | nil => exact absurd (some.inj h).symm hu
  | cons e es ih =>
    obtain ⟨v, hv, hes⟩ := exists_of_along_cons h
    rcases Turn.next_cases hv with ⟨-, hl, rfl⟩ | ⟨-, hl, -⟩ | ⟨-, ht, -⟩ | ⟨-, ht, -⟩
    · rw [texts_cons_absent textOf hl]
      exact ih hes
    · rw [texts_cons_present textOf hl]
      simp
    all_goals cases ht

theorem intercalate_cons (separator first : String) (rest : List String) :
    separator.intercalate (first :: rest) =
      first ++ join (rest.map (separator ++ ·)) := by
  induction rest generalizing first with
  | nil => simp [Layout.join]
  | cons second rest ih =>
    rw [String.intercalate_cons_cons, ih, map_cons, Layout.join, String.append_assoc,
      String.append_assoc]

/-- Contents and delimiters in turn spell the contents with delimiters between them. -/
theorem join_body_of_along {textOf : Leaf → String}
    (hjoint : ∀ e ∈ es, ∀ j, e.joint = some j → textOf j.1 = delimiter ∧ textOf j.2 = " ")
    (h : t.along es = some u) (hu : u ≠ .divided) :
    join ((body es).map textOf) =
      if t = .filled then join ((texts textOf es).map ((delimiter ++ " ") ++ ·))
      else (delimiter ++ " ").intercalate (texts textOf es) := by
  induction es generalizing t with
  | nil => simp [texts, Layout.join]
  | cons e es ih =>
    obtain ⟨v, hv, hes⟩ := exists_of_along_cons h
    have hrest := ih (fun f hf => hjoint f (by simp [hf])) hes
    have hmark : e.joint.isSome = true →
        join (e.jointLeaves.map textOf) = delimiter ++ " " := by
      intro hj
      obtain ⟨j, hj⟩ := isSome_iff_exists.1 hj
      obtain ⟨h₁, h₂⟩ := hjoint e (by simp) j hj
      simp [jointLeaves, hj, h₁, h₂, Layout.join]
    rw [body_cons, map_append, map_append, join_append, join_append, hrest]
    rcases Turn.next_cases hv with ⟨hj, hl, rfl⟩ | ⟨hj, hl, ht, rfl⟩ | ⟨hj, rfl, hl, rfl⟩ |
      ⟨hj, rfl, hl, rfl⟩
    · rw [texts_cons_absent textOf hl]
      simp [jointLeaves, hj, hl, Layout.join]
    · rw [if_neg ht, if_pos rfl, texts_cons_present textOf hl, intercalate_cons]
      simp [jointLeaves, hj, Layout.join]
    · obtain ⟨first, rest, htexts⟩ := exists_cons_of_ne_nil (texts_ne_nil textOf hes hu)
      rw [hmark hj, if_neg (by simp), if_pos rfl, texts_cons_absent textOf hl, htexts,
        intercalate_cons]
      simp [hl, Layout.join, String.append_assoc]
    · rw [hmark hj, if_pos rfl, if_pos rfl, texts_cons_present textOf hl]
      simp [Layout.join, String.append_assoc]

theorem Settled.join_body {textOf : Leaf → String} (h : Settled es)
    (hjoint : ∀ e ∈ es, ∀ j, e.joint = some j → textOf j.1 = delimiter ∧ textOf j.2 = " ") :
    join ((body es).map textOf) =
      (delimiter ++ " ").intercalate (texts textOf es) := by
  obtain ⟨u, hu, hdivided⟩ := h
  rw [join_body_of_along hjoint hu hdivided, if_neg (by simp)]

end Entry

end Lossless
