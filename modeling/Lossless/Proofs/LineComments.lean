import Lossless.Proofs.Departing

/-! Comments up to the end of their line. Such a comment hides a token that comes after it on the
line and is none of its own. Whether it does is a matter of the breaks between the two, so it can be
read off the stretch of tokens before the hidden one. -/

namespace Lossless

open List Layout

namespace Forest

variable {f g k : Forest} {b c t list : Branch} {node : Node} {l : Leaf}

/-! ### Separate trees -/

theorem Linked.exists_top (hf : f.Linked) (b : Branch) :
    ∃ t, f.parent (.branch t) = none ∧ f.Around t b := by
  have key : ∀ node b, node = Node.branch b →
      ∃ t, f.parent (.branch t) = none ∧ f.Around t (.branch b) := by
    refine hf.upward ?_ ?_
    · rintro _ hp b rfl
      exact ⟨b, hp, .self⟩
    · rintro _ p hp ih b rfl
      obtain ⟨t, ht, ha⟩ := ih p rfl
      exact ⟨t, ht, .step hp ha⟩
  exact key _ b rfl

theorem Linked.exists_top_of_mem (hf : f.Linked) (hl : l ∈ f.surroundings b) :
    ∃ t, f.parent (.branch t) = none ∧ f.Around t b ∧ f.Around t l := by
  obtain ⟨t, ht, ha⟩ := hf.exists_top b
  rw [hf.surroundings_of_around ha, surroundings, leftLeaves_of_none ht, rightLeaves_of_none ht,
    nil_append, append_nil, hf.mem_leaves] at hl
  exact ⟨t, ht, ha, hl⟩

theorem Linked.not_mem_leaves_of_apart (hf : f.Linked) (hc : f.parent c = none)
    (hout : ¬ f.Around c b) (hl : l ∈ f.surroundings b) :
    l ∉ f.leaves c := by
  obtain ⟨t, ht, ha, hl⟩ := hf.exists_top_of_mem hl
  intro hm
  cases (hf.mem_leaves.1 hm).eq_of_free hl hc ht
  exact hout ha

theorem Linked.exists_parent_of_mem (hf : f.Linked) (hl : l ∈ f.surroundings b) :
    ∃ p, f.parent l = some p := by
  obtain ⟨t, ht, -, hl⟩ := hf.exists_top_of_mem hl
  cases hl with
  | step hp _ => exact ⟨_, hp⟩

/-- What happens in the tree of a container leaves the other trees alone. -/
structure Spares (f g : Forest) (b : Branch) : Prop where
  has : ∀ node, f.Has node → g.Has node
  kindOf : ∀ c, f.Has (.branch c) → g.kindOf c = f.kindOf c
  textOf : ∀ l, f.Has (.leaf l) → g.textOf l = f.textOf l
  up : ∀ c, f.Around c b → g.parent c = f.parent c
  free : ∀ c, f.Has c → f.parent c = none → g.parent c = none
  leaves : ∀ c, f.Has (.branch c) → f.parent (.branch c) = none → ¬ f.Around c b →
    g.leaves c = f.leaves c

namespace Spares

theorem refl (f : Forest) (b : Branch) : Spares f f b :=
  ⟨fun _ h => h, fun _ _ => rfl, fun _ _ => rfl, fun _ _ => rfl, fun _ _ h => h,
    fun _ _ _ _ => rfl⟩

theorem around_iff (h : Spares f g b) : g.Around c b ↔ f.Around c b :=
  ⟨.of_parent_eq h.up, .of_parent_eq fun a ha => (h.up a (.of_parent_eq h.up ha)).symm⟩

theorem trans (h : Spares f g b) (h' : Spares g k b) : Spares f k b where
  has node hn := h'.has node (h.has node hn)
  kindOf c hc := (h'.kindOf c (h.has _ hc)).trans (h.kindOf c hc)
  textOf l hl := (h'.textOf l (h.has _ hl)).trans (h.textOf l hl)
  up c hc := (h'.up c (h.around_iff.2 hc)).trans (h.up c hc)
  free c hc hp := h'.free c (h.has _ hc) (h.free c hc hp)
  leaves c hc hp hout := (h'.leaves c (h.has _ hc) (h.free c hc hp) fun ha =>
    hout (h.around_iff.1 ha)).trans (h.leaves c hc hp hout)

theorem of_rewired (hr : f.Rewired g list) (hf : f.Linked) (hg : g.Linked)
    (hup : ∀ c, f.Around c b → g.parent (.branch c) = f.parent (.branch c))
    (htree : ∀ c, f.parent (.branch c) = none → f.Around c list →
      f.Around c b) : Spares f g b where
  has := hr.has
  kindOf := hr.kindOf
  textOf := hr.textOf
  up := hup
  free c hc hp := by
    refine (hr.parent _ hc fun hm => ?_).trans hp
    cases hp.symm.trans (hf.down hm)
  leaves c hc hp hout := hr.leaves_eq hf hg hc fun ha => hout (htree c hp ha)

theorem of_rewired_self (hr : f.Rewired g b) (hf : f.Linked) (hg : g.Linked)
    (hb : f.Has b) : Spares f g b :=
  of_rewired hr hf hg (fun _ ha => hr.parent_of_around hf hb ha) fun _ _ ha => ha

end Spares

end Forest

namespace Document

variable {doc mid : Document} {b c : Branch} {l x : Leaf} {xs ys : List Leaf} {i j p s : Nat}

/-! ### Stretches of a line -/

def Unbroken (doc : Document) (xs : List Leaf) : Prop :=
  ∀ l ∈ xs, Layout.isBreak (doc.textOf l) = false

/-- A token on the line on which a stretch of tokens ends. -/
def OnEndLine (doc : Document) (xs : List Leaf) (x : Leaf) : Prop :=
  ∃ ys zs, xs = ys ++ x :: zs ∧ doc.Unbroken (x :: zs)

theorem OnEndLine.mem (h : doc.OnEndLine xs x) : x ∈ xs := by
  obtain ⟨ys, zs, rfl, -⟩ := h
  simp

@[simp] theorem unbroken_append : doc.Unbroken (xs ++ ys) ↔ doc.Unbroken xs ∧ doc.Unbroken ys :=
  forall_mem_append

@[simp] theorem unbroken_nil : doc.Unbroken [] :=
  forall_mem_nil _

theorem onEndLine_append :
    doc.OnEndLine (xs ++ ys) x ↔ doc.OnEndLine ys x ∨ doc.Unbroken ys ∧ doc.OnEndLine xs x := by
  constructor
  · rintro ⟨as, zs, he, hu⟩
    rcases append_eq_append_iff.1 he with ⟨as', rfl, hys⟩ | ⟨bs, rfl, hzs⟩
    · exact .inl ⟨as', zs, hys, hu⟩
    · cases bs with
      | nil => exact .inl ⟨[], zs, hzs.symm, hu⟩
      | cons y bs =>
        rw [hzs, unbroken_append] at hu
        obtain ⟨rfl, -⟩ := List.cons.inj hzs
        exact .inr ⟨hu.2, as, bs, rfl, hu.1⟩
  · rintro (⟨as, zs, rfl, hu⟩ | ⟨hys, as, zs, rfl, hu⟩)
    · exact ⟨xs ++ as, zs, (append_assoc ..).symm, hu⟩
    · refine ⟨as, zs ++ ys, by simp, ?_⟩
      rw [← cons_append, unbroken_append]
      exact ⟨hu, hys⟩

theorem onEndLine_append_of_not_mem (hx : x ∉ ys) :
    doc.OnEndLine (xs ++ ys) x ↔ doc.Unbroken ys ∧ doc.OnEndLine xs x := by
  rw [onEndLine_append, or_iff_right fun h => hx h.mem]

theorem OnEndLine.congr (h : doc.OnEndLine xs x) (ht : ∀ l ∈ xs, mid.textOf l = doc.textOf l) :
    mid.OnEndLine xs x := by
  obtain ⟨ys, zs, rfl, hu⟩ := h
  exact ⟨ys, zs, rfl, fun l hl => by rw [ht l (mem_append_right _ hl), hu l hl]⟩

theorem unbroken_iff_breaks : doc.Unbroken xs ↔ breaks (xs.map doc.textOf) = 0 := by
  simp [Unbroken, breaks, countP_eq_zero]

theorem leavesIn_append (doc : Document) (hs : s ≤ i) (hi : i ≤ p) :
    doc.leavesIn ⟨s, p⟩ = doc.leavesIn ⟨s, i⟩ ++ doc.leavesIn ⟨i, p⟩ := by
  show (doc.order.drop s).take (p - s) =
    (doc.order.drop s).take (i - s) ++ (doc.order.drop i).take (p - i)
  have hdrop : doc.order.drop i = (doc.order.drop s).drop (i - s) := by
    rw [drop_drop, Nat.add_sub_cancel' hs]
  rw [hdrop, ← take_add]
  congr 1
  omega

theorem leavesIn_zero (doc : Document) (p : Nat) : doc.leavesIn ⟨0, p⟩ = doc.order.take p :=
  rfl

theorem lineOf_eq_add (doc : Document) (hi : i ≤ p) : doc.layout.lineOf p =
    doc.layout.lineOf i + breaks ((doc.leavesIn ⟨i, p⟩).map doc.textOf) := by
  have hsplit := doc.leavesIn_append (Nat.zero_le i) hi
  rw [leavesIn_zero, leavesIn_zero] at hsplit
  simp only [lineOf, layout, breaks, ← map_take, hsplit, map_append,
    countP_append]

theorem unbroken_leavesIn (hi : i ≤ p) :
    doc.Unbroken (doc.leavesIn ⟨i, p⟩) ↔ doc.layout.lineOf i = doc.layout.lineOf p := by
  rw [unbroken_iff_breaks, doc.lineOf_eq_add hi]
  omega

theorem leavesIn_cons (hi : doc.position? x = some i) (hlt : i < p) :
    doc.leavesIn ⟨i, p⟩ = x :: doc.leavesIn ⟨i + 1, p⟩ := by
  have hget : doc.order[i]? = some x := getElem?_of_idxOf? hi
  rw [doc.leavesIn_append (Nat.le_succ i) hlt]
  show (doc.order.drop i).take (i + 1 - i) ++ _ = _
  rw [Nat.add_sub_cancel_left, take_one, head?_drop, hget]
  rfl

theorem onEndLine_leavesIn (hn : doc.order.Nodup) :
    doc.OnEndLine (doc.leavesIn ⟨s, p⟩) x ↔ ∃ i, doc.position? x = some i ∧ s ≤ i ∧ i < p ∧
      doc.layout.lineOf i = doc.layout.lineOf p := by
  have hsplit : ∀ {i}, doc.position? x = some i → s ≤ i → i < p →
      doc.leavesIn ⟨s, p⟩ = doc.leavesIn ⟨s, i⟩ ++ x :: doc.leavesIn ⟨i + 1, p⟩ := by
    intro i hi hs hlt
    rw [doc.leavesIn_append hs hlt.le, leavesIn_cons hi hlt]
  constructor
  · intro h
    obtain ⟨i, hi⟩ := exists_position (mem_of_mem_drop (mem_of_mem_take h.mem))
    obtain ⟨hs, hlt⟩ := (mem_leavesIn hn hi).1 h.mem
    refine ⟨i, hi, hs, hlt, (unbroken_leavesIn hlt.le).1 ?_⟩
    obtain ⟨ys, zs, he, hu⟩ := h
    rw [hsplit hi hs hlt] at he
    have hleft : x ∉ doc.leavesIn ⟨s, i⟩ := fun hm => lt_irrefl i ((mem_leavesIn hn hi).1 hm).2
    have hright : x ∉ doc.leavesIn ⟨i + 1, p⟩ := fun hm =>
      Nat.not_succ_le_self i ((mem_leavesIn hn hi).1 hm).1
    obtain ⟨-, -, rfl⟩ := (append_cons_inj_of_notMem hleft hright).1 he
    rwa [leavesIn_cons hi hlt]
  · rintro ⟨i, hi, hs, hlt, hline⟩
    have hu := (unbroken_leavesIn hlt.le).2 hline
    rw [leavesIn_cons hi hlt] at hu
    exact ⟨_, _, hsplit hi hs hlt, hu⟩

/-! ### Hidden tokens -/

/-- A comment up to the end of its line, by its first token. -/
def isLineComment (doc : Document) (c : Branch) : Bool :=
  doc.kindOf c == .comment &&
    (doc.leaves c).head?.any fun l => lineComments.contains (doc.textOf l)

/-- A line comment has a token on the line of another token and to the left of it. -/
def Hides (doc : Document) (c : Branch) (l : Leaf) : Prop :=
  doc.isLineComment c = true ∧ l ∉ doc.leaves c ∧
    ∃ x ∈ doc.leaves c, ∃ i j, doc.position? x = some i ∧ doc.position? l = some j ∧
      i < j ∧ doc.layout.lineOf i = doc.layout.lineOf j

/-- Nothing that belongs to a container follows a line comment on its line. -/
def CommentsEndLines (doc : Document) : Prop :=
  ∀ c l, (doc.parent (.leaf l)).isSome → ¬ doc.Hides c l

theorem hides_iff (hn : doc.order.Nodup) (hj : doc.position? l = some j) :
    doc.Hides c l ↔ doc.isLineComment c ∧ l ∉ doc.leaves c ∧
      ∃ x ∈ doc.leaves c, doc.OnEndLine (doc.order.take j) x := by
  refine and_congr_right fun _ => and_congr_right fun _ => exists_congr fun x =>
    and_congr_right fun _ => ?_
  rw [← leavesIn_zero, onEndLine_leavesIn hn]
  constructor
  · rintro ⟨i, j', hi, hj', hlt, hline⟩
    cases hj.symm.trans hj'
    exact ⟨i, hi, i.zero_le, hlt, hline⟩
  · rintro ⟨i, hi, -, hlt, hline⟩
    exact ⟨i, j, hi, hj, hlt, hline⟩

theorem isLineComment_congr (h : doc.Spares mid.toForest b) (hd : doc.Linked)
    (hc : doc.Has c) (hp : doc.parent c = none)
    (hout : ¬ doc.Around c b) : mid.isLineComment c = doc.isLineComment c := by
  rw [isLineComment, isLineComment, h.kindOf c hc, h.leaves c hc hp hout]
  cases he : (doc.leaves c).head? with
  | none => rfl
  | some l =>
    have hl := hd.has_of_mem_leaves (mem_of_mem_head? he)
    simp only [Option.any_some, h.textOf l hl]

/-- A line comment in another tree was the same one before. -/
theorem lineComment_of_spares (h : doc.Spares mid.toForest b) (hd : doc.Linked)
    (hc : doc.Has c) (hp : doc.parent c = none)
    (hcomment : mid.isLineComment c) (hout : ¬ mid.Around c b) :
    doc.isLineComment c ∧ ¬ doc.Around c b ∧
      mid.leaves c = doc.leaves c := by
  have hout := mt h.around_iff.2 hout
  rw [isLineComment_congr h hd hc hp hout] at hcomment
  exact ⟨hcomment, hout, h.leaves c hc hp hout⟩

section

variable (h : doc.CommentsEndLines) (hd : doc.IsTree)
  (hl : l ∈ doc.toForest.surroundings b) (hj : doc.position? l = some j)
  (hcomment : doc.isLineComment c) (hp : doc.parent c = none)
  (hout : ¬ doc.Around c b) (hx : x ∈ doc.leaves c)
include h hd hl hj hcomment hp hout hx

theorem CommentsEndLines.not_onEndLine : ¬ doc.OnEndLine (doc.order.take j) x := by
  intro hline
  obtain ⟨p, hparent⟩ := hd.linked.exists_parent_of_mem hl
  have hnot := hd.linked.not_mem_leaves_of_apart hp hout hl
  exact h c l (by rw [hparent]; rfl)
    ((hides_iff hd.order_nodup hj).2 ⟨hcomment, hnot, x, hx, hline⟩)

theorem CommentsEndLines.not_onEndLine_succ : ¬ doc.OnEndLine (doc.order.take (j + 1)) x := by
  have hget : doc.order[j]? = some l := getElem?_of_idxOf? hj
  rw [take_add_one, hget, Option.toList_some]
  intro hline
  rcases onEndLine_append.1 hline with hline | ⟨-, hline⟩
  · rw [mem_singleton.1 hline.mem] at hx
    exact hd.linked.not_mem_leaves_of_apart hp hout hl hx
  · exact h.not_onEndLine hd hl hj hcomment hp hout hx hline

end

end Document

end Lossless
