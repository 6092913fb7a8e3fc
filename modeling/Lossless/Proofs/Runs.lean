import Lossless.Edit.Remove

/-! Running edits: what a composed edit does, from what its parts do. -/

namespace Lossless.Edit

open EStateM

variable {α β : Type} {x : Edit α} {doc doc' mid : Document} {e : Error}

@[simp] theorem run_map (f : α → β) (x : Edit α) (doc : Document) :
    (f <$> x).run doc = match x.run doc with
      | .ok a doc => .ok (f a) doc
      | .error e doc => .error e doc := by
  show EStateM.map f x doc = _
  rw [EStateM.map, EStateM.run]
  cases x doc <;> rfl

@[simp] theorem run_discard (x : Edit α) (doc : Document) :
    (discard x).run doc = match x.run doc with
      | .ok _ doc => .ok () doc
      | .error e doc => .error e doc :=
  run_map ..

@[simp] theorem run_throw (e : Error) (doc : Document) :
    (throw e : Edit α).run doc = .error e doc :=
  rfl

theorem run_get_bind (f : Document → Edit α) (doc : Document) :
    (get >>= f).run doc = (f doc).run doc :=
  rfl

theorem run_modify_modify (p q : Prop) [Decidable p] [Decidable q] (f g : Document → Document)
    (x : Edit α) (doc : Document) : run (do
      if p then modify f
      if q then modify g
      x) doc = x.run (if q then g (if p then f doc else doc) else if p then f doc else doc) := by
  by_cases hp : p <;> by_cases hq : q <;> simp [hp, hq]

theorem run_bind_eq_ok {f : α → Edit β} {b : β} (h : (x >>= f).run doc = .ok b doc') :
    ∃ a mid, x.run doc = .ok a mid ∧ (f a).run mid = .ok b doc' := by
  rw [run_bind] at h
  cases hx : x.run doc with
  | ok a mid => exact ⟨a, mid, rfl, by rwa [hx] at h⟩
  | error e mid =>
    rw [hx] at h
    cases h

theorem run_bind_eq_error {f : α → Edit β} (h : (x >>= f).run doc = .error e doc') :
    x.run doc = .error e doc' ∨ ∃ a mid, x.run doc = .ok a mid ∧ (f a).run mid = .error e doc' := by
  rw [run_bind] at h
  cases hx : x.run doc with
  | ok a mid => exact Or.inr ⟨a, mid, rfl, by rwa [hx] at h⟩
  | error e' mid =>
    rw [hx] at h
    cases h
    exact Or.inl rfl

theorem exists_run_bind {f : α → Edit β} {a : α} (hx : x.run doc = .ok a mid)
    (hf : ∃ b after, (f a).run mid = .ok b after) :
    ∃ b after, (x >>= f).run doc = .ok b after := by
  rw [run_bind, hx]
  exact hf

theorem run_listRule {list : Branch} {rule : ListRule} (h : doc.listRule? list = some rule) :
    (listRule list).run doc = .ok rule doc := by
  simp [listRule, h]

end Lossless.Edit
