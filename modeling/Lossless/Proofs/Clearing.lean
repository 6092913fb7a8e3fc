import Lossless.Proofs.Evolving

/-! Optionals and lists that are cleared. Their children go, other containers lose no more than a
delimiter, and nothing comes in. -/

namespace Lossless.Document

open List

variable {doc mid : Document} {ok : Kind → Kind → Prop} {rule : ListRule} {list optional : Branch}

theorem listElements_nodup (h : doc.Linked) (rule : ListRule) (list : Branch) :
    (doc.listElements rule list).Nodup := by
  refine Nodup.filter _ ((h.once list).filterMap ?_)
  intro m n b hm hn
  cases m <;> cases hm
  cases n <;> cases hn
  rfl

structure Trimmed (doc mid : Document) : Prop where
  evolves : ∀ ok, doc.Linked → Evolves ok doc mid
  sub : ∀ b, mid.children b ⊆ doc.children b
  kept : ∀ b c, .branch c ∈ doc.children b → .branch c ∈ mid.children b

namespace Trimmed

theorem refl (doc : Document) : doc.Trimmed doc :=
  ⟨fun _ h => .refl h, fun _ => Subset.refl _, fun _ _ h => h⟩

theorem cut (h : doc.Trimmed mid) (span : Span) : doc.Trimmed (mid.cut span) :=
  ⟨fun ok hd => (h.evolves ok hd).cut span, h.sub, h.kept⟩

theorem removeLeaf (h : doc.Trimmed mid) (b : Branch) (l : Leaf) :
    doc.Trimmed (mid.removeChild b l) := by
  have hchildren : ∀ c, (mid.removeChild b l).children c = _ :=
    fun c => Forest.children_removeChild ..
  refine ⟨fun ok hd => (h.evolves ok hd).removeChild .., fun c n hn => h.sub c ?_, fun c d hd => ?_⟩
  · rw [hchildren] at hn
    split at hn
    · next hc => exact hc ▸ mem_of_mem_erase hn
    · exact hn
  · rw [hchildren]
    split
    · next hc => exact (mem_erase_of_ne (by simp)).2 (hc ▸ h.kept c d hd)
    · exact h.kept c d hd

end Trimmed

theorem trimmed_closeRoom (doc : Document) (b : Branch) : doc.Trimmed (doc.closeRoom b) := by
  rw [closeRoom]
  split
  · exact .refl doc
  · split
    · rw [closeSlotRoom]
      split
      · exact .refl doc
      · dsimp only
        split
        · exact (Trimmed.refl doc).cut _
        · exact ((Trimmed.refl doc).cut _).removeLeaf ..
    · exact .refl doc
    · split
      · exact .refl doc
      · rw [closePlainRoom]
        split
        · dsimp only
          split
          · exact (Trimmed.refl doc).cut _
          · split
            · exact (Trimmed.refl doc).cut _
            · exact .refl doc
        · exact .refl doc

theorem trimmed_cutOptional (doc : Document) (rule : OptionalRule) (optional : Branch)
    (range : Span) : doc.Trimmed (doc.cutOptional rule optional range) := by
  rw [cutOptional]
  split
  · exact (Trimmed.refl doc).cut _
  · exact (Trimmed.refl doc).cut _
  · exact (Trimmed.refl doc).cut _
  · have h := doc.trimmed_closeRoom optional
    dsimp only
    split
    · exact h
    · exact h.cut _

/-- Clearing an optional empties it after some tokens have gone. -/
theorem clearOptional_cases (doc : Document) (rule : OptionalRule) (optional : Branch) :
    doc.clearOptional rule optional = doc.clearChildren optional ∨ ∃ mid, doc.Trimmed mid ∧
      doc.clearOptional rule optional = (mid.clearChildren optional).updateComments := by
  rw [clearOptional]
  split
  · exact .inl rfl
  · exact .inr ⟨_, trimmed_cutOptional .., rfl⟩

theorem children_clearChildren (doc : Document) (b c : Branch) :
    (doc.clearChildren b).children c = if c = b then [] else doc.children c :=
  Forest.children_clearChildren ..

theorem children_clearOptional (doc : Document) (rule : OptionalRule) (optional : Branch) :
    (doc.clearOptional rule optional).children optional = [] := by
  rcases doc.clearOptional_cases rule optional with he | ⟨mid, -, he⟩ <;> rw [he]
  · rw [children_clearChildren, if_pos rfl]
  · exact (children_clearChildren ..).trans (if_pos rfl)

theorem children_clearOptional_subset (doc : Document) (rule : OptionalRule) (optional b : Branch) :
    (doc.clearOptional rule optional).children b ⊆ doc.children b := by
  have hclear : ∀ d : Document, (d.clearChildren optional).children b ⊆ d.children b := by
    intro d n hn
    rw [children_clearChildren] at hn
    split at hn
    · cases hn
    · exact hn
  rcases doc.clearOptional_cases rule optional with he | ⟨mid, hmid, he⟩ <;> rw [he]
  · exact hclear doc
  · exact fun n hn => hmid.sub b (hclear mid hn)

theorem children_emptyList_eq (doc : Document) (rule : ListRule) (list b : Branch) :
    (doc.emptyList rule list).children b = if b = list then [] else doc.children b := by
  have hcleared := doc.children_clearChildren list b
  have hbreak : ∀ (d : Document) indent b, (d.newIndentedBreak indent).2.children b =
      d.children b := by
    intro d indent b
    rw [newIndentedBreak]
    dsimp only
    rcases newLiteral_cases (d.newToken Layout.lineBreak).2 indent with he | he <;> rw [he] <;> rfl
  rw [emptyList]
  dsimp only
  generalize doc.parentIndent list = closingIndent
  split
  · exact (hbreak (Document.cut _ _) closingIndent b).trans hcleared
  · exact hcleared

theorem children_emptyList (doc : Document) (rule : ListRule) (list : Branch) :
    (doc.emptyList rule list).children list = [] :=
  (children_emptyList_eq ..).trans (if_pos rfl)

theorem children_clearedList (doc : Document) (rule : ListRule) (list : Branch) :
    (match (doc.emptyList rule list).optionalAround? list with
      | none => doc.emptyList rule list
      | some (optional, optionalRule) =>
        (doc.emptyList rule list).clearOptional optionalRule optional).children list = [] := by
  have hnil := doc.children_emptyList rule list
  split
  · exact hnil
  · refine subset_nil.1 ?_
    rw [← hnil]
    exact children_clearOptional_subset ..

theorem parent_of_optionalAround? {rule : OptionalRule}
    (h : doc.optionalAround? list = some (optional, rule)) :
    doc.parent list = some optional := by
  unfold optionalAround? at h
  obtain ⟨p, hp, h⟩ := Option.bind_eq_some_iff.1 h
  obtain ⟨r, -, h⟩ := Option.bind_eq_some_iff.1 h
  split at h
  · cases h
    exact hp
  · cases h

end Lossless.Document
