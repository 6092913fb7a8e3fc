import Lossless.Edit.List
import Lossless.Proofs.Trees

/-! Fragments before they go into a document: made of a source, moved in, trimmed, or with their
last line ended. All of them are trees. -/

namespace Lossless

open List Forest Node

namespace Forest

variable {f g k : Forest}

/-- The same links, with other texts and more tokens that nothing claims. -/
structure Retexted (f g : Forest) : Prop where
  containers : g.containers = f.containers
  owners : ∀ l, (g.token l).owner = (f.token l).owner
  has : ∀ node, f.Has node → g.Has node

namespace Retexted

theorem refl (f : Forest) : Retexted f f :=
  ⟨rfl, fun _ => rfl, fun _ h => h⟩

theorem trans (h : Retexted f g) (h' : Retexted g k) : Retexted f k :=
  ⟨h'.containers.trans h.containers, fun l => (h'.owners l).trans (h.owners l),
    fun n hn => h'.has n (h.has n hn)⟩

theorem addToken (f : Forest) (text : String) : Retexted f (f.addToken { text }).2 :=
  ⟨rfl, fun l => parent_addToken f rfl l, fun _ hn => has_addToken hn _⟩

theorem setText (f : Forest) (l : Leaf) (text : String) : Retexted f (f.setText l text) := by
  refine ⟨rfl, fun m => ?_, fun n hn => ?_⟩
  · rw [Forest.setText, token_modifyToken]
    split <;> rfl
  · cases n with
    | leaf m => simpa [Has, Forest.setText, modifyToken] using hn
    | branch b => exact hn

theorem container (h : Retexted f g) (b : Branch) : g.container b = f.container b := by
  rw [Forest.container, h.containers, Forest.container]

theorem children (h : Retexted f g) (b : Branch) : g.children b = f.children b := by
  rw [Forest.children, h.container, Forest.children]

theorem kindOf (h : Retexted f g) (b : Branch) : g.kindOf b = f.kindOf b := by
  rw [Forest.kindOf, h.container, Forest.kindOf]

theorem parent (h : Retexted f g) (node : Node) : g.parent node = f.parent node := by
  cases node with
  | leaf l => exact h.owners l
  | branch b => rw [Forest.parent, h.container, Forest.parent]

theorem linked (h : Retexted f g) (hf : f.Linked) : g.Linked :=
  hf.of_eq h.children h.parent

end Retexted

end Forest

namespace Document

variable {doc after mid : Document} {f g : Forest} {ls ms : List Leaf}

/-! ### Sources -/

section

variable (grammar : Grammar) (kind : Kind) (source : String)

def sourceTokens : List Token :=
  (Text.gapPieces true source.toList).map fun piece =>
    { text := String.ofList piece, owner := if piece.all Text.isBlankChar then none else some ⟨0⟩ }

theorem token_ofSource (l : Leaf) :
    (ofSource grammar kind source).token l = (sourceTokens source)[l.index]?.getD ⟨"", none⟩ := by
  simp [ofSource, sourceTokens, token, Array.getD_eq_getD_getElem?]

theorem children_ofSource (b : Branch) :
    (ofSource grammar kind source).children b =
      if b = ⟨0⟩ then
        ((((range (sourceTokens source).length).map Leaf.mk).zip (sourceTokens source)).filter
          fun (_, t) => t.owner.isSome).map fun (l, _) => .leaf l
      else [] := by
  obtain ⟨i⟩ := b
  cases i with
  | zero => rfl
  | succ i => rfl

theorem parent_branch_ofSource (b : Branch) : (ofSource grammar kind source).parent b = none := by
  obtain ⟨i⟩ := b
  cases i with
  | zero => rfl
  | succ i => rfl

theorem mem_sourceTokens_owner {t : Token} (h : t ∈ sourceTokens source) :
    t.owner = none ∨ t.owner = some ⟨0⟩ := by
  obtain ⟨piece, -, rfl⟩ := mem_map.1 h
  dsimp only
  split
  · exact .inl rfl
  · exact .inr rfl

theorem mem_children_ofSource {node : Node} :
    node ∈ (ofSource grammar kind source).children ⟨0⟩ ↔
      ∃ i t, (sourceTokens source)[i]? = some t ∧ t.owner.isSome ∧ node = .leaf ⟨i⟩ := by
  have hzip : ∀ l t, (l, t) ∈ ((range (sourceTokens source).length).map Leaf.mk).zip
      (sourceTokens source) ↔ (sourceTokens source)[l.index]? = some t := by
    rintro ⟨j⟩ t
    rw [mem_iff_getElem?]
    constructor
    · rintro ⟨i, hi⟩
      obtain ⟨hl, ht⟩ := getElem?_zip_eq_some.1 hi
      rw [getElem?_map, getElem?_range (List.getElem?_eq_some_iff.1 ht).1] at hl
      cases hl
      exact ht
    · intro ht
      refine ⟨j, getElem?_zip_eq_some.2 ⟨?_, ht⟩⟩
      rw [getElem?_map, getElem?_range (List.getElem?_eq_some_iff.1 ht).1]
      rfl
  rw [children_ofSource, if_pos rfl, mem_map]
  constructor
  · rintro ⟨⟨l, t⟩, hm, rfl⟩
    obtain ⟨hm, hs⟩ := mem_filter.1 hm
    exact ⟨l.index, t, (hzip l t).1 hm, hs, rfl⟩
  · rintro ⟨i, t, ht, hs, rfl⟩
    exact ⟨(⟨i⟩, t), mem_filter.2 ⟨(hzip ⟨i⟩ t).2 ht, hs⟩, rfl⟩

theorem nodup_children_ofSource (b : Branch) :
    ((ofSource grammar kind source).children b).Nodup := by
  rw [children_ofSource]
  split
  · have hall : ((((range (sourceTokens source).length).map Leaf.mk).zip
        (sourceTokens source)).map fun (l, _) => leaf l).Nodup := by
      have hmap : ∀ xs : List (Leaf × Token),
          (xs.map fun (l, _) => leaf l) = (xs.map Prod.fst).map leaf := by simp
      rw [hmap, map_fst_zip (by simp)]
      exact (nodup_range.map fun i j h => by cases h; rfl).map fun i j h => leaf.inj h
    exact hall.sublist (filter_sublist.map _)
  · exact nodup_nil

theorem linked_ofSource : (ofSource grammar kind source).Linked := by
  refine ⟨?_, ?_, nodup_children_ofSource grammar kind source, fun _ => 0, ?_⟩
  · intro b node hm
    by_cases hb : b = ⟨0⟩
    · subst hb
      obtain ⟨i, t, ht, hs, rfl⟩ := (mem_children_ofSource ..).1 hm
      rw [parent, token_ofSource, ht]
      rcases mem_sourceTokens_owner source (mem_of_getElem? ht) with hn | hn
      · rw [hn] at hs
        cases hs
      · exact hn
    · rw [children_ofSource, if_neg hb] at hm
      cases hm
  · intro node b hp
    cases node with
    | branch c => rw [parent_branch_ofSource] at hp; cases hp
    | leaf l =>
      rw [parent, token_ofSource] at hp
      cases ht : (sourceTokens source)[l.index]? with
      | none => rw [ht] at hp; cases hp
      | some t =>
        rw [ht, Option.getD_some] at hp
        rcases mem_sourceTokens_owner source (mem_of_getElem? ht) with hn | hn
        · rw [hn] at hp
          cases hp
        · rw [hn] at hp
          cases hp
          exact (mem_children_ofSource ..).2 ⟨l.index, t, ht, by rw [hn]; rfl, rfl⟩
  · intro b c hp
    rw [parent_branch_ofSource] at hp
    cases hp

theorem isTree_ofSource : (ofSource grammar kind source).IsTree := by
  refine ⟨linked_ofSource .., Nat.zero_lt_one, rfl, ?_, ?_⟩
  · intro l hl
    have : l ∈ (range (sourceTokens source).length).map Leaf.mk := hl
    obtain ⟨i, hi, rfl⟩ := mem_map.1 this
    have hi := mem_range.1 hi
    simpa [Has, ofSource, sourceTokens] using hi
  · exact nodup_range.map fun i j h => by cases h; rfl

end

/-! ### Moved lines -/

/-- Moved tokens: those that were there, in their order, and new ones. -/
structure Moved (f g : Forest) (ls ms : List Leaf) : Prop where
  retexted : f.Retexted g
  sub : ls <+ ms
  cases : ∀ l ∈ ms, l ∈ ls ∨ ¬ f.Has l ∧ g.Has l
  nodup : ls.Nodup → (∀ l ∈ ls, f.Has l) → ms.Nodup

theorem Moved.cons (h : Moved f g ls ms) (l : Leaf) :
    Moved f g (l :: ls) (l :: ms) where
  retexted := h.retexted
  sub := h.sub.cons_cons l
  cases m hm := by
    rcases mem_cons.1 hm with rfl | hm
    · exact .inl (by simp)
    · exact (h.cases m hm).imp_left fun hm => by simp [hm]
  nodup hn hhas := by
    obtain ⟨hl, hn⟩ := nodup_cons.1 hn
    refine nodup_cons.2 ⟨fun hm => ?_, h.nodup hn fun m hm => hhas m (by simp [hm])⟩
    exact (h.cases l hm).elim hl fun hnew => hnew.1 (hhas l (by simp))

theorem Moved.of_retexted {f f' g : Forest} (h : Moved f' g ls ms)
    (hr : f.Retexted f') : Moved f g ls ms where
  retexted := hr.trans h.retexted
  sub := h.sub
  cases l hl := (h.cases l hl).imp_right fun ⟨hnew, hhas⟩ => ⟨fun hf => hnew (hr.has _ hf), hhas⟩
  nodup hn hhas := h.nodup hn fun l hl => hr.has _ (hhas l hl)

/-- A new token goes before the moved ones. -/
theorem Moved.newToken {text : String}
    (h : Moved (f.addToken { text }).2 g ls ms) :
    Moved f g ls ((f.addToken { text }).1 :: ms) where
  retexted := (Retexted.addToken f text).trans h.retexted
  sub := h.sub.cons _
  cases l hl := by
    rcases mem_cons.1 hl with rfl | hl
    · exact .inr ⟨not_has_addToken f _, h.retexted.has _ (has_new_token ..)⟩
    · exact (h.of_retexted (.addToken f text)).cases l hl
  nodup hn hhas := by
    refine nodup_cons.2 ⟨fun hm => ?_, (h.of_retexted (.addToken f text)).nodup hn hhas⟩
    rcases h.cases _ hm with hm | ⟨hnew, -⟩
    · exact not_has_addToken f _ (hhas _ hm)
    · exact hnew (has_new_token ..)

theorem moved_indentTokens (unit : String) (opensLine : Bool) (ls : List Leaf) (f : Forest) :
    Moved f (indentTokens unit opensLine ls f).2 ls (indentTokens unit opensLine ls f).1 := by
  induction ls generalizing opensLine f with
  | nil =>
    exact ⟨.refl f, Sublist.refl _, fun l hl => (by cases hl), fun hn _ => hn⟩
  | cons l ls ih =>
    rw [indentTokens]
    dsimp only
    split
    · split
      · exact ((ih _ _).of_retexted (.setText f l _)).cons l
      · exact ((ih _ _).cons l).newToken
    · exact (ih _ _).cons l

/-- The tokens of a stretch give way to tokens of it and to new ones. -/
structure Shifted (f g : Forest) (ls ms : List Leaf) : Prop where
  has : ∀ l, f.Has l → g.Has l
  cases : ∀ l ∈ ms, l ∈ ls ∨ ¬ f.Has l ∧ g.Has l
  nodup : ls.Nodup → (∀ l ∈ ls, f.Has l) → ms.Nodup

theorem Moved.shifted (h : Moved f g ls ms) :
    Shifted f g ls ms :=
  ⟨fun l => h.retexted.has l, h.cases, h.nodup⟩

theorem Shifted.around {xs ls ms ys : List Leaf} (h : Shifted f g ls ms)
    (hn : (xs ++ (ls ++ ys)).Nodup) (hhas : ∀ l ∈ xs ++ (ls ++ ys), f.Has (.leaf l)) :
    (xs ++ (ms ++ ys)).Nodup ∧ ∀ l ∈ xs ++ (ms ++ ys), g.Has (.leaf l) := by
  obtain ⟨hxs, hrest, hx⟩ := nodup_append.1 hn
  obtain ⟨hls, hys, hy⟩ := nodup_append.1 hrest
  have hms := h.nodup hls fun l hl => hhas l (by simp [hl])
  constructor
  · refine nodup_append.2 ⟨hxs, nodup_append.2 ⟨hms, hys, fun a ha b hb hab => ?_⟩,
      fun a ha b hb hab => ?_⟩
    · rcases h.cases a ha with ha | ⟨hnew, -⟩
      · exact hy a ha b hb hab
      · exact hnew (hhas a (by simp [hab ▸ hb]))
    · rcases mem_append.1 hb with hb | hb
      · rcases h.cases b hb with hb | ⟨hnew, -⟩
        · exact hx a ha b (by simp [hb]) hab
        · exact hnew (hhas b (by simp [← hab, ha]))
      · exact hx a ha b (by simp [hb]) hab
  · intro l hl
    simp only [mem_append] at hl
    rcases hl with hl | hl | hl
    · exact h.has l (hhas l (by simp [hl]))
    · rcases h.cases l hl with hl | ⟨-, hg⟩
      · exact h.has l (hhas l (by simp [hl]))
      · exact hg
    · exact h.has l (hhas l (by simp [hl]))

theorem order_mapAround (hn : doc.order.Nodup) (hhas : ∀ l ∈ doc.order, doc.Has (.leaf l))
    (b : Branch) {change : Bool → List Leaf → Forest → List Leaf × Forest}
    (hchange : ∀ opensLine ls f, Shifted f (change opensLine ls f).2 ls (change opensLine ls f).1) :
    (doc.mapAround b change).order.Nodup ∧
      ∀ l ∈ (doc.mapAround b change).order, (doc.mapAround b change).Has (.leaf l) := by
  let span := doc.trivia b
  have hshift := hchange ((doc.layout.take span.start).getLast?.all Layout.isBreak)
    (doc.leavesIn span) doc.toForest
  rw [doc.order_eq_leavesIn (doc.trivia_start_le b)] at hn hhas
  have haround := hshift.around hn hhas
  rwa [← append_assoc] at haround

theorem IsTree.mapAround (h : doc.IsTree) (b : Branch)
    {change : Bool → List Leaf → Forest → List Leaf × Forest}
    (hchange : ∀ opensLine ls f, Moved f (change opensLine ls f).2 ls (change opensLine ls f).1) :
    (doc.mapAround b change).IsTree := by
  obtain ⟨hnodup, hhas⟩ := order_mapAround h.order_nodup h.order_has b
    fun opensLine ls f => (hchange opensLine ls f).shifted
  have hretexted := (hchange ((doc.layout.take (doc.trivia b).start).getLast?.all
    Layout.isBreak) (doc.leavesIn (doc.trivia b)) doc.toForest).retexted
  exact ⟨hretexted.linked h.linked, hretexted.has _ h.root_has,
    (hretexted.parent _).trans h.root_free, hhas, hnodup⟩

/-! ### Layouts of one tree -/

structure Relaid (doc doc' : Document) : Prop where
  tree : doc'.IsTree
  retexted : doc.Retexted doc'.toForest
  root : doc'.root = doc.root

theorem Relaid.refl (h : doc.IsTree) : doc.Relaid doc :=
  ⟨h, .refl _, rfl⟩

theorem Relaid.trans (h : doc.Relaid mid) (h' : mid.Relaid after) :
    doc.Relaid after :=
  ⟨h'.tree, h.retexted.trans h'.retexted, h'.root.trans h.root⟩

theorem Relaid.rootKind (h : doc.Relaid after) :
    after.rootKind = doc.rootKind := by
  rw [Document.rootKind, h.root]
  exact h.retexted.kindOf doc.root

theorem IsTree.increaseIndent (h : doc.IsTree) (b : Branch) (unit : String) :
    doc.Relaid (doc.increaseIndent b unit) := by
  rw [Document.increaseIndent]
  split
  · exact ⟨h, .refl _, rfl⟩
  · exact ⟨h.mapAround b (moved_indentTokens unit), (moved_indentTokens ..).retexted, rfl⟩

theorem IsTree.trimStart (h : doc.IsTree) : doc.Relaid doc.trimStart :=
  ⟨h.of_sublist (dropWhile_sublist _), .refl _, rfl⟩

theorem IsTree.insertNew (h : doc.IsTree) (text : String) (p : Nat) :
    doc.Relaid ((doc.newToken text).2.insertAt p [(doc.newToken text).1]) := by
  refine ⟨(h.newToken _).insertAt (nodup_singleton _) ?_ ?_ _, .addToken .., rfl⟩
  · intro l hl
    rw [mem_singleton.1 hl]
    exact has_newToken ..
  · intro l hl hm
    rw [mem_singleton.1 hl] at hm
    exact not_has_newToken doc text (h.order_has _ hm)

theorem IsTree.endLine (h : doc.IsTree) : doc.Relaid doc.endLine := by
  rw [Document.endLine]
  split
  · exact ⟨h, .refl _, rfl⟩
  · exact h.insertNew ..

end Document

end Lossless
