import Lossless.Proofs.Refilled

/-! The children of a list after an edit. An element comes in with at most a delimiter beside what
was there, and goes with at most the token beside it. -/

namespace Lossless

open List Forest Document

namespace Document

variable {doc mid after fragment : Document} {rule : ListRule} {list added element e : Branch}
  {l : Leaf} {n : Node}

def IsMark (doc : Document) (rule : ListRule) (n : Node) : Prop :=
  ∃ l, n = .leaf l ∧ doc.Has l ∧ doc.textOf l = rule.delimiter

theorem IsMark.evolves (h : doc.IsMark rule n) (hev : Grows doc after) :
    after.IsMark rule n := by
  obtain ⟨l, rfl, hl, htext⟩ := h
  exact ⟨l, rfl, hev.has _ hl, (hev.textOf l hl).trans htext⟩

/-- A list that holds elements and delimiters only. -/
def Tidy (doc : Document) (rule : ListRule) (list : Branch) : Prop :=
  ∀ n ∈ doc.children list, (∃ e ∈ doc.listElements rule list, n = .branch e) ∨ doc.IsMark rule n

/-! ### What comes in -/

/-- An element has come into a list, with at most a delimiter beside what was there. -/
structure Enlists (doc after : Document) (rule : ListRule) (list added : Branch) : Prop where
  evolves : Grows doc after
  new : ¬ doc.Has added
  accepts : rule.accepts (after.kindOf added) = true
  child : .branch added ∈ after.children list
  old : ∀ n ∈ doc.children list, n ∈ after.children list
  back : ∀ n ∈ after.children list, n ∈ doc.children list ∨ n = .branch added ∨ after.IsMark rule n

namespace Enlists

theorem mem_listElements (h : Enlists doc after rule list added) :
    e ∈ after.listElements rule list ↔ e = added ∨ e ∈ doc.listElements rule list := by
  have hkind : .branch e ∈ doc.children list → after.kindOf e = doc.kindOf e := fun he =>
    h.evolves.kindOf e (h.evolves.start.has_child he)
  rw [Document.mem_listElements, Document.mem_listElements]
  constructor
  · rintro ⟨hchild, haccepts⟩
    rcases h.back _ hchild with hold | hnew | ⟨l, hl, -⟩
    · exact .inr ⟨hold, hkind hold ▸ haccepts⟩
    · exact .inl (Node.branch.inj hnew)
    · cases hl
  · rintro (rfl | ⟨hchild, haccepts⟩)
    · exact ⟨h.child, h.accepts⟩
    · exact ⟨h.old _ hchild, (hkind hchild).symm ▸ haccepts⟩

theorem tidy (h : Enlists doc after rule list added) (ht : doc.Tidy rule list) :
    after.Tidy rule list := by
  intro n hn
  rcases h.back n hn with hold | rfl | hmark
  · refine (ht n hold).imp ?_ fun hmark => hmark.evolves h.evolves
    rintro ⟨e, he, rfl⟩
    exact ⟨e, h.mem_listElements.2 (.inr he), rfl⟩
  · exact .inl ⟨added, h.mem_listElements.2 (.inl rfl), rfl⟩
  · exact .inr hmark

theorem insertBreaks (h : Enlists doc after rule list added) (p n : Nat) :
    Enlists doc (after.insertBreaks p n) rule list added := by
  have hev : Grows after (after.insertBreaks p n) :=
    (Evolves.refl h.evolves.linked).insertBreaks p n
  have hkids : ∀ b, (after.insertBreaks p n).children b = after.children b :=
    fun b => children_insertBreaks ..
  refine ⟨h.evolves.trans hev, h.new, ?_, hkids list ▸ h.child, fun m hm => ?_, fun m hm => ?_⟩
  · rw [hev.kindOf added (h.evolves.linked.has_child h.child)]
    exact h.accepts
  · exact hkids list ▸ h.old m hm
  · exact (h.back m (hkids list ▸ hm)).imp_right (Or.imp_right fun hmark => hmark.evolves hev)

theorem of_unfolded (h : Enlists (doc.unfolded list) after rule list added) (hd : doc.Linked) :
    Enlists doc after rule list added := by
  have hev : Grows doc (doc.unfolded list) := (Evolves.refl hd).unfolded list
  have hkids := (doc.retexted_unfolded list).children list
  exact ⟨hev.trans h.evolves, fun hhas => h.new (hev.has _ hhas), h.accepts, h.child,
    fun n hn => h.old n (hkids.symm ▸ hn), fun n hn => hkids ▸ h.back n hn⟩

end Enlists

theorem back_placeChild {root : Branch} (hlist : doc.Has list)
    (hn : n ∈ ((doc.placeChild list root).addDelimiter rule list root).children list) :
    n ∈ doc.children list ∨ n = .branch root ∨
      ((doc.placeChild list root).addDelimiter rule list root).IsMark rule n := by
  have hput : ∀ m, m ∈ (doc.placeChild list root).children list ↔
      m = .branch root ∨ m ∈ doc.children list := fun m => mem_children_insertChild hlist
  have hlist' : (doc.placeChild list root).Has list :=
    has_insertChild.2 hlist
  generalize doc.placeChild list root = placed at *
  rcases placed.addDelimiter_cases rule list root with he | ⟨p, i, he⟩ <;> rw [he] at hn ⊢
  · exact ((hput n).1 hn).symm.imp_right .inl
  · rcases (mem_children_insertChild (has_newToken_of_has hlist' _)).1 hn with rfl | hn
    · refine .inr (.inr ⟨_, rfl, has_insertChild.2 (has_newToken ..), ?_⟩)
      exact (textOf_insertChild ..).trans (textOf_newToken placed rule.delimiter)
    · exact ((hput n).1 hn).symm.imp_right .inl

theorem textOf_mark_stock (doc : Document) (rule : ListRule) (fragment : Document) :
    ∀ l ∈ (doc.stock rule fragment).1, (doc.stock rule fragment).2.textOf l = rule.delimiter := by
  rw [stock]
  rcases newLiteral_cases (doc.graftVisible fragment).2 rule.delimiter with he | he <;> rw [he]
  · rintro l ⟨⟩
  · rintro l ⟨⟩
    exact textOf_newToken ..

section

variable (hlist : doc.Has list) (hf : fragment.IsTree)
  (haccepts : rule.accepts fragment.rootKind)
include hlist hf haccepts

theorem enlists_insertLines (h : doc.Linked) (line : Nat) :
    Enlists doc (doc.insertLines rule list line fragment false).2 rule list
      (doc.insertLines rule list line fragment false).1 := by
  obtain ⟨hchild, hkind, hnew, hold⟩ := mem_insertLines h hlist hf rule line
  have hev : Grows doc (doc.insertLines rule list line fragment false).2 :=
    evolves_insertLines h hlist hf (fun _ _ _ => trivial) (fun _ => trivial) ..
  refine ⟨hev, hnew, hkind ▸ haccepts, hchild, hold, fun n hn => ?_⟩
  obtain ⟨base, p, hbase, he⟩ := doc.insertLines_element rule list line fragment
  obtain ⟨hplaced, -, -, -, -, hchildren⟩ : Grows doc _ ∧ _ :=
    evolves_lineFragment h hlist hf hbase.base_eq (fun _ _ _ => trivial) p
  have hback := @back_placeChild _ rule list n
    (base.rehomeBranch (doc.lineFragment list fragment).root) (hplaced.has _ hlist)
  rw [he] at hn ⊢
  dsimp only at hn ⊢
  rw [toForest_updateComments] at hn
  rcases hback hn with hold | hnew | ⟨l, hl, hhas, htext⟩
  · exact .inl (hchildren ▸ hold)
  · exact .inr (.inl hnew)
  · refine .inr (.inr ⟨l, hl, ?_, ?_⟩) <;> rwa [toForest_updateComments]

theorem enlists_insertBeside (h : doc.Linked) (index : Nat) :
    Enlists doc (doc.insertBeside rule list index fragment).2 rule list
      (doc.insertBeside rule list index fragment).1 := by
  obtain ⟨hchild, hkind, hold⟩ := mem_insertBeside h hlist hf rule index
  have hev : Grows doc (doc.insertBeside rule list index fragment).2 :=
    evolves_insertBeside h hlist hf (fun _ _ _ => trivial) trivial ..
  refine ⟨hev, not_has_rehome doc fragment.root, hkind ▸ haccepts, hchild, hold,
    ?_⟩
  have hstock : Grows doc (doc.stock rule fragment).2 :=
    evolves_stock h hf (fun _ _ _ => trivial) rule
  have hchildren := children_stock hlist rule fragment
  have hmarks := (waiting_stock hf doc rule).mark_has
  have htexts := doc.textOf_mark_stock rule fragment
  -- whatever stands beside it, the root comes in alone or with the delimiter
  have key : ∀ (d : Document) i nodes, Grows (doc.stock rule fragment).2 d →
      d.children list = (doc.stock rule fragment).2.children list →
      (∀ n ∈ nodes, n ∈ (doc.stock rule fragment).1.toList.map Node.leaf ∨
        n = .branch (doc.rehomeBranch fragment.root)) →
      ∀ n ∈ (d.insertChildren list i nodes).updateComments.children list,
        n ∈ doc.children list ∨ n = .branch (doc.rehomeBranch fragment.root) ∨
          (d.insertChildren list i nodes).updateComments.IsMark rule n := by
    intro d i nodes hd hkids hnodes n hn
    rw [IsMark]
    rw [toForest_updateComments] at hn ⊢
    rcases (mem_children_insertChildren (hd.has _ (hstock.has _ hlist)) ..).1 hn with hnew | hold
    · rcases hnodes n hnew with hmark | hroot
      · obtain ⟨l, hl, rfl⟩ := mem_map.1 hmark
        have hl := Option.mem_toList.1 hl
        refine .inr (.inr ⟨l, rfl, (has_insertChildren ..).2 (hd.has _ (hmarks l hl)), ?_⟩)
        rw [textOf_insertChildren, hd.textOf l (hmarks l hl), htexts l hl]
      · exact .inr (.inl hroot)
    · exact .inl (hchildren ▸ hkids ▸ hold)
  have hrefl : Grows (doc.stock rule fragment).2 (doc.stock rule fragment).2 :=
    .refl hstock.linked
  rw [insertBeside_eq]
  split
  · refine key ((newToken _ _).2.insertAt _ _) _ _ ((hrefl.newToken " ").insertAt ..) rfl
      fun n hn => ?_
    exact (mem_append.1 hn).imp_right mem_singleton.1
  · refine key ((newToken _ _).2.insertAt _ _) _ _ ((hrefl.newToken " ").insertAt ..) rfl
      fun n hn => ?_
    exact (mem_cons.1 hn).symm
  · refine key (((doc.stock rule fragment).2.makeRoom list).2.insertAt _ _) _ _
      ((evolves_makeRoom hstock.linked list).insertAt ..) (children_makeRoom hstock.linked list)
      fun n hn => ?_
    exact .inr (mem_singleton.1 hn)

end

/-! ### What goes -/

structure Delists (doc after : Document) (list element : Branch) : Prop where
  evolves : Grows doc after
  gone : .branch element ∉ after.children list
  back : ∀ n ∈ after.children list, n ∈ doc.children list
  kept : ∀ c, c ≠ element → .branch c ∈ doc.children list → .branch c ∈ after.children list

namespace Delists

theorem mem_listElements (h : Delists doc after list element) :
    e ∈ after.listElements rule list ↔ e ≠ element ∧ e ∈ doc.listElements rule list := by
  have hkind : .branch e ∈ doc.children list → after.kindOf e = doc.kindOf e := fun he =>
    h.evolves.kindOf e (h.evolves.start.has_child he)
  rw [Document.mem_listElements, Document.mem_listElements]
  constructor
  · rintro ⟨hchild, haccepts⟩
    have hold := h.back _ hchild
    exact ⟨fun he => h.gone (he ▸ hchild), hold, hkind hold ▸ haccepts⟩
  · rintro ⟨hne, hchild, haccepts⟩
    exact ⟨h.kept e hne hchild, (hkind hchild).symm ▸ haccepts⟩

theorem tidy (h : Delists doc after list element) (ht : doc.Tidy rule list) :
    after.Tidy rule list := by
  intro n hn
  refine (ht n (h.back n hn)).imp ?_ fun hmark => hmark.evolves h.evolves
  rintro ⟨e, he, rfl⟩
  exact ⟨e, h.mem_listElements.2 ⟨fun heq => h.gone (heq ▸ hn), he⟩, rfl⟩

theorem insertBreaks (h : Delists doc after list element) (p n : Nat) :
    Delists doc (after.insertBreaks p n) list element := by
  have hkids : ∀ b, (after.insertBreaks p n).children b = after.children b :=
    fun b => children_insertBreaks ..
  exact ⟨h.evolves.insertBreaks p n, hkids list ▸ h.gone, fun m hm => h.back m (hkids list ▸ hm),
    fun c hc hm => hkids list ▸ h.kept c hc hm⟩

end Delists

theorem delists_detachElement (h : doc.IsTree) (rule : ListRule) (list element : Branch) :
    Delists doc ((doc.withoutPadding rule list element).detachElement rule list element) list
      element := by
  have hforest := (doc.withoutPadding_tables rule list element).1
  have hpadless := h.retains_withoutPadding rule list element
  have hthin := (thinned_withoutPadding h rule list element).detachElement rule list element
  refine ⟨hpadless.evolves.trans (evolves_detachElement hpadless.evolves.linked ..), ?_,
    fun n hn => (hthin.children list).subset hn, fun c hc hm => ?_⟩
  · generalize doc.withoutPadding rule list element = padless at *
    obtain ⟨mark, late, he, hlate⟩ := padless.detachElement_cases rule list element
    have hkids : late.children list = (padless.dropMark list mark).children list := by
      rcases hlate with rfl | ⟨span, rfl⟩ <;> rfl
    have hnodup := (hpadless.tree.dropMark mark list).linked.once list
    have hremove : (late.updateComments.removeChild list element).children list = _ :=
      children_removeChild ..
    rw [he, hremove, if_pos rfl, toForest_updateComments, hkids]
    exact hnodup.not_mem_erase
  · exact mem_children_detachElement hc (hforest.symm ▸ hm) rule

end Document

namespace Edit

variable {doc mid after : Document} {rule : ListRule} {list added e : Branch}

theorem run_dropPlaceholder_eq_ok (h : Enlists doc mid rule list added) (hm : mid.IsTree)
    (hrun : (dropPlaceholder rule list (doc.placeholder? rule list)).run mid = .ok () after) :
    (∀ e, e ∈ after.listElements rule list ↔
      e = added ∨ e ∈ doc.listElements rule list ∧ doc.placeholder? rule list ≠ some e) ∧
      Grows doc after ∧ (doc.Tidy rule list → after.Tidy rule list) := by
  cases hp : doc.placeholder? rule list with
  | none =>
    rw [hp] at hrun
    cases hrun
    exact ⟨fun e => by simpa using h.mem_listElements, h.evolves, h.tidy⟩
  | some p =>
    have hmem := mem_of_placeholder? hp
    have hne : added ≠ p := fun he =>
      h.new (he ▸ h.evolves.start.has_child (mem_listElements.1 hmem).1)
    obtain ⟨taken, q, n, htake⟩ := run_takeFrom_beside (h.mem_listElements.2 (.inr hmem))
      (h.mem_listElements.2 (.inl rfl)) hne hm.linked
    have hdelists := (delists_detachElement hm rule list p).insertBreaks q n
    rw [hp] at hrun
    have hafter : ((mid.withoutPadding rule list p).detachElement rule list p).insertBreaks q n =
        after := by simpa [dropPlaceholder, htake] using hrun
    rw [hafter] at hdelists
    refine ⟨fun e => ?_, h.evolves.trans hdelists.evolves, fun ht => hdelists.tidy (h.tidy ht)⟩
    rw [hdelists.mem_listElements, h.mem_listElements]
    constructor
    · rintro ⟨hep, rfl | he⟩
      · exact .inl rfl
      · exact .inr ⟨he, fun heq => hep (Option.some.inj heq).symm⟩
    · rintro (rfl | ⟨he, hep⟩)
      · exact ⟨hne, .inl rfl⟩
      · exact ⟨fun heq => hep (heq ▸ rfl), .inr he⟩

end Edit

end Lossless
