import Lossless.Proofs.Copying
import Lossless.Proofs.Reachable

/-! Parts of a document as documents of their own. A node goes with its own copy, and every comment
of which all tokens go along gets a copy too. The copies hold together unless the root of the document
is such a comment: then the tokens of the node are copied twice. -/

namespace Lossless

open List Forest

namespace Forest

variable {f g k : Forest} {a b : Branch} {node : Node}

theorem Around.around_or_around (ha : f.Around a node) (hb : f.Around b node) :
    f.Around a b ∨ f.Around b a := by
  induction ha with
  | self => exact .inr hb
  | step hp hc ih =>
    cases hb with
    | self => exact .inl (.step hp hc)
    | step hp' hb =>
      rw [hp] at hp'
      cases hp'
      exact ih hb

theorem Around.eq_of_free (ha : f.Around a node) (hb : f.Around b node)
    (hfa : f.parent a = none) (hfb : f.parent b = none) : a = b := by
  by_contra hne
  rcases ha.around_or_around hb with h | h
  · exact not_around_free hfb hne h
  · exact not_around_free hfa (Ne.symm hne) h

/-- A token whose owner has changed is still a child of the old one. -/
theorem Adds.not_linked {taken more : List Leaf} {l : Leaf} (hk : Adds none more g k)
    (ha : .leaf l ∈ f.children a) (hg : Adds none taken f g) (hb : g.parent l = some b)
    (hnew : ¬ f.Has b) (hl : l ∉ more) (hhas : g.Has l) : ¬ k.Linked := by
  intro hlinked
  have hold := has_of_mem_children ha
  have hchild : .leaf l ∈ k.children a := by
    rwa [hk.children a (hg.has _ hold) (by simp), hg.children a hold (by simp)]
  have howner : k.parent l = some b := by
    refine (hk.owner _ hhas ?_).trans hb
    rintro m hm ⟨⟩
    exact hl hm
  rw [hlinked.down hchild] at howner
  cases howner
  exact hnew hold

end Forest

namespace Document

variable {doc after : Document} {b c root : Branch} {leaves order : List Leaf} {l : Leaf}
  {rest : List Branch}

structure ListsComments (doc : Document) : Prop where
  comments_once : doc.comments.Nodup
  comments_kind : ∀ b ∈ doc.comments, doc.kindOf b = .comment

structure Consistent (doc : Document) : Prop extends doc.IsTree, doc.ListsComments where
  comments_free : ∀ b, doc.kindOf b = .comment → doc.parent b = none

theorem Consistent.sound (h : doc.Consistent) : doc.Sound :=
  ⟨h.linked, h.comments_free⟩

/-! ### Extracts -/

/-- Comments of which all tokens are copied go along. -/
def goesAlong (doc : Document) (leaves : List Leaf) (comment : Branch) : Bool :=
  doc.isCopied leaves comment && doc.isVisible comment

def extractComment (doc : Document) (b root : Branch) (leaves : List Leaf)
    (state : List Branch × Forest) (comment : Branch) : List Branch × Forest :=
  if comment = b then (state.1 ++ [root], state.2)
  else if doc.goesAlong leaves comment then
    let copy := doc.copyBranch leaves comment state.2
    (state.1 ++ [copy.1], copy.2)
  else state

/-- The tokens of an extract before anything stands over them. -/
def looseCopies (doc : Document) (leaves : List Leaf) : Forest :=
  { tokens := (leaves.map fun l => { text := doc.textOf l }).toArray }

theorem extract_eq (doc : Document) (b : Branch) (leaves : List Leaf) :
    doc.extract b leaves =
      let start := doc.copyBranch leaves b (doc.looseCopies leaves)
      let done := doc.comments.foldl (doc.extractComment b start.1 leaves) ([], start.2)
      { toForest := done.2, grammar := doc.grammar,
        order := (range leaves.length).map Leaf.mk, root := start.1, comments := done.1 } :=
  rfl

theorem owner_looseCopies (doc : Document) (leaves : List Leaf) (node : Node) :
    (doc.looseCopies leaves).parent node = none := by
  cases node with
  | branch b => rfl
  | leaf l =>
    simp only [parent, token, looseCopies, Array.getD_eq_getD_getElem?,
      getElem?_toArray, getElem?_map]
    cases leaves[l.index]? <;> rfl

theorem sound_looseCopies (doc : Document) (leaves : List Leaf) :
    (doc.looseCopies leaves).Sound where
  linked := by
    refine ⟨fun h => ?_, fun h => ?_, fun b => nodup_nil, fun _ => 0, fun h => ?_⟩
    · cases h
    · rw [owner_looseCopies] at h
      cases h
    · rw [owner_looseCopies] at h
      cases h
  comments_free b _ := owner_looseCopies doc leaves _

theorem not_mem_copiesOf (h : doc.Linked)
    (hdisjoint : ∀ l, doc.Around b (.leaf l) → ¬ doc.Around c (.leaf l)) {k : Leaf}
    (hk : k ∈ doc.copiesOf leaves b) : k ∉ doc.copiesOf leaves c := by
  intro hk'
  obtain ⟨l, hl, hlk⟩ := mem_filterMap.1 hk
  obtain ⟨m, hm, hmk⟩ := mem_filterMap.1 hk'
  cases copyOf?_inj hlk hmk
  exact hdisjoint l (h.mem_leaves.1 hl) (h.mem_leaves.1 hm)

/-- The extract while the given comments are still to come. -/
structure Extracting (doc : Document) (b root : Branch) (leaves : List Leaf) (rest : List Branch)
    (state : List Branch × Forest) : Prop where
  sound : state.2.Sound
  size : state.2.tokens.size = leaves.length
  root_has : state.2.Has root
  root_free : state.2.parent root = none
  root_kind : state.2.kindOf root = doc.kindOf b
  once : state.1.Nodup
  comment : ∀ c ∈ state.1, state.2.Has c ∧ state.2.kindOf c = .comment
  fresh : b ∈ rest → root ∉ state.1
  free : ∀ c ∈ rest, c ≠ b → doc.goesAlong leaves c = true →
    ∀ k ∈ doc.copiesOf leaves c, state.2.parent k = none

section

variable (h : doc.Consistent)
include h

theorem Consistent.disjoint_comments (hb : doc.kindOf b = .comment) (hc : doc.kindOf c = .comment)
    (hne : b ≠ c) (l : Leaf) (hl : doc.Around b l) : ¬ doc.Around c l := fun hl' =>
  hne (hl.eq_of_free hl' (h.comments_free b hb) (h.comments_free c hc))

theorem Consistent.eq_or_eq_root (hb : doc.Around doc.root b)
    (hc : doc.kindOf c = .comment) (hl : doc.Around b l)
    (hl' : doc.Around c l) : c = b ∨ c = doc.root := by
  have hfree := h.comments_free c hc
  rcases hl.around_or_around hl' with hbc | hcb
  · by_contra hne
    exact not_around_free hfree (fun he => hne (.inl he.symm)) hbc
  · exact .inr (hcb.eq_of_free hb hfree h.root_free)

theorem Extracting.step {state : List Branch × Forest}
    (hs : Extracting doc b root leaves (c :: rest) state) (hc : doc.kindOf c = .comment)
    (hrest : ∀ d ∈ rest, doc.kindOf d = .comment) (hnew : c ∉ rest) :
    Extracting doc b root leaves rest (doc.extractComment b root leaves state c) := by
  have hfree : ∀ d ∈ rest, d ≠ b → doc.goesAlong leaves d = true →
      ∀ k ∈ doc.copiesOf leaves (.branch d), state.2.parent (.leaf k) = none :=
    fun d hd => hs.free d (mem_cons_of_mem _ hd)
  unfold extractComment
  split
  · next hcb =>
    subst hcb
    refine { hs with once := ?_, comment := ?_, fresh := fun hm => absurd hm hnew, free := hfree }
    · refine nodup_append.2 ⟨hs.once, nodup_singleton _, fun x hx y hy hxy => ?_⟩
      cases mem_singleton.1 hy
      exact hs.fresh (by simp) (hxy ▸ hx)
    · intro d hd
      rcases mem_append.1 hd with hd | hd
      · exact hs.comment d hd
      · cases mem_singleton.1 hd
        exact ⟨hs.root_has, hs.root_kind.trans hc⟩
  · next hcb =>
    split
    · next hgoes =>
      have hadds := adds_copyBranch h.linked leaves c state.2
      obtain ⟨hhas, hkind, -⟩ := copyBranch_free h.linked leaves c state.2
      have hfirst := fst_copyBranch doc leaves c state.2
      -- what is there already is older than the copy
      have hold : ∀ d, state.2.Has (.branch d) → d ≠ (doc.copyBranch leaves c state.2).1 := by
        rintro d hd rfl
        rw [hfirst] at hd
        exact Nat.lt_irrefl _ hd
      have hroot := (hadds.owner _ hs.root_has fun _ _ he => by cases he).trans hs.root_free
      refine ⟨sound_copyBranch h.sound hs.sound fun k hk => ⟨has_of_mem_copiesOf hs.size hk,
          hs.free c (by simp) hcb hgoes k hk⟩, (size_tokens_copyWithin ..).trans hs.size,
        hadds.has _ hs.root_has, hroot, (hadds.kindOf _ hs.root_has).trans hs.root_kind, ?_, ?_, ?_, ?_⟩
      · refine nodup_append.2 ⟨hs.once, nodup_singleton _, fun x hx y hy hxy => ?_⟩
        cases mem_singleton.1 hy
        exact hold x (hs.comment x hx).1 hxy
      · intro d hd
        rcases mem_append.1 hd with hd | hd
        · obtain ⟨hd, hdk⟩ := hs.comment d hd
          exact ⟨hadds.has _ hd, (hadds.kindOf d hd).trans hdk⟩
        · cases mem_singleton.1 hd
          exact ⟨hhas, hkind.trans hc⟩
      · intro hb hm
        rcases mem_append.1 hm with hm | hm
        · exact hs.fresh (mem_cons_of_mem _ hb) hm
        · exact hold root hs.root_has (mem_singleton.1 hm)
      · intro d hd hdb hgoes k hk
        refine (hadds.owner _ (has_of_mem_copiesOf hs.size hk) ?_).trans (hfree d hd hdb hgoes k hk)
        rintro m hm ⟨⟩
        have hne : d ≠ c := fun he => hnew (he ▸ hd)
        exact not_mem_copiesOf h.linked (h.disjoint_comments (hrest d hd) hc hne) hk hm
    · exact { hs with fresh := fun hm => hs.fresh (mem_cons_of_mem _ hm), free := hfree }

theorem Extracting.run {state : List Branch × Forest}
    (hs : Extracting doc b root leaves rest state) (hrest : ∀ d ∈ rest, doc.kindOf d = .comment)
    (hnodup : rest.Nodup) :
    Extracting doc b root leaves [] (rest.foldl (doc.extractComment b root leaves) state) := by
  induction rest generalizing state with
  | nil => exact hs
  | cons c rest ih =>
    obtain ⟨hnew, hnodup⟩ := nodup_cons.1 hnodup
    have hrest' := fun d hd => hrest d (mem_cons_of_mem c hd)
    exact ih (hs.step h (hrest c (by simp)) hrest' hnew) hrest' hnodup

end

/-- The root is a comment that goes along with a node under it: its tokens are copied twice. -/
def Engulfs (doc : Document) (b : Branch) (leaves : List Leaf) : Prop :=
  b ≠ doc.root ∧ doc.root ∈ doc.comments ∧ doc.goesAlong leaves doc.root = true ∧ leaves ≠ []

theorem size_looseCopies (doc : Document) (leaves : List Leaf) :
    (doc.looseCopies leaves).tokens.size = leaves.length := by
  simp [looseCopies]

instance (doc : Document) (b : Branch) (leaves : List Leaf) : Decidable (doc.Engulfs b leaves) :=
  inferInstanceAs (Decidable (_ ∧ _))

theorem Consistent.sound_start (h : doc.Consistent) (b : Branch) (leaves : List Leaf) :
    (doc.copyBranch leaves b (doc.looseCopies leaves)).2.Sound :=
  sound_copyBranch h.sound (sound_looseCopies ..) fun _ hk =>
    ⟨has_of_mem_copiesOf (size_looseCopies ..) hk, owner_looseCopies ..⟩

theorem extracting_start (h : doc.Consistent) (hb : doc.Around doc.root b)
    (he : ¬ doc.Engulfs b leaves) :
    let start := doc.copyBranch leaves b (doc.looseCopies leaves)
    Extracting doc b start.1 leaves doc.comments ([], start.2) := by
  have hsize := size_looseCopies doc leaves
  have hadds := adds_copyBranch h.linked leaves b (doc.looseCopies leaves)
  obtain ⟨hhas, hkind, hfree⟩ := copyBranch_free h.linked leaves b (doc.looseCopies leaves)
  refine ⟨h.sound_start b leaves, (size_tokens_copyWithin ..).trans hsize, hhas, hfree, hkind,
    nodup_nil, fun _ hm => (by cases hm), fun _ => not_mem_nil, ?_⟩
  intro c hc hcb hgoes k hk
  refine (hadds.owner _ (has_of_mem_copiesOf hsize hk) ?_).trans (owner_looseCopies ..)
  rintro m hm ⟨⟩
  refine not_mem_copiesOf h.linked (fun l hl hl' => ?_) hk hm
  rcases h.eq_or_eq_root hb (h.comments_kind c hc) hl' hl with rfl | rfl
  · exact hcb rfl
  · obtain ⟨l, -, hl⟩ := mem_filterMap.1 hk
    obtain ⟨i, hi, -⟩ := Option.map_eq_some_iff.1 hl
    exact he ⟨Ne.symm hcb, hc, hgoes, ne_nil_of_mem (mem_of_idxOf? hi)⟩

theorem Consistent.extract (h : doc.Consistent) (hb : doc.Around doc.root b)
    (he : ¬ doc.Engulfs b leaves) : (doc.extract b leaves).Consistent := by
  have hlisted := listed_extract doc b leaves
  have hdone := (extracting_start h hb he).run h h.comments_kind h.comments_once
  rw [extract_eq] at hlisted ⊢
  exact ⟨⟨hdone.sound.linked, hdone.root_has, hdone.root_free, hlisted.has, hlisted.nodup⟩,
    ⟨hdone.once, fun c hc => (hdone.comment c hc).2⟩, hdone.sound.comments_free⟩

theorem adds_extractComments (hd : doc.Linked) (b root : Branch) (leaves : List Leaf)
    (comments : List Branch) (state : List Branch × Forest) :
    Adds none (comments.flatMap fun c => doc.copiesOf leaves (.branch c)) state.2
      (comments.foldl (doc.extractComment b root leaves) state).2 := by
  induction comments generalizing state with
  | nil => exact .refl ..
  | cons c comments ih =>
    have hstep : Adds none (doc.copiesOf leaves c) state.2
        (doc.extractComment b root leaves state c).2 := by
      unfold extractComment
      split
      · exact (Adds.refl ..).weaken (nil_subset _)
      · split
        · exact adds_copyBranch hd leaves c state.2
        · exact (Adds.refl ..).weaken (nil_subset _)
    exact hstep.trans (ih _) fun _ hp => by cases hp

/-- A token that is copied twice stays a child of its first owner, but belongs to the second. -/
theorem Consistent.not_linked_extract (h : doc.Consistent) (hb : doc.Around doc.root b)
    (he : doc.Engulfs b leaves) (hl : doc.Around b l) (hm : l ∈ leaves) :
    ¬ (doc.extract b leaves).Linked := by
  obtain ⟨hne, hroot, hgoes, -⟩ := he
  obtain ⟨i, hi⟩ := exists_idxOf? hm
  have hcopy : copyOf? leaves l = some ⟨i⟩ := by rw [copyOf?, hi, Option.map_some]
  have hcopies : ∀ {c}, doc.Around c l → ⟨i⟩ ∈ doc.copiesOf leaves (.branch c) :=
    fun hc => mem_filterMap.2 ⟨l, h.linked.mem_leaves.2 hc, hcopy⟩
  have hhas : (doc.looseCopies leaves).Has (.leaf ⟨i⟩) :=
    has_of_mem_copiesOf (size_looseCopies ..) (hcopies hl)
  obtain ⟨pre, post, hsplit⟩ := append_of_mem hroot
  have hnodup := h.comments_once
  rw [hsplit] at hnodup
  have hpost : doc.root ∉ post := (nodup_cons.1 (nodup_append.1 hnodup).2.1).1
  let start := doc.copyBranch leaves b (doc.looseCopies leaves)
  let before := pre.foldl (doc.extractComment b start.1 leaves) ([], start.2)
  have hstart : Adds none _ (doc.looseCopies leaves) start.2 := adds_copyBranch h.linked leaves b _
  have hbefore : Adds none _ start.2 before.2 :=
    adds_extractComments h.linked b start.1 leaves pre ([], start.2)
  have hagain := adds_copyBranch h.linked leaves doc.root before.2
  have hafter := adds_extractComments h.linked b start.1 leaves post
    (before.1 ++ [(doc.copyBranch leaves doc.root before.2).1],
      (doc.copyBranch leaves doc.root before.2).2)
  -- the copy of the node owns the token first, then the copy of the root does
  obtain ⟨x, -, hx⟩ := owned_copyBranch h.linked (hb.has_inside h.root_has) (hcopies hl) hhas
  have hchild : .leaf ⟨i⟩ ∈ start.2.children x := (h.sound_start b leaves).linked.up hx
  obtain ⟨y, hnew, hy⟩ := owned_copyBranch h.linked h.root_has (hcopies (hl.trans hb))
    (hbefore.has _ (hstart.has _ hhas))
  rw [← hbefore.children x (has_of_mem_children hchild) (by simp)] at hchild
  have hlater : ⟨i⟩ ∉ post.flatMap fun c => doc.copiesOf leaves (.branch c) := by
    intro hmem
    obtain ⟨c, hc, hk⟩ := mem_flatMap.1 hmem
    have hkind : ∀ d ∈ doc.root :: post, doc.kindOf d = .comment := fun d hd =>
      h.comments_kind d (hsplit ▸ mem_append_right pre hd)
    have hne' : doc.root ≠ c := fun he => hpost (he ▸ hc)
    exact not_mem_copiesOf h.linked (h.disjoint_comments (hkind _ (by simp))
      (hkind c (mem_cons_of_mem _ hc)) hne') (hcopies (hl.trans hb)) hk
  have hlinked := hafter.not_linked hchild hagain hy hnew hlater
    (hagain.has _ (hbefore.has _ (hstart.has _ hhas)))
  have hstep : doc.extractComment b start.1 leaves before doc.root =
      (before.1 ++ [(doc.copyBranch leaves doc.root before.2).1],
        (doc.copyBranch leaves doc.root before.2).2) := by
    rw [extractComment, if_neg (Ne.symm hne), if_pos hgoes]
  rw [← hstep, ← foldl_cons, ← foldl_append, ← hsplit] at hlinked
  exact hlinked

/-! ### Clones and elements that were removed -/

theorem Consistent.of_order (h : doc.Consistent)
    (hs : order.Sublist doc.order) : Consistent { doc with order } :=
  ⟨h.toIsTree.of_sublist hs, ⟨h.comments_once, h.comments_kind⟩, h.comments_free⟩

theorem retexted_dedentTokens (unit : String) (opensLine : Bool) (ls : List Leaf) (f : Forest) :
    f.Retexted (dedentTokens unit opensLine ls f).2 := by
  induction ls generalizing opensLine f with
  | nil => exact .refl f
  | cons l ls ih =>
    rw [dedentTokens]
    dsimp only
    split
    · split
      · exact ih ..
      · exact (Retexted.setText ..).trans (ih ..)
    · exact ih ..

theorem retexted_decreaseIndent (doc : Document) (b : Branch) (unit : String) :
    doc.Retexted (doc.decreaseIndent b unit).toForest := by
  rw [decreaseIndent]
  split
  · exact .refl _
  · exact retexted_dedentTokens ..

theorem retexted_endLine (doc : Document) : doc.Retexted doc.endLine.toForest := by
  rw [endLine]
  split
  · exact .refl _
  · exact .addToken ..

theorem cloneSubtree_tables (doc : Document) (b : Branch) :
    let leaves := if b = doc.root then doc.order else doc.coveredLeaves b
    (doc.extract b leaves).Retexted (doc.cloneSubtree b).toForest ∧
      (doc.cloneSubtree b).root = (doc.extract b leaves).root ∧
      (doc.cloneSubtree b).comments = (doc.extract b leaves).comments := by
  unfold cloneSubtree
  dsimp only
  split
  · exact ⟨.refl _, rfl, rfl⟩
  · have hend : ∀ d : Document, d.endLine.root = d.root ∧ d.endLine.comments = d.comments := by
      intro d
      rw [endLine]
      split <;> exact ⟨rfl, rfl⟩
    have hindent : ∀ (d : Document) b unit, (d.decreaseIndent b unit).root = d.root ∧
        (d.decreaseIndent b unit).comments = d.comments := by
      intro d b unit
      rw [decreaseIndent]
      split <;> exact ⟨rfl, rfl⟩
    refine ⟨(retexted_endLine _).trans (retexted_decreaseIndent ..), ?_, ?_⟩
    · exact (hindent ..).1.trans (hend _).1
    · exact (hindent ..).2.trans (hend _).2

theorem Consistent.retexted (h : doc.Consistent)
    (hf : doc.Retexted after.toForest) (hr : after.root = doc.root)
    (hc : after.comments = doc.comments) (hl : after.Listed []) : after.Consistent where
  linked := hf.linked h.linked
  root_has := hr ▸ hf.has _ h.root_has
  root_free := by rw [hr, hf.parent]; exact h.root_free
  order_has := hl.has
  order_nodup := hl.nodup
  comments_free b hb := by rw [hf.parent]; exact h.comments_free b (hf.kindOf b ▸ hb)
  comments_once := hc ▸ h.comments_once
  comments_kind b hb := by rw [hf.kindOf]; exact h.comments_kind b (hc ▸ hb)

theorem exists_leaf_of_covered (h : doc.Linked) (hne : doc.coveredLeaves b ≠ []) :
    ∃ l ∈ doc.coveredLeaves b, doc.Around b (.leaf l) := by
  obtain ⟨hfirst, -⟩ := coveredLeaves_ends hne
  rw [head?_eq_some_head hne] at hfirst
  refine ⟨_, head_mem hne, h.mem_leaves.1 ?_⟩
  exact (mem_visibleLeaves.1 (mem_of_head? hfirst.symm)).1

theorem Consistent.extract_iff (h : doc.Consistent) (hb : doc.Around doc.root b) :
    (doc.extract b (doc.coveredLeaves b)).Consistent ↔
      ¬ doc.Engulfs b (doc.coveredLeaves b) := by
  refine ⟨fun hx he => ?_, h.extract hb⟩
  obtain ⟨l, hm, hl⟩ := exists_leaf_of_covered h.linked he.2.2.2
  exact h.not_linked_extract hb he hl hm hx.linked

theorem Consistent.cloneSubtree_iff (h : doc.Consistent) (hb : doc.Around doc.root b) :
    (doc.cloneSubtree b).Consistent ↔ ¬ doc.Engulfs b (doc.coveredLeaves b) := by
  obtain ⟨hf, hr, hc⟩ := doc.cloneSubtree_tables b
  have hlisted := Listed.cloneSubtree doc b
  by_cases hroot : b = doc.root
  · rw [if_pos hroot] at hf hr hc
    have hnot : ∀ leaves, ¬ doc.Engulfs b leaves := fun leaves he => he.1 hroot
    exact iff_of_true ((h.extract hb (hnot _)).retexted hf hr hc hlisted) (hnot _)
  · rw [if_neg hroot] at hf hr hc
    refine ⟨fun hclone he => ?_, fun he => (h.extract hb he).retexted hf hr hc hlisted⟩
    obtain ⟨l, hm, hl⟩ := exists_leaf_of_covered h.linked he.2.2.2
    exact h.not_linked_extract hb he hl hm
      (hclone.linked.of_eq (fun b => (hf.children b).symm) fun node => (hf.parent node).symm)

theorem Consistent.withoutPadding (h : doc.Consistent) (rule : ListRule) (list element : Branch) :
    (doc.withoutPadding rule list element).Consistent := by
  unfold Document.withoutPadding
  split
  · exact Edit.keeps_withoutBlank (fun _ _ hd => hd.of_order (cut_sublist ..)) h rule list element
  · exact h

end Document

end Lossless
