import Lossless.Grammar.Builtin
import Lossless.Proofs.Filling
import Lossless.Proofs.Refusals

/-! Kinds that lists and optionals hold. Every way into a container checks the kind of what comes in,
and only a comment can get past the check. -/

namespace Lossless

open List Forest Document Edit Node ListRule EStateM

/-! ### Grammars -/

namespace Grammar

variable {g : Grammar} {kind child element : Kind}

/-- Containers of a kind may hold containers of another kind. Only lists and optionals are
choosy. -/
def Admits (g : Grammar) (kind child : Kind) : Prop :=
  g.elementKind? kind = none ∨ g.accepts kind child = true

instance (g : Grammar) (kind child : Kind) : Decidable (g.Admits kind child) :=
  inferInstanceAs (Decidable (_ ∨ _))

/-- Wherever nodes of a kind are wrapped in an element, the element may hold them. -/
def Nests (g : Grammar) (child : Kind) : Prop :=
  ∀ kind element, g.elementKind? kind = some element → g.accepts kind child = true →
    child ≠ element → g.Admits element child

theorem mem_all (kind : Kind) : kind ∈ Kind.all := by
  cases kind <;> decide

theorem nests_grammar (language : Language) (child : Kind) : language.grammar.Nests child := by
  have key : ∀ kind ∈ Kind.all, ∀ element ∈ (language.grammar.elementKind? kind).toList,
      ∀ child ∈ Kind.all, language.grammar.accepts kind child = true → child ≠ element →
      language.grammar.Admits element child := by
    cases language <;> decide +kernel
  intro kind element helement
  exact key kind (mem_all kind) element (Option.mem_toList.2 helement) child (mem_all child)

theorem accepts_of_listRule? {rule : ListRule} (h : g.listRule? kind = some rule) (child : Kind) :
    g.elementKind? kind = some rule.element ∧ g.accepts kind child = rule.accepts child := by
  unfold listRule? at h
  unfold elementKind? accepts
  split at h
  · next hshape =>
    cases h
    rw [hshape]
    exact ⟨rfl, rfl⟩
  · cases h

theorem accepts_of_optionalRule? {rule : OptionalRule} (h : g.optionalRule? kind = some rule)
    (child : Kind) :
    g.elementKind? kind = some rule.element ∧ g.accepts kind child = rule.accepts child := by
  unfold optionalRule? at h
  unfold elementKind? accepts
  split at h
  · next hshape =>
    cases h
    rw [hshape]
    exact ⟨rfl, rfl⟩
  · cases h

theorem accepts_element (h : g.elementKind? kind = some element) :
    g.accepts kind element := by
  unfold elementKind? at h
  unfold accepts
  split at h
  · cases h
    simp [ListRule.accepts]
  · cases h
    simp [OptionalRule.accepts]
  · cases h

end Grammar

theorem ListRule.wrap_of_comment {rule : ListRule} {fragment : Document}
    (h : fragment.rootKind = .comment) : rule.wrap fragment = fragment := by
  simp [wrap, h]

theorem ListRule.wrap_of_element {rule : ListRule} {fragment : Document}
    (h : fragment.rootKind = rule.element) : rule.wrap fragment = fragment := by
  simp [wrap, h]

namespace Document

variable {doc mid after fragment : Document} {list added optional parent : Branch} {rule : ListRule}
  {ok : Kind → Kind → Prop}

def Holds (g : Grammar) (doc : Document) (p : Branch) : Prop :=
  ∀ c, .branch c ∈ doc.children p → g.Admits (doc.kindOf p) (doc.kindOf c)

/-- Lists and optionals in the tree hold only kinds that they accept. -/
def WellKinded (doc : Document) : Prop :=
  ∀ p, doc.Around doc.root (.branch p) → doc.Holds doc.grammar p

/-- What comes in under a container decides whether the kinds stay right. -/
theorem Evolves.wellKinded (h : Evolves doc.grammar.Admits doc after) (hd : doc.WellKinded) :
    after.WellKinded := by
  -- a container that held something before has been under the root before
  have hold : ∀ node, after.Around after.root node → ∀ p, node = .branch p →
      doc.Has p → doc.Around doc.root p := by
    intro node ha
    induction ha with
    | self =>
      rintro _ ⟨⟩ -
      exact h.root ▸ .self
    | step hp _ ih =>
      rintro p rfl hp'
      rcases h.edges _ p (h.linked.up hp) with hc | ⟨hnew, -⟩
      · exact .step (h.start.down hc) (ih _ rfl (has_of_mem_children hc))
      · exact absurd hp' hnew
  intro p hp c hc
  rw [h.grammar]
  rcases h.edges p c hc with hc | ⟨-, hok⟩
  · have hhas := has_of_mem_children hc
    rw [h.kindOf p hhas, h.kindOf c (h.start.has_child hc)]
    exact hd p (hold _ hp p rfl hhas) c hc
  · exact hok

theorem Evolves.listRule?_eq (h : Evolves ok doc mid) (hlist : doc.Has list) :
    mid.listRule? list = doc.listRule? list := by
  unfold listRule?
  rw [h.grammar, h.kindOf list hlist]

/-! ### Fragments -/

theorem edges_wrapRoot (hf : fragment.IsTree) {kind : Kind} (hok : ok kind fragment.rootKind)
    (hedges : ∀ p c, branch c ∈ fragment.children p →
      ok (fragment.kindOf p) (fragment.kindOf c)) (p c : Branch)
    (hc : branch c ∈ (fragment.wrapRoot kind).children p) :
    ok ((fragment.wrapRoot kind).kindOf p) ((fragment.wrapRoot kind).kindOf c) := by
  rw [children_wrapRoot] at hc
  split at hc
  · next hp =>
    rw [mem_singleton] at hc
    cases hc
    have hroot : (fragment.wrapRoot kind).kindOf (fragment.wrapRoot kind).root = kind :=
      fragment.rootKind_wrapRoot kind
    rw [kindOf_wrapRoot hf.root_has, hp, hroot]
    exact hok
  · rw [kindOf_wrapRoot (has_of_mem_children hc),
      kindOf_wrapRoot (hf.linked.has_child hc)]
    exact hedges p c hc

/-- A fragment that a rule on kinds lets in, by itself and inside an element. -/
structure Suits (ok : Kind → Kind → Prop) (g : Grammar) (fragment : Document) : Prop where
  tree : fragment.IsTree
  edges : ∀ p c, Node.branch c ∈ fragment.children p → ok (fragment.kindOf p) (fragment.kindOf c)
  plain : ∀ kind, g.elementKind? kind = none → ok kind fragment.rootKind
  accepted : ∀ kind, g.accepts kind fragment.rootKind = true → ok kind fragment.rootKind
  nested : ∀ kind element, g.elementKind? kind = some element →
    g.accepts kind fragment.rootKind = true → fragment.rootKind ≠ element →
      ok element fragment.rootKind

structure Fits (g : Grammar) (fragment : Document) : Prop where
  tree : fragment.IsTree
  holds : ∀ p, fragment.Holds g p
  nests : g.Nests fragment.rootKind

theorem Fits.suits {g : Grammar} (h : fragment.Fits g) : fragment.Suits g.Admits g :=
  ⟨h.tree, h.holds, fun _ => .inl, fun _ => .inr, h.nests⟩

namespace Suits

variable {g : Grammar} {kind element : Kind}

theorem relaid (h : fragment.Suits ok g) {laid : Document} (hlaid : fragment.Relaid laid) :
    laid.Suits ok g := by
  have hkind := hlaid.rootKind
  refine ⟨hlaid.tree, fun p c hc => ?_, hkind ▸ h.plain, hkind ▸ h.accepted, hkind ▸ h.nested⟩
  rw [hlaid.retexted.kindOf, hlaid.retexted.kindOf]
  rw [hlaid.retexted.children] at hc
  exact h.edges p c hc

variable (hg : ∀ kind element, g.elementKind? kind = some element → ok kind element)
include hg

theorem placed (h : fragment.Suits ok g) (he : g.elementKind? kind = some element)
    (ha : g.accepts kind fragment.rootKind) :
    let placed := if fragment.rootKind = element then fragment else fragment.wrapRoot element
    placed.IsTree ∧
      (∀ p c, branch c ∈ placed.children p → ok (placed.kindOf p) (placed.kindOf c)) ∧
      ok kind placed.rootKind := by
  intro placed
  by_cases hkind : fragment.rootKind = element
  · have hplaced : placed = fragment := if_pos hkind
    rw [hplaced]
    exact ⟨h.tree, h.edges, h.accepted kind ha⟩
  · have hplaced : placed = fragment.wrapRoot element := if_neg hkind
    rw [hplaced, rootKind_wrapRoot]
    have hnest := h.nested kind element he ha hkind
    exact ⟨h.tree.wrapRoot element, edges_wrapRoot h.tree hnest h.edges, hg kind element he⟩

theorem wrap (h : fragment.Suits ok g) (hrule : g.listRule? kind = some rule)
    (ha : rule.accepts fragment.rootKind) :
    (rule.wrap fragment).IsTree ∧
      (∀ p c, branch c ∈ (rule.wrap fragment).children p →
        ok ((rule.wrap fragment).kindOf p) ((rule.wrap fragment).kindOf c)) ∧
      ok kind (rule.wrap fragment).rootKind := by
  obtain ⟨helement, haccepts⟩ := Grammar.accepts_of_listRule? hrule fragment.rootKind
  rw [ha] at haccepts
  by_cases hcomment : fragment.rootKind = .comment
  · rw [wrap_of_comment hcomment]
    exact ⟨h.tree, h.edges, h.accepted kind haccepts⟩
  · have hplaced := h.placed hg helement haccepts
    simpa [ListRule.wrap, hcomment] using hplaced

end Suits

/-! ### Edits -/

theorem survives_evolves (hlist : doc.Has list) (hok : ok (doc.kindOf list) rule.element) :
    Survives (Evolves ok doc) rule list where
  unfold _ h := h.unfoldBody list
  cutLines _ lines h := h.cut _
  breaks _ p n h := h.insertBreaks p n
  clear _ optional rule h _ := h.clearOptional rule optional
  refill := by
    have hedges : ∀ grammar text p c,
        branch c ∈ (ofSource grammar rule.element text).children p → False := by
      intro grammar text p c hc
      have hparent := (linked_ofSource grammar rule.element text).down hc
      rw [parent_branch_ofSource] at hparent
      cases hparent
    have hkind : ∀ grammar text, (ofSource grammar rule.element text).rootKind = rule.element :=
      fun _ _ => rfl
    refine keeps_refill (fun _ h => h.unfoldBody list) (fun _ p n h => h.insertBreaks p n) ?_ ?_
    · intro d line grammar text h
      rw [wrap_of_element (hkind ..)]
      refine h.trans (evolves_insertLines h.linked (h.has _ hlist) (isTree_ofSource ..) ?_ ?_ ..)
      · exact fun p c hc => (hedges _ _ p c hc).elim
      · intro _
        rw [h.kindOf _ hlist]
        exact hok
    · intro d index indent grammar text h
      have hlaid := ((isTree_ofSource grammar rule.element text).increaseIndent
        (ofSource grammar rule.element text).root indent)
      have hlaid := hlaid.trans hlaid.tree.trimStart
      have hroot := hlaid.rootKind.trans (hkind ..)
      dsimp only
      rw [wrap_of_element hroot]
      refine h.trans (evolves_insertBeside h.linked (h.has _ hlist) hlaid.tree ?_ ?_ ..)
      · intro p c hc
        rw [hlaid.retexted.children] at hc
        exact (hedges _ _ p c hc).elim
      · rw [h.kindOf _ hlist, hroot]
        exact hok

section

variable (hg : ∀ kind element, doc.grammar.elementKind? kind = some element → ok kind element)
  (h : doc.Linked) (hf : fragment.Suits ok doc.grammar)
include hg h hf

theorem evolves_insertBeside_wrap (hlist : doc.Has list)
    (hrule : doc.listRule? list = some rule) (ha : rule.accepts fragment.rootKind)
    (index : Nat) : Evolves ok doc (doc.insertBeside rule list index (rule.wrap fragment)).2 := by
  obtain ⟨htree, hedges, hok⟩ := hf.wrap hg hrule ha
  exact evolves_insertBeside h hlist htree hedges hok rule index

theorem evolves_insertLines_wrap (hlist : doc.Has list)
    (hrule : doc.listRule? list = some rule)
    (ha : fragment.rootKind = .comment ∨ rule.accepts fragment.rootKind) (line : Nat) :
    Evolves ok doc (doc.insertLines rule list line (rule.wrap fragment)
      (fragment.rootKind = .comment)).2 := by
  by_cases hcomment : fragment.rootKind = .comment
  · rw [wrap_of_comment hcomment, decide_eq_true hcomment]
    exact evolves_insertLines h hlist hf.tree hf.edges (fun h => by cases h) rule line
  · obtain ⟨htree, hedges, hok⟩ := hf.wrap hg hrule (ha.resolve_left hcomment)
    exact evolves_insertLines h hlist htree hedges (fun _ => hok) rule line

theorem evolves_setOptional {rule : OptionalRule}
    (hb : doc.Has optional) (hrule : doc.optionalRule? optional = some rule)
    (ha : rule.accepts fragment.rootKind) :
    Evolves ok doc (doc.setOptional rule optional fragment).2 := by
  obtain ⟨helement, haccepts⟩ := Grammar.accepts_of_optionalRule? hrule fragment.rootKind
  obtain ⟨htree, hedges, hok⟩ := hf.placed hg helement (haccepts.trans ha)
  have hclear : Evolves ok doc (doc.clearOptional rule optional) :=
    (Evolves.refl h).clearOptional rule optional
  unfold setOptional
  refine hclear.trans (evolves_fillOptional hclear.linked htree hedges (hclear.has _ hb) ?_ rule)
  rw [hclear.kindOf _ hb]
  exact hok

end

theorem Suits.placedIn
    (hg : ∀ kind element, doc.grammar.elementKind? kind = some element → ok kind element)
    (hf : fragment.Suits ok doc.grammar)
    (ha : ∀ element, doc.grammar.elementKind? (doc.kindOf parent) = some element →
      doc.canAdd parent fragment.rootKind) :
    let placed := placedIn doc parent fragment
    placed.IsTree ∧
      (∀ p c, branch c ∈ placed.children p → ok (placed.kindOf p) (placed.kindOf c)) ∧
      ok (doc.kindOf parent) placed.rootKind := by
  unfold Edit.placedIn
  cases he : doc.grammar.elementKind? (doc.kindOf parent) with
  | none => exact ⟨hf.tree, hf.edges, hf.plain _ he⟩
  | some element => exact hf.placed hg he (ha element he)

end Document

namespace Request

def container? : Request → Option Branch
  | .addAtLine b _ _ | .add b _ _ | .removeElement b _ | .clearList b | .set b _ |
    .clearOptional b => some b
  | _ => none

/-- A request that makes a comment an element of a list that does not accept comments. On lines of
its own a comment stays outside the list. -/
def misplaces (doc : Document) : Request → Bool
  | .add list _ fragment =>
    fragment.rootKind = .comment && (doc.listRule? list).any fun rule => !rule.accepts .comment
  | .addAtLine list _ fragment =>
    fragment.rootKind = .comment && (doc.listRule? list).any fun rule =>
      !rule.accepts .comment && doc.isInline rule list
  | _ => false

/-- What every request leaves, under a rule on kinds that elements and fragments obey. -/
theorem evolves_left_of {doc : Document} {ok : Kind → Kind → Prop} (request : Request)
    (hg : ∀ kind element, doc.grammar.elementKind? kind = some element → ok kind element)
    (h : doc.Linked) (hb : ∀ b ∈ request.container?, doc.Has (.branch b))
    (hf : ∀ fragment ∈ request.fragment?, fragment.Suits ok doc.grammar)
    (hplaced : request.misplaces doc = false) : doc.Evolves ok (request.run.left doc) := by
  have hrefl : doc.Evolves ok doc := .refl h
  have hsurvives : ∀ {list rule}, doc.Has (.branch list) → doc.listRule? list = some rule →
      Survives (doc.Evolves ok) rule list := by
    intro list rule hlist hrule
    obtain ⟨helement, -⟩ := Grammar.accepts_of_listRule? hrule .comment
    exact survives_evolves hlist (hg _ _ helement)
  have hdetach : ∀ list (rule : ListRule) (d : Document) (element : Branch),
      doc.Evolves ok d →
      doc.Evolves ok (d.detachElement rule list element) :=
    fun list rule d element hd => hd.trans (evolves_detachElement hd.linked rule list element)
  have hremove : ∀ list element,
      doc.Evolves ok ((Edit.removeElement list element).left doc) := by
    intro list element
    refine left_removeElement hrefl element fun rule hrule hparent => ?_
    exact ⟨hsurvives (h.has_parent hparent) hrule, fun d hd => hdetach list rule d element hd⟩
  cases request with
  | openList list =>
    unfold run
    rw [left_discard, left_listRule]
    exact hrefl
  | openOptional optional =>
    unfold run
    rw [left_discard, left_optionalRule]
    exact hrefl
  | addAtLine list line fragment =>
    have hlist := hb list rfl
    have hf := hf fragment rfl
    unfold run
    rw [left_discard]
    refine left_addAtLine
      (fun rule d hd hrule => hsurvives hlist (hd.listRule?_eq hlist ▸ hrule))
      (hdetach list) hrefl line ?_ ?_
    · intro rule hrule hinline hkind d index indent hd
      have hlaid := hf.tree.increaseIndent fragment.root indent
      have hlaid := hlaid.trans hlaid.tree.trimStart
      have haccepts : rule.accepts fragment.rootKind := by
        refine hkind.elim (fun hcomment => ?_) id
        simpa [misplaces, hcomment, hrule, hinline] using hplaced
      exact hd.trans (evolves_insertBeside_wrap (hd.grammar ▸ hg) hd.linked
        (hd.grammar ▸ hf.relaid hlaid) (hd.has _ hlist) (hd.listRule?_eq hlist ▸ hrule)
        (hlaid.rootKind ▸ haccepts) index)
    · intro rule hrule _ hkind d line hd
      exact hd.trans (evolves_insertLines_wrap (hd.grammar ▸ hg) hd.linked
        (hd.grammar ▸ hf) (hd.has _ hlist) (hd.listRule?_eq hlist ▸ hrule) hkind line)
  | add list index fragment =>
    have hlist := hb list rfl
    have hf := hf fragment rfl
    unfold run
    rw [left_discard]
    refine left_add (fun rule d hd hrule => hsurvives hlist (hd.listRule?_eq hlist ▸ hrule))
      (hdetach list) hrefl index ?_
    intro rule hrule hkind d hd
    have haccepts : rule.accepts fragment.rootKind := by
      refine hkind.elim (fun hcomment => ?_) id
      simpa [misplaces, hcomment, hrule] using hplaced
    exact hd.trans (evolves_insertBeside_wrap (hd.grammar ▸ hg) hd.linked
      (hd.grammar ▸ hf) (hd.has _ hlist) (hd.listRule?_eq hlist ▸ hrule) haccepts index)
  | removeElement list element =>
    unfold run
    rw [left_discard]
    exact hremove list element
  | clearList list =>
    have hlist := hb list rfl
    refine keeps_clearList (fun rule d hd hrule => hsurvives hlist (hd.listRule?_eq hlist ▸ hrule))
      (hdetach list) (fun d rule hd => ?_) doc hrefl
    exact hd.trans (evolves_emptyList hd.linked rule list)
  | set optional fragment =>
    unfold run
    rw [left_discard]
    exact left_set hrefl fun rule hrule hkind =>
      evolves_setOptional hg h (hf fragment rfl) (hb optional rfl) hrule hkind
  | clearOptional optional =>
    exact left_clearOptional hrefl fun rule => hrefl.clearOptional rule optional
  | remove node =>
    refine left_remove hrefl node ?_ hrefl.clearOptional hremove ?_
    · intro b _
      unfold removeComment
      dsimp only
      split
      · exact hrefl.congr rfl rfl rfl
      · exact hrefl.congr rfl rfl rfl
    · intro parent child
      exact ((hrefl.discard _).removeChild parent child).updateComments
  | replace node fragment =>
    unfold run
    rw [left_discard]
    refine left_replace hrefl node fun parent hp _ ha => ?_
    obtain ⟨htree, hedges, hok⟩ := (hf fragment rfl).placedIn hg ha
    exact evolves_swapped h htree hedges hp hok

theorem evolves_left {doc : Document} (request : Request) (h : doc.Linked)
    (hb : ∀ b ∈ request.container?, doc.Has (.branch b))
    (hf : ∀ fragment ∈ request.fragment?, fragment.Fits doc.grammar)
    (hplaced : request.misplaces doc = false) :
    doc.Evolves doc.grammar.Admits (request.run.left doc) :=
  request.evolves_left_of (fun _ _ he => .inr (Grammar.accepts_element he)) h hb
    (fun fragment hm => (hf fragment hm).suits) hplaced

end Request

/-! ### Comments among elements -/

namespace Document

variable {doc mid fragment : Document} {list added element optional : Branch} {rule : ListRule}

theorem children_newIndentedBreak (doc : Document) (indent : String) (b : Branch) :
    (doc.newIndentedBreak indent).2.children b = doc.children b := by
  unfold newIndentedBreak
  dsimp only
  rcases newLiteral_cases (doc.newToken Layout.lineBreak).2 indent with he | he <;> rw [he] <;> rfl

theorem children_unfoldBody (doc : Document) (list b : Branch) :
    (doc.unfoldBody list).children b = doc.children b := by
  have hopen : (doc.openBody list).children b = doc.children b := by
    unfold openBody
    dsimp only
    split
    · rfl
    · exact children_newIndentedBreak (doc.stripAround list) ..
  have hclose : ∀ (d : Document) tokens, (d.closeWith list tokens).children b = d.children b :=
    fun _ _ => rfl
  rw [unfoldBody_eq, hclose, closingBreak, children_newIndentedBreak, hopen]

theorem children_stock (hlist : doc.Has list) (rule : ListRule) (fragment : Document) :
    (doc.stock rule fragment).2.children list = doc.children list := by
  refine Eq.trans ?_ (children_graft_of_has hlist fragment)
  rcases newLiteral_cases (doc.graftVisible fragment).2 rule.delimiter with he | he
  · exact congrArg (fun x => x.2.children list) he
  · exact congrArg (fun x => x.2.children list) he

theorem mem_insertBeside (h : doc.Linked) (hlist : doc.Has list) (hf : fragment.IsTree)
    (rule : ListRule) (index : Nat) :
    let after := (doc.insertBeside rule list index fragment).2
    let root := doc.rehomeBranch fragment.root
    .branch root ∈ after.children list ∧ after.kindOf root = fragment.rootKind ∧
      ∀ n ∈ doc.children list, n ∈ after.children list := by
  have hstock : Grows doc (doc.stock rule fragment).2 :=
    evolves_stock h hf (fun _ _ _ => trivial) rule
  have hw := waiting_stock hf doc rule
  have hchildren := children_stock hlist rule fragment
  -- whatever stands beside it, the root is among the nodes that come in
  have key : ∀ (d : Document) i nodes, d.Has list →
      (∀ n ∈ doc.children list, n ∈ d.children list) →
      d.kindOf (doc.rehomeBranch fragment.root) = fragment.rootKind →
      .branch (doc.rehomeBranch fragment.root) ∈ nodes →
      .branch (doc.rehomeBranch fragment.root) ∈ (d.insertChildren list i nodes).children list ∧
        (d.insertChildren list i nodes).kindOf (doc.rehomeBranch fragment.root) =
          fragment.rootKind ∧
        ∀ n ∈ doc.children list, n ∈ (d.insertChildren list i nodes).children list := by
    intro d i nodes hd hold hkind hroot
    refine ⟨(mem_children_insertChildren hd ..).2 (.inl hroot), ?_, fun n hn => ?_⟩
    · rw [kindOf_insertChildren, hkind]
    · exact (mem_children_insertChildren hd ..).2 (.inr (hold n hn))
  intro after root
  have hafter : after = _ := insertBeside_eq doc rule list fragment index
  rw [hafter]
  split
  · exact key ((newToken _ _).2.insertAt _ _) _ _ (hstock.has _ hlist)
      (fun n hn => hchildren ▸ hn) hw.root_kind (mem_append_right _ (mem_singleton_self _))
  · exact key ((newToken _ _).2.insertAt _ _) _ _ (hstock.has _ hlist)
      (fun n hn => hchildren ▸ hn) hw.root_kind mem_cons_self
  · have hroom : Grows _ ((doc.stock rule fragment).2.makeRoom list).2 :=
      evolves_makeRoom hstock.linked list
    refine key (((doc.stock rule fragment).2.makeRoom list).2.insertAt _ _) _ _
      (hroom.has _ (hstock.has _ hlist)) (fun n hn => ?_)
      ((hroom.kindOf _ hw.root_has).trans hw.root_kind) (mem_singleton_self _)
    exact children_makeRoom_subset hstock.linked list list (hchildren ▸ hn)

theorem mem_children_insertLines (h : doc.Linked) (hlist : doc.Has list)
    (hf : fragment.IsTree) (rule : ListRule) (line : Nat) (isComment : Bool) {n : Node}
    (hn : n ∈ doc.children list) :
    n ∈ (doc.insertLines rule list line fragment isComment).2.children list := by
  cases isComment with
  | false => exact (mem_insertLines h hlist hf rule line).2.2.2 n hn
  | true =>
    obtain ⟨base, p, hbase, he⟩ := doc.insertLines_comment rule list line fragment
    obtain ⟨-, -, -, -, -, hchildren⟩ : Grows doc _ ∧ _ :=
      evolves_lineFragment h hlist hf hbase.base_eq (fun _ _ _ => trivial) p
    rw [he]
    exact hchildren.symm ▸ hn

structure Gained (mid : Document) (list added : Branch) (doc : Document) : Prop where
  evolves : Grows mid doc
  child : .branch added ∈ doc.children list

namespace Gained

section

variable (h : Gained mid list added doc)
include h

theorem unfoldBody : Gained mid list added (doc.unfoldBody list) :=
  ⟨h.evolves.unfoldBody list, (children_unfoldBody ..).symm ▸ h.child⟩

theorem insertBreaks (p n : Nat) : Gained mid list added (doc.insertBreaks p n) :=
  ⟨h.evolves.insertBreaks p n, (children_insertBreaks ..).symm ▸ h.child⟩

theorem clearOptional {rule : OptionalRule}
    (hfound : doc.optionalAround? list = some (optional, rule)) :
    Gained mid list added (doc.clearOptional rule optional) := by
  have hne : list ≠ optional := by
    rintro rfl
    have hchild := h.evolves.linked.up (parent_of_optionalAround? hfound)
    exact h.evolves.linked.not_around_of_child hchild .self
  refine ⟨h.evolves.clearOptional rule optional, ?_⟩
  rcases doc.clearOptional_cases rule optional with he | ⟨trimmed, htrimmed, he⟩ <;> rw [he]
  · rw [children_clearChildren, if_neg hne]
    exact h.child
  · refine (congrArg (branch added ∈ ·) (children_clearChildren trimmed ..)).mpr ?_
    rw [if_neg hne]
    exact htrimmed.kept list added h.child

theorem insertLines (hlist : mid.Has list)
    (hf : fragment.IsTree) (rule : ListRule) (line : Nat) (isComment : Bool) :
    Gained mid list added (doc.insertLines rule list line fragment isComment).2 := by
  have hlist := h.evolves.has _ hlist
  refine ⟨h.evolves.trans ?_, mem_children_insertLines h.evolves.linked hlist hf rule line _ h.child⟩
  exact evolves_insertLines h.evolves.linked hlist hf (fun _ _ _ => trivial) (fun _ => trivial) ..

theorem insertBeside (hlist : mid.Has list)
    (hf : fragment.IsTree) (rule : ListRule) (index : Nat) :
    Gained mid list added (doc.insertBeside rule list index fragment).2 := by
  have hlist := h.evolves.has _ hlist
  refine ⟨h.evolves.trans ?_, (mem_insertBeside h.evolves.linked hlist hf rule index).2.2 _ h.child⟩
  exact evolves_insertBeside h.evolves.linked hlist hf (fun _ _ _ => trivial) trivial ..

theorem detachElement (hne : added ≠ element)
    (rule : ListRule) : Gained mid list added (doc.detachElement rule list element) :=
  ⟨h.evolves.trans (evolves_detachElement h.evolves.linked ..),
    mem_children_detachElement hne h.child rule⟩

end

end Gained

theorem survives_gained (hlist : mid.Has list) (rule : ListRule) (added : Branch) :
    Survives (Gained mid list added) rule list where
  unfold _ h := h.unfoldBody
  cutLines _ _ h := ⟨h.evolves.cut _, h.child⟩
  breaks _ p n h := h.insertBreaks p n
  clear _ _ _ h hfound := h.clearOptional hfound
  refill := by
    refine keeps_refill (fun _ h => h.unfoldBody) (fun _ p n h => h.insertBreaks p n) ?_ ?_
    · intro d line grammar text h
      exact h.insertLines hlist (isTree_wrap (isTree_ofSource ..)) ..
    · intro d index indent grammar text h
      have hlaid := (isTree_ofSource grammar rule.element text).increaseIndent
        (ofSource grammar rule.element text).root indent
      exact h.insertBeside hlist (isTree_wrap hlaid.tree.trimStart.tree) ..

end Document

namespace Edit

variable {doc after fragment mid : Document} {list added : Branch} {rule : ListRule}
  {index line : Nat}

theorem run_checkKind_eq_ok (h : (checkKind rule list fragment).run doc = .ok () mid) :
    mid = doc := by
  unfold checkKind at h
  split at h
  · cases h
    rfl
  · cases h

theorem exists_run_of_discard {α : Type} {x : Edit α} (h : (discard x).run doc = .ok () after) :
    ∃ a, x.run doc = .ok a after := by
  rw [run_discard] at h
  split at h
  · next a _ hx =>
    cases h
    exact ⟨a, hx⟩
  · cases h

section

variable (hrule : doc.listRule? list = some rule)
include hrule

theorem run_add_ok
    (h : (add list index fragment).run doc = .ok added after) :
    added = (doc.insertBeside rule list index (rule.wrap fragment)).1 ∧
      (dropPlaceholder rule list (doc.placeholder? rule list)).run
        (doc.insertBeside rule list index (rule.wrap fragment)).2 = .ok () after := by
  unfold add at h
  rw [run_bind, run_listRule hrule] at h
  obtain ⟨_, mid, hcheck, h⟩ := run_bind_eq_ok h
  rw [run_checkKind_eq_ok hcheck, run_get_bind] at h
  dsimp only at h
  split at h
  · cases h
  · rw [run_bind, run_modifyGet] at h
    dsimp only at h
    generalize doc.insertBeside rule list index (rule.wrap fragment) = beside at h ⊢
    obtain ⟨_, _, hdrop, h⟩ := run_bind_eq_ok h
    cases h
    exact ⟨rfl, hdrop⟩

theorem run_add_eq_ok
    (h : (add list index fragment).run doc = .ok added after) :
    (dropPlaceholder rule list (doc.placeholder? rule list)).run
      (doc.insertBeside rule list index (rule.wrap fragment)).2 = .ok () after :=
  (run_add_ok hrule h).2

theorem run_addAtLine_ok
    (hinline : doc.isInline rule list = false)
    (h : (addAtLine list line fragment).run doc = .ok added after) : ∃ bare mid,
      (placeAtLine rule list line fragment).run doc = .ok added bare ∧
      (dropPlaceholder rule list (doc.placeholder? rule list)).run bare = .ok () mid ∧
      after = if rule.isPadded then mid.padAround rule list added (fragment.rootKind = .comment)
        else mid := by
  unfold addAtLine at h
  rw [run_bind, run_listRule hrule] at h
  obtain ⟨_, mid, hcheck, h⟩ := run_bind_eq_ok h
  rw [run_checkKind_eq_ok hcheck, run_get_bind, hinline] at h
  dsimp only at h
  rw [if_neg Bool.false_ne_true] at h
  obtain ⟨_, bare, hplace, h⟩ := run_bind_eq_ok h
  obtain ⟨_, mid, hdrop, h⟩ := run_bind_eq_ok h
  by_cases hpadded : rule.isPadded
  · rw [if_pos hpadded] at h
    cases h
    exact ⟨bare, mid, hplace, hdrop, (if_pos hpadded).symm⟩
  · rw [if_neg hpadded] at h
    cases h
    exact ⟨bare, _, hplace, hdrop, (if_neg hpadded).symm⟩

theorem run_addAtLine_eq_ok
    (hinline : doc.isInline rule list)
    (h : (addAtLine list line fragment).run doc = .ok added after) : ∃ index,
      let clause := (fragment.increaseIndent fragment.root (doc.indent list)).trimStart
      (dropPlaceholder rule list (doc.placeholder? rule list)).run
        (doc.insertBeside rule list index (rule.wrap clause)).2 = .ok () after := by
  unfold addAtLine at h
  rw [run_bind, run_listRule hrule] at h
  obtain ⟨_, mid, hcheck, h⟩ := run_bind_eq_ok h
  rw [run_checkKind_eq_ok hcheck, run_get_bind, hinline] at h
  dsimp only at h
  rw [if_pos rfl] at h
  obtain ⟨_, mid, hclause, h⟩ := run_bind_eq_ok h
  rcases run_placeClause doc rule list line fragment with ⟨-, index, hrun⟩ | ⟨-, hrun⟩
  · refine ⟨index, ?_⟩
    dsimp only at hrun ⊢
    generalize doc.insertBeside rule list index _ = beside at hrun ⊢
    rw [hclause] at hrun
    cases hrun
    obtain ⟨_, _, hdrop, h⟩ := run_bind_eq_ok h
    cases h
    exact hdrop
  · rw [hclause] at hrun
    cases hrun

end

end Edit

theorem Document.gains_comment {doc after fragment : Document} {list : Branch} {rule : ListRule}
    {index : Nat} (h : doc.Linked) (hlist : doc.Has list) (hf : fragment.IsTree)
    (hkind : fragment.rootKind = .comment)
    (hdrop : (dropPlaceholder rule list (doc.placeholder? rule list)).run
      (doc.insertBeside rule list index (rule.wrap fragment)).2 = .ok () after) :
    doc.Grows after ∧
      ∃ c, ¬ doc.Has (.branch c) ∧ .branch c ∈ after.children list ∧ after.kindOf c = .comment := by
  rw [wrap_of_comment hkind] at hdrop
  -- the placeholder is an old element
  have hdetach : ∀ added, ¬ doc.Has (.branch added) → ∀ mid : Document,
      ∀ element ∈ doc.placeholder? rule list, ∀ d, Gained mid list added d →
        Gained mid list added (d.detachElement rule list element) := by
    intro added hnew mid element helement d hd
    refine hd.detachElement ?_ rule
    rintro rfl
    exact hnew (h.has_child (mem_listElements.1 (mem_of_placeholder? helement)).1)
  have hmid : doc.Grows (doc.insertBeside rule list index fragment).2 :=
    evolves_insertBeside h hlist hf (fun _ _ _ => trivial) trivial rule index
  have hmem := mem_insertBeside h hlist hf rule index
  generalize (doc.insertBeside rule list index fragment).2 = mid at hdrop hmid hmem
  obtain ⟨hroot, hcomment, -⟩ := hmem
  have hnew : ¬ doc.Has (.branch (doc.rehomeBranch fragment.root)) :=
    not_has_rehome doc fragment.root
  have hkeeps := (survives_gained (hmid.has _ hlist) rule (doc.rehomeBranch fragment.root)).dropPlaceholder
    (hdetach (doc.rehomeBranch fragment.root) hnew mid)
  have hafter := hkeeps mid ⟨.refl hmid.linked, hroot⟩
  rw [left_of_ok hdrop] at hafter
  refine ⟨hmid.trans hafter.evolves, _, hnew, hafter.child, ?_⟩
  rw [hafter.evolves.kindOf _ (hmid.linked.has_child hroot), hcomment, hkind]

end Lossless
