import Lossless.Converter
import Lossless.Grammar.Python
import Lossless.Proofs.Calls

/-! Documents from parse trees. A tree is refused exactly for a span that is no span of characters,
no text is lost, and spans that are nested from left to right always convert. -/

namespace Lossless

open List Text Builder

namespace ParseTree

inductive Within (node : ParseTree) : ParseTree → Prop
  | self : Within node node
  | child {c t : ParseTree} : c ∈ t.children → Within node c → Within node t

/-- Children lie inside their parents, one behind the other. -/
inductive Nested : ParseTree → Prop
  | intro {t : ParseTree} : (∀ c ∈ t.children, t.start ≤ c.start ∧ c.stop ≤ t.stop) →
      t.children.Pairwise (·.stop ≤ ·.start) → (∀ c ∈ t.children, Nested c) → Nested t

def Misplaced (source : String) (t : ParseTree) : Prop :=
  t.stop < t.start ∨ source.utf8ByteSize < t.stop ∨
    Text.isBoundary source.toList t.start = false ∨ Text.isBoundary source.toList t.stop = false

instance (source : String) (t : ParseTree) : Decidable (t.Misplaced source) :=
  inferInstanceAs (Decidable (_ ∨ _))

theorem isCharSpan_iff_not_misplaced {source : String} {t : ParseTree} :
    isCharSpan source.toList t.span = true ↔ ¬ t.Misplaced source := by
  unfold isCharSpan Misplaced span
  simp only [Bool.and_eq_true, decide_eq_true_eq, not_or, Bool.not_eq_false, Nat.not_lt,
    bytes_toList, and_assoc]

mutual

theorem badNode?_eq_none_iff (cs : List Char) : ∀ t : ParseTree, badNode? cs t = none ↔
    ∀ node : ParseTree, node.Within t → isCharSpan cs node.span
  | ⟨typeName, field, start, stop, children⟩ => by
    have ih := badNodeIn?_eq_none_iff cs children
    rw [badNode?]
    constructor
    · intro h node hnode
      split at h
      · next hspan =>
        cases hnode with
        | self => exact hspan
        | child hc hnode => exact ih.1 h _ hc node hnode
      · cases h
    · intro h
      have hspan : isCharSpan cs ⟨start, stop⟩ := h _ .self
      rw [if_pos hspan]
      exact ih.2 fun c hc node hnode => h node (.child hc hnode)

theorem badNodeIn?_eq_none_iff (cs : List Char) : ∀ ts : List ParseTree, badNodeIn? cs ts = none ↔
    ∀ t ∈ ts, ∀ node : ParseTree, node.Within t → isCharSpan cs node.span
  | [] => by simp [badNodeIn?]
  | t :: ts => by
    rw [badNodeIn?, Option.or_eq_none_iff, badNode?_eq_none_iff cs t, badNodeIn?_eq_none_iff cs ts,
      forall_mem_cons]

end

end ParseTree

namespace Builder

variable {b c d : Builder} {span : Span} {stop stop' : Nat} {kind : Kind}

/-! ### Names up to a place -/

/-- The builder is as it was but for names up to `stop`. -/
structure Steady (b c : Builder) (stop : Nat) : Prop where
  source : c.source = b.source
  opened : c.opened = b.opened
  root : c.root = b.root
  trouble : c.trouble = b.trouble
  cursor : c.cursor ≤ stop

namespace Steady

theorem refl (h : b.cursor ≤ stop) : Steady b b stop :=
  ⟨rfl, rfl, rfl, rfl, h⟩

section

variable (h : Steady b c stop)
include h

theorem trans (h' : Steady c d stop') : Steady b d stop' :=
  ⟨h'.source.trans h.source, h'.opened.trans h.opened, h'.root.trans h.root,
    h'.trouble.trans h.trouble, h'.cursor⟩

theorem chars : c.chars = b.chars :=
  congrArg String.toList h.source

theorem place (owner : Branch) (span : Span) : Steady b (c.place owner span) stop := by
  refine h.trans ⟨place_source .., place_opened .., place_root .., place_trouble .., ?_⟩
  have hcursor : (c.place owner span).cursor = c.cursor := by
    unfold Builder.place
    rw [fill_eq]
  rw [hcursor]
  exact h.cursor

theorem places (owner : Branch) (spans : List Span) :
    Steady b (spans.foldl (·.place owner ·) c) stop := by
  induction spans generalizing c with
  | nil => exact h
  | cons span spans ih => exact ih (h.place owner span)

theorem placeUnless (p : Prop) [Decidable p] (owner : Branch) (span : Span) :
    Steady b (if p then c else c.place owner span) stop := by
  split
  · exact h
  · exact h.place owner span

theorem withForest (forest : Forest) : Steady b { c with toForest := forest } stop :=
  ⟨h.source, h.opened, h.root, h.trouble, h.cursor⟩

theorem withCursor (place : Nat) : Steady b { c with cursor := place } place :=
  ⟨h.source, h.opened, h.root, h.trouble, Nat.le_refl _⟩

end

theorem tokenAt (hopen : b.opened ≠ []) (hfits : b.fits span) :
    Steady b (b.tokenAt span) span.stop := by
  obtain ⟨owner, rest, hopen⟩ := exists_cons_of_ne_nil hopen
  rw [tokenAt_of_fits hopen hfits]
  exact ((refl (Nat.le_refl _)).place owner span).withCursor _

theorem tokensAt {spans : List Span} (hopen : b.opened ≠ [])
    (h : InOrder b.chars b.cursor spans stop) :
    Steady b (spans.foldl (·.tokenAt ·) b) stop := by
  induction spans generalizing b with
  | nil => exact refl h
  | cons span spans ih =>
    have hspan : (b.fits span) := fits_iff.2 ⟨h.2.1, h.1⟩
    have hfirst := tokenAt hopen hspan
    refine hfirst.trans (ih (hfirst.opened ▸ hopen) ?_)
    rw [hfirst.chars]
    exact h.2.2.mono_left hfirst.cursor

theorem inkedAt (hopen : b.opened ≠ []) (hfits : b.fits span) :
    Steady b ((inkedIn b.chars span).foldl (·.tokenAt ·) b) span.stop := by
  obtain ⟨hspan, hle⟩ := fits_iff.1 hfits
  exact tokensAt hopen ((inOrder_inkedIn hspan).mono_left hle)

theorem commentAt (hfits : b.fits span) : Steady b (b.commentAt span) span.stop := by
  unfold Builder.commentAt
  rw [if_pos hfits]
  dsimp only
  have hstart := (refl (Nat.le_refl b.cursor)).withForest
    (b.toForest.addContainer { kind := .comment }).2
  exact ((((hstart.placeUnless _ _ _).withForest _).places _ _).placeUnless _ _ _).withCursor _

theorem faultAt (h : b.cursor ≤ stop) (offset : Nat) : Steady b (b.faultAt offset) stop :=
  ⟨rfl, rfl, rfl, rfl, h⟩

theorem node {content : Builder → Builder} (hopen : b.opened ≠ [])
    (h : Steady (b.openNode kind) (content (b.openNode kind)) stop) :
    Steady b (b.node kind content) stop := by
  obtain ⟨owner, rest, hopen⟩ := exists_cons_of_ne_nil hopen
  have hcontent := h.opened
  unfold Builder.node closeNode
  rw [openNode_opened] at hcontent
  rw [hcontent]
  rw [openNode_cons hopen] at h ⊢
  exact ⟨h.source, rfl, h.root, h.trouble, h.cursor⟩

end Steady

theorem openNode_source (b : Builder) (kind : Kind) : (b.openNode kind).source = b.source :=
  (Follows.openNode b kind).source

theorem openNode_cursor (b : Builder) (kind : Kind) : (b.openNode kind).cursor = b.cursor := by
  unfold openNode
  dsimp only
  split <;> rfl

theorem openNode_opened_ne_nil (b : Builder) (kind : Kind) : (b.openNode kind).opened ≠ [] := by
  rw [openNode_opened]
  exact cons_ne_nil _ _

theorem fits_openNode (h : b.fits span) (kind : Kind) :
    (b.openNode kind).fits span := by
  rw [fits_iff, chars, openNode_source, openNode_cursor]
  exact fits_iff.1 h

theorem Steady.textNodeAt (hopen : b.opened ≠ []) (hfits : b.fits span) :
    Steady b (b.textNodeAt kind span) span.stop := by
  unfold Builder.textNodeAt
  rw [if_pos hfits]
  exact node hopen (inkedAt (openNode_opened_ne_nil _ _) (fits_openNode hfits kind))

/-! ### Visits as calls -/

theorem run_append (b : Builder) (calls calls' : List Call) :
    b.run (calls ++ calls') = (b.run calls).run calls' :=
  foldl_append ..

def Called (b c : Builder) : Prop :=
  ∃ calls, c = b.run calls

namespace Called

theorem refl (b : Builder) : Called b b :=
  ⟨[], rfl⟩

theorem trans (h : Called b c) (h' : Called c d) : Called b d := by
  obtain ⟨calls, rfl⟩ := h
  obtain ⟨calls', rfl⟩ := h'
  exact ⟨calls ++ calls', (run_append ..).symm⟩

theorem call (b : Builder) (c : Call) : Called b (b.call c) :=
  ⟨[c], rfl⟩

theorem tokensAt (b : Builder) (spans : List Span) : Called b (spans.foldl (·.tokenAt ·) b) :=
  ⟨spans.map .tokenAt, by rw [run, foldl_map]; rfl⟩

theorem node {content : Builder → Builder} (b : Builder) (kind : Kind)
    (h : Called (b.openNode kind) (content (b.openNode kind))) : Called b (b.node kind content) :=
  ((call b (.openNode kind)).trans h).trans (call _ .closeNode)

end Called

theorem text_of_called {grammar : Grammar} {source : String} {doc : Document}
    (h : Called { grammar, source } b) (hdoc : b.finish = .ok doc) : doc.text = source := by
  obtain ⟨calls, rfl⟩ := h
  have hsource := (Follows.run { grammar, source } calls).source
  obtain ⟨-, hcovers, hspelled⟩ := ((sound_start grammar source).run (finish_eq hdoc).1).fillRest
  obtain ⟨-, root, -, rfl⟩ := finish_eq hdoc
  rw [← String.toList_inj, Document.text_of_keys hcovers.keys]
  exact hspelled.trans (congrArg String.toList hsource)

theorem finish_ne_conversion (b : Builder) (fault : ConversionFault) :
    b.finish ≠ .error (.conversion fault) := by
  intro h
  unfold finish at h
  split at h <;> cases h

end Builder

namespace Converter

variable {b : Builder} {tree : ParseTree}

theorem steady_wrapped {content : Builder → Builder} {stop : Nat} {wrapper : Option Kind}
    (hopen : b.opened ≠ [])
    (h : ∀ b' : Builder, b'.opened ≠ [] → b'.source = b.source → b'.cursor = b.cursor →
      Steady b' (content b') stop) : Steady b (wrapped b wrapper content) stop := by
  unfold wrapped
  split
  · exact h b hopen rfl rfl
  · next kind =>
    exact .node hopen (h _ (openNode_opened_ne_nil _ _) (openNode_source ..)
      (openNode_cursor ..))

theorem called_wrapped {content : Builder → Builder} (wrapper : Option Kind)
    (h : ∀ b' : Builder, Called b' (content b')) : Called b (wrapped b wrapper content) := by
  unfold wrapped
  split
  · exact h b
  · exact .node b _ (h _)

mutual

/-- A visit behind everything named so far names what is in its span. -/
theorem steady_visit (b : Builder) (parent : Kind) : ∀ t : ParseTree, b.opened ≠ [] →
    b.cursor ≤ t.start → t.Nested →
    (∀ node : ParseTree, node.Within t → isCharSpan b.chars node.span) →
    Steady b (visit b parent t) t.stop
  | ⟨typeName, field, start, stop, children⟩ => by
    intro hopen hle hnested hspans
    cases hnested with | intro hinside hrow hnested =>
    have hspan : isCharSpan b.chars ⟨start, stop⟩ := hspans _ .self
    have hfits : b.fits ⟨start, stop⟩ := fits_iff.2 ⟨hspan, hle⟩
    have hforward : start ≤ stop := (inOrder_inkedIn hspan).le
    -- children are visited the same way by every builder that stands where this one stands
    have hchildren : ∀ (b' : Builder) (kind : Kind), b'.opened ≠ [] → b'.source = b.source →
        b'.cursor = b.cursor → Steady b' (visitAll b' kind children) stop := by
      intro b' kind hopen' hsource hcursor
      refine steady_visitAll b' kind children stop hopen' ?_ ?_ ?_ hrow hnested ?_
      · rw [hcursor]
        exact Nat.le_trans hle hforward
      · rw [hcursor]
        exact fun c hc => Nat.le_trans hle (hinside c hc).1
      · exact fun c hc => (hinside c hc).2
      · intro c hc node hnode
        rw [chars, hsource]
        exact hspans node (.child hc hnode)
    unfold visit
    dsimp only
    split
    · exact .faultAt (Nat.le_trans hle hforward) _
    split
    · exact .commentAt hfits
    split
    · exact .inkedAt hopen hfits
    split
    · refine steady_wrapped hopen fun b' hopen' hsource hcursor => .textNodeAt hopen' ?_
      rw [fits_iff, chars, hsource, hcursor]
      exact ⟨hspan, hle⟩
    · refine steady_wrapped hopen fun b' hopen' hsource hcursor => .node hopen' ?_
      exact hchildren _ _ (openNode_opened_ne_nil _ _)
        ((openNode_source ..).trans hsource) ((openNode_cursor ..).trans hcursor)
    · exact .inkedAt hopen hfits
    · exact hchildren b parent hopen rfl rfl

theorem steady_visitAll (b : Builder) (parent : Kind) : ∀ (ts : List ParseTree) (stop : Nat),
    b.opened ≠ [] → b.cursor ≤ stop → (∀ t ∈ ts, b.cursor ≤ t.start) → (∀ t ∈ ts, t.stop ≤ stop) →
    ts.Pairwise (·.stop ≤ ·.start) → (∀ t ∈ ts, t.Nested) →
    (∀ t ∈ ts, ∀ node : ParseTree, node.Within t → isCharSpan b.chars node.span) →
    Steady b (visitAll b parent ts) stop
  | [], stop => by
    intro _ hstop _ _ _ _ _
    unfold visitAll
    exact .refl hstop
  | t :: ts, stop => by
    intro hopen _ hahead hinside hrow hnested hspans
    obtain ⟨hfirst, hrow⟩ := pairwise_cons.1 hrow
    obtain ⟨htle, hinside⟩ := forall_mem_cons.1 hinside
    obtain ⟨htspans, hspans⟩ := forall_mem_cons.1 hspans
    have hvisit := steady_visit b parent t hopen (hahead t (by simp)) (hnested t (by simp)) htspans
    have hcursor := hvisit.cursor
    unfold visitAll
    refine hvisit.trans (steady_visitAll _ parent ts stop (hvisit.opened ▸ hopen) ?_ ?_ hinside hrow
      (fun u hu => hnested u (by simp [hu])) ?_)
    · exact Nat.le_trans hcursor htle
    · exact fun u hu => Nat.le_trans hcursor (hfirst u hu)
    · rw [hvisit.chars]
      exact hspans

end

mutual

theorem called_visit (b : Builder) (parent : Kind) : ∀ t : ParseTree, Called b (visit b parent t)
  | ⟨typeName, field, start, stop, children⟩ => by
    have hchildren : ∀ (b' : Builder) (kind : Kind), Called b' (visitAll b' kind children) :=
      fun b' kind => called_visitAll b' kind children
    unfold visit
    dsimp only
    split
    · exact .call b (.faultAt start)
    split
    · exact .call b (.commentAt ⟨start, stop⟩)
    split
    · exact .tokensAt b _
    split
    · exact called_wrapped _ fun b' => .call b' (.textNodeAt _ ⟨start, stop⟩)
    · exact called_wrapped _ fun b' => .node b' _ (hchildren _ _)
    · exact .tokensAt b _
    · exact hchildren b parent

theorem called_visitAll (b : Builder) (parent : Kind) : ∀ ts : List ParseTree,
    Called b (visitAll b parent ts)
  | [] => by
    unfold visitAll
    exact .refl b
  | t :: ts => by
    unfold visitAll
    exact (called_visit b parent t).trans (called_visitAll _ parent ts)

end

/-! ### Whole trees -/

def builderOf (grammar : Grammar) (source : String) (tree : ParseTree) : Builder :=
  let kind := (grammar.kindFor? tree.typeName).getD .program
  Builder.node { grammar, source } kind fun b => visitAll b kind tree.children

theorem convert_eq (grammar : Grammar) (source : String) (tree : ParseTree) :
    convert { grammar } source tree =
      match tree.badNode? source.toList with
      | some bad => .error (.conversion (.badSpan bad.typeName bad.span source.utf8ByteSize))
      | none => (builderOf grammar source tree).finish := by
  unfold convert
  cases tree.badNode? source.toList with
  | some bad => rfl
  | none =>
    show ((builderOf grammar source tree).finish >>= fun doc => pure doc) = _
    exact bind_pure _

theorem called_builderOf (grammar : Grammar) (source : String) (tree : ParseTree) :
    Called { grammar, source } (builderOf grammar source tree) := by
  unfold builderOf
  exact .node _ _ (called_visitAll ..)

/-- Spans that are nested leave nothing open and nothing amiss. -/
theorem exists_finish_builderOf {grammar : Grammar} {source : String} (hnested : tree.Nested)
    (hspans : ∀ node : ParseTree, node.Within tree → ¬ node.Misplaced source) :
    ∃ doc, (builderOf grammar source tree).finish = .ok doc := by
  cases hnested with | intro hinside hrow hnested =>
  let kind := (grammar.kindFor? tree.typeName).getD .program
  let start : Builder := { grammar, source }
  have hsteady : Steady (start.openNode kind)
      (visitAll (start.openNode kind) kind tree.children) tree.stop := by
    refine steady_visitAll _ _ _ _ (openNode_opened_ne_nil _ _) (Nat.zero_le _)
      (fun _ _ => Nat.zero_le _) (fun c hc => (hinside c hc).2) hrow hnested ?_
    intro c hc node hnode
    exact ParseTree.isCharSpan_iff_not_misplaced.2 (hspans node (.child hc hnode))
  have hopened := hsteady.opened
  have hroot := hsteady.root
  have htrouble := hsteady.trouble
  have hfinish : ∀ d : Builder, d.opened = [] → d.trouble = none →
      d.root = some ⟨0⟩ → ∃ doc, d.finish = .ok doc := by
    intro d hd₁ hd₂ hd₃
    unfold finish
    rw [hd₁, hd₂, hd₃]
    exact ⟨_, rfl⟩
  refine hfinish (visitAll (start.openNode kind) kind tree.children).closeNode ?_ ?_ ?_ <;>
    unfold closeNode <;> rw [hopened]
  · rfl
  · exact htrouble
  · exact hroot

/-- A conversion refuses exactly the trees with a span that is no span of characters. It spells its
source when it succeeds, and it succeeds when spans are nested from left to right. -/
theorem convert_total (grammar : Grammar) (source : String) (tree : ParseTree) :
    ((∃ fault, convert { grammar } source tree = .error (.conversion fault)) ↔
      ∃ node : ParseTree, node.Within tree ∧ node.Misplaced source) ∧
    (∀ doc, convert { grammar } source tree = .ok doc → doc.text = source) ∧
    (tree.Nested → (∀ node : ParseTree, node.Within tree → ¬ node.Misplaced source) →
      ∃ doc, convert { grammar } source tree = .ok doc) := by
  have hbad := ParseTree.badNode?_eq_none_iff source.toList tree
  simp only [ParseTree.isCharSpan_iff_not_misplaced] at hbad
  rw [convert_eq]
  cases h : tree.badNode? source.toList with
  | some bad =>
    have hsome : ∃ node : ParseTree, node.Within tree ∧ node.Misplaced source := by
      by_contra hnone
      have := hbad.2 fun node hnode hmis => hnone ⟨node, hnode, hmis⟩
      rw [h] at this
      cases this
    refine ⟨⟨fun _ => hsome, fun _ => ⟨_, rfl⟩⟩, ?_, ?_⟩
    · intro doc hdoc
      cases hdoc
    · intro _ hall
      obtain ⟨node, hnode, hmis⟩ := hsome
      exact absurd hmis (hall node hnode)
  | none =>
    have hall := hbad.1 h
    refine ⟨⟨?_, ?_⟩, fun doc hdoc => ?_, fun hnested _ => exists_finish_builderOf hnested hall⟩
    · rintro ⟨fault, hfault⟩
      exact absurd hfault (Builder.finish_ne_conversion _ fault)
    · rintro ⟨node, hnode, hmis⟩
      exact absurd hmis (hall node hnode)
    · exact Builder.text_of_called (called_builderOf grammar source tree) hdoc

/-- A call with parts that are no node, a comment and text that the parser gave up on; then the same
call with a span that cuts its first letter. -/
theorem convert_total_call :
    let leaf (typeName : String) (start stop : Nat) : ParseTree :=
      ⟨typeName, none, start, stop, []⟩
    let tree (start : Nat) : ParseTree := ⟨"module", none, 0, 17, [
      ⟨"call", none, start, 8, [leaf "identifier" start 3,
        ⟨"parts", none, 3, 8, [leaf "(" 3 4, leaf "ERROR" 4 7, leaf ")" 7 8]⟩]⟩,
      leaf "comment" 9 14]⟩
    (∃ doc, convert { grammar := .python } "éa(1 +) # two\nnb" (tree 0) = .ok doc ∧
      doc.text = "éa(1 +) # two\nnb") ∧
    ∃ fault, convert { grammar := .python } "éa(1 +) # two\nnb" (tree 1) =
      .error (.conversion fault) := by
  intro leaf tree
  have hleaf : ∀ typeName start stop, (leaf typeName start stop).Nested := by
    intro typeName start stop
    exact .intro (by simp [leaf]) (by simp [leaf]) (by simp [leaf])
  have hnested : (tree 0).Nested := by
    refine .intro (by decide) (by decide) (forall_mem_cons.2 ⟨?_, by simp [hleaf]⟩)
    refine .intro (by decide) (by decide) (forall_mem_cons.2 ⟨hleaf .., ?_⟩)
    exact forall_mem_singleton.2 (.intro (by decide) (by decide) (by simp [hleaf]))
  have hspans : ∀ node : ParseTree, node.Within (tree 0) → ¬ node.Misplaced "éa(1 +) # two\nnb" :=
    fun node hnode => ParseTree.isCharSpan_iff_not_misplaced.1
      ((ParseTree.badNode?_eq_none_iff _ _).1 (by decide +kernel) node hnode)
  obtain ⟨-, htext, hok⟩ := convert_total .python "éa(1 +) # two\nnb" (tree 0)
  obtain ⟨doc, hdoc⟩ := hok hnested hspans
  refine ⟨⟨doc, hdoc, htext doc hdoc⟩, (convert_total .python "éa(1 +) # two\nnb" (tree 1)).1.2 ?_⟩
  exact ⟨leaf "identifier" 1 3, .child (.head _) (.child (.head _) .self), by decide⟩

end Converter

end Lossless
