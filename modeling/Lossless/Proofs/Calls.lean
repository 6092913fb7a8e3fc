import Lossless.Grammar.JavaScript
import Lossless.Proofs.Building
import Lossless.Proofs.Ordered

/-! Building a document call by call. Whatever the calls are, a document that comes out spells the
source, holds a token at every span that was asked for, and is an ordered tree. -/

namespace Lossless

open List Layout Forest Text

namespace Builder

variable {b : Builder} {span : Span} {spans : List Span} {text : String}


inductive Call where
  | openNode (kind : Kind)
  | closeNode
  | token (text : String)
  | tokens (texts : List String)
  | tokenAt (span : Span)
  | comment (text : String)
  | commentAt (span : Span)
  | textNodeAt (kind : Kind) (span : Span)
  | faultAt (offset : Nat)
deriving DecidableEq, Repr

def call (b : Builder) : Call → Builder
  | .openNode kind => b.openNode kind
  | .closeNode => b.closeNode
  | .token text => b.token text
  | .tokens texts => texts.foldl token b
  | .tokenAt span => b.tokenAt span
  | .comment text => b.comment text
  | .commentAt span => b.commentAt span
  | .textNodeAt kind span => b.textNodeAt kind span
  | .faultAt offset => b.faultAt offset

def locateAll (b : Builder) : List String → List Span
  | [] => []
  | text :: texts => (b.locate? text).toList ++ (b.token text).locateAll texts

/-- The spans at which a call asks for tokens. -/
def spansOf (b : Builder) : Call → List Span
  | .token text => (b.locate? text).toList
  | .tokens texts => b.locateAll texts
  | .tokenAt span => [span]
  | .comment text => (b.locate? text).toList.flatMap b.commentSpans
  | .commentAt span => b.commentSpans span
  | .textNodeAt _ span => Text.inkedIn b.chars span
  | .openNode _ | .closeNode | .faultAt _ => []

def run (b : Builder) (calls : List Call) : Builder :=
  calls.foldl call b

def asked (b : Builder) : List Call → List Span
  | [] => []
  | c :: calls => b.spansOf c ++ (b.call c).asked calls

/-! Calls read the same source, and trouble stays. -/

theorem places_source (new : List Span) (b : Builder) (owner : Branch) :
    (new.foldl (·.place owner ·) b).source = b.source := by
  induction new generalizing b with
  | nil => rfl
  | cons s ss ih => rw [foldl_cons, ih, place_source]

theorem places_trouble (new : List Span) (b : Builder) (owner : Branch) :
    (new.foldl (·.place owner ·) b).trouble = b.trouble := by
  induction new generalizing b with
  | nil => rfl
  | cons s ss ih => rw [foldl_cons, ih, place_trouble]

structure Follows (b c : Builder) : Prop where
  source : c.source = b.source
  trouble : c.trouble = none → b.trouble = none

namespace Follows

theorem refl (b : Builder) : Follows b b :=
  ⟨rfl, id⟩

theorem trans {b c d : Builder} (h₁ : Follows b c) (h₂ : Follows c d) : Follows b d :=
  ⟨h₂.source.trans h₁.source, fun h => h₁.trouble (h₂.trouble h)⟩

theorem foldl {α : Type} {step : Builder → α → Builder} (h : ∀ b x, Follows b (step b x)) :
    ∀ (xs : List α) (b : Builder), Follows b (xs.foldl step b)
  | [], b => refl b
  | x :: xs, b => (h b x).trans (foldl h xs (step b x))

theorem fail (b : Builder) (trouble : BuildFault) : Follows b (b.fail trouble) :=
  ⟨rfl, fun h => absurd h (fail_trouble _ _)⟩

theorem openNode (b : Builder) (kind : Kind) : Follows b (b.openNode kind) := by
  cases hopen : b.opened <;> cases hroot : b.root <;>
    constructor <;> simp [Builder.openNode, hopen, hroot, Builder.fail]

theorem closeNode (b : Builder) : Follows b b.closeNode := by
  rw [Builder.closeNode]
  split
  · exact fail ..
  · exact ⟨rfl, id⟩

theorem tokenAt (b : Builder) (span : Span) : Follows b (b.tokenAt span) := by
  rw [Builder.tokenAt]
  split
  · exact fail ..
  · next owner _ _ =>
    split
    · exact ⟨place_source b owner span, fun h => (place_trouble b owner span).symm.trans h⟩
    · exact fail ..

theorem commentAt (b : Builder) (span : Span) : Follows b (b.commentAt span) := by
  rw [Builder.commentAt]
  split
  · constructor
    · simp only [apply_ite Builder.source, place_source, places_source, ite_self]
    · simp only [apply_ite Builder.trouble, place_trouble, places_trouble, ite_self]
      exact id
  · exact fail ..

theorem textNodeAt (b : Builder) (kind : Kind) (span : Span) :
    Follows b (b.textNodeAt kind span) := by
  rw [Builder.textNodeAt]
  split
  · exact ((openNode b kind).trans (foldl tokenAt _ _)).trans (closeNode _)
  · exact fail ..

theorem token (b : Builder) (text : String) : Follows b (b.token text) := by
  rw [Builder.token]
  split
  · exact tokenAt ..
  · exact fail ..

theorem comment (b : Builder) (text : String) : Follows b (b.comment text) := by
  rw [Builder.comment]
  split
  · exact commentAt ..
  · exact fail ..

theorem call (b : Builder) (c : Call) : Follows b (b.call c) := by
  cases c with
  | openNode kind => exact openNode b kind
  | closeNode => exact closeNode b
  | token text => exact token b text
  | tokens texts => exact foldl token texts b
  | tokenAt span => exact tokenAt b span
  | comment text => exact comment b text
  | commentAt span => exact commentAt b span
  | textNodeAt kind span => exact textNodeAt b kind span
  | faultAt offset => exact ⟨rfl, id⟩

theorem run (b : Builder) (calls : List Call) : Follows b (b.run calls) :=
  foldl call calls b

end Follows

/-! What one call keeps, and then what a run keeps. -/

theorem Sound.textNodeAt {kind : Kind} (h : b.Sound spans)
    (ht : (b.textNodeAt kind span).trouble = none) :
    (b.textNodeAt kind span).Sound (spans ++ inkedIn b.chars span) := by
  by_cases hfits : b.fits span
  · obtain ⟨hspan, hle⟩ := fits_iff.1 hfits
    rw [Builder.textNodeAt, if_pos hfits] at ht ⊢
    have hopen := ((Follows.foldl Follows.tokenAt _ _).trans (Follows.closeNode _)).trouble ht
    have hchars : (b.openNode kind).chars = b.chars := by
      rw [chars, (Follows.openNode b kind).source, chars]
    have hcursor : (b.openNode kind).cursor = b.cursor := by
      cases hop : b.opened <;> cases hroot : b.root <;>
        simp [Builder.openNode, hop, hroot, fail]
    obtain ⟨htokens, -⟩ := (h.openNode hopen).tokensAt (openNode_opened b kind)
      ((inOrder_inkedIn (hchars ▸ hspan)).mono_left (hcursor ▸ hle))
    refine Sound.closeNode ?_ ht
    rw [hchars] at htokens
    simp only [hchars]
    exact htokens
  · rw [Builder.textNodeAt, if_neg hfits] at ht
    exact absurd ht (fail_trouble _ _)

theorem Sound.token (h : b.Sound spans) (ht : (b.token text).trouble = none) :
    (b.token text).Sound (spans ++ (b.locate? text).toList) := by
  rw [Builder.token] at ht ⊢
  split at ht
  · next s hs =>
    rw [hs]
    exact h.tokenAt ht
  · exact absurd ht (fail_trouble _ _)

theorem Sound.tokens {texts : List String} (h : b.Sound spans)
    (ht : (texts.foldl Builder.token b).trouble = none) :
    (texts.foldl Builder.token b).Sound (spans ++ b.locateAll texts) := by
  induction texts generalizing b spans with
  | nil => exact (append_nil spans).symm ▸ h
  | cons t ts ih =>
    have := ih (h.token ((Follows.foldl Follows.token ts _).trouble ht)) ht
    rwa [append_assoc] at this

theorem Sound.comment (h : b.Sound spans) (ht : (b.comment text).trouble = none) :
    (b.comment text).Sound (spans ++ (b.locate? text).toList.flatMap b.commentSpans) := by
  rw [Builder.comment] at ht ⊢
  split at ht
  · next s hs =>
    rw [hs, Option.toList_some, flatMap_singleton]
    exact h.commentAt ht
  · exact absurd ht (fail_trouble _ _)

theorem Sound.call {c : Call} (h : b.Sound spans) (ht : (b.call c).trouble = none) :
    (b.call c).Sound (spans ++ b.spansOf c) := by
  cases c with
  | openNode kind => exact (append_nil spans).symm ▸ h.openNode ht
  | closeNode => exact (append_nil spans).symm ▸ h.closeNode ht
  | token text => exact h.token ht
  | tokens texts => exact h.tokens ht
  | tokenAt span => exact h.tokenAt ht
  | comment text => exact h.comment ht
  | commentAt span => exact h.commentAt ht
  | textNodeAt kind span => exact h.textNodeAt ht
  | faultAt offset =>
    rw [spansOf, append_nil]
    exact ⟨⟨h.shaped.grown, h.shaped.path, h.shaped.root_has, h.shaped.root_free⟩,
      h.covers.congr rfl rfl rfl rfl, h.ahead⟩

theorem Sound.run {calls : List Call} (h : b.Sound spans) (ht : (b.run calls).trouble = none) :
    (b.run calls).Sound (spans ++ b.asked calls) := by
  induction calls generalizing b spans with
  | nil => exact (append_nil spans).symm ▸ h
  | cons c calls ih =>
    have := ih (h.call ((Follows.run _ calls).trouble ht)) ht
    rwa [append_assoc] at this

end Builder

/-! ### Documents whose tokens stand in the order of the table -/

theorem toList_join (ts : Layout) : ts.join.toList = ts.flatMap String.toList := by
  induction ts with
  | nil => rfl
  | cons t ts ih => rw [join, String.toList_append, ih, flatMap_cons]

theorem offsetAt_map_text (ts : List Token) (i : Nat) :
    offsetAt (ts.map Token.text) i = bytes (spelled (ts.take i)) := by
  rw [offsetAt, ← map_take]
  induction ts.take i with
  | nil => rfl
  | cons t ts ih =>
    simp only [map_cons, size, ih, spelled, flatMap_cons, bytes_append,
      bytes_toList]

/-- The claimed spans by index of the token. -/
theorem claimed_eq (start : Nat) (ts : List Token) :
    claimed start ts = ((range ts.length).filter fun i => (ts[i]?.bind Token.owner).isSome).map
      fun i => ⟨start + bytes (spelled (ts.take i)),
        start + bytes (spelled (ts.take (i + 1)))⟩ := by
  induction ts generalizing start with
  | nil => rfl
  | cons t ts ih =>
    have hstep : ∀ i, start + bytes (spelled ((t :: ts).take (i + 1))) =
        start + t.text.utf8ByteSize + bytes (spelled (ts.take i)) := by
      intro i
      simp only [spelled, take_succ_cons, flatMap_cons, bytes_append,
        bytes_toList]
      omega
    have hnil : start + bytes (spelled ((t :: ts).take 0)) = start := rfl
    have hone : start + bytes (spelled ((t :: ts).take (0 + 1))) =
        start + t.text.utf8ByteSize := hstep 0
    rw [claimed, ih, length_cons, range_succ_eq_map, filter_cons, filter_map,
      getElem?_cons_zero]
    simp only [Function.comp_def, Nat.succ_eq_add_one, getElem?_cons_succ, Option.bind_some]
    split
    · rw [map_cons, map_map, hnil, hone]
      simp only [Function.comp_def, hstep]
    · rw [map_map]
      simp only [Function.comp_def, hstep]

namespace Document

variable {doc : Document} {l : Leaf}

section

variable (hkeys : doc.order = (range doc.tokens.size).map Leaf.mk)
include hkeys

theorem position?_of_keys (hl : doc.Has l) : doc.position? l = some l.index := by
  have hl : l.index < doc.tokens.size := hl
  have hn : doc.order.Nodup := by
    rw [hkeys]
    exact nodup_range.map fun i j h => by cases h; rfl
  refine idxOf?_of_getElem? hn ?_
  rw [hkeys, getElem?_map, getElem?_range hl]
  rfl

theorem layout_of_keys : doc.layout = doc.tokens.toList.map Token.text := by
  refine ext_getElem? fun i => ?_
  rw [layout, hkeys, map_map, getElem?_map, getElem?_map]
  by_cases hi : i < doc.tokens.size
  · rw [getElem?_range hi]
    simp [Forest.textOf, token, hi]
  · rw [getElem?_eq_none (by simpa using hi), getElem?_eq_none (by simpa using hi)]
    rfl

theorem text_of_keys : doc.text.toList = spelled doc.tokens.toList := by
  rw [text, toList_join, layout_of_keys hkeys, flatMap_map]
  rfl

theorem mem_order_of_keys (hl : doc.Has l) : l ∈ doc.order :=
  mem_of_idxOf? (position?_of_keys hkeys hl)

theorem byteRange_of_keys (hl : doc.Has l) :
    doc.byteRange l = ⟨bytes (spelled (doc.tokens.toList.take l.index)),
      bytes (spelled (doc.tokens.toList.take (l.index + 1)))⟩ := by
  have hv : doc.visibleLeaves l = [l] := by
    rw [visibleLeaves_leaf, if_pos (mem_order_of_keys hkeys hl)]
  have hr : doc.range? l = some ⟨l.index, l.index + 1⟩ := by
    have hp := position?_of_keys hkeys hl
    exact range?_eq_some (by rw [firstLeaf?, hv]; rfl) (by rw [lastLeaf?, hv]; rfl) hp hp
  simp only [byteRange, hr, layout_of_keys hkeys, offsetAt_map_text]

theorem byteRanges_of_keys :
    (doc.order.filter fun l => (doc.parent (.leaf l)).isSome).map (fun l => doc.byteRange (.leaf l)) =
      claimed 0 doc.tokens.toList := by
  rw [claimed_eq, hkeys, filter_map, map_map]
  have hfilter : ((range doc.tokens.size).filter
        ((fun l => (doc.parent (.leaf l)).isSome) ∘ Leaf.mk)) =
      (range doc.tokens.toList.length).filter
        fun i => (doc.tokens.toList[i]?.bind Token.owner).isSome := by
    rw [Array.length_toList]
    refine filter_congr fun i hi => ?_
    have hi : i < doc.tokens.size := mem_range.1 hi
    simp [parent, token, hi]
  rw [hfilter]
  refine map_congr_left fun i hi => ?_
  have hi : i < doc.tokens.size := by simpa using (mem_filter.1 hi).1
  rw [Function.comp_apply, byteRange_of_keys hkeys hi, Nat.zero_add, Nat.zero_add]

theorem ordered_of_keys (h : doc.IsTree) (hgrown : doc.Grown) : doc.Ordered := by
  refine (ordered_iff h).2 fun node => ?_
  have hpos : ∀ l ∈ doc.visibleLeaves node, doc.position? l = some l.index :=
    fun l hl => position?_of_keys hkeys (h.order_has l (mem_visibleLeaves.1 hl).2)
  refine sublist_of_before h.order_nodup (fun l hl => (mem_visibleLeaves.1 hl).2) ?_
  have hrising : (doc.leaves node).Pairwise fun l m => l.index < m.index := by
    cases node with
    | leaf l => rw [leaves_leaf]; exact pairwise_singleton ..
    | branch c => exact hgrown.rising c
  exact (hrising.filter _).imp_of_mem fun hl hm hlt => before_of_lt (hpos _ hl) (hpos _ hm) hlt

end

end Document

/-! ### Finished documents -/

namespace Builder

variable {b : Builder} {spans : List Span} {doc : Document} {grammar : Grammar} {source : String}
  {calls : List Call}

theorem finish_eq (h : b.finish = .ok doc) :
    b.trouble = none ∧ ∃ root, b.root = some root ∧
      doc = ({ toForest := (b.fill b.source.utf8ByteSize).toForest, grammar := b.grammar,
               order := (b.fill b.source.utf8ByteSize).order, root, comments := [],
               fault := b.fault } : Document).updateComments := by
  cases ht : b.trouble with
  | some t => simp [finish, ht] at h
  | none =>
    cases ho : b.opened with
    | cons c rest => simp [finish, ht, ho] at h
    | nil =>
      cases hr : b.root with
      | none => simp [finish, ht, ho, hr] at h
      | some root =>
        refine ⟨rfl, root, rfl, ?_⟩
        simp only [finish, ht, ho, hr, Except.ok.injEq] at h
        rw [← h, fill_eq]

/-- The builder after the last stretch of text. -/
theorem Sound.fillRest (h : b.Sound spans) :
    (b.fill b.source.utf8ByteSize).Shaped ∧ (b.fill b.source.utf8ByteSize).Covers spans ∧
      spelled (b.fill b.source.utf8ByteSize).tokens.toList = b.chars := by
  have hsize : bytes b.chars = b.source.utf8ByteSize := bytes_toList _
  obtain ⟨rest, hrest⟩ := h.covers.prefix_eq
  have hle : b.covered ≤ b.source.utf8ByteSize := by
    rw [← h.covers.size_eq, ← hsize, hrest, bytes_append]
    omega
  have hb : isBoundary b.chars b.source.utf8ByteSize := by
    have := isBoundary_append b.chars []
    rwa [append_nil, hsize] at this
  have hcovers := h.covers.fill hle hb
  refine ⟨h.shaped.fill _, hcovers, ?_⟩
  obtain ⟨rest, hrest⟩ := hcovers.prefix_eq
  have hbytes := hcovers.size_eq
  rw [fill_covered] at hbytes
  rw [fill_chars] at hrest
  exact prefix_eq_of_bytes_eq (hrest.symm.trans (append_nil _).symm)
    (hbytes.trans hsize.symm)

theorem Sound.isTree (h : b.Sound spans) (hdoc : b.finish = .ok doc) : doc.IsTree := by
  obtain ⟨-, root, hroot, rfl⟩ := finish_eq hdoc
  obtain ⟨hshaped, hcovers, -⟩ := h.fillRest
  rw [← fill_root b b.source.utf8ByteSize] at hroot
  refine ⟨hshaped.grown.linked, hshaped.root_has root hroot, hshaped.root_free root hroot, ?_, ?_⟩
  · intro l hl
    have hl : l ∈ (b.fill b.source.utf8ByteSize).order := hl
    rw [hcovers.keys] at hl
    obtain ⟨i, hi, rfl⟩ := mem_map.1 hl
    exact mem_range.1 hi
  · show (b.fill b.source.utf8ByteSize).order.Nodup
    rw [hcovers.keys]
    exact nodup_range.map fun i j h => by cases h; rfl

/-- What is built by calls is an ordered tree. -/
theorem isTree_of_run
    (h : (run { grammar, source } calls).finish = .ok doc) : doc.IsTree ∧ doc.Ordered := by
  have hsound := (sound_start grammar source).run (finish_eq h).1
  have htree := hsound.isTree h
  obtain ⟨hshaped, hcovers, -⟩ := hsound.fillRest
  obtain ⟨-, root, -, rfl⟩ := finish_eq h
  exact ⟨htree, Document.ordered_of_keys hcovers.keys htree hshaped.grown⟩

/-- The document that a builder makes, and the plain source where it makes none. -/
def built (b : Builder) : Document :=
  match b.finish with
  | .ok doc => doc
  | .error _ => .ofSource b.grammar .program b.source

theorem mem_order_of_run {l : Leaf}
    (h : (run { grammar, source } calls).finish = .ok doc) (hl : doc.Has l) :
    l ∈ doc.order := by
  obtain ⟨-, hcovers, -⟩ := ((sound_start grammar source).run (finish_eq h).1).fillRest
  obtain ⟨-, root, -, rfl⟩ := finish_eq h
  exact Document.mem_order_of_keys hcovers.keys hl

/-- A document that is built spells its source, holds every token at the span that was asked for,
and its nodes follow the text. -/
theorem finish_run {grammar : Grammar} {source : String} {calls : List Call}
    (h : (run { grammar, source } calls).finish = .ok doc) :
    doc.text = source ∧ (∀ l, doc.Has (.leaf l) → l ∈ doc.order) ∧
      (doc.order.filter fun l => (doc.parent (.leaf l)).isSome).map
        (fun l => doc.byteRange (.leaf l)) = asked { grammar, source } calls ∧
      doc.Ordered := by
  have hordered := (isTree_of_run h).2
  have hmem : ∀ l, doc.Has (.leaf l) → l ∈ doc.order := fun _ => mem_order_of_run h
  obtain ⟨-, hcovers, hspelled⟩ := ((sound_start grammar source).run (finish_eq h).1).fillRest
  obtain ⟨-, root, -, rfl⟩ := finish_eq h
  have hkeys := hcovers.keys
  refine ⟨?_, hmem, ?_, hordered⟩
  · rw [← String.toList_inj, Document.text_of_keys hkeys]
    have hsource := (Follows.run { grammar, source } calls).source
    exact hspelled.trans (by rw [chars, hsource])
  · rw [Document.byteRanges_of_keys hkeys]
    exact hcovers.spans_eq

/-- A comment over two lines between two tokens. -/
theorem finish_run_comment :
    let start : Builder := { grammar := .javaScript, source := "é /* a\n b */ f" }
    let calls : List Call :=
      [.openNode .program, .tokenAt ⟨0, 2⟩, .comment "/* a\n b */", .openNode .call, .token "f",
        .closeNode, .closeNode]
    ∃ doc, (start.run calls).finish = .ok doc ∧ doc.text = "é /* a\n b */ f" ∧
      (doc.order.filter fun l => (doc.parent (.leaf l)).isSome).map
        (fun l => doc.byteRange (.leaf l)) =
          [⟨0, 2⟩, ⟨3, 5⟩, ⟨6, 7⟩, ⟨9, 10⟩, ⟨11, 13⟩, ⟨14, 15⟩] ∧
      doc.Ordered := by
  intro start calls
  cases h : (start.run calls).finish with
  | error e =>
    have hok : (start.run calls).finish.isOk := by decide
    rw [h] at hok
    cases hok
  | ok doc =>
    obtain ⟨htext, -, hspans, hordered⟩ := finish_run h
    exact ⟨doc, rfl, htext, hspans.trans (by decide), hordered⟩

end Builder

end Lossless
