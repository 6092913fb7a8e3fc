import Lossless.Builder
import Lossless.Proofs.Bytes
import Lossless.Proofs.Growing

/-! What a builder has covered of its source. The tokens made so far spell a prefix of the source,
and those with an owner stand at the spans that were asked for. -/

namespace Lossless

open List Text

def spelled (tokens : List Token) : List Char :=
  tokens.flatMap (·.text.toList)

/-- Byte spans of those tokens of a row that have an owner. The row starts at byte `start`. -/
def claimed (start : Nat) : List Token → List Span
  | [] => []
  | t :: ts =>
    let stop := start + t.text.utf8ByteSize
    if t.owner.isSome then ⟨start, stop⟩ :: claimed stop ts else claimed stop ts

@[simp] theorem spelled_append (ts us : List Token) : spelled (ts ++ us) = spelled ts ++ spelled us :=
  flatMap_append

theorem claimed_append (start : Nat) (ts us : List Token) :
    claimed start (ts ++ us) =
      claimed start ts ++ claimed (start + bytes (spelled ts)) us := by
  induction ts generalizing start with
  | nil => simp [claimed, spelled]
  | cons t ts ih =>
    have hs : start + bytes (spelled (t :: ts)) =
        start + t.text.utf8ByteSize + bytes (spelled ts) := by
      simp only [spelled, flatMap_cons, bytes_append, bytes_toList]
      omega
    simp only [cons_append, claimed, ih, hs]
    split <;> rfl

def hiddenTokens (pieces : List (List Char)) : List Token :=
  pieces.map fun piece => { text := String.ofList piece }

theorem spelled_hiddenTokens (pieces : List (List Char)) :
    spelled (hiddenTokens pieces) = pieces.flatten := by
  induction pieces with
  | nil => rfl
  | cons p ps ih =>
    simp only [hiddenTokens, spelled, map_cons, flatMap_cons, String.toList_ofList,
      flatten_cons] at ih ⊢
    rw [ih]

theorem claimed_hiddenTokens (start : Nat) (pieces : List (List Char)) :
    claimed start (hiddenTokens pieces) = [] := by
  induction pieces generalizing start with
  | nil => rfl
  | cons p ps ih => exact ih _

namespace Builder

/-- The tokens made so far are the order, spell the source up to `covered`, and those with an
owner stand at the given spans. -/
structure Covers (b : Builder) (spans : List Span) : Prop where
  keys : b.order = (List.range b.tokens.size).map Leaf.mk
  prefix_eq : ∃ rest, b.chars = spelled b.tokens.toList ++ rest
  size_eq : Text.bytes (spelled b.tokens.toList) = b.covered
  spans_eq : claimed 0 b.tokens.toList = spans

theorem fill_eq (b : Builder) (stop : Nat) :
    b.fill stop =
      let pieces := piecesBetween b.chars ⟨b.covered, stop⟩
      { b with
        tokens := b.tokens ++ (hiddenTokens pieces).toArray
        order := b.order ++ (List.range' b.tokens.size pieces.length).map Leaf.mk
        covered := stop } := by
  have key : ∀ (pieces : List (List Char)) (c : Builder),
      pieces.foldl (fun b piece =>
        let added := b.toForest.addToken { text := String.ofList piece }
        { b with toForest := added.2, order := b.order ++ [added.1] }) c =
      { c with
        tokens := c.tokens ++ (hiddenTokens pieces).toArray
        order := c.order ++ (List.range' c.tokens.size pieces.length).map Leaf.mk } := by
    intro pieces
    induction pieces with
    | nil => intro c; simp [hiddenTokens]
    | cons p ps ih =>
      intro c
      rw [foldl_cons, ih]
      simp [Forest.addToken, hiddenTokens, range'_succ]
  exact key _ _

theorem Covers.fill {b : Builder} {spans : List Span} (h : b.Covers spans) {stop : Nat}
    (hle : b.covered ≤ stop) (hb : isBoundary b.chars stop) :
    (b.fill stop).Covers spans := by
  obtain ⟨rest, hrest⟩ := h.prefix_eq
  obtain ⟨pre, post, hsplit, rfl⟩ := isBoundary_iff.1 hb
  rw [← h.size_eq] at hle
  obtain ⟨gap, rfl, rfl⟩ := append_of_bytes_le (hrest.symm.trans hsplit) hle
  have hspan : (⟨b.covered, bytes (spelled b.tokens.toList ++ gap)⟩ : Span) =
      ⟨bytes (spelled b.tokens.toList),
        bytes (spelled b.tokens.toList) + bytes gap⟩ := by
    rw [h.size_eq, bytes_append, h.size_eq]
  have hpieces : (piecesBetween b.chars
      ⟨b.covered, bytes (spelled b.tokens.toList ++ gap)⟩).flatten = gap := by
    rw [piecesBetween, flatten_gapPieces, hspan, hrest, slice_append]
  rw [fill_eq]
  refine ⟨?_, ⟨post, ?_⟩, ?_, ?_⟩
  · simp only [Array.size_append, size_toArray, hiddenTokens, length_map, h.keys]
    rw [← map_append, range_eq_range', range_eq_range', ← range'_append_1,
      Nat.zero_add]
  · simp only [Array.toList_append, spelled_append, spelled_hiddenTokens, hpieces]
    exact hsplit
  · simp only [Array.toList_append, spelled_append, spelled_hiddenTokens, hpieces]
  · simp only [Array.toList_append, claimed_append, claimed_hiddenTokens, append_nil,
      h.spans_eq]

theorem modify_push {α : Type} (xs : Array α) (x : α) (change : α → α) :
    (xs.push x).modify xs.size change = xs.push (change x) := by
  apply Array.ext_getElem?
  intro i
  simp only [Array.getElem?_modify, Array.getElem?_push]
  by_cases h : i = xs.size
  · simp [h]
  · simp [h, Ne.symm h]

theorem tokens_pushChild_addToken (f : Forest) (text : String) (owner : Branch) :
    ((f.addToken { text }).2.pushChild owner (.leaf (f.addToken { text }).1)).tokens =
      f.tokens.push { text, owner := some owner } :=
  modify_push f.tokens { text } ({ · with owner := some owner })

theorem place_tokens (b : Builder) (owner : Branch) (span : Span) :
    (b.place owner span).tokens = (b.fill span.start).tokens.push
      { text := String.ofList (slice b.chars span), owner := some owner } := by
  have hc : (b.fill span.start).chars = b.chars := by rw [fill_eq]; rfl
  simp only [place, hc]
  exact tokens_pushChild_addToken ..

theorem Covers.place {b : Builder} {spans : List Span} (h : b.Covers spans) (owner : Branch)
    {span : Span} (hle : b.covered ≤ span.start) (hs : isCharSpan b.chars span) :
    (b.place owner span).Covers (spans ++ [span]) := by
  obtain ⟨pre, mid, post, hchars, rfl⟩ := isCharSpan_iff.1 hs
  have hb : isBoundary b.chars (bytes pre) :=
    isBoundary_iff.2 ⟨pre, mid ++ post, hchars, rfl⟩
  have hf := h.fill hle hb
  have hfc : (b.fill (bytes pre)).chars = b.chars := by rw [fill_eq]; rfl
  have hfcov : (b.fill (bytes pre)).covered = bytes pre := by rw [fill_eq]
  -- what is spelled after the gap is all that stands before the span
  have hpre : spelled (b.fill (bytes pre)).tokens.toList = pre := by
    obtain ⟨rest, hrest⟩ := hf.prefix_eq
    have hsize := hf.size_eq
    rw [hfcov] at hsize
    rw [hfc, hchars] at hrest
    exact prefix_eq_of_bytes_eq hrest.symm hsize
  have htok := place_tokens b owner ⟨bytes pre, bytes pre + bytes mid⟩
  rw [hchars, slice_append] at htok
  have hspell : spelled (b.place owner ⟨bytes pre, bytes pre + bytes mid⟩).tokens.toList
      = pre ++ mid := by
    rw [htok, Array.toList_push, spelled_append, hpre]
    simp [spelled]
  refine ⟨?_, ⟨post, ?_⟩, ?_, ?_⟩
  · rw [htok, Array.size_push, range_succ, map_append, ← hf.keys]
    rfl
  · rw [hspell, append_assoc]
    exact hfc.trans hchars
  · rw [hspell, bytes_append]
    rfl
  · rw [htok, Array.toList_push, claimed_append, hf.spans_eq, hpre]
    simp [claimed]

end Builder

end Lossless
