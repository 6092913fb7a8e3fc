import Lossless.Proofs.Covering

/-! What the calls of a builder keep: the forest grows from left to right along the open nodes, and
the tokens stand at the spans that were asked for. -/

namespace Lossless.Builder

open List Text Forest

variable {b : Builder} {owner : Branch} {rest : List Branch} {span : Span} {spans : List Span}

@[simp] theorem fill_source (b : Builder) (stop : Nat) : (b.fill stop).source = b.source := by
  rw [fill_eq]

@[simp] theorem fill_chars (b : Builder) (stop : Nat) : (b.fill stop).chars = b.chars := by
  rw [chars, fill_source, chars]

@[simp] theorem fill_covered (b : Builder) (stop : Nat) : (b.fill stop).covered = stop := by
  rw [fill_eq]

@[simp] theorem fill_opened (b : Builder) (stop : Nat) : (b.fill stop).opened = b.opened := by
  rw [fill_eq]

@[simp] theorem fill_root (b : Builder) (stop : Nat) : (b.fill stop).root = b.root := by
  rw [fill_eq]

@[simp] theorem fill_trouble (b : Builder) (stop : Nat) : (b.fill stop).trouble = b.trouble := by
  rw [fill_eq]

@[simp] theorem place_source (b : Builder) (owner : Branch) (span : Span) :
    (b.place owner span).source = b.source :=
  fill_source b span.start

@[simp] theorem place_chars (b : Builder) (owner : Branch) (span : Span) :
    (b.place owner span).chars = b.chars :=
  fill_chars b span.start

@[simp] theorem place_covered (b : Builder) (owner : Branch) (span : Span) :
    (b.place owner span).covered = span.stop := rfl

@[simp] theorem place_opened (b : Builder) (owner : Branch) (span : Span) :
    (b.place owner span).opened = b.opened :=
  fill_opened b span.start

@[simp] theorem place_root (b : Builder) (owner : Branch) (span : Span) :
    (b.place owner span).root = b.root :=
  fill_root b span.start

@[simp] theorem place_trouble (b : Builder) (owner : Branch) (span : Span) :
    (b.place owner span).trouble = b.trouble :=
  fill_trouble b span.start

/-! ### The shape of what is built -/

/-- The forest has grown from left to right, and the open nodes are its right edge. -/
structure Shaped (b : Builder) : Prop where
  grown : b.Grown
  path : b.OpenPath b.opened
  root_has : ∀ r, b.root = some r → b.Has r
  root_free : ∀ r, b.root = some r → b.parent r = none

theorem children_fill (b : Builder) (stop : Nat) (c : Branch) :
    (b.fill stop).children c = b.children c := by
  rw [fill_eq]; rfl

theorem parent_fill (b : Builder) (stop : Nat) (node : Node) :
    (b.fill stop).parent node = b.parent node := by
  rw [fill_eq]
  cases node with
  | branch c => rfl
  | leaf l =>
    simp only [parent, Forest.token, Array.getD_eq_getD_getElem?, Array.getElem?_append]
    split
    · rfl
    · next h =>
      simp only [getElem?_toArray, hiddenTokens, getElem?_map]
      rw [Array.getElem?_eq_none (Nat.le_of_not_lt h)]
      cases (piecesBetween b.chars ⟨b.covered, stop⟩)[l.index - b.tokens.size]? <;> rfl

theorem has_fill (b : Builder) (stop : Nat) (c : Branch) : (b.fill stop).Has c ↔ b.Has c := by
  rw [fill_eq]; rfl

theorem openPath_fill (h : b.OpenPath rest) (stop : Nat) : (b.fill stop).OpenPath rest :=
  h.of_eq (fun c => (has_fill b stop c).2) (fun _ _ => parent_fill b stop _)
    fun c _ => children_fill b stop c

theorem Shaped.fill (h : b.Shaped) (stop : Nat) : (b.fill stop).Shaped where
  grown := h.grown.of_eq (children_fill b stop) (parent_fill b stop)
  path := by
    rw [fill_opened]
    exact openPath_fill h.path stop
  root_has r hr := (has_fill b stop r).2 (h.root_has r (by rwa [fill_root] at hr))
  root_free r hr := by
    rw [parent_fill]
    exact h.root_free r (by rwa [fill_root] at hr)

theorem place_toForest (b : Builder) (owner : Branch) (span : Span) :
    (b.place owner span).toForest = (b.fill span.start).toForest.growLeaf owner
      (String.ofList (slice (b.fill span.start).chars span)) := rfl

theorem Shaped.place (h : b.Shaped) (hpath : b.OpenPath (owner :: rest))
    (hnot : owner ∉ b.opened.tail) (span : Span) :
    (b.place owner span).Shaped ∧ (b.place owner span).OpenPath (owner :: rest) := by
  have hf := h.fill span.start
  have hpath' := openPath_fill hpath span.start
  obtain ⟨hgrown, hkeep⟩ := hf.grown.growLeaf hpath'
    (String.ofList (slice (b.fill span.start).chars span))
  rw [← place_toForest] at hgrown hkeep
  refine ⟨⟨hgrown, ?_, fun r hr => ?_, fun r hr => ?_⟩, hkeep _ hpath' ?_⟩
  · rw [place_opened]
    exact hkeep _ (openPath_fill h.path span.start) hnot
  · rw [place_root] at hr
    rw [place_toForest]
    exact has_growLeaf _ ((has_fill b span.start r).2 (h.root_has r hr))
  · rw [place_root] at hr
    rw [place_toForest, parent_growLeaf, parent_fill]
    exact h.root_free r hr
  · intro hm
    have := hpath.index_lt h.grown hm
    omega

theorem Shaped.places (h : b.Shaped) (hpath : b.OpenPath (owner :: rest))
    (hnot : owner ∉ b.opened.tail) (spans : List Span) :
    (spans.foldl (·.place owner ·) b).Shaped ∧
      (spans.foldl (·.place owner ·) b).OpenPath (owner :: rest) ∧
      (spans.foldl (·.place owner ·) b).opened = b.opened := by
  induction spans generalizing b with
  | nil => exact ⟨h, hpath, rfl⟩
  | cons s ss ih =>
    obtain ⟨h₁, h₂⟩ := h.place hpath hnot s
    obtain ⟨h₃, h₄, h₅⟩ := ih h₁ h₂ (by rwa [place_opened])
    exact ⟨h₃, h₄, by rw [foldl_cons, h₅, place_opened]⟩

theorem Covers.places {stop : Nat} {new : List Span} (h : b.Covers spans) (owner : Branch)
    (hnew : InOrder b.chars b.covered new stop) :
    (new.foldl (·.place owner ·) b).Covers (spans ++ new) ∧
      (new.foldl (·.place owner ·) b).covered ≤ stop ∧
      (new.foldl (·.place owner ·) b).chars = b.chars := by
  induction new generalizing b spans with
  | nil => exact ⟨by simpa using h, hnew, rfl⟩
  | cons s ss ih =>
    obtain ⟨hle, hs, hss⟩ := hnew
    have := ih (b := b.place owner s) (h.place owner hle hs) (by simpa using hss)
    simpa using this

/-! ### Tokens and nodes -/

theorem Covers.congr {c : Builder} (h : b.Covers spans) (hs : c.source = b.source)
    (ht : c.tokens = b.tokens) (ho : c.order = b.order) (hc : c.covered = b.covered) :
    c.Covers spans := by
  refine ⟨?_, ?_, ?_, ?_⟩
  · rw [ho, ht, h.keys]
  · rw [chars, hs, ht]
    exact h.prefix_eq
  · rw [ht, hc, h.size_eq]
  · rw [ht, h.spans_eq]

/-- What every call keeps, as long as nothing goes wrong. -/
structure Sound (b : Builder) (spans : List Span) : Prop where
  shaped : b.Shaped
  covers : b.Covers spans
  ahead : b.covered ≤ b.cursor

theorem sound_start (grammar : Grammar) (source : String) : Sound { grammar, source } [] := by
  have hg : Grown {} := by
    refine ⟨⟨?_, ?_, ?_, ⟨fun _ => 0, ?_⟩⟩, ?_, ?_⟩
    · intro b node h
      exact absurd (has_of_mem_children h) (Nat.not_lt_zero _)
    · intro node b h
      have := has_of_parent h
      cases node <;> exact absurd this (Nat.not_lt_zero _)
    · intro b
      rw [children, container_of_not_has (Nat.not_lt_zero _)]
      exact nodup_nil
    · intro b c h
      exact absurd (has_of_parent h) (Nat.not_lt_zero _)
    · intro b c h
      exact absurd (has_of_parent h) (Nat.not_lt_zero _)
    · intro b
      exact Pairwise.nil
  refine ⟨⟨hg, trivial, ?_, ?_⟩, ⟨rfl, ⟨_, rfl⟩, rfl, rfl⟩, Nat.le_refl _⟩ <;> rintro _ ⟨⟩

theorem fail_trouble (b : Builder) (trouble : BuildFault) : (b.fail trouble).trouble ≠ none := by
  simp only [fail]
  cases b.trouble <;> simp

theorem fits_iff : b.fits span = true ↔
    isCharSpan b.chars span ∧ b.cursor ≤ span.start := by
  simp [fits]

theorem tokenAt_of_fits (hopen : b.opened = owner :: rest) (hfits : b.fits span) :
    b.tokenAt span = { b.place owner span with cursor := span.stop } := by
  simp [tokenAt, hopen, hfits]

theorem Sound.tokenAt_of_fits (h : b.Sound spans) (hopen : b.opened = owner :: rest)
    (hfits : b.fits span) : (b.tokenAt span).Sound (spans ++ [span]) := by
  obtain ⟨hspan, hle⟩ := fits_iff.1 hfits
  have hpath := h.shaped.path
  rw [hopen] at hpath
  have hnot : owner ∉ b.opened.tail := by
    rw [hopen]
    intro hm
    have := hpath.index_lt h.shaped.grown hm
    omega
  obtain ⟨hshaped, -⟩ := h.shaped.place hpath hnot span
  rw [Builder.tokenAt_of_fits hopen hfits]
  refine ⟨⟨hshaped.grown, hshaped.path, hshaped.root_has, hshaped.root_free⟩, ?_, Nat.le_refl _⟩
  exact (h.covers.place owner (Nat.le_trans h.ahead hle) hspan).congr rfl rfl rfl rfl

theorem Sound.tokenAt (h : b.Sound spans) (ht : (b.tokenAt span).trouble = none) :
    (b.tokenAt span).Sound (spans ++ [span]) := by
  cases hopen : b.opened with
  | nil =>
    simp only [Builder.tokenAt, hopen] at ht
    exact absurd ht (fail_trouble _ _)
  | cons owner rest =>
    by_cases hfits : b.fits span
    · exact h.tokenAt_of_fits hopen hfits
    · simp only [Builder.tokenAt, hopen, if_neg hfits] at ht
      exact absurd ht (fail_trouble _ _)

/-- Tokens at spans in order, all in the innermost open node. -/
theorem Sound.tokensAt {new : List Span} {stop : Nat} (h : b.Sound spans)
    (hopen : b.opened = owner :: rest) (hnew : InOrder b.chars b.cursor new stop) :
    (new.foldl (·.tokenAt ·) b).Sound (spans ++ new) ∧
      (new.foldl (·.tokenAt ·) b).opened = b.opened := by
  induction new generalizing b spans with
  | nil => exact ⟨by simpa using h, rfl⟩
  | cons s ss ih =>
    obtain ⟨hle, hs, hss⟩ := hnew
    have hfits : b.fits s := fits_iff.2 ⟨hs, hle⟩
    have hnext := h.tokenAt_of_fits hopen hfits
    have heq := Builder.tokenAt_of_fits hopen hfits
    have hopen' : (b.tokenAt s).opened = b.opened := by rw [heq]; exact place_opened b owner s
    have hchars : (b.tokenAt s).chars = b.chars := by rw [heq]; exact place_chars b owner s
    have hcursor : (b.tokenAt s).cursor = s.stop := by rw [heq]
    obtain ⟨h₁, h₂⟩ := ih hnext (hopen'.trans hopen) (by rw [hchars, hcursor]; exact hss)
    rw [append_assoc] at h₁
    exact ⟨h₁, h₂.trans hopen'⟩

theorem openNode_cons (hopen : b.opened = owner :: rest) (kind : Kind) :
    b.openNode kind = { b with
      toForest := b.toForest.growBranch owner kind
      opened := (b.toForest.addContainer { kind }).1 :: owner :: rest } := by
  simp [openNode, growBranch, hopen]

theorem openNode_nil (hopen : b.opened = []) (hroot : b.root = none) (kind : Kind) :
    b.openNode kind = { b with
      toForest := (b.toForest.addContainer { kind }).2
      root := some (b.toForest.addContainer { kind }).1
      opened := [(b.toForest.addContainer { kind }).1] } := by
  simp [openNode, hopen, hroot]

theorem Sound.openNode {kind : Kind} (h : b.Sound spans) (ht : (b.openNode kind).trouble = none) :
    (b.openNode kind).Sound spans := by
  cases hopen : b.opened with
  | cons owner rest =>
    have hpath := h.shaped.path
    rw [hopen] at hpath
    obtain ⟨hgrown, hnew, -⟩ := h.shaped.grown.growBranch hpath kind
    rw [openNode_cons hopen]
    refine ⟨⟨hgrown, hnew, fun r hr => ?_, fun r hr => ?_⟩, h.covers.congr rfl rfl rfl rfl, h.ahead⟩
    · exact has_growBranch kind (h.shaped.root_has r hr)
    · rw [parent_growBranch owner kind (h.shaped.root_has r hr)]
      exact h.shaped.root_free r hr
  | nil =>
    cases hroot : b.root with
    | none =>
      rw [openNode_nil hopen hroot]
      have hnew := OpenPath.newContainer b.toForest kind
      refine ⟨⟨h.shaped.grown.addContainer kind, hnew, ?_, ?_⟩,
        h.covers.congr rfl rfl rfl rfl, h.ahead⟩ <;> rintro _ ⟨⟩
      · exact hnew.1
      · exact hnew.2
    | some r =>
      simp only [Builder.openNode, hopen, hroot] at ht
      exact absurd ht (fail_trouble _ _)

theorem openNode_opened (b : Builder) (kind : Kind) :
    (b.openNode kind).opened = (b.toForest.addContainer { kind }).1 :: b.opened := by
  cases hopen : b.opened <;> cases hroot : b.root <;> simp [openNode, hopen, hroot, fail]

theorem Sound.closeNode (h : b.Sound spans) (ht : b.closeNode.trouble = none) :
    b.closeNode.Sound spans := by
  cases hopen : b.opened with
  | nil =>
    simp only [Builder.closeNode, hopen] at ht
    exact absurd ht (fail_trouble _ _)
  | cons owner rest =>
    have hpath := h.shaped.path
    rw [hopen] at hpath
    have heq : b.closeNode = { b with opened := rest } := by simp [Builder.closeNode, hopen]
    rw [heq]
    exact ⟨⟨h.shaped.grown, hpath.tail, h.shaped.root_has, h.shaped.root_free⟩,
      h.covers.congr rfl rfl rfl rfl, h.ahead⟩

/-! ### Comments -/

theorem commentMarks_split (text : List Char) : ∃ opening body closing,
    text = opening ++ (body ++ closing) ∧
      commentMarks text = (bytes opening, bytes closing) ∧
      '\n' ∉ opening ∧ '\n' ∉ closing := by
  have henclosed : ∀ m ∈ enclosedComments, '\n' ∉ m.1.toList ∧ '\n' ∉ m.2.toList := by decide
  have hline : ∀ m ∈ lineComments, '\n' ∉ m.toList := by decide
  simp only [commentMarks]
  split
  · next opening closing h =>
    have hfound := find?_some h
    have hfree := henclosed _ (mem_of_find?_eq_some h)
    simp only [Bool.and_eq_true, decide_eq_true_eq, isPrefixOf_iff_prefix,
      isSuffixOf_iff_suffix, ← String.length_toList] at hfound
    obtain ⟨⟨⟨rest, hpre⟩, init, hsuf⟩, hlen⟩ := hfound
    -- the marks do not overlap, so the closing one lies in what follows the opening one
    rcases append_eq_append_iff.1 (hpre.trans hsuf.symm) with
      ⟨body, h₁, h₂⟩ | ⟨shared, h₁, h₂⟩
    · refine ⟨opening.toList, body, closing.toList, ?_, ?_, hfree⟩
      · rw [← h₂, hpre]
      · rw [bytes_toList, bytes_toList]
    · have hnone : shared = [] := by
        have hl := congrArg length hsuf
        rw [length_append] at hl
        rw [h₁, length_append] at hlen
        exact eq_nil_of_length_eq_zero (by omega)
      subst hnone
      rw [append_nil] at h₁
      rw [nil_append] at h₂
      refine ⟨opening.toList, [], closing.toList, ?_, ?_, hfree⟩
      · rw [nil_append, h₂, hpre]
      · rw [bytes_toList, bytes_toList]
  · split
    · next opening h =>
      have hfound := find?_some h
      obtain ⟨rest, hpre⟩ := isPrefixOf_iff_prefix.1 hfound
      exact ⟨opening.toList, rest, [], by simp [hpre], by rw [bytes_toList]; rfl,
        hline _ (mem_of_find?_eq_some h), not_mem_nil⟩
    · exact ⟨[], text, [], by simp, rfl, not_mem_nil, not_mem_nil⟩

/-- The spans of the tokens of a comment: its marks, and the ink of each line between them. -/
def commentSpans (b : Builder) (span : Span) : List Span :=
  let (opening, closing) := commentMarks (Text.slice b.chars span)
  let body : Span := ⟨span.start + opening, span.stop - closing⟩
  (if opening = 0 then [] else [⟨span.start, body.start⟩]) ++ Text.inkedIn b.chars body ++
    (if closing = 0 then [] else [⟨body.stop, span.stop⟩])

/-- Containers beside the open nodes are being built, the innermost first, and the text up to
`limit` at most is covered. -/
structure Beside (cs : List Char) (b : Builder) (spans : List Span) (path : List Branch)
    (limit : Nat) : Prop where
  chars_eq : b.chars = cs
  shaped : b.Shaped
  covers : b.Covers spans
  building : b.OpenPath path
  apart : ∀ c ∈ path, c ∉ b.opened
  covered_le : b.covered ≤ limit

section

variable {cs : List Char} {path : List Branch} {limit : Nat}

theorem Beside.start (h : b.Sound spans) (hle : b.cursor ≤ limit) (kind : Kind) :
    Beside b.chars { b with toForest := (b.toForest.addContainer { kind }).2 } spans
      [(b.toForest.addContainer { kind }).1] limit where
  chars_eq := rfl
  shaped :=
    { grown := h.shaped.grown.addContainer kind
      path := h.shaped.path.addContainer kind
      root_has := fun r hr => has_addContainer _ kind _ (h.shaped.root_has r hr)
      root_free := fun r hr => (parent_addContainer ..).trans (h.shaped.root_free r hr) }
  covers := h.covers.congr rfl rfl rfl rfl
  building := OpenPath.newContainer ..
  apart := by
    intro c hc hm
    rw [mem_singleton.1 hc] at hm
    exact not_has_addContainer _ _ (h.shaped.path.has h.shaped.grown.linked hm)
  covered_le := Nat.le_trans h.ahead hle

theorem Beside.places {new : List Span} {stop : Nat} (h : Beside cs b spans (owner :: rest) limit)
    (hnew : InOrder cs limit new stop) :
    Beside cs (new.foldl (·.place owner ·) b) (spans ++ new) (owner :: rest) stop := by
  obtain ⟨hshaped, hpath, hopened⟩ := h.shaped.places h.building
    (fun hm => h.apart owner (by simp) (mem_of_mem_tail hm)) new
  obtain ⟨hcovers, hle, hchars⟩ := h.covers.places owner
    (h.chars_eq ▸ hnew.mono_left h.covered_le)
  exact ⟨hchars.trans h.chars_eq, hshaped, hcovers, hpath, hopened ▸ h.apart, hle⟩

theorem Beside.mark {start stop size : Nat} (h : Beside cs b spans (owner :: rest) start)
    (hspan : isCharSpan cs ⟨start, stop⟩) (hsize : start + size = stop) :
    Beside cs (if size = 0 then b else b.place owner ⟨start, stop⟩)
      (spans ++ if size = 0 then [] else [⟨start, stop⟩]) (owner :: rest) stop := by
  split
  · rw [append_nil]
    exact { h with covered_le := by have := h.covered_le; omega }
  · have hone : InOrder cs start [⟨start, stop⟩] stop :=
      ⟨Nat.le_refl _, hspan, Nat.le_refl _⟩
    exact h.places hone

theorem Beside.nest (h : Beside cs b spans (owner :: rest) limit) (kind : Kind) :
    Beside cs { b with toForest := b.toForest.growBranch owner kind } spans
      ((b.toForest.addContainer { kind }).1 :: owner :: rest) limit := by
  obtain ⟨hgrown, hnew, hkeep⟩ := h.shaped.grown.growBranch h.building kind
  refine ⟨h.chars_eq, ⟨hgrown, hkeep _ h.shaped.path ?_, fun r hr => ?_, fun r hr => ?_⟩,
    h.covers.congr rfl rfl rfl rfl, hnew, ?_, h.covered_le⟩
  · exact fun hm => h.apart owner (by simp) (mem_of_mem_tail hm)
  · exact has_growBranch kind (h.shaped.root_has r hr)
  · exact (parent_growBranch owner kind (h.shaped.root_has r hr)).trans (h.shaped.root_free r hr)
  · intro c hc
    rcases mem_cons.1 hc with rfl | hc
    · intro hm
      exact not_has_addContainer _ _ (h.shaped.path.has h.shaped.grown.linked hm)
    · exact h.apart c hc

theorem Beside.leave (h : Beside cs b spans (owner :: path) limit) : Beside cs b spans path limit :=
  { h with building := h.building.tail, apart := fun c hc => h.apart c (by simp [hc]) }

theorem Beside.inked {start stop : Nat} (h : Beside cs b spans (owner :: rest) start)
    (hspan : isCharSpan cs ⟨start, stop⟩) :
    Beside cs ((inkedIn b.chars ⟨start, stop⟩).foldl (·.place owner ·) b)
      (spans ++ inkedIn cs ⟨start, stop⟩) (owner :: rest) stop := by
  rw [h.chars_eq]
  exact h.places (inOrder_inkedIn hspan)

theorem Beside.sound (h : Beside cs b spans path limit) : Sound { b with cursor := limit } spans :=
  ⟨⟨h.shaped.grown, h.shaped.path, h.shaped.root_has, h.shaped.root_free⟩,
    h.covers.congr rfl rfl rfl rfl, h.covered_le⟩

end

/-- The marks of a comment and what is between them cut no character. -/
theorem exists_commentMarks (hspan : isCharSpan b.chars span) : ∃ opening closing,
    commentMarks (slice b.chars span) = (opening, closing) ∧
      isCharSpan b.chars ⟨span.start, span.start + opening⟩ ∧
      isCharSpan b.chars ⟨span.start + opening, span.stop - closing⟩ ∧
      isCharSpan b.chars ⟨span.stop - closing, span.stop⟩ ∧
      span.stop - closing + closing = span.stop ∧
      '\n' ∉ slice b.chars ⟨span.start, span.start + opening⟩ ∧
      '\n' ∉ slice b.chars ⟨span.stop - closing, span.stop⟩ := by
  obtain ⟨pre, text, post, hchars, rfl⟩ := isCharSpan_iff.1 hspan
  obtain ⟨opening, body, closing, rfl, hmarks, hopening, hclosing⟩ := commentMarks_split text
  have hstop : bytes pre + bytes (opening ++ (body ++ closing)) =
      bytes (pre ++ opening ++ body) + bytes closing := by
    simp only [bytes_append]
    omega
  refine ⟨_, _, by rw [hchars, slice_append, hmarks], ?_, ?_, ?_, ?_, ?_, ?_⟩
  · exact isCharSpan_iff.2 ⟨pre, opening, body ++ (closing ++ post), by simp [hchars], rfl⟩
  · refine isCharSpan_iff.2 ⟨pre ++ opening, body, closing ++ post, by simp [hchars], ?_⟩
    simp only [bytes_append, Span.mk.injEq, true_and]
    omega
  · rw [hstop, Nat.add_sub_cancel]
    exact isCharSpan_iff.2 ⟨pre ++ opening ++ body, closing, post, by simp [hchars], rfl⟩
  · rw [hstop, Nat.add_sub_cancel]
  · rwa [hchars, append_assoc, slice_append]
  · rw [hstop, Nat.add_sub_cancel]
    have hsplit : b.chars = pre ++ opening ++ body ++ (closing ++ post) := by simp [hchars]
    rwa [hsplit, slice_append]

theorem Sound.commentAt (h : b.Sound spans) (ht : (b.commentAt span).trouble = none) :
    (b.commentAt span).Sound (spans ++ b.commentSpans span) := by
  by_cases hfits : b.fits span
  · obtain ⟨hspan, hle⟩ := fits_iff.1 hfits
    obtain ⟨opening, closing, hmarks, hopening, hbody, hclosing, hsize, -⟩ :=
      exists_commentMarks hspan
    -- the comment, its opening mark, what is inside, and its closing mark
    have h₁ := Beside.start h hle .comment
    have h₂ := h₁.mark hopening rfl
    have h₃ := (h₂.nest .commentText).inked hbody
    have h₄ := h₃.leave.mark hclosing hsize
    have hspans : spans ++ b.commentSpans span =
        (spans ++ if opening = 0 then [] else [⟨span.start, span.start + opening⟩]) ++
          inkedIn b.chars ⟨span.start + opening, span.stop - closing⟩ ++
          (if closing = 0 then [] else [⟨span.stop - closing, span.stop⟩]) := by
      simp only [commentSpans, hmarks, append_assoc]
    rw [hspans, Builder.commentAt, if_pos hfits, hmarks]
    exact h₄.sound
  · simp only [Builder.commentAt, if_neg hfits] at ht
    exact absurd ht (fail_trouble _ _)

end Lossless.Builder
