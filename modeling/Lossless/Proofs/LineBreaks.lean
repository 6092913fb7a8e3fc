import Lossless.Proofs.FreeLines
import Lossless.Proofs.Gaps
import Lossless.Proofs.Replacing

/-! Lines of tokens and lines of the source. A conversion gives tokens that are a line break or hold
none, so counting break tokens is counting the line breaks of the source. -/

namespace Lossless

open List Text Builder

namespace Text

/-- The characters of a token: a line break, or none among them. -/
def Unbroken (cs : List Char) : Prop :=
  cs = ['\n'] ∨ '\n' ∉ cs

/-- A byte span is the line of a text with `k` line breaks before it. -/
def IsLine (cs : List Char) (k : Nat) (span : Span) : Prop :=
  ∃ before line after, cs = before ++ (line ++ after) ∧
    span = ⟨bytes before, bytes before + bytes line⟩ ∧ before.count '\n' = k ∧
    opens before = true ∧ '\n' ∉ line ∧ after.head?.all (· == '\n') = true

theorem bytes_reverse (cs : List Char) : bytes cs.reverse = bytes cs := by
  induction cs with
  | nil => rfl
  | cons c cs ih => simp [ih, Nat.add_comm]

theorem floorBoundary_split (cs : List Char) (n : Nat) :
    ∃ before after, cs = before ++ after ∧ floorBoundary cs n = bytes before := by
  induction cs generalizing n with
  | nil => exact ⟨[], [], rfl, rfl⟩
  | cons c cs ih =>
    rw [floorBoundary]
    split
    · obtain ⟨before, after, rfl, h⟩ := ih (n - c.utf8Size)
      exact ⟨c :: before, after, rfl, by rw [h, bytes_cons]⟩
    · exact ⟨[], c :: cs, rfl, rfl⟩

/-- A place with as many line breaks before it as a line has is that far into the line. -/
theorem IsLine.column {before after : List Char} {span : Span}
    (h : IsLine (before ++ after) (before.count '\n') span) :
    bytes (before.reverse.takeWhile (· != '\n')) + span.start = bytes before := by
  obtain ⟨above, line, below, hsplit, rfl, hcount, hopens, -, -⟩ := h
  have hle : bytes above ≤ bytes before := by
    by_contra hlt
    -- the line would start behind one more line break
    obtain ⟨mid, rfl, -⟩ := append_of_bytes_le hsplit (Nat.le_of_not_le hlt)
    cases mid using reverseRecOn with
    | nil => simp at hlt
    | append_singleton mid c =>
      rw [← append_assoc, opens_concat, beq_iff_eq] at hopens
      simp [hopens] at hcount
  obtain ⟨mid, rfl, -⟩ := append_of_bytes_le hsplit.symm hle
  have hfree : '\n' ∉ mid := by
    rw [count_append] at hcount
    exact count_eq_zero.1 (by omega)
  have hstop : above.reverse.takeWhile (· != '\n') = [] := by
    cases above using reverseRecOn with
    | nil => rfl
    | append_singleton above c =>
      rw [opens_concat] at hopens
      simp [beq_iff_eq.1 hopens]
  have hrun : ∀ c ∈ mid.reverse, (c != '\n') := by
    intro c hc
    exact bne_iff_ne.2 fun he => hfree (he ▸ mem_reverse.1 hc)
  rw [reverse_append, takeWhile_append_of_pos hrun, hstop, append_nil, bytes_reverse,
    bytes_append, Nat.add_comm]

/-! ### Pieces and ink -/

theorem unbroken_piecesBetween (cs : List Char) (span : Span) :
    ∀ p ∈ piecesBetween cs span, Unbroken p := by
  rw [piecesBetween, startsLine_eq]
  exact (laid_gapPieces ..).single_or_free

theorem not_mem_inkedIn {cs : List Char} {span : Span} (h : isCharSpan cs span) :
    ∀ s ∈ inkedIn cs span, '\n' ∉ slice cs s := by
  obtain ⟨pre, mid, post, rfl, rfl⟩ := isCharSpan_iff.1 h
  obtain ⟨l, ls, hl⟩ := exists_lines mid
  intro s hs
  rw [inkedIn, slice_append, hl] at hs
  obtain ⟨line, hline, hslice⟩ := (inkedSpans_spec ls pre l post).2 s hs
  rw [← hl, unlines_lines] at hslice
  rw [hslice]
  obtain ⟨rest, hsplit⟩ := line_eq line
  intro hmem
  refine not_mem_lines mid line (hl ▸ hline) ?_
  rw [hsplit]
  simp [hmem]

end Text

/-! ### Layouts -/

namespace Layout

variable {ts pre : Layout} {i k : Nat} {t : String}

def Unbroken (ts : Layout) : Prop :=
  ∀ t ∈ ts, Text.Unbroken t.toList

theorem isBreak_iff : isBreak t = true ↔ t.toList = ['\n'] := by
  rw [isBreak, beq_iff_eq, ← String.toList_inj]
  rfl

theorem count_toList (h : Text.Unbroken t.toList) :
    t.toList.count '\n' = if isBreak t then 1 else 0 := by
  split
  · next hbreak => rw [isBreak_iff.1 hbreak]; rfl
  · next hbreak => exact count_eq_zero.2 (h.resolve_left fun ht => hbreak (isBreak_iff.2 ht))

theorem breaks_eq_count (h : ts.Unbroken) : ts.breaks = ts.join.toList.count '\n' := by
  induction ts with
  | nil => rfl
  | cons t ts ih =>
    obtain ⟨ht, hts⟩ := forall_mem_cons.1 h
    rw [breaks, countP_cons, ← breaks, ih hts, join, String.toList_append, count_append,
      count_toList ht, Nat.add_comm]

theorem Unbroken.take (h : ts.Unbroken) (i : Nat) : Unbroken (ts.take i) :=
  fun t ht => h t (mem_of_mem_take ht)

theorem lineOf_eq_count (h : ts.Unbroken) (i : Nat) :
    ts.lineOf i = (takeBytes (ts.offsetAt i) ts.join.toList).count '\n' := by
  rw [takeBytes_offsetAt, lineOf, breaks_eq_count (h.take i)]

theorem afterBreaks_split (h : k ≤ ts.breaks) : ∃ pre post, ts = pre ++ post ∧
    afterBreaks k ts = pre.length ∧ breaks pre = k ∧ pre.getLast?.all isBreak := by
  induction ts generalizing k with
  | nil =>
    obtain rfl := Nat.le_zero.1 h
    exact ⟨[], [], rfl, rfl, rfl, rfl⟩
  | cons t ts ih =>
    cases k with
    | zero => exact ⟨[], t :: ts, rfl, rfl, rfl, rfl⟩
    | succ k =>
      have hle : (if isBreak t then k else k + 1) ≤ breaks ts := by
        rw [breaks, countP_cons] at h
        split at h <;> simp_all [breaks]
      obtain ⟨pre, post, rfl, hafter, hbreaks, hlast⟩ := ih hle
      refine ⟨t :: pre, post, rfl, ?_, ?_, ?_⟩
      · rw [afterBreaks, hafter, length_cons, Nat.add_comm]
      · rw [breaks, countP_cons, ← breaks, hbreaks]
        split <;> rfl
      · cases pre with
        | nil =>
          split at hbreaks
          · next ht => exact ht
          · cases hbreaks
        | cons p pre => simpa [getLast?_cons_cons] using hlast

theorem lineEnd_append (pre post : Layout) :
    lineEnd (pre ++ post) pre.length = pre.length + (post.takeWhile (!isBreak ·)).length := by
  have hlen : (post.takeWhile (!isBreak ·)).length = post.findIdx isBreak := by
    rw [takeWhile_eq_take_findIdx_not, length_take, Nat.min_eq_left]
    · simp
    · simpa using findIdx_le_length
  rw [hlen, findIdx_eq_getD_findIdx?, lineEnd, nextBreak?, drop_left]
  cases post.findIdx? isBreak <;> simp

theorem opens_join (h : pre.getLast?.all isBreak) :
    opens pre.join.toList := by
  cases pre using reverseRecOn with
  | nil => rfl
  | append_singleton pre t =>
    have ht : t.toList = ['\n'] := isBreak_iff.1 (by simpa using h)
    rw [join_append, String.toList_append, join, join, String.append_empty, ht, opens_concat]
    rfl

/-- The byte range of a line of tokens is a line of their text. -/
theorem isLine_lineText (h : ts.Unbroken) (hk : k ≤ ts.breaks) :
    IsLine ts.join.toList k (ts.lineText k) := by
  obtain ⟨pre, post, rfl, hafter, hbreaks, hlast⟩ := afterBreaks_split hk
  have hsplit := takeWhile_append_dropWhile (p := (!isBreak ·)) (l := post)
  have hline : ∀ t ∈ post.takeWhile (!isBreak ·), '\n' ∉ t.toList := by
    intro t ht
    have hbreak : isBreak t = false := by simpa using all_eq_true.1 all_takeWhile t ht
    have hmem : t ∈ pre ++ post := mem_append_right pre (takeWhile_subset _ ht)
    refine (h t hmem).resolve_left fun he => ?_
    rw [isBreak_iff.2 he] at hbreak
    cases hbreak
  refine ⟨pre.join.toList, (join (post.takeWhile (!isBreak ·))).toList,
    (join (post.dropWhile (!isBreak ·))).toList, ?_, ?_, ?_, opens_join hlast, ?_, ?_⟩
  · rw [← String.toList_append, ← String.toList_append, ← join_append, ← join_append, hsplit]
  · rw [lineText, lineTokens, hafter, lineEnd_append]
    have htake : (pre ++ post).take (pre.length + (post.takeWhile (!isBreak ·)).length) =
        pre ++ post.takeWhile (!isBreak ·) := by
      rw [take_length_add_append, ← prefix_iff_eq_take.1 (List.takeWhile_prefix _)]
    rw [offsetAt_eq_bytes, offsetAt_eq_bytes, take_left, htake, join_append,
      String.toList_append, bytes_append]
  · rw [← hbreaks, breaks_eq_count fun t ht => h t (mem_append_left post ht)]
  · rw [toList_join, mem_flatMap]
    rintro ⟨t, ht, hmem⟩
    exact hline t ht hmem
  · cases hd : post.dropWhile (!isBreak ·) with
    | nil => rfl
    | cons t rest =>
      have hne : post.dropWhile (!isBreak ·) ≠ [] := by simp [hd]
      have hbreak := head_dropWhile_not (!isBreak ·) hne
      simp only [hd, head_cons, Bool.not_eq_false'] at hbreak
      rw [join, String.toList_append, isBreak_iff.1 hbreak]
      rfl

/-- A place inside a token has as many line breaks before it as the token. -/
theorem count_of_inside {before after : List Char} (h : ts.Unbroken)
    (hsplit : ts.join.toList = before ++ after) (ht : ts[i]? = some t)
    (hle : ts.offsetAt i ≤ bytes before) (hlt : bytes before < ts.offsetAt (i + 1)) :
    before.count '\n' = ts.lineOf i := by
  have hjoin := ts.toList_join_split i
  rw [hsplit] at hjoin
  rw [offsetAt_eq_bytes] at hle
  obtain ⟨mid, rfl, hrest⟩ := append_of_bytes_le hjoin.symm hle
  have hdrop : (join (ts.drop i)).toList = t.toList ++ (join (ts.drop (i + 1))).toList := by
    rw [drop_eq_getElem?_toList_append, ht, ← String.toList_append]
    rfl
  rw [offsetAt_succ ht, offsetAt_eq_bytes, bytes_append, ← bytes_toList] at hlt
  rw [hdrop] at hrest
  obtain ⟨behind, hbehind, -⟩ := append_of_bytes_le hrest.symm (by omega)
  -- a break has no place inside it but its start
  have hfree : '\n' ∉ mid := by
    intro hmem
    rcases h t (mem_of_getElem? ht) with hbreak | hnot
    · rw [hbreak] at hbehind hlt
      cases mid with
      | nil => cases hmem
      | cons c mid =>
        obtain ⟨rfl, -⟩ := cons.inj hbehind
        simp only [bytes_cons, bytes_nil] at hlt
        omega
    · exact hnot (hbehind ▸ mem_append_left behind hmem)
  rw [count_append, count_eq_zero.2 hfree, Nat.add_zero, lineOf,
    breaks_eq_count (h.take i)]

end Layout

/-! ### Builders -/

namespace Builder

variable {b c d : Builder} {span : Span} {spans : List Span} {kind : Kind}

/-- The steps from one builder to another give unbroken tokens, and a fault at a place of the
source. -/
structure Neat (b c : Builder) : Prop where
  source : c.source = b.source
  tokens : (∀ t ∈ b.tokens, Text.Unbroken t.text.toList) →
    ∀ t ∈ c.tokens, Text.Unbroken t.text.toList
  fault : c.fault = b.fault ∨ ∃ offset, c.fault = some (Fault.locate b.source offset)

namespace Neat

theorem of_tokens (hsource : c.source = b.source) (htokens : c.tokens = b.tokens)
    (hfault : c.fault = b.fault) : Neat b c :=
  ⟨hsource, fun h => htokens ▸ h, .inl hfault⟩

theorem trans (h : Neat b c) (h' : Neat c d) : Neat b d := by
  refine ⟨h'.source.trans h.source, fun ht => h'.tokens (h.tokens ht), ?_⟩
  rcases h'.fault with hf | hf
  · rw [hf]
    exact h.fault
  · exact .inr (h.source ▸ hf)

theorem chars (h : Neat b c) : c.chars = b.chars :=
  congrArg String.toList h.source

theorem foldl {α : Type} {step : Builder → α → Builder} {xs : List α}
    (h : ∀ c : Builder, c.chars = b.chars → ∀ x ∈ xs, Neat c (step c x)) :
    Neat b (xs.foldl step b) := by
  induction xs generalizing b with
  | nil => exact .of_tokens rfl rfl rfl
  | cons x xs ih =>
    have hx := h b rfl x mem_cons_self
    refine hx.trans (ih fun c hc y hy => h c (hc.trans hx.chars) y (mem_cons_of_mem x hy))

theorem fill (b : Builder) (stop : Nat) : Neat b (b.fill stop) := by
  rw [fill_eq]
  refine ⟨rfl, fun h t ht => ?_, .inl rfl⟩
  rcases Array.mem_append.1 ht with ht | ht
  · exact h t ht
  · obtain ⟨p, hp, rfl⟩ := mem_map.1 (mem_toArray.1 ht)
    rw [String.toList_ofList]
    exact unbroken_piecesBetween _ _ p hp

theorem place (owner : Branch) (h : '\n' ∉ slice b.chars span) :
    Neat b (b.place owner span) := by
  have hfill := fill b span.start
  refine ⟨place_source .., fun ht t hmem => ?_, hfill.fault⟩
  rw [place_tokens] at hmem
  rcases Array.mem_push.1 hmem with hmem | rfl
  · exact hfill.tokens ht t hmem
  · rw [String.toList_ofList]
    exact .inr h

theorem placeUnless (h : Neat b c) (p : Prop) [Decidable p] (owner : Branch)
    (hfree : '\n' ∉ slice b.chars span) :
    Neat b (if p then c else c.place owner span) := by
  split
  · exact h
  · exact h.trans (place owner (h.chars ▸ hfree))

theorem nest (h : Neat b c) (owner : Branch) (kind : Kind) :
    Neat b { c with toForest := c.toForest.growBranch owner kind } :=
  ⟨h.source, h.tokens, h.fault⟩

theorem withCursor (h : Neat b c) (cursor : Nat) : Neat b { c with cursor } :=
  ⟨h.source, h.tokens, h.fault⟩

theorem inked (h : Neat b c) (owner : Branch) (hspan : isCharSpan b.chars span) :
    Neat b ((inkedIn c.chars span).foldl (·.place owner ·) c) := by
  rw [h.chars]
  refine h.trans (foldl fun d hd s hs => place owner ?_)
  rw [hd, h.chars]
  exact not_mem_inkedIn hspan s hs

theorem openNode (b : Builder) (kind : Kind) : Neat b (b.openNode kind) := by
  refine .of_tokens (openNode_source b kind) ?_ ?_ <;> unfold Builder.openNode <;> dsimp only <;>
    split <;> rfl

theorem closeNode (b : Builder) : Neat b b.closeNode := by
  unfold Builder.closeNode
  split <;> exact .of_tokens rfl rfl rfl

theorem node {content : Builder → Builder}
    (h : Neat (b.openNode kind) (content (b.openNode kind))) : Neat b (b.node kind content) :=
  ((openNode b kind).trans h).trans (closeNode _)

theorem tokenAt (h : '\n' ∉ slice b.chars span) : Neat b (b.tokenAt span) := by
  unfold Builder.tokenAt
  split
  · exact .of_tokens rfl rfl rfl
  · split
    · exact (place _ h).withCursor _
    · exact .of_tokens rfl rfl rfl

theorem inkedAt (h : isCharSpan b.chars span) :
    Neat b ((inkedIn b.chars span).foldl (·.tokenAt ·) b) := by
  refine foldl fun c hc s hs => tokenAt ?_
  rw [hc]
  exact not_mem_inkedIn h s hs

theorem textNodeAt (b : Builder) (kind : Kind) (span : Span) : Neat b (b.textNodeAt kind span) := by
  unfold Builder.textNodeAt
  split
  · next hfits => exact node (inkedAt (fits_iff.1 (fits_openNode hfits kind)).1)
  · exact .of_tokens rfl rfl rfl

theorem commentAt (b : Builder) (span : Span) : Neat b (b.commentAt span) := by
  unfold Builder.commentAt
  split
  · next hfits =>
    obtain ⟨opening, closing, hmarks, -, hbody, -, -, hopening, hclosing⟩ :=
      exists_commentMarks (fits_iff.1 hfits).1
    rw [hmarks]
    dsimp only
    have hstart : Neat b { b with toForest := (b.toForest.addContainer { kind := .comment }).2 } :=
      .of_tokens rfl rfl rfl
    exact ((((hstart.placeUnless _ _ hopening).nest _ _).inked _ hbody).placeUnless _ _
      hclosing).withCursor _
  · exact .of_tokens rfl rfl rfl

theorem faultAt (b : Builder) (offset : Nat) : Neat b (b.faultAt offset) := by
  refine ⟨rfl, id, ?_⟩
  unfold Builder.faultAt
  cases b.fault with
  | none => exact .inr ⟨offset, rfl⟩
  | some fault => exact .inl rfl

end Neat

end Builder

/-! ### Conversions -/

namespace Converter

variable {grammar : Grammar} {source : String} {tree : ParseTree} {doc : Document}

theorem neat_wrapped {b : Builder} {content : Builder → Builder} (wrapper : Option Kind)
    (h : ∀ b' : Builder, b'.chars = b.chars → Neat b' (content b')) :
    Neat b (wrapped b wrapper content) := by
  unfold wrapped
  split
  · exact h b rfl
  · exact .node (h _ (Neat.openNode ..).chars)

mutual

theorem neat_visit (b : Builder) (parent : Kind) : ∀ t : ParseTree,
    (∀ node : ParseTree, node.Within t → isCharSpan b.chars node.span) →
    Neat b (visit b parent t)
  | ⟨typeName, field, start, stop, children⟩ => by
    intro hspans
    have hspan : isCharSpan b.chars ⟨start, stop⟩ := hspans _ .self
    have hchildren : ∀ (b' : Builder) (kind : Kind), b'.chars = b.chars →
        Neat b' (visitAll b' kind children) := by
      intro b' kind hchars
      refine neat_visitAll b' kind children fun c hc node hnode => ?_
      rw [hchars]
      exact hspans node (.child hc hnode)
    unfold visit
    dsimp only
    split
    · exact .faultAt b start
    split
    · exact .commentAt b _
    split
    · exact .inkedAt hspan
    split
    · exact neat_wrapped _ fun b' _ => .textNodeAt b' _ _
    · refine neat_wrapped _ fun b' hchars => .node (hchildren _ _ ?_)
      exact (Neat.openNode ..).chars.trans hchars
    · exact .inkedAt hspan
    · exact hchildren b parent rfl

theorem neat_visitAll (b : Builder) (parent : Kind) : ∀ ts : List ParseTree,
    (∀ t ∈ ts, ∀ node : ParseTree, node.Within t → isCharSpan b.chars node.span) →
    Neat b (visitAll b parent ts)
  | [], _ => by
    unfold visitAll
    exact .of_tokens rfl rfl rfl
  | t :: ts, hspans => by
    obtain ⟨ht, hts⟩ := forall_mem_cons.1 hspans
    have hfirst := neat_visit b parent t ht
    unfold visitAll
    refine hfirst.trans (neat_visitAll _ parent ts ?_)
    rwa [hfirst.chars]

end

/-- What a conversion leaves of its source: unbroken tokens, and the place of the first error. -/
theorem neat_convert (h : convert { grammar } source tree = .ok doc) :
    doc.layout.Unbroken ∧ doc.layout.join = source ∧
      ∀ fault, doc.fault = some fault → ∃ offset, fault = Fault.locate source offset := by
  rw [convert_eq] at h
  cases hbad : tree.badNode? source.toList with
  | some bad =>
    rw [hbad] at h
    cases h
  | none =>
    rw [hbad] at h
    have htext := text_of_called (called_builderOf grammar source tree) h
    have hspans := (ParseTree.badNode?_eq_none_iff _ _).1 hbad
    have hneat : Neat { grammar, source } (builderOf grammar source tree) := by
      unfold builderOf
      refine .node (neat_visitAll _ _ _ fun t ht node hnode => ?_)
      rw [(Neat.openNode ..).chars]
      exact hspans node (.child ht hnode)
    obtain ⟨calls, hcalls⟩ := called_builderOf grammar source tree
    rw [hcalls] at h hneat
    obtain ⟨-, hcovers, -⟩ :=
      ((sound_start grammar source).run (finish_eq h).1).fillRest
    obtain ⟨-, root, -, rfl⟩ := finish_eq h
    refine ⟨?_, htext, fun fault hfault => ?_⟩
    · intro t ht
      rw [Document.layout_of_keys hcovers.keys] at ht
      obtain ⟨token, htoken, rfl⟩ := mem_map.1 ht
      exact (hneat.trans (Neat.fill _ _)).tokens (by simp) token (Array.mem_toList_iff.1 htoken)
    · rcases hneat.fault with hf | ⟨offset, hf⟩
      · cases hf.symm.trans hfault
      · exact ⟨offset, Option.some.inj (hfault.symm.trans hf)⟩

/-- Every token of a converted document is a line break or holds none. So the line of a token is the
number of line breaks of the source before it, the byte ranges of lines are the lines of the source,
and where the parser gave up has the line of the token there and its column in that line. -/
theorem convert_lines (h : convert { grammar } source tree = .ok doc) :
    (∀ l ∈ doc.order, doc.textOf l = "\n" ∨ '\n' ∉ (doc.textOf l).toList) ∧
    (∀ l ∈ doc.order, (doc.lines? l).map Span.start =
      some ((Text.takeBytes (doc.byteRange l).start source.toList).count '\n')) ∧
    (∀ k ≤ source.toList.count '\n', Text.IsLine source.toList k (doc.layout.lineText k)) ∧
    ∀ fault, doc.fault = some fault →
      (∀ l ∈ doc.order, (doc.byteRange l).start ≤ fault.offset →
        fault.offset < (doc.byteRange l).stop →
        (doc.lines? l).map Span.start = some fault.line) ∧
      fault.line ≤ source.toList.count '\n' ∧
      fault.column + (doc.layout.lineText fault.line).start = fault.offset := by
  obtain ⟨hclean, htext, hfault⟩ := neat_convert h
  have hlisted := listed_convert h
  have hjoin : doc.layout.join.toList = source.toList := congrArg String.toList htext
  have hbreaks : doc.layout.breaks = source.toList.count '\n' := by
    rw [Layout.breaks_eq_count hclean, htext]
  have hlines : ∀ k ≤ source.toList.count '\n',
      Text.IsLine source.toList k (doc.layout.lineText k) := by
    intro k hk
    rw [← hjoin]
    exact Layout.isLine_lineText hclean (hbreaks ▸ hk)
  refine ⟨fun l hl => ?_, fun l hl => ?_, hlines, fun fault hf => ?_⟩
  · obtain ⟨i, hi⟩ := getElem?_of_mem hl
    refine (hclean _ (mem_of_getElem? (Document.layout_getElem? hi))).imp_left fun hbreak => ?_
    exact String.toList_inj.1 hbreak
  · obtain ⟨i, hi⟩ := getElem?_of_mem hl
    rw [hlisted.lines?_leaf hi, hlisted.byteRange_leaf hi, Layout.lineOf_eq_count hclean, hjoin]
  · obtain ⟨offset, rfl⟩ := hfault fault hf
    obtain ⟨before, after, hsplit, hfloor⟩ := floorBoundary_split source.toList offset
    have hplace : Fault.locate source offset = ⟨before.count '\n',
        bytes (before.reverse.takeWhile (· != '\n')), bytes before⟩ := by
      simp only [Fault.locate, hfloor]
      rw [hsplit, takeBytes_append]
    rw [hplace]
    have hle : before.count '\n' ≤ source.toList.count '\n' := by
      rw [hsplit, List.count_append]
      exact Nat.le_add_right ..
    refine ⟨fun l hl hstart hstop => ?_, hle, (hsplit ▸ hlines _ hle).column⟩
    obtain ⟨i, hi⟩ := List.getElem?_of_mem hl
    rw [hlisted.byteRange_leaf hi] at hstart hstop
    rw [hlisted.lines?_leaf hi]
    exact congrArg some (Layout.count_of_inside hclean (hjoin.trans hsplit)
      (Document.layout_getElem? hi) hstart hstop).symm

/-- A comment and a leaf over two lines each, and an error in the third line. -/
theorem convert_lines_error :
    let source := "é /* a\n b */ (1\n +)"
    let leaf (typeName : String) (start stop : Nat) : ParseTree :=
      ⟨typeName, none, start, stop, []⟩
    let tree : ParseTree := ⟨"program", none, 0, 20,
      [leaf "identifier" 0 2, leaf "comment" 3 13, leaf "arguments" 14 17, leaf "ERROR" 18 19]⟩
    ∃ doc, convert { grammar := .javaScript } source tree = .ok doc ∧
      doc.layout =
        ["é", " ", "/*", " ", "a", "\n", " ", "b", " ", "*/", " ", "(1", "\n", " ", "+)"] ∧
      doc.fault = some ⟨2, 1, 18⟩ ∧ Text.IsLine source.toList 1 (doc.layout.lineText 1) ∧
      1 + (doc.layout.lineText 2).start = 18 := by
  intro source leaf tree
  let doc := (builderOf .javaScript source tree).built
  have hdoc : convert { grammar := .javaScript } source tree = .ok doc := by decide +kernel
  have hfault : doc.fault = some ⟨2, 1, 18⟩ := by decide +kernel
  obtain ⟨-, -, hlines, hfaults⟩ := convert_lines hdoc
  obtain ⟨-, -, hcolumn⟩ := hfaults _ hfault
  exact ⟨doc, hdoc, by decide +kernel, hfault, hlines 1 (by decide), hcolumn⟩

end Converter

end Lossless
