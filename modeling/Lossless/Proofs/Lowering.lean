import Lossless.Proofs.Reverting

/-! Blank lines that come in at the start of a line. What stands below them goes down as it is, and
every block shows the indentation that it showed. -/

namespace Lossless

open List Option Layout Forest

theorem Text.lines_append_break (cs ds : List Char) :
    lines (cs ++ '\n' :: ds) = lines cs ++ lines ds := by
  induction cs with
  | nil => simp [lines]
  | cons c cs ih =>
    obtain ⟨l, ls, hl⟩ := exists_lines cs
    rw [cons_append, lines, lines, ih, hl]
    split <;> rfl

theorem Indent.unitOf_congr {source source' : String} {xs ys : List (List Char)}
    (h : Text.lines source.toList = xs ++ ys) (h' : Text.lines source'.toList = xs ++ [] :: ys)
    (fallback : String) : unitOf source' fallback = unitOf source fallback := by
  have hwidths : widths (xs ++ [] :: ys) = widths (xs ++ ys) := by simp [widths, isSilent]
  have htabs : (xs ++ [] :: ys).any startsWithTab = (xs ++ ys).any startsWithTab := by
    simp [startsWithTab]
  rw [unitOf, unitOf, h, h', hwidths, htabs]

namespace Layout

variable {xs ys ts : Layout} {i n p j : Nat}

def lastLine (ts : Layout) : Layout :=
  (ts.reverse.takeWhile (!isBreak ·)).reverse

theorem lastLine_append (hxs : xs.getLast?.all isBreak) (ys : Layout) :
    (xs ++ ys).lastLine = ys.lastLine := by
  have hnone : xs.reverse.takeWhile (!isBreak ·) = [] := by
    rw [← head?_reverse] at hxs
    cases hrev : xs.reverse with
    | nil => rfl
    | cons t ts =>
      rw [hrev, head?_cons, all_some] at hxs
      rw [takeWhile_cons, hxs]
      rfl
  rw [lastLine, lastLine, reverse_append, takeWhile_append, hnone, append_nil]
  split
  · next hall => rw [(takeWhile_sublist _).eq_of_length hall]
  · rfl

theorem lastLine_suffix (ts : Layout) : ts.lastLine <:+ ts := by
  have h := takeWhile_prefix (!isBreak ·) (l := ts.reverse)
  rwa [← reverse_suffix, reverse_reverse] at h

theorem lineStart_eq (hi : i ≤ ts.length) : ts.lineStart i = i - (lastLine (ts.take i)).length := by
  have hlen : (lastLine (ts.take i)).length = (ts.take i).reverse.findIdx isBreak := by
    rw [lastLine, length_reverse, takeWhile_eq_take_findIdx_not, length_take,
      Nat.min_eq_left findIdx_le_length]
    simp
  have htake : (ts.take i).length = i := length_take_of_le hi
  rw [hlen, lineStart, previousBreak?]
  cases hfound : (ts.take i).reverse.findIdx? isBreak with
  | none =>
    rw [findIdx_eq_length.2 (findIdx?_eq_none_iff.1 hfound), length_reverse, htake]
    simp
  | some k =>
    obtain ⟨hk, -⟩ := findIdx?_eq_some_iff_findIdx_eq.1 hfound
    rw [length_reverse, htake] at hk
    rw [(findIdx?_eq_some_iff_findIdx_eq.1 hfound).2, map_some, htake]
    dsimp only
    omega

theorem textOf_lineStart (hi : i ≤ ts.length) :
    ts.textOf ⟨ts.lineStart i, i⟩ = join (lastLine (ts.take i)) := by
  have hsuffix := suffix_iff_eq_drop.1 (lastLine_suffix (ts.take i))
  rw [length_take_of_le hi, ← lineStart_eq hi, drop_take] at hsuffix
  rw [textOf, hsuffix]

theorem opens_lineStart (hi : i ≤ ts.length) :
    (ts.take (ts.lineStart i)).getLast?.all isBreak := by
  induction i with
  | zero => simp [lineStart, previousBreak?]
  | succ i ih =>
    have hget := getElem?_eq_getElem hi
    generalize ts[i] = t at hget
    have htake : ts.take (i + 1) = ts.take i ++ [t] := by rw [take_add_one, hget]; rfl
    by_cases ht : isBreak t
    · have hone : (ts.take (i + 1)).getLast?.all isBreak := by simp [htake, ht]
      have hline := lastLine_append hone []
      rw [append_nil] at hline
      rwa [lineStart_eq hi, hline]
    · have hline : (lastLine (ts.take (i + 1))).length = (lastLine (ts.take i)).length + 1 := by
        rw [htake, lastLine, reverse_append]
        simp [ht, lastLine]
      have hsame : ts.lineStart (i + 1) = ts.lineStart i := by
        rw [lineStart_eq hi, lineStart_eq (by omega), hline]
        omega
      rw [hsame]
      exact ih (by omega)

/-- Where a position goes when others come in. -/
def pushed (p n i : Nat) : Nat :=
  if i < p then i else i + n

theorem pushed_lt_pushed : pushed p n i < pushed p n j ↔ i < j := by
  unfold pushed
  split <;> split <;> omega

theorem pushed_mono (h : i ≤ j) : pushed p n i ≤ pushed p n j := by
  unfold pushed
  split <;> split <;> omega

def lowered (ts : Layout) (p n : Nat) : Layout :=
  ts.take p ++ (List.replicate n lineBreak ++ ts.drop p)

section

variable (hp : p ≤ ts.length)
include hp

theorem take_lowered_above (hi : i ≤ p) (n : Nat) : (ts.lowered p n).take i = ts.take i := by
  rw [lowered, take_append_of_le_length (by rw [length_take]; omega), take_take,
    Nat.min_eq_left hi]

theorem take_lowered_below (hi : p ≤ i) (n : Nat) : (ts.lowered p n).take (i + n) =
    ts.take p ++ (replicate n lineBreak ++ (ts.drop p).take (i - p)) := by
  have hlen : (ts.take p ++ replicate n lineBreak).length = p + n := by
    rw [length_append, length_take_of_le hp, length_replicate]
  have hi : i + n = (ts.take p ++ replicate n lineBreak).length + (i - p) := by omega
  rw [lowered, ← append_assoc, hi, take_length_add_append, append_assoc]

theorem lineOf_lowered_above (hi : i ≤ p) (n : Nat) : (ts.lowered p n).lineOf i = ts.lineOf i := by
  rw [lineOf, lineOf, take_lowered_above hp hi]

theorem lineOf_lowered_below (hi : p ≤ i) (n : Nat) :
    (ts.lowered p n).lineOf (i + n) = ts.lineOf i + n := by
  have hn : (replicate n lineBreak).countP isBreak = n := by
    simp [countP_replicate, isBreak]
  have htake : ts.take i = ts.take p ++ (ts.drop p).take (i - p) := by
    rw [← take_add, Nat.add_sub_cancel' hi]
  rw [lineOf, lineOf, take_lowered_below hp hi, htake, breaks, breaks, countP_append,
    countP_append, countP_append, hn]
  omega

/-- A line that was there starts and reads as it did when blank lines come in between others. -/
theorem line_lowered (hopens : (ts.take p).getLast?.all isBreak) (hi : i ≤ ts.length) :
    (ts.lowered p n).lineStart (pushed p n i) = pushed p n (ts.lineStart i) ∧
      (ts.lowered p n).textOf ⟨pushed p n (ts.lineStart i), pushed p n i⟩ =
        ts.textOf ⟨ts.lineStart i, i⟩ := by
  have hlength : (ts.lowered p n).length = ts.length + n := by
    simp only [lowered, length_append, length_take_of_le hp, length_replicate,
      length_drop]
    omega
  have hle : pushed p n i ≤ (ts.lowered p n).length := by
    unfold pushed
    split <;> omega
  have key : lastLine ((ts.lowered p n).take (pushed p n i)) = lastLine (ts.take i) ∧
      (p ≤ i → p ≤ ts.lineStart i) := by
    rcases Nat.lt_or_ge i p with hlt | hge
    · rw [pushed, if_pos hlt, take_lowered_above hp hlt.le]
      exact ⟨rfl, fun h => absurd h (Nat.not_le.2 hlt)⟩
    · have htake : ts.take i = ts.take p ++ (ts.drop p).take (i - p) := by
        rw [← take_add, Nat.add_sub_cancel' hge]
      have hline := lastLine_append hopens ((ts.drop p).take (i - p))
      rw [pushed, if_neg (Nat.not_lt.2 hge), take_lowered_below hp hge, lineStart_eq hi, htake,
        hline, lastLine_append hopens,
        lastLine_append (by cases n <;> simp [getLast?_replicate, isBreak])]
      refine ⟨rfl, fun _ => ?_⟩
      have := (lastLine_suffix ((ts.drop p).take (i - p))).length_le
      rw [length_take] at this
      omega
  have hstart : (ts.lowered p n).lineStart (pushed p n i) = pushed p n (ts.lineStart i) := by
    have hstart := ts.lineStart_le i
    have hsuffix := (lastLine_suffix (ts.take i)).length_le
    rw [length_take_of_le hi] at hsuffix
    rw [lineStart_eq hle, key.1]
    rw [lineStart_eq hi] at hstart key ⊢
    unfold pushed
    split <;> split <;> omega
  rw [← hstart, textOf_lineStart hle, textOf_lineStart hi, key.1]
  exact ⟨rfl, rfl⟩

omit hp in
theorem unitOf_lowered (hopens : (ts.take p).getLast?.all isBreak = true) (fallback : String) :
    Indent.unitOf (join (ts.lowered p 1)) fallback = Indent.unitOf (join ts) fallback := by
  have hjoin : (join ts).toList = (join (ts.take p)).toList ++ (join (ts.drop p)).toList := by
    rw [← String.toList_append, ← join_append, take_append_drop]
  have hlow : (join (ts.lowered p 1)).toList =
      (join (ts.take p)).toList ++ '\n' :: (join (ts.drop p)).toList := by
    rw [lowered, join_append, join_append, String.toList_append, String.toList_append]
    rfl
  rcases eq_nil_or_concat' (ts.take p) with hnil | ⟨zs, t, hzs⟩
  · rw [hnil] at hjoin hlow
    refine Indent.unitOf_congr (congrArg Text.lines hjoin) (?_ : _ = [] ++ _) fallback
    rw [hlow]
    simp [join, Text.lines]
  · rw [hzs, getLast?_concat, Option.all_some] at hopens
    have ht : (join [t]).toList = ['\n'] := by
      rw [eq_of_beq hopens]
      rfl
    rw [hzs, join_append, String.toList_append, ht, append_assoc] at hjoin hlow
    refine Indent.unitOf_congr ((congrArg Text.lines hjoin).trans (Text.lines_append_break ..)) ?_
      fallback
    rw [hlow, singleton_append, Text.lines_append_break, Text.lines, if_pos rfl]
    rfl

end

end Layout

namespace Document

variable {doc low mid : Document} {node : Node} {b list : Branch} {l : Leaf} {p n m : Nat}
  {r : Span}

/-- A document with the tree of another one. The tokens that containers hold stand at the positions
that a map gives, and the lines that they stand on read as they did. -/
structure Tracks (doc low : Document) (f : Nat → Nat) : Prop where
  start : doc.IsTree
  tree : low.IsTree
  adds : Forest.Adds none [] doc.toForest low.toForest
  position?_eq : ∀ l b, doc.parent (.leaf l) = some b → low.position? l = (doc.position? l).map f
  lt_iff : ∀ i j, f i < f j ↔ i < j
  line_eq : ∀ i ≤ doc.layout.length, low.layout.lineStart (f i) = f (doc.layout.lineStart i) ∧
    low.layout.textOf ⟨f (doc.layout.lineStart i), f i⟩ =
      doc.layout.textOf ⟨doc.layout.lineStart i, i⟩
  grammar_eq : low.grammar = doc.grammar
  unit_eq : low.indentUnit = doc.indentUnit

namespace Tracks

variable {f : Nat → Nat} (h : Tracks doc low f)
include h

theorem contains_eq (hp : doc.parent l = some b) :
    low.order.contains l = doc.order.contains l := by
  have key : ∀ d : Document, d.order.contains l = (d.position? l).isSome := fun d => by
    rw [position?, Bool.eq_iff_iff, contains_iff_mem, isSome_idxOf?]
  rw [key, key, h.position?_eq l b hp, isSome_map]

section

variable (hc : node ∈ doc.children b)
include hc

theorem leaves_eq : low.leaves node = doc.leaves node := by
  have hlinked := h.start.linked
  cases node with
  | leaf l => rw [leaves_leaf, leaves_leaf]
  | branch c =>
    exact hlinked.leaves_congr h.tree.linked c fun d hd =>
      h.adds.children d (hd.has_inside (hlinked.has_child hc)) nofun

theorem visibleLeaves_eq : low.visibleLeaves node = doc.visibleLeaves node := by
  rw [visibleLeaves, visibleLeaves, h.leaves_eq hc]
  refine filter_congr fun l hl => ?_
  obtain ⟨c, hp⟩ := h.start.linked.held hc hl
  exact h.contains_eq hp

theorem range?_eq : low.range? node =
    (doc.range? node).map fun r => ⟨f r.start, f (r.stop - 1) + 1⟩ := by
  have hshown := h.visibleLeaves_eq hc
  cases hr : doc.range? node with
  | none =>
    rw [range?_eq_none] at hr
    rw [map_none, range?_eq_none, hshown, hr]
  | some r =>
    obtain ⟨first, last, j, hfirst, hlast, hi, hj, hstop⟩ := exists_of_range? hr
    have hpos : ∀ x i, x ∈ doc.visibleLeaves node → doc.position? x = some i →
        low.position? x = some (f i) := by
      intro x i hx hi
      obtain ⟨c, hp⟩ := h.start.linked.held hc (mem_visibleLeaves.1 hx).1
      rw [h.position?_eq x c hp, hi, map_some]
    rw [map_some, hstop, Nat.add_sub_cancel]
    refine range?_eq_some ?_ ?_ (hpos first _ (mem_of_head? hfirst) hi)
      (hpos last j (mem_of_getLast? hlast) hj)
    · rw [firstLeaf?, hshown]
      exact hfirst
    · rw [lastLeaf?, hshown]
      exact hlast

theorem leftLeaves_eq : low.leftLeaves node = doc.leftLeaves node := by
  have hlinked := h.start.linked
  have hp := hlinked.down hc
  obtain ⟨xs, ys, hxy, hxs, -⟩ := hlinked.exists_siblings hp
  have hxs' : xs.flatMap low.leaves = xs.flatMap doc.leaves :=
    flatMap_congr fun n hn => h.leaves_eq (hxy ▸ mem_append_left _ hn)
  have hb := hlinked.has_parent hp
  rw [hlinked.leftLeaves_of_parent hp hxy hxs, h.tree.linked.leftLeaves_of_parent
    ((h.adds.owner node (hlinked.has_child hc) nofun).trans hp)
    ((h.adds.children b hb nofun).trans hxy) hxs, hxs', (hlinked.beside_congr h.tree.linked
      (fun c hc _ => h.adds.children c hc nofun) fun c ha =>
        h.adds.owner _ (ha.has_outside hlinked hb) nofun).1]

theorem trivia_start_le {q : Nat} :
    (low.trivia node).start ≤ f q ↔ (doc.trivia node).start ≤ q := by
  have hlinked := h.start.linked
  have hheld : ∀ l ∈ doc.leftLeaves node, ∃ c, doc.parent l = some c := fun l hl =>
    hlinked.held_beside node l (mem_append_left _ hl)
  have hleft : low.leftLeaf? node = doc.leftLeaf? node := by
    rw [leftLeaf?_eq h.tree.linked, leftLeaf?_eq hlinked, h.leftLeaves_eq hc]
    refine congrArg _ (filter_congr fun l hl => ?_)
    obtain ⟨c, hp⟩ := hheld l hl
    exact h.contains_eq hp
  rw [trivia, trivia, hleft]
  cases hl : doc.leftLeaf? node with
  | none => simp
  | some l =>
    rw [leftLeaf?_eq hlinked] at hl
    obtain ⟨hl, ho⟩ := mem_filter.1 (mem_of_getLast? hl)
    obtain ⟨j, hj⟩ := exists_position (contains_iff_mem.1 ho)
    obtain ⟨c, hp⟩ := hheld l hl
    simp only [bind_some, h.position?_eq l c hp, hj, map_some, Nat.add_one_le_iff]
    exact h.lt_iff j q

end

theorem shownIndent?_eq (hb : doc.Has b) : low.shownIndent? b = doc.shownIndent? b := by
  have hshown : ∀ c ∈ doc.children b, ((low.range? c).bind fun r =>
      let start := low.layout.lineStart r.start
      if (low.trivia c).start ≤ start then some (low.layout.textOf ⟨start, r.start⟩) else none) =
      (doc.range? c).bind fun r =>
        let start := doc.layout.lineStart r.start
        if (doc.trivia c).start ≤ start then some (doc.layout.textOf ⟨start, r.start⟩)
        else none := by
    intro c hc
    rw [h.range?_eq hc]
    cases hr : doc.range? c with
    | none => rfl
    | some r =>
      have hle : r.start ≤ doc.layout.length := by
        obtain ⟨_, _, _, -, -, hi, -⟩ := exists_of_range? hr
        rw [layout, length_map]
        exact (idxOf?_lt_length hi).le
      obtain ⟨hstart, htext⟩ := h.line_eq r.start hle
      simp only [map_some, bind_some, hstart, htext, h.trivia_start_le hc]
  rw [shownIndent?, shownIndent?, h.adds.children b hb (some_ne_none b).symm]
  dsimp only
  split <;> refine bind_congr fun c hc => ?_
  · exact hshown c (mem_of_getElem? hc)
  · exact hshown c (mem_of_head? hc)

/-- Every block shows the indentation that it showed. -/
theorem indent_eq (hn : doc.Has node) : low.indent node = doc.indent node := by
  have hlinked := h.start.linked
  have hblocks : low.blocksAround node = doc.blocksAround node := by
    rw [blocksAround, blocksAround, h.grammar_eq, hlinked.ancestors_congr h.tree.linked node
      (h.adds.owner node hn nofun) fun b hb => h.adds.owner _ (hb.has_outside hlinked hn) nofun]
    exact filter_congr fun b hb => by
      rw [h.adds.kindOf b ((hlinked.around_of_mem_ancestors hb).has_outside hlinked hn)]
  have halong : ∀ bs : List Branch, (∀ b ∈ bs, doc.Has b) →
      low.indentAlong bs = doc.indentAlong bs := by
    intro bs hbs
    induction bs with
    | nil => rfl
    | cons b bs ih =>
      obtain ⟨hb, hbs⟩ := forall_mem_cons.1 hbs
      rw [indentAlong, indentAlong, h.shownIndent?_eq hb, ih hbs, h.unit_eq]
  rw [indent, indent, hblocks]
  exact halong _ fun b hb =>
    (hlinked.around_of_mem_ancestors (mem_of_mem_filter hb)).has_outside hlinked hn

end Tracks

/-- A document and the same with blank lines that have come in at the start of a line. -/
structure Lowered (doc low : Document) (p n : Nat) : Prop where
  start : doc.IsTree
  relaid : doc.Relaid low
  le : p ≤ doc.layout.length
  opens : (doc.layout.take p).getLast?.all Layout.isBreak = true
  layout_eq : low.layout = doc.layout.lowered p n
  position?_eq : ∀ l, doc.Has (.leaf l) → low.position? l = (doc.position? l).map (pushed p n)
  grammar_eq : low.grammar = doc.grammar
  unit_eq : low.indentUnit = doc.indentUnit

theorem Lowered.trans (h : Lowered doc mid p n) (h' : Lowered mid low p m) :
    Lowered doc low p (m + n) := by
  refine ⟨h.start, h.relaid.trans h'.relaid, h.le, h.opens, ?_, fun l hl => ?_,
    h'.grammar_eq.trans h.grammar_eq, h'.unit_eq.trans h.unit_eq⟩
  · have htake : mid.layout.take p = doc.layout.take p := by
      rw [h.layout_eq, take_lowered_above h.le le_rfl]
    have hdrop : mid.layout.drop p = replicate n lineBreak ++ doc.layout.drop p := by
      rw [h.layout_eq, lowered, drop_left' (length_take_of_le h.le)]
    rw [h'.layout_eq, lowered, htake, hdrop, lowered, replicate_add,
      append_assoc]
  · rw [h'.position?_eq l (h.relaid.retexted.has _ hl), h.position?_eq l hl, Option.map_map]
    congr 1
    funext i
    simp only [Function.comp, pushed]
    repeat' split
    all_goals omega

theorem lowered_insertNew (h : doc.IsTree) (hp : p ≤ doc.layout.length)
    (hopens : (doc.layout.take p).getLast?.all isBreak) :
    Lowered doc ((doc.newToken lineBreak).2.insertAt p
      [(doc.newToken lineBreak).1]) p 1 := by
  have hrelaid := h.insertNew lineBreak p
  have hold : ∀ ls : List Leaf, ls ⊆ doc.order →
      ls.map (doc.newToken lineBreak).2.textOf = ls.map doc.textOf := fun ls hls =>
    map_congr_left fun l hl => textOf_newToken_of_has (h.order_has l (hls hl)) _
  have hlayout : ((doc.newToken lineBreak).2.insertAt p
      [(doc.newToken lineBreak).1]).layout = doc.layout.lowered p 1 := by
    show (doc.order.take p ++ [_] ++ doc.order.drop p).map (doc.newToken lineBreak).2.textOf
      = _
    rw [map_append, map_append, hold _ (take_subset ..),
      hold _ (drop_subset ..), map_singleton, textOf_newToken, map_take,
      map_drop, append_assoc]
    rfl
  refine ⟨h, hrelaid, hp, hopens, hlayout, fun l hl => ?_, rfl, ?_⟩
  · have hn := hrelaid.tree.order_nodup
    cases hi : doc.position? l with
    | none =>
      have hout : l ∉ doc.order := fun hm => by
        obtain ⟨i, hi'⟩ := exists_position hm
        rw [hi] at hi'
        cases hi'
      refine idxOf?_eq_none_iff.2 fun hm => hout ((mem_insertAt.1 hm).resolve_left fun hm => ?_)
      rw [mem_singleton.1 hm] at hl
      exact not_has_newToken _ _ hl
    | some i =>
      rw [map_some, pushed]
      split
      · next hlt => exact position?_insertAt_left hn hi hlt
      · next hge => exact position?_insertAt_right hn hi (Nat.le_of_not_lt hge)
  · rw [indentUnit, indentUnit, text, hlayout, unitOf_lowered hopens]
    rfl

theorem lowered_insertBreaks (h : doc.IsTree) (hp : p ≤ doc.layout.length)
    (hopens : (doc.layout.take p).getLast?.all isBreak) (n : Nat) :
    Lowered doc (doc.insertBreaks p n) p n := by
  induction n generalizing doc with
  | zero =>
    refine ⟨h, .refl h, hp, hopens, (take_append_drop ..).symm, fun l _ => ?_, rfl, rfl⟩
    have hid : pushed p 0 = id := funext fun i => ite_self i
    rw [hid, map_id_apply]
    rfl
  | succ n ih =>
    have hone := lowered_insertNew h hp hopens
    refine hone.trans (ih hone.relaid.tree ?_ ?_)
    · rw [hone.layout_eq, lowered, length_append, length_take_of_le hp]
      omega
    · rw [hone.layout_eq, take_lowered_above hp le_rfl]
      exact hopens

namespace Lowered

variable (h : Lowered doc low p n)
include h

theorem tracks : Tracks doc low (pushed p n) :=
  ⟨h.start, h.relaid.tree, h.relaid.retexted.adds,
    fun l _ hp => h.position?_eq l (has_of_parent hp), fun _ _ => pushed_lt_pushed,
    fun _ hi => h.layout_eq ▸ line_lowered h.le h.opens hi, h.grammar_eq, h.unit_eq⟩

theorem leastBetween_eq {rule : ListRule} (hb : b ∈ doc.listElements rule list)
    (left right : Branch) :
    low.leastBetween rule list left right = doc.leastBetween rule list left right := by
  have hlist := has_of_mem_children (mem_listElements.1 hb).1
  have hone : ∀ b, low.blankLinesFor rule list b = doc.blankLinesFor rule list b := fun b => by
    rw [blankLinesFor_eq, blankLinesFor_eq, isTopLevel, isTopLevel, h.tracks.indent_eq hlist,
      kindsOf_of_retexted h.relaid.retexted]
  rw [leastBetween, leastBetween, hone, hone]

end Lowered

end Document

end Lossless
