import Lossless.Proofs.Arriving
import Lossless.Proofs.Calls
import Lossless.Proofs.Vacated

/-! Lines moved in by a unit and out again. The texts of the moved tokens are read off the texts that
were there, and white space that is all of one character loses what it has gained. -/

namespace Lossless

open List Option Layout Forest

namespace Layout

variable {c : Char} {n : Nat} {t unit : String}

/-- Texts whose lines are moved in by a unit. -/
def indented (unit : String) : Bool → Layout → Layout
  | _, [] => []
  | opensLine, t :: ts =>
    if opensLine && !isBreak t then
      if Text.isBlank t then (t ++ unit) :: indented unit (isBreak (t ++ unit)) ts
      else unit :: t :: indented unit false ts
    else t :: indented unit (isBreak t) ts

def dedented (unit : String) : Bool → Layout → Layout
  | _, [] => []
  | opensLine, t :: ts =>
    if opensLine && isGap t && unit.toList.isPrefixOf t.toList then
      let rest := String.ofList (t.toList.drop unit.length)
      if rest.isEmpty then dedented unit true ts else rest :: dedented unit (isBreak rest) ts
    else t :: dedented unit (isBreak t) ts

/-- White space that opens a line is made of one character. -/
def OpensWith (c : Char) : Bool → Layout → Prop
  | _, [] => True
  | opensLine, t :: ts => (opensLine = true → isGap t = true → ∀ d ∈ t.toList, d = c) ∧
      OpensWith c (isBreak t) ts

theorem opensWith_of_take {before ts : Layout}
    (h : ∀ i t, ts[i]? = some t → (before ++ ts.take i).getLast?.all isBreak = true →
      isGap t = true → ∀ d ∈ t.toList, d = c) :
    OpensWith c (before.getLast?.all isBreak) ts := by
  induction ts generalizing before with
  | nil => trivial
  | cons t ts ih =>
    refine ⟨fun hopen => h 0 t rfl (by rwa [take_zero, append_nil]), ?_⟩
    have hrest : OpensWith c ((before ++ [t]).getLast?.all isBreak) ts := by
      refine ih fun i u hu hopen => h (i + 1) u hu ?_
      rwa [take_succ_cons, append_cons]
    rwa [getLast?_concat] at hrest

theorem opensWith_of_getElem? {before inner behind ts : Layout}
    (hts : ts = before ++ (inner ++ behind))
    (h : ∀ i t, before.length ≤ i → i < before.length + inner.length → ts[i]? = some t →
      (i = 0 ∨ ts[i - 1]? = some lineBreak) → isGap t = true → ∀ d ∈ t.toList, d = c) :
    OpensWith c (before.getLast?.all isBreak) inner := by
  refine opensWith_of_take fun i t ht hopen => ?_
  obtain ⟨hi, -⟩ := List.getElem?_eq_some_iff.1 ht
  have hat : ts[before.length + i]? = some t := by
    rw [hts, getElem?_append_right (Nat.le_add_right ..), Nat.add_sub_cancel_left,
      getElem?_append_left hi]
    exact ht
  refine h _ t (Nat.le_add_right ..) (Nat.add_lt_add_left hi _) hat ?_
  refine (Nat.eq_zero_or_pos (before.length + i)).imp_right fun hpos => ?_
  have hlt : before.length + i - 1 < ts.length := by
    have := (List.getElem?_eq_some_iff.1 hat).1
    omega
  have htake : before ++ inner.take i = ts.take (before.length + i) := by
    rw [hts, take_length_add_append, take_append_of_le_length hi.le]
  rw [htake, getLast?_take, if_neg (by omega), getElem?_eq_getElem hlt, some_or,
    all_some] at hopen
  rw [getElem?_eq_getElem hlt, eq_of_beq hopen]

section

variable (hc : c = ' ' ∨ c = '\t')
include hc

theorem isGap_replicate (n : Nat) : isGap (String.ofList (replicate n c)) = true := by
  have hbreak : isBreak (String.ofList (replicate n c)) = false := by
    rw [isBreak, beq_eq_false_iff_ne, lineBreak]
    intro he
    have hmem : '\n' ∈ (String.ofList (replicate n c)).toList := he ▸ by decide
    rw [String.toList_ofList] at hmem
    rcases hc with rfl | rfl <;> cases eq_of_mem_replicate hmem
  have hblank : Text.isBlankChar c = true := by rcases hc with rfl | rfl <;> rfl
  rw [isGap, hbreak, Text.isBlank, String.toList_ofList]
  simp [hblank]

/-- What is moved in comes out again. -/
theorem dedented_indented {ts : Layout} {opensLine : Bool}
    (hunit : unit = String.ofList (replicate (n + 1) c)) (hts : ∀ t ∈ ts, t ≠ "")
    (h : OpensWith c opensLine ts) : dedented unit opensLine (indented unit opensLine ts) = ts := by
  induction ts generalizing opensLine with
  | nil => rfl
  | cons t ts ih =>
    obtain ⟨hne, htail⟩ := forall_mem_cons.1 hts
    obtain ⟨hfirst, hrest⟩ := h
    have hgap : isGap unit = true := hunit ▸ isGap_replicate hc _
    rw [indented]
    split
    · next hopen =>
      obtain ⟨rfl, hbreak⟩ := Bool.and_eq_true_iff.1 hopen
      rw [Bool.not_eq_true'] at hbreak
      rw [hbreak] at hrest
      split
      · next hblank =>
        -- the white space is longer than the unit by what it was
        obtain ⟨k, hk⟩ : ∃ k, t.toList = replicate k c :=
          ⟨_, eq_replicate_of_mem (hfirst rfl (by rw [isGap, hbreak, hblank]; rfl))⟩
        obtain rfl : t = String.ofList (replicate k c) := by rw [← hk, String.ofList_toList]
        have hgrown : String.ofList (replicate k c) ++ unit =
            String.ofList (replicate (n + 1 + k) c) := by
          rw [hunit, ← String.ofList_append, replicate_append_replicate, Nat.add_comm]
        have hgap' := isGap_replicate hc (n + 1 + k)
        have hplain := (Bool.and_eq_true_iff.1 hgap').1
        have hprefix : unit.toList.isPrefixOf (replicate (n + 1 + k) c) = true := by
          rw [hunit, String.toList_ofList]
          exact isPrefixOf_iff_prefix.2 ⟨_, replicate_append_replicate⟩
        have hdrop : String.ofList ((replicate (n + 1 + k) c).drop unit.length) =
            String.ofList (replicate k c) := by
          rw [hunit, String.length_ofList, length_replicate, drop_replicate,
            Nat.add_sub_cancel_left]
        rw [Bool.not_eq_true'] at hplain
        rw [hgrown, hplain, dedented, hgap', String.toList_ofList, hprefix, Bool.and_self,
          Bool.and_self, if_pos rfl]
        dsimp only
        rw [hdrop, hbreak, ih htail hrest, if_neg]
        rwa [String.isEmpty_iff]
      · next hink =>
        have hprefix : unit.toList.isPrefixOf unit.toList = true :=
          isPrefixOf_iff_prefix.2 prefix_rfl
        have hnone : (String.ofList (unit.toList.drop unit.length)).isEmpty = true := by
          rw [← String.length_toList, drop_length]
          rfl
        have hnot : isGap t = false := by rw [isGap, Bool.eq_false_iff.2 hink, Bool.and_false]
        rw [dedented, hgap, hprefix, Bool.and_self, Bool.and_self, if_pos rfl]
        dsimp only
        rw [if_pos hnone, dedented, hnot, Bool.and_false, Bool.false_and, hbreak, ih htail hrest]
        rfl
    · next hstays =>
      have hnot : (opensLine && isGap t) = false := by
        rw [isGap, ← Bool.and_assoc, Bool.eq_false_iff.2 hstays, Bool.false_and]
      rw [dedented, hnot, Bool.false_and, ih htail hrest]
      rfl

end

end Layout

namespace Document

variable {doc : Document} {b : Branch}

/-! ### Texts of moved tokens -/

/-- A change of tokens that shows in their texts alone, and nowhere else. -/
def Respells (change : Bool → List Leaf → Forest → List Leaf × Forest)
    (texts : Bool → Layout → Layout) : Prop :=
  ∀ opensLine ls f, ls.Nodup → (∀ l ∈ ls, f.Has (.leaf l)) →
    (change opensLine ls f).1.map (change opensLine ls f).2.textOf =
      texts opensLine (ls.map f.textOf) ∧
    ∀ l, f.Has (.leaf l) → l ∉ ls → (change opensLine ls f).2.textOf l = f.textOf l

theorem textOf_setText (f : Forest) (l m : Leaf) (text : String) (hl : f.Has l) :
    (f.setText l text).textOf m = if l = m then text else f.textOf m := by
  rw [Forest.textOf, setText, token_modifyToken]
  by_cases he : l = m
  · simp [he, he ▸ hl]
  · simp [he, Forest.textOf]

theorem map_textOf_setText {f : Forest} {l : Leaf} {ls : List Leaf} (text : String)
    (hhas : f.Has l) (hl : l ∉ ls) : ls.map (f.setText l text).textOf = ls.map f.textOf :=
  map_congr_left fun m hm => by
    rw [textOf_setText f l m text hhas, if_neg (ne_of_mem_of_not_mem hm hl).symm]

theorem respells_indentTokens (unit : String) :
    Respells (indentTokens unit) (indented unit) := by
  intro opensLine ls f hn hhas
  refine ⟨?_, fun l hl hout => textOf_indentTokens_of_kept hl fun _ => hout⟩
  induction ls generalizing opensLine f with
  | nil => rfl
  | cons l ls ih =>
    obtain ⟨hout, hn⟩ := nodup_cons.1 hn
    obtain ⟨hl, hhas⟩ := forall_mem_cons.1 hhas
    rw [indentTokens, map_cons, indented]
    dsimp only
    split
    · split
      · have hset := Retexted.setText f l (f.textOf l ++ unit)
        rw [map_cons, textOf_indentTokens_of_kept (hset.has _ hl) fun _ => hout,
          ih _ _ hn fun m hm => hset.has _ (hhas m hm), map_textOf_setText _ hl hout,
          textOf_setText f l l _ hl, if_pos rfl]
      · have hnew : (f.addToken { text := unit }).1 ∉ ls := fun hm =>
          f.not_has_addToken _ (hhas _ hm)
        have hold : ∀ m, f.Has (.leaf m) → (f.addToken { text := unit }).2.textOf m = f.textOf m :=
          fun m hm => textOf_addToken_of_has hm _
        rw [map_cons, map_cons,
          textOf_indentTokens_of_kept (has_new_token ..) fun _ => hnew,
          textOf_indentTokens_of_kept (has_addToken hl _) fun _ => hout, hold l hl,
          ih _ _ hn fun m hm => has_addToken (hhas m hm) _,
          map_congr_left fun m hm => hold m (hhas m hm)]
        exact congrArg (· :: _) (by simp [Forest.textOf, Forest.token_addToken])
    · rw [map_cons, Forest.textOf_indentTokens_of_kept hl fun _ => hout, ih _ _ hn hhas]

theorem respells_dedentTokens (unit : String) :
    Respells (dedentTokens unit) (dedented unit) := by
  intro opensLine ls f hn hhas
  induction ls generalizing opensLine f with
  | nil => exact ⟨rfl, fun _ _ _ => rfl⟩
  | cons l ls ih =>
    obtain ⟨hout, hn⟩ := nodup_cons.1 hn
    obtain ⟨hl, hhas⟩ := forall_mem_cons.1 hhas
    rw [dedentTokens, map_cons, dedented]
    dsimp only
    split
    · split
      · obtain ⟨hmap, hkept⟩ := ih true f hn hhas
        exact ⟨hmap, fun m hm hne => hkept m hm fun h => hne (mem_cons_of_mem l h)⟩
      · have hset := Retexted.setText f l (String.ofList ((f.textOf l).toList.drop unit.length))
        obtain ⟨hmap, hkept⟩ := ih (isBreak (String.ofList
          ((f.textOf l).toList.drop unit.length))) _ hn fun m hm => hset.has _ (hhas m hm)
        refine ⟨?_, fun m hm hne => ?_⟩
        · rw [map_cons, hkept l (hset.has _ hl) hout, hmap, map_textOf_setText _ hl hout,
            textOf_setText f l l _ hl, if_pos rfl]
        · rw [mem_cons, not_or] at hne
          rw [hkept m (hset.has _ hm) hne.2, textOf_setText f l m _ hl, if_neg (Ne.symm hne.1)]
    · obtain ⟨hmap, hkept⟩ := ih (isBreak (f.textOf l)) f hn hhas
      refine ⟨?_, fun m hm hne => hkept m hm fun h => hne (mem_cons_of_mem l h)⟩
      rw [map_cons, hkept l hl hout, hmap]

theorem layout_mapAround (h : doc.IsTree) (b : Branch)
    {change : Bool → List Leaf → Forest → List Leaf × Forest} {texts : Bool → Layout → Layout}
    (hc : Respells change texts) :
    (doc.mapAround b change).layout = doc.layout.take (doc.trivia b).start ++
      (texts ((doc.layout.take (doc.trivia b).start).getLast?.all isBreak)
        ((doc.leavesIn (doc.trivia b)).map doc.textOf) ++ doc.layout.drop (doc.trivia b).stop) := by
  have hn := h.order_nodup
  have hhas := h.order_has
  rw [doc.order_eq_leavesIn (doc.trivia_start_le b)] at hn hhas
  obtain ⟨-, hrest, hbefore⟩ := nodup_append.1 hn
  obtain ⟨hin, -, hbehind⟩ := nodup_append.1 hrest
  let opensLine := (doc.layout.take (doc.trivia b).start).getLast?.all isBreak
  let changed := change opensLine (doc.leavesIn (doc.trivia b)) doc.toForest
  obtain ⟨hmap, hkept⟩ := hc opensLine (doc.leavesIn (doc.trivia b)) doc.toForest hin fun l hl =>
    hhas l (mem_append_right _ (mem_append_left _ hl))
  have hlayout : (doc.mapAround b change).layout = (doc.order.take (doc.trivia b).start ++
      changed.1 ++ doc.order.drop (doc.trivia b).stop).map changed.2.textOf := rfl
  rw [hlayout, append_assoc, map_append, map_append, ← hmap, layout, ← map_take,
    ← map_drop]
  refine congrArg₂ _ (map_congr_left fun l hl => ?_)
    (congrArg _ (map_congr_left fun l hl => ?_))
  · exact hkept l (hhas l (mem_append_left _ hl)) fun hm =>
      hbefore l hl l (mem_append_left _ hm) rfl
  · exact hkept l (hhas l (mem_append_right _ (mem_append_right _ hl))) fun hm =>
      hbehind l hm l hl rfl

/-! ### The same lines again -/

/-- Moving lines in leaves the positions around a container where they were, but for new tokens. -/
theorem Aligned.trivia_increaseIndent (h : doc.Aligned) (b : Branch) {unit : String}
    {moved : List Leaf} (horder : (doc.increaseIndent b unit).order =
      doc.order.take (doc.trivia b).start ++ (moved ++ doc.order.drop (doc.trivia b).stop)) :
    (doc.increaseIndent b unit).trivia b =
      ⟨(doc.trivia b).start, (doc.trivia b).start + moved.length⟩ := by
  have hrelaid := h.tree.increaseIndent b unit
  have hnodup := hrelaid.tree.order_nodup
  have hlength : (doc.order.take (doc.trivia b).start).length = (doc.trivia b).start :=
    length_take_of_le ((doc.trivia_start_le b).trans (doc.trivia_stop_le_length b))
  obtain ⟨hleft, hright⟩ := hrelaid.retexted.beside h.tree.linked b
  have hshown : ∀ ls : List Leaf, (∀ l ∈ ls, doc.Has (.leaf l)) →
      ls.filter (doc.increaseIndent b unit).order.contains = ls.filter doc.order.contains := by
    refine fun ls hls => filter_congr fun l hl => ?_
    rw [Bool.eq_iff_iff, contains_iff_mem, contains_iff_mem]
    exact ⟨fun hm => mem_of_mem_increaseIndent hm (hls l hl),
      fun hm => (doc.sublist_increaseIndent b unit).subset hm⟩
  have hleft? : (doc.increaseIndent b unit).leftLeaf? b = doc.leftLeaf? b := by
    rw [leftLeaf?_eq hrelaid.tree.linked, leftLeaf?_eq h.tree.linked, hleft]
    rw [hshown _ fun l hl => h.tree.linked.has_beside b l (mem_append_left _ hl)]
  have hright? : (doc.increaseIndent b unit).rightLeaf? b = doc.rightLeaf? b := by
    rw [rightLeaf?_eq hrelaid.tree.linked, rightLeaf?_eq h.tree.linked, hright]
    rw [hshown _ fun l hl => h.tree.linked.has_beside b l (mem_append_right _ hl)]
  have hstart : ((doc.increaseIndent b unit).trivia b).start = (doc.trivia b).start := by
    rcases h.trivia_start_cases b with ⟨hnone, hzero⟩ | ⟨l, i, hsome, -, hi, hnext⟩
    · simp [trivia, hleft?, hnone]
    · have hi' : (doc.increaseIndent b unit).position? l = some i := by
        refine idxOf?_of_getElem? hnodup ?_
        rw [horder, getElem?_append_left (by omega), getElem?_take_of_lt (by omega)]
        exact getElem?_of_idxOf? hi
      rw [hnext]
      simp [trivia, hleft?, hsome, hi']
  have hstop : ((doc.increaseIndent b unit).trivia b).stop =
      (doc.trivia b).start + moved.length := by
    rcases (h.increaseIndent b unit).trivia_stop_cases b with ⟨hnone, hend⟩ | ⟨r, hsome, -, hr⟩ <;>
      rcases h.trivia_stop_cases b with ⟨hnone', hend'⟩ | ⟨r', hsome', -, hr'⟩
    · rw [hend, horder, hend', drop_length, append_nil, length_append, hlength]
    · cases hnone.symm.trans (hright?.trans hsome')
    · cases hsome.symm.trans (hright?.trans hnone')
    · obtain rfl : r = r' := some.inj (hsome.symm.trans (hright?.trans hsome'))
      refine some.inj (hr.symm.trans (idxOf?_of_getElem? hnodup ?_))
      rw [horder, getElem?_append_right (by omega), hlength, Nat.add_sub_cancel_left,
        getElem?_append_right (Nat.le_refl _), Nat.sub_self, getElem?_drop]
      exact getElem?_of_idxOf? hr'
  rw [← hstop, ← hstart]

theorem layout_eq_around (doc : Document) (b : Branch) : doc.layout =
    doc.layout.take (doc.trivia b).start ++
      ((doc.leavesIn (doc.trivia b)).map doc.textOf ++ doc.layout.drop (doc.trivia b).stop) := by
  have horder := congrArg (map doc.textOf) (doc.order_eq_leavesIn (doc.trivia_start_le b))
  rwa [map_append, map_append, map_take, map_drop] at horder

/-- Lines moved in by some spaces, or by some tabs, and out again are what they were, if no token is
empty and the white space before them is of the same character. -/
theorem layout_increaseIndent_decreaseIndent (h : doc.IsTree) (ho : doc.Ordered) {c : Char}
    {n : Nat} (hc : c = ' ' ∨ c = '\t') (hempty : ∀ t ∈ doc.layout, t ≠ "")
    (hlines : ∀ i t, (doc.trivia (.branch b)).start ≤ i → i < (doc.trivia (.branch b)).stop →
      doc.layout[i]? = some t → (i = 0 ∨ doc.layout[i - 1]? = some "\n") →
      Layout.isGap t = true → ∀ d ∈ t.toList, d = c) :
    let unit := String.ofList (List.replicate (n + 1) c)
    ((doc.increaseIndent b unit).decreaseIndent b unit).layout = doc.layout := by
  intro unit
  let inner := (doc.leavesIn (doc.trivia b)).map doc.textOf
  let before := doc.layout.take (doc.trivia b).start
  let behind := doc.layout.drop (doc.trivia b).stop
  let opensLine := before.getLast?.all Layout.isBreak
  let moved := (indentTokens unit opensLine (doc.leavesIn (doc.trivia b)) doc.toForest).1
  have hunit : ¬ unit.isEmpty = true := by simp [unit, List.replicate_succ]
  have hin : doc.increaseIndent b unit = doc.mapAround b (indentTokens unit) := if_neg hunit
  have hout : ∀ d : Document, d.decreaseIndent b unit = d.mapAround b (dedentTokens unit) :=
    fun d => if_neg hunit
  have hlayout : doc.layout = before ++ (inner ++ behind) := doc.layout_eq_around b
  have hbefore : before.length = (doc.trivia b).start := by
    refine List.length_take_of_le ?_
    rw [layout, List.length_map]
    exact (doc.trivia_start_le b).trans (doc.trivia_stop_le_length b)
  have hinner : inner.length ≤ (doc.trivia b).stop - (doc.trivia b).start := by
    rw [List.length_map]
    exact List.length_take_le ..
  have hopens : Layout.OpensWith c opensLine inner :=
    Layout.opensWith_of_getElem? hlayout fun i t hle hlt =>
      hlines i t (hbefore ▸ hle) (by have := doc.trivia_start_le b; omega)
  -- the first change, and what the second one finds
  obtain ⟨hmap, -⟩ := respells_indentTokens unit opensLine (doc.leavesIn (doc.trivia b))
    doc.toForest (h.order_nodup.sublist ((List.take_sublist ..).trans (List.drop_sublist ..)))
    fun l hl => h.order_has l (List.mem_of_mem_drop (List.mem_of_mem_take hl))
  have hlength : moved.length = (Layout.indented unit opensLine inner).length := by
    rw [← hmap, List.length_map]
  have hmoved : (doc.increaseIndent b unit).layout =
      before ++ (Layout.indented unit opensLine inner ++ behind) := by
    rw [hin]
    exact layout_mapAround h b (respells_indentTokens unit)
  have htrivia : (doc.increaseIndent b unit).trivia b =
      ⟨before.length, before.length + (Layout.indented unit opensLine inner).length⟩ := by
    rw [← hlength, hbefore]
    refine Aligned.trivia_increaseIndent ⟨h, ho⟩ b ?_
    rw [hin]
    exact List.append_assoc ..
  rw [hout, layout_mapAround (h.increaseIndent b unit).tree b (respells_dedentTokens unit), htrivia,
    leavesIn, List.map_take, List.map_drop, ← layout, hmoved]
  dsimp only
  rw [List.take_left, List.drop_left, Nat.add_sub_cancel_left, List.take_left,
    Layout.dedented_indented hc rfl ?_ hopens, List.drop_append, Nat.add_sub_cancel_left,
    List.drop_left, List.drop_of_length_le (Nat.le_add_right ..), List.nil_append]
  · exact hlayout.symm
  · exact fun t ht => hempty t (hlayout ▸ List.mem_append_right _ (List.mem_append_left _ ht))

/-- Statements in braces, the first of them with nothing before it on its line. -/
theorem layout_increaseIndent_decreaseIndent_body :
    let start : Builder := { grammar := .javaScript, source := "\x7b\na\n\n  b // c\n  \x7d" }
    let calls : List Builder.Call := [.openNode .program, .token "\x7b", .openNode .statementList,
      .openNode .statement, .token "a", .closeNode, .openNode .statement, .token "b", .closeNode,
      .comment "// c", .closeNode, .token "\x7d", .closeNode]
    ∃ doc, (start.run calls).finish = .ok doc ∧ doc.IsTree ∧ doc.Ordered ∧
      (doc.increaseIndent ⟨1⟩ "  ").text = "\x7b\n  a\n\n    b // c\n    \x7d" ∧
      ((doc.increaseIndent ⟨1⟩ "  ").decreaseIndent ⟨1⟩ "  ").layout = doc.layout := by
  intro start calls
  let doc := (start.run calls).built
  have hfinish : (start.run calls).finish = .ok doc := by decide +kernel
  obtain ⟨htree, hordered⟩ := Builder.isTree_of_run hfinish
  have hspaces : ∀ t ∈ doc.layout, Layout.isGap t = true →
      t.toList = List.replicate t.toList.length ' ' := by decide +kernel
  refine ⟨doc, hfinish, htree, hordered, by decide +kernel,
    layout_increaseIndent_decreaseIndent (n := 1) htree hordered (Or.inl rfl) (by decide +kernel)
      fun i t _ _ ht _ hgap =>
        List.eq_replicate_length.1 (hspaces t (List.mem_of_getElem? ht) hgap)⟩

end Document

end Lossless
