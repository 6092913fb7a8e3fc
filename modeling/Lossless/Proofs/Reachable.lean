import Lossless.Grammar.JavaScript
import Lossless.Proofs.Listed
import Lossless.Proofs.Refusals

/-! Documents that any run of constructions and edits leads to. Their order holds each token once,
so positions, bytes and lines of tokens are what the text shows. -/

namespace Lossless

open List Text Document Edit

/-- Spans that follow each other without a gap from one place to another. -/
def Tiles (start : Nat) : List Span → Nat → Prop
  | [], stop => start = stop
  | s :: rest, stop => s.start = start ∧ s.start ≤ s.stop ∧ Tiles s.stop rest stop

namespace Layout

theorem size_append (ts us : Layout) : size (ts ++ us) = ts.size + us.size := by
  induction ts with
  | nil => simp [size]
  | cons t ts ih => rw [cons_append, size, ih, size, Nat.add_assoc]

theorem utf8ByteSize_join (ts : Layout) : ts.join.utf8ByteSize = ts.size := by
  induction ts with
  | nil => rfl
  | cons t ts ih => rw [join, String.utf8ByteSize_append, ih, size]

theorem offsetAt_length (ts : Layout) : ts.offsetAt ts.length = ts.join.utf8ByteSize := by
  rw [offsetAt, take_length, utf8ByteSize_join]

theorem offsetAt_succ {ts : Layout} {i : Nat} {t : String} (h : ts[i]? = some t) :
    ts.offsetAt (i + 1) = ts.offsetAt i + t.utf8ByteSize := by
  rw [offsetAt, take_add_one, h, size_append]
  simp [offsetAt, size]

theorem slice_join {ts : Layout} {i : Nat} {t : String} (h : ts[i]? = some t) :
    slice ts.join.toList ⟨ts.offsetAt i, ts.offsetAt (i + 1)⟩ = t.toList := by
  have hsplit : ts.join.toList =
      (join (ts.take i)).toList ++ (t.toList ++ (join (ts.drop (i + 1))).toList) := by
    obtain ⟨hi, rfl⟩ := List.getElem?_eq_some_iff.1 h
    have hjoin : ts.join = join (ts.take i ++ ts[i] :: ts.drop (i + 1)) := by
      rw [getElem_cons_drop, take_append_drop]
    rw [hjoin, toList_join, toList_join, toList_join, flatMap_append, flatMap_cons]
  have hstart : ts.offsetAt i = bytes (join (ts.take i)).toList := by
    rw [bytes_toList, utf8ByteSize_join, offsetAt]
  rw [hsplit, offsetAt_succ h, hstart, ← bytes_toList t]
  exact slice_append ..

end Layout

namespace Document

variable {doc fragment : Document} {l : Leaf} {i : Nat}

/-! ### Positions of tokens -/

theorem layout_getElem? (h : doc.order[i]? = some l) : doc.layout[i]? = some (doc.textOf l) := by
  rw [layout, getElem?_map, h]
  rfl

namespace Listed

section

variable (h : doc.Listed [])
include h

theorem position?_iff : doc.position? l = some i ↔ doc.order[i]? = some l :=
  ⟨getElem?_of_idxOf?, idxOf?_of_getElem? h.nodup⟩

theorem range?_leaf (hl : doc.order[i]? = some l) : doc.range? l = some ⟨i, i + 1⟩ := by
  have hpos : doc.position? l = some i := h.position?_iff.2 hl
  have hvisible : doc.visibleLeaves l = [l] := by
    rw [visibleLeaves_leaf, if_pos (mem_of_getElem? hl)]
  refine range?_eq_some ?_ ?_ hpos hpos
  · rw [firstLeaf?, hvisible]
    rfl
  · rw [lastLeaf?, hvisible]
    rfl

theorem byteRange_leaf (hl : doc.order[i]? = some l) :
    doc.byteRange l = ⟨doc.layout.offsetAt i, doc.layout.offsetAt (i + 1)⟩ := by
  unfold byteRange
  rw [h.range?_leaf hl]

/-- The bytes of the tokens from a position on. -/
theorem tiles_drop (n : Nat) (hn : n + i = doc.order.length) :
    Tiles (doc.layout.offsetAt i) ((doc.order.drop i).map fun l => doc.byteRange (.leaf l))
      (doc.layout.offsetAt doc.order.length) := by
  induction n generalizing i with
  | zero =>
    obtain rfl : i = doc.order.length := by omega
    rw [drop_length]
    rfl
  | succ n ih =>
    have hi : i < doc.order.length := by omega
    have hl : doc.order[i]? = some doc.order[i] := getElem?_eq_getElem hi
    rw [drop_eq_getElem_cons hi, map_cons, h.byteRange_leaf hl]
    refine ⟨rfl, ?_, ih (by omega)⟩
    rw [Layout.offsetAt_succ (layout_getElem? hl)]
    exact Nat.le_add_right ..

theorem lines?_leaf (hl : doc.order[i]? = some l) :
    (doc.lines? l).map Span.start = some (doc.layout.lineOf i) := by
  have hne : doc.layout.isEmpty = false := by
    rw [isEmpty_eq_false_iff]
    exact ne_nil_of_mem (mem_of_getElem? (layout_getElem? hl))
  unfold lines? Layout.linesOf
  rw [h.range?_leaf hl, hne]
  rfl

end

end Listed

end Document

/-! ### Edits -/

structure Edit.Closed (F P : Document → Prop) : Prop where
  source : ∀ grammar kind text, F (.ofSource grammar kind text)
  clause : ∀ fragment indent, F fragment → F (fragment.increaseIndent fragment.root indent).trimStart
  wrapRoot : ∀ fragment kind, F fragment → F (fragment.wrapRoot kind)
  unfold : ∀ doc list, P doc → P (doc.unfoldBody list)
  cutLines : ∀ doc lines, P doc → P (doc.cutLines lines)
  breaks : ∀ doc p n, P doc → P (doc.insertBreaks p n)
  lines : ∀ doc rule list line fragment isComment, P doc → F fragment →
    P (doc.insertLines rule list line fragment isComment).2
  beside : ∀ doc rule list index fragment, P doc → F fragment →
    P (doc.insertBeside rule list index fragment).2
  detach : ∀ doc rule list element, P doc → P (doc.detachElement rule list element)
  empty : ∀ doc rule list, P doc → P (doc.emptyList rule list)
  set : ∀ doc rule optional fragment, P doc → F fragment →
    P (doc.setOptional rule optional fragment).2
  clear : ∀ doc rule optional, P doc → P (doc.clearOptional rule optional)
  comment : ∀ doc b, P doc → P (doc.removeComment b)
  child : ∀ doc parent node, P doc → P (doc.detachChild parent node)
  substitute : ∀ doc node fragment, P doc → F fragment → P (doc.substitute node fragment).2
  swap : ∀ doc parent old new, P doc → P (doc.replaceChild parent old new).updateComments

namespace Edit.Closed

variable {F P : Document → Prop} (h : Closed F P) {doc fragment : Document}
include h

theorem wrap (rule : ListRule) (hf : F fragment) : F (rule.wrap fragment) := by
  unfold ListRule.wrap
  split
  · exact hf
  · exact h.wrapRoot _ _ hf

theorem placedIn (doc : Document) (parent : Branch) (hf : F fragment) :
    F (placedIn doc parent fragment) := by
  unfold Edit.placedIn
  split
  · split
    · exact hf
    · exact h.wrapRoot _ _ hf
  · exact hf

theorem survives (rule : ListRule) (list : Branch) : Survives P rule list where
  unfold doc hd := h.unfold doc list hd
  cutLines := h.cutLines
  breaks := h.breaks
  clear doc optional rule hd _ := h.clear doc rule optional hd
  refill := by
    refine keeps_refill (fun doc hd => h.unfold doc list hd) h.breaks ?_ ?_
    · exact fun doc line grammar text hd => h.lines _ _ _ _ _ _ hd (h.wrap rule (h.source ..))
    · exact fun doc index indent grammar text hd =>
        h.beside _ _ _ _ _ hd (h.wrap rule (h.clause _ _ (h.source ..)))

theorem left (hd : P doc) (request : Request) (hf : ∀ fragment ∈ request.fragment?, F fragment) :
    P (request.run.left doc) := by
  have hremove : ∀ list element, P ((removeElement list element).left doc) :=
    fun list element => left_removeElement hd element fun rule _ _ =>
      ⟨h.survives rule list, fun d => h.detach d rule list element⟩
  cases request with
  | openList list =>
    unfold Request.run
    rwa [left_discard, left_listRule]
  | openOptional optional =>
    unfold Request.run
    rwa [left_discard, left_optionalRule]
  | addAtLine list line fragment =>
    have hf := hf fragment rfl
    unfold Request.run
    rw [left_discard]
    refine left_addAtLine (fun rule _ _ _ => h.survives rule list)
      (fun rule d element => h.detach d rule list element) hd line ?_ ?_
    · exact fun rule _ _ _ d index indent hd => h.beside _ _ _ _ _ hd (h.wrap rule (h.clause _ _ hf))
    · exact fun rule _ _ _ d line hd => h.lines _ _ _ _ _ _ hd (h.wrap rule hf)
  | add list index fragment =>
    unfold Request.run
    rw [left_discard]
    refine left_add (fun rule _ _ _ => h.survives rule list)
      (fun rule d element => h.detach d rule list element) hd index ?_
    exact fun rule _ _ d hd => h.beside _ _ _ _ _ hd (h.wrap rule (hf fragment rfl))
  | removeElement list element =>
    unfold Request.run
    rw [left_discard]
    exact hremove list element
  | clearList list =>
    exact keeps_clearList (fun rule _ _ _ => h.survives rule list)
      (fun rule d element => h.detach d rule list element) (fun d rule => h.empty d rule list) doc hd
  | set optional fragment =>
    unfold Request.run
    rw [left_discard]
    exact left_set hd fun rule _ _ => h.set doc rule optional fragment hd (hf fragment rfl)
  | clearOptional optional => exact left_clearOptional hd fun rule => h.clear doc rule optional hd
  | remove node =>
    exact left_remove hd node (fun b _ => h.comment doc b hd)
      (fun rule optional => h.clear doc rule optional hd) hremove
      fun parent child => h.child doc parent child hd
  | replace node fragment =>
    unfold Request.run
    rw [left_discard]
    refine left_replace hd node fun parent _ _ _ => ?_
    have hplaced := h.substitute doc node _ hd (h.placedIn doc parent (hf fragment rfl))
    exact ⟨hplaced, h.swap _ _ _ _ hplaced⟩

end Edit.Closed

theorem closed_listed : Closed (Listed · []) (Listed · []) where
  source _ _ _ := (isTree_ofSource ..).listed
  clause _ _ hf := (hf.increaseIndent ..).trimStart
  wrapRoot _ kind hf := hf.wrapRoot kind
  unfold _ list h := h.unfoldBody list
  cutLines _ _ h := h.cut _
  breaks _ p n h := h.insertBreaks p n
  lines _ _ _ _ _ _ h hf := h.insertLines hf ..
  beside _ _ _ _ _ h hf := h.insertBeside hf ..
  detach _ rule list element h := h.detachElement rule list element
  empty _ rule list h := h.emptyList rule list
  set _ rule optional _ h hf := h.setOptional hf rule optional
  clear _ rule optional h := h.clearOptional rule optional
  comment _ b h := h.removeComment b
  child _ parent node h := ((h.discard _).removeChild parent node).updateComments
  substitute _ node _ h hf := h.substitute hf node
  swap _ parent old new h := (h.replaceChild parent old new).updateComments

/-! ### Runs -/

/-- Documents that constructions and edits lead to. An edit that is refused counts with what it
leaves, and an element that was removed counts as a document of its own. -/
inductive Reachable : Document → Prop
  | build {grammar : Grammar} {source : String} {calls : List Builder.Call} {doc : Document} :
      (Builder.run { grammar, source } calls).finish = .ok doc → Reachable doc
  | convert {converter : Converter} {source : String} {tree : ParseTree} {doc : Document} :
      converter.convert source tree = .ok doc → Reachable doc
  | ofSource (grammar : Grammar) (kind : Kind) (source : String) :
      Reachable (.ofSource grammar kind source)
  | edit {doc : Document} (request : Request) : Reachable doc →
      (∀ fragment ∈ request.fragment?, Reachable fragment) → Reachable (request.run.left doc)
  | removed {doc after taken : Document} {list element : Branch} : Reachable doc →
      (Edit.removeElement list element).run doc = .ok taken after → Reachable taken
  | cloneSubtree {doc : Document} (b : Branch) : Reachable doc → Reachable (doc.cloneSubtree b)
  | addTokens {doc fragment : Document} (position : Nat) : Reachable doc → Reachable fragment →
      Reachable (doc.addTokens position fragment).2
  | addTokensAtLine {doc fragment : Document} (line : Nat) : Reachable doc → Reachable fragment →
      Reachable (doc.addTokensAtLine line fragment).2
  | wrapRoot {doc : Document} (kind : Kind) : Reachable doc → Reachable (doc.wrapRoot kind)
  | removeComment {doc : Document} (comment : Branch) : Reachable doc →
      Reachable (doc.removeComment comment)
  | removeHidden {doc : Document} : Reachable doc → Reachable doc.removeHidden
  | updateComments {doc : Document} : Reachable doc → Reachable doc.updateComments
  | increaseIndent {doc : Document} (b : Branch) (unit : String) : Reachable doc →
      Reachable (doc.increaseIndent b unit)
  | decreaseIndent {doc : Document} (b : Branch) (unit : String) : Reachable doc →
      Reachable (doc.decreaseIndent b unit)

theorem Converter.exists_finish {converter : Converter} {source : String} {tree : ParseTree}
    {doc : Document} (h : converter.convert source tree = .ok doc) :
    ∃ built, (builderOf converter.grammar source tree).finish = .ok built ∧
      (doc = built.removeHidden ∨ doc = built) := by
  unfold convert at h
  cases hbad : tree.badNode? source.toList with
  | some bad =>
    rw [hbad] at h
    cases h
  | none =>
    rw [hbad] at h
    cases hfinish : (builderOf converter.grammar source tree).finish with
    | error e =>
      unfold builderOf at hfinish
      simp only [hfinish] at h
      cases h
    | ok built =>
      unfold builderOf at hfinish
      simp only [hfinish] at h
      cases h
      refine ⟨built, rfl, ?_⟩
      split
      · exact Or.inl rfl
      · exact Or.inr rfl

theorem Converter.listed_convert {converter : Converter} {source : String} {tree : ParseTree}
    {doc : Document} (h : converter.convert source tree = .ok doc) : doc.Listed [] := by
  obtain ⟨built, hfinish, hdoc⟩ := exists_finish h
  obtain ⟨calls, hcalls⟩ := called_builderOf converter.grammar source tree
  have hbuilt := (Builder.isTree_of_run (hcalls ▸ hfinish)).1.listed
  rcases hdoc with rfl | rfl
  · exact hbuilt.discard _
  · exact hbuilt

theorem Edit.taken_eq {doc after taken : Document} {list element : Branch}
    (h : (removeElement list element).run doc = .ok taken after) : ∃ rule,
      doc.listRule? list = some rule ∧ doc.parent element = some list ∧
        taken = (doc.withoutPadding rule list element).extract element
          ((doc.withoutPadding rule list element).coveredLeaves element) := by
  have helement : ∀ rule (d after : Document),
      (takeElement rule list element).run d = .ok taken after →
        taken = d.extract element (d.coveredLeaves element) := by
    intro rule d after h
    unfold takeElement at h
    rw [run_get_bind] at h
    dsimp only at h
    split at h
    · obtain ⟨_, _, -, h⟩ := run_bind_eq_ok h
      cases h
      rfl
    · obtain ⟨_, _, -, h⟩ := run_bind_eq_ok h
      obtain ⟨_, _, -, h⟩ := run_bind_eq_ok h
      cases h
      rfl
  unfold removeElement at h
  obtain ⟨rule, mid, hrule, h⟩ := run_bind_eq_ok h
  obtain ⟨hmid, hrule⟩ := run_listRule_eq_ok hrule
  rw [hmid, run_get_bind] at h
  split at h
  · next hparent =>
    refine ⟨rule, hrule, hparent, ?_⟩
    unfold takeFrom at h
    unfold withoutPadding
    split at h
    · next hpadded =>
      rw [if_pos hpadded]
      rw [run_takePadded] at h
      split at h
      · next taken' after' hrun =>
        cases h
        exact helement rule _ _ hrun
      · cases h
    · next hpadded =>
      rw [if_neg hpadded]
      exact helement rule _ _ h
  · split at h <;> cases h

theorem Reachable.listed {doc : Document} (h : Reachable doc) : doc.Listed [] := by
  induction h with
  | build hfinish => exact (Builder.isTree_of_run hfinish).1.listed
  | convert hconvert => exact Converter.listed_convert hconvert
  | ofSource grammar kind source => exact (isTree_ofSource grammar kind source).listed
  | edit request _ _ ih ihf => exact closed_listed.left ih request ihf
  | removed _ hrun _ =>
    obtain ⟨_, -, -, rfl⟩ := taken_eq hrun
    exact listed_extract ..
  | cloneSubtree b _ _ => exact .cloneSubtree ..
  | addTokens position _ _ ih ihf => exact ih.addTokens ihf position
  | addTokensAtLine line _ _ ih ihf => exact ih.addTokensAtLine ihf line
  | wrapRoot kind _ ih => exact ih.wrapRoot kind
  | removeComment comment _ ih => exact ih.removeComment comment
  | removeHidden _ ih => exact ih.discard _
  | updateComments _ ih => exact ih.updateComments
  | increaseIndent b unit _ ih => exact ih.increaseIndent b unit
  | decreaseIndent b unit _ ih => exact ih.decreaseIndent b unit

end Lossless
