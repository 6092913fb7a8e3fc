import Lossless.Cache
import Mathlib.Data.List.Induction
import Mathlib.Data.List.Nodup
import Mathlib.Tactic.Common

/-! What a cache holds after any run of calls in which no entry is asked for past its lifetime: the
keys with the most recent last insertions, each with the document of that insertion. Asking for an
entry changes nothing. -/

namespace Lossless.Cache

open List

inductive Call where
  | insert (now : Nat) (key : Key) (doc : Document)
  | get (now : Nat) (key : Key)
  | clear

namespace Call

def run (cache : Cache) : Call → Cache
  | insert now key doc => cache.insert now key doc
  | get now key => (cache.get? now key).2
  | clear => cache.clear

/-- The insertions since the cache was last cleared, the newest first. -/
def record (past : List (Key × Document)) : Call → List (Key × Document)
  | insert _ key doc => (key, doc) :: past
  | get _ _ => past
  | clear => []

/-- What the first call inserts has not expired when the second one asks for it. -/
def outlives (lifetime : Nat) : Call → Call → Bool
  | insert written _ _, get now _ => now - written < lifetime
  | _, _ => true

end Call

def after (limits : Limits) (calls : List Call) : Cache :=
  calls.foldl Call.run { limits }

def insertionsIn (calls : List Call) : List (Key × Document) :=
  calls.foldl Call.record []

/-- The last insertion of each key, out of insertions given newest first. -/
def latest : List (Key × Document) → List (Key × Document)
  | [] => []
  | (key, doc) :: past => (key, doc) :: (latest past).filter (·.1 != key)

/-- The keys with an insertion, the one whose last insertion is the newest first. -/
def recentKeys (calls : List Call) : List Key :=
  (latest (insertionsIn calls)).map Prod.fst

/-- No call asks for an entry that has reached the lifetime. -/
def Lasting (lifetime : Nat) (calls : List Call) : Prop :=
  calls.Pairwise fun earlier later => earlier.outlives lifetime later = true

instance (lifetime : Nat) (calls : List Call) : Decidable (Lasting lifetime calls) :=
  inferInstanceAs (Decidable (List.Pairwise ..))

/-! ### Last insertions -/

section

variable {past entries : List (Key × Document)} {key : Key} {doc : Document}

theorem nodup_latest (past : List (Key × Document)) : ((latest past).map Prod.fst).Nodup := by
  induction past with
  | nil => exact nodup_nil
  | cons insertion past ih =>
    obtain ⟨key, doc⟩ := insertion
    rw [latest, map_cons, nodup_cons]
    refine ⟨?_, ih.sublist (filter_sublist.map _)⟩
    simp

theorem mem_latest : (key, doc) ∈ latest past ↔ past.lookup key = some doc := by
  induction past with
  | nil => simp [latest]
  | cons insertion past ih =>
    obtain ⟨k, d⟩ := insertion
    by_cases hk : key = k
    · subst hk
      simp [latest, eq_comm]
    · have hne : (key == k) = false := beq_eq_false_iff_ne.2 hk
      simp [latest, lookup_cons, hk, hne, ih]

theorem take_filter_take
    (hnodup : (entries.map Prod.fst).Nodup) (key : Key) (n : Nat) :
    ((entries.take (n + 1)).filter (·.1 != key)).take n =
      (entries.filter (·.1 != key)).take n := by
  induction entries generalizing n with
  | nil => simp
  | cons entry entries ih =>
    rw [map_cons, nodup_cons] at hnodup
    obtain ⟨hnew, hnodup⟩ := hnodup
    by_cases hk : entry.1 = key
    · -- the key is not among the others
      have hothers : ∀ e ∈ entries, (e.1 != key) = true := by
        intro e he
        have hne : e.1 ≠ entry.1 := fun heq => hnew (heq ▸ mem_map_of_mem he)
        simpa [← hk] using hne
      have htake : ∀ e ∈ entries.take n, (e.1 != key) = true :=
        fun e he => hothers e (mem_of_mem_take he)
      simp [hk, filter_eq_self.2 hothers, filter_eq_self.2 htake, take_take]
    · cases n with
      | zero => simp
      | succ n => simp [hk, ih hnodup n]

end

/-! ### Runs -/

structure Tracks (limits : Limits) (calls : List Call) (cache : Cache) : Prop where
  limits_eq : cache.limits = limits
  entries_eq : cache.entries.map (fun e => (e.key, e.doc)) =
    ((latest (insertionsIn calls)).take limits.capacity).reverse
  written : ∀ e ∈ cache.entries, ∃ key doc, Call.insert e.written key doc ∈ calls
  stamps : cache.entries.Pairwise (·.stamp < ·.stamp)
  stamps_lt : ∀ e ∈ cache.entries, e.stamp < cache.insertions

variable {limits : Limits} {calls : List Call} {cache : Cache} {now : Nat} {key : Key} {e : Entry}

theorem Tracks.keys_eq (h : Tracks limits calls cache) :
    cache.entries.map (·.key) = ((recentKeys calls).take limits.capacity).reverse := by
  have hkeys := congrArg (map Prod.fst) h.entries_eq
  rw [map_map, map_reverse, map_take] at hkeys
  exact hkeys

theorem Tracks.size_le (h : Tracks limits calls cache) : cache.size ≤ limits.capacity := by
  have hlength := congrArg length h.keys_eq
  rw [length_map, length_reverse] at hlength
  rw [size, hlength]
  exact length_take_le ..

theorem insertionsIn_concat (calls : List Call) (call : Call) :
    insertionsIn (calls ++ [call]) = call.record (insertionsIn calls) := by
  simp [insertionsIn]

theorem after_concat (limits : Limits) (calls : List Call) (call : Call) :
    after limits (calls ++ [call]) = call.run (after limits calls) := by
  simp [after]

section

variable (h : Tracks limits calls cache)
  (hlasting : Lasting limits.lifetime (calls ++ [.get now key]))
include h hlasting

theorem Tracks.isExpired_eq
    (he : e ∈ cache.entries) : cache.isExpired now e = false := by
  obtain ⟨k, d, hwritten⟩ := h.written e he
  have hlive := (pairwise_append.1 hlasting).2.2 _ hwritten _ (mem_singleton_self _)
  have hlt : now - e.written < limits.lifetime := of_decide_eq_true hlive
  rw [isExpired, h.limits_eq]
  exact decide_eq_false (Nat.not_le.2 hlt)

/-- Asking for an entry in time answers what the cache holds for the key, and changes nothing. -/
theorem Tracks.get?_eq : cache.get? now key = (cache.find? key, cache) := by
  rw [get?]
  cases hfind : cache.find? key with
  | none => rfl
  | some e =>
    have hlive := h.isExpired_eq hlasting (mem_of_find?_eq_some hfind)
    simp [hlive]

theorem Tracks.get : Tracks limits (calls ++ [.get now key]) ((Call.get now key).run cache) := by
  have hrun : (Call.get now key).run cache = cache := by rw [Call.run, h.get?_eq hlasting]
  rw [hrun]
  refine ⟨h.limits_eq, ?_, fun e he => ?_, h.stamps, h.stamps_lt⟩
  · rw [insertionsIn_concat]
    exact h.entries_eq
  · obtain ⟨k, d, hmem⟩ := h.written e he
    exact ⟨k, d, mem_append_left _ hmem⟩

end

theorem drop_reverse_length (xs : List (Key × Document)) (n : Nat) :
    xs.reverse.drop (xs.length - n) = (xs.take n).reverse := by
  rw [drop_reverse]
  rcases Nat.le_total xs.length n with hn | hn
  · rw [Nat.sub_eq_zero_of_le hn, Nat.sub_zero, take_length, take_of_length_le hn]
  · rw [Nat.sub_sub_self hn]

theorem mem_entries_insert {doc : Document}
    (h : e ∈ (cache.insert now key doc).entries) :
    e ∈ cache.entries ∨ e = cache.nextEntry now key doc := by
  refine (mem_append.1 (mem_of_mem_drop h)).imp ?_ mem_singleton.1
  exact fun hmem => (mem_filter.1 hmem).1

theorem Tracks.map_erase_concat (h : Tracks limits calls cache) (now : Nat) (key : Key)
    (doc : Document) :
    ((cache.erase key).entries ++ [cache.nextEntry now key doc]).map (fun e => (e.key, e.doc)) =
      ((key, doc) :: ((latest (insertionsIn calls)).take limits.capacity).filter
        (·.1 != key)).reverse := by
  have hothers : (cache.erase key).entries.map (fun e => (e.key, e.doc)) =
      (cache.entries.map fun e => (e.key, e.doc)).filter (·.1 != key) := by
    rw [filter_map]
    rfl
  rw [map_append, hothers, h.entries_eq, filter_reverse, reverse_cons]
  rfl

theorem Tracks.insert (h : Tracks limits calls cache) (now : Nat) (key : Key) (doc : Document) :
    Tracks limits (calls ++ [.insert now key doc]) (cache.insert now key doc) := by
  have hstored := h.map_erase_concat now key doc
  let stored := (cache.erase key).entries ++ [cache.nextEntry now key doc]
  have hentries : (cache.insert now key doc).entries =
      stored.drop (stored.length - limits.capacity) := by
    rw [← h.limits_eq]
    rfl
  refine ⟨h.limits_eq, ?_, ?_, ?_, ?_⟩
  · have hlength := congrArg length hstored
    rw [length_map, length_reverse] at hlength
    rw [hentries, map_drop, hstored, hlength, drop_reverse_length, insertionsIn_concat,
      Call.record, latest]
    cases limits.capacity with
    | zero => rfl
    | succ n => rw [take_succ_cons, take_succ_cons, take_filter_take (nodup_latest _)]
  · intro e he
    rcases mem_entries_insert he with he | rfl
    · obtain ⟨k, d, hmem⟩ := h.written e he
      exact ⟨k, d, mem_append_left _ hmem⟩
    · exact ⟨key, doc, mem_append_right _ (mem_singleton_self _)⟩
  · rw [hentries]
    refine Pairwise.drop (pairwise_append.2 ⟨h.stamps.filter _, by simp, ?_⟩)
    intro e he new hnew
    rw [mem_singleton.1 hnew]
    exact h.stamps_lt e (mem_filter.1 he).1
  · intro e he
    rcases mem_entries_insert he with he | rfl
    · exact Nat.lt_succ_of_lt (h.stamps_lt e he)
    · exact Nat.lt_succ_self _

theorem Tracks.clear (h : Tracks limits calls cache) :
    Tracks limits (calls ++ [.clear]) cache.clear := by
  refine ⟨h.limits_eq, ?_, by simp [Cache.clear], Pairwise.nil, by simp [Cache.clear]⟩
  rw [insertionsIn_concat]
  simp [Cache.clear, Call.record, latest]

theorem tracks_after (hlasting : Lasting limits.lifetime calls) :
    Tracks limits calls (after limits calls) := by
  induction calls using reverseRecOn with
  | nil =>
    exact ⟨rfl, by simp [after, insertionsIn, latest], by simp [after], Pairwise.nil,
      by simp [after]⟩
  | append_singleton calls call ih =>
    have hcalls := ih (pairwise_append.1 hlasting).1
    rw [after_concat]
    cases call with
    | insert now key doc => exact hcalls.insert now key doc
    | get now key => exact hcalls.get hlasting
    | clear => exact hcalls.clear

theorem Tracks.of_find?_some (h : Tracks limits calls cache)
    (hfind : cache.find? key = some e) :
    key ∈ (recentKeys calls).take limits.capacity ∧
      (insertionsIn calls).lookup key = some e.doc := by
  have hkey : e.key = key := by simpa using find?_some hfind
  have hmem : (key, e.doc) ∈ (latest (insertionsIn calls)).take limits.capacity := by
    have hentry := mem_map_of_mem (f := fun e : Entry => (e.key, e.doc))
      (mem_of_find?_eq_some hfind)
    rwa [h.entries_eq, mem_reverse, hkey] at hentry
  refine ⟨?_, mem_latest.1 (mem_of_mem_take hmem)⟩
  rw [recentKeys, ← map_take]
  exact mem_map_of_mem (f := Prod.fst) hmem

theorem Tracks.of_find?_none (h : Tracks limits calls cache) (hfind : cache.find? key = none) :
    key ∉ (recentKeys calls).take limits.capacity := by
  intro hheld
  rw [← mem_reverse, ← h.keys_eq] at hheld
  obtain ⟨e, he, hkey⟩ := mem_map.1 hheld
  exact find?_eq_none.1 hfind e he (by simp [hkey])

end Lossless.Cache
