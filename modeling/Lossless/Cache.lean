import Lossless.Document.Basic
import Lossless.Fraction

/-! A bounded cache of documents by source text and language. The oldest insertion leaves first,
and an entry that has reached the lifetime is dropped when it is asked for. -/

namespace Lossless

structure Cache.Limits where
  capacity : Nat := 1000
  /-- In seconds, counted from insertion. -/
  lifetime : Nat := 300
deriving DecidableEq, Repr

structure Cache.Key where
  source : String
  language : Language
deriving DecidableEq, Repr

structure Cache.Entry where
  key : Cache.Key
  doc : Document
  /-- Second of the insertion. -/
  written : Nat
  /-- Number of insertions before this one: entries of equal stamp are the same entry. -/
  stamp : Nat

structure Cache where
  limits : Cache.Limits := {}
  /-- Oldest insertion first. -/
  entries : List Cache.Entry := []
  insertions : Nat := 0

namespace Cache

def size (cache : Cache) : Nat :=
  cache.entries.length

def find? (cache : Cache) (key : Key) : Option Entry :=
  cache.entries.find? (·.key == key)

def erase (cache : Cache) (key : Key) : Cache :=
  { cache with entries := cache.entries.filter (·.key != key) }

def isExpired (cache : Cache) (now : Nat) (entry : Entry) : Bool :=
  cache.limits.lifetime ≤ now - entry.written

def get? (cache : Cache) (now : Nat) (key : Key) : Option Entry × Cache :=
  match cache.find? key with
  | none => (none, cache)
  | some entry =>
    if cache.isExpired now entry then (none, cache.erase key) else (some entry, cache)

/-- Drop the oldest insertions until the rest fits. -/
def evict (cache : Cache) : Cache :=
  { cache with entries := cache.entries.drop (cache.size - cache.limits.capacity) }

def nextEntry (cache : Cache) (now : Nat) (key : Key) (doc : Document) : Entry :=
  { key, doc, written := now, stamp := cache.insertions }

def insert (cache : Cache) (now : Nat) (key : Key) (doc : Document) : Cache :=
  let others := (cache.erase key).entries
  evict { cache with
    entries := others ++ [cache.nextEntry now key doc]
    insertions := cache.insertions + 1 }

def clear (cache : Cache) : Cache :=
  { cache with entries := [] }

/-- The filled share of the capacity in percent, each step of the way rounded to a double. -/
def percent (cache : Cache) : Fraction :=
  let size := (Fraction.ofNat cache.size).toDouble
  let capacity := (Fraction.ofNat cache.limits.capacity).toDouble
  ((size.div capacity).toDouble.mul (.ofNat 100)).toDouble

/-- The filled share of the capacity, in millionths of a percent. -/
def utilization (cache : Cache) : Nat :=
  if cache.limits.capacity = 0 then 0
  else (cache.percent.mul (.ofNat (1000000))).round

end Cache

end Lossless
