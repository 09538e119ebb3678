import Mathlib.Logic.Function.Basic
import TradeServer.CString
import TradeServer.Library.Chain

/-!
# The chained hash table of `hashtable.c`

Entries live in a heap and are linked through `next`. The bucket array is a
function that is read below `capacity` only. Allocations succeed, so the failure
branches of `create_entry` and `resize_hashtable` do not occur, and `capacity * 2`
cannot wrap: an allocated array of eight-byte buckets has fewer than `2 ^ 61` of
them. The calls made to `free_func` are recorded in `freed`.
-/

namespace TradeServer

open Library

def INITIAL_CAPACITY : Nat := 16

structure HtEntry where
  key : CString
  value : Addr
  next : Addr
  ref : Addr
  deriving DecidableEq

structure Hashtable where
  size : Nat
  capacity : Nat
  buckets : Nat → Addr
  freeFunc : Bool
  entries : Heap HtEntry
  freed : List Addr

/-- `*key` promoted to `size_t`: plain `char` is signed. -/
def signExtend (c : Char) : UInt64 :=
  if c.toNat < 128 then UInt64.ofNat c.toNat else UInt64.ofNat (2 ^ 64 - 256 + c.toNat)

/-- One turn of the loop of `hash_function`. -/
def hashStep (hash : UInt64) (c : Char) : UInt64 :=
  let hash := (hash <<< 4) + signExtend c
  let high := hash &&& 0xF0000000
  if high ≠ 0 then (hash ^^^ (high >>> 24)) &&& ~~~high else hash

def hashFunction (key : CString) (capacity : Nat) : Nat :=
  (key.chars.foldl hashStep 0).toNat % capacity

theorem hashFunction_lt (key : CString) {capacity : Nat} (h : 0 < capacity) :
    hashFunction key capacity < capacity := Nat.mod_lt _ h

/-- Doubling the capacity splits a bucket in two. -/
@[simp] theorem hashFunction_double_mod (key : CString) (capacity : Nat) :
    hashFunction key (capacity * 2) % capacity = hashFunction key capacity :=
  Nat.mod_mul_right_mod _ _ _

def htInit (initialCapacity : Nat) (freeFunc : Bool) : Hashtable where
  size := 0
  capacity := if initialCapacity = 0 then INITIAL_CAPACITY else initialCapacity
  buckets _ := NULL
  freeFunc := freeFunc
  entries := .empty
  freed := []

/-- The body of the loop of `resize_hashtable`: the chain of bucket `i` moves to the
bucket of its first key. -/
def rehome (ht : Hashtable) (newCapacity : Nat) (newBuckets : Nat → Addr) (i : Nat) :
    Option (Nat → Addr) :=
  if ht.buckets i = NULL then some newBuckets
  else do
    let head ← ht.entries.load (ht.buckets i)
    some (Function.update newBuckets (hashFunction head.key newCapacity) (ht.buckets i))

def resizeHashtable (ht : Hashtable) (newCapacity : Nat) : Option Hashtable := do
  let newBuckets ← (List.range ht.capacity).foldlM (rehome ht newCapacity) (fun _ => NULL)
  some { ht with buckets := newBuckets, capacity := newCapacity }

/-- The walk along a collision chain: `prev` and `entry` when the loop stops, with
`entry` null if no key matched. The first argument bounds the number of steps. -/
def findEntry (es : Heap HtEntry) (key : CString) : Nat → Addr → Addr → Option (Addr × Addr)
  | 0, _, _ => none
  | fuel + 1, prev, entry =>
    if entry = NULL then some (prev, NULL)
    else do
      let e ← es.load entry
      if e.key = key then some (prev, entry) else findEntry es key fuel entry e.next

/-- The load test `(float)(size + 1) / capacity > RESIZE_THRESHOLD`, read exactly. -/
def NeedsResize (ht : Hashtable) : Prop := 3 * ht.capacity < 4 * (ht.size + 1)

instance (ht : Hashtable) : Decidable (NeedsResize ht) :=
  inferInstanceAs (Decidable (3 * ht.capacity < 4 * (ht.size + 1)))

/-- `ht_put` after its load test. -/
def putEntry (ht : Hashtable) (key : CString) (value : Addr) : Option (Hashtable × Addr) := do
  let index := hashFunction key ht.capacity
  let (_, entry) ← findEntry ht.entries key ht.entries.next NULL (ht.buckets index)
  if entry ≠ NULL then do
    let e ← ht.entries.load entry
    let es ← ht.entries.update entry ({ · with value := value })
    some ({ ht with
      entries := es
      freed := if ht.freeFunc then ht.freed ++ [e.value] else ht.freed }, entry)
  else
    -- `create_entry` leaves `ref` unset; nothing reads it before it is assigned
    let newEntry := ht.entries.fresh
    some ({ ht with
      entries := ht.entries.alloc ⟨key, value, ht.buckets index, NULL⟩
      buckets := Function.update ht.buckets index newEntry
      size := ht.size + 1 }, newEntry)

def htPut (ht : Hashtable) (key : CString) (value : Addr) : Option (Hashtable × Addr) := do
  let ht ← if NeedsResize ht then resizeHashtable ht (ht.capacity * 2) else some ht
  putEntry ht key value

def htGet (ht : Hashtable) (key : CString) : Option Addr := do
  let (_, entry) ← findEntry ht.entries key ht.entries.next NULL
    (ht.buckets (hashFunction key ht.capacity))
  if entry = NULL then some NULL else (·.value) <$> ht.entries.load entry

def htRemove (ht : Hashtable) (key : CString) : Option (Hashtable × Addr) := do
  let index := hashFunction key ht.capacity
  let (prev, entry) ← findEntry ht.entries key ht.entries.next NULL (ht.buckets index)
  if entry = NULL then some (ht, NULL)
  else do
    let e ← ht.entries.load entry
    let ht ←
      if prev ≠ NULL then do
        let es ← ht.entries.update prev ({ · with next := e.next })
        some { ht with entries := es }
      else some { ht with buckets := Function.update ht.buckets index e.next }
    let es ← ht.entries.release entry
    some ({ ht with entries := es, size := ht.size - 1 }, e.value)

/-- The body of the loop of `ht_destroy`, which frees the first entry of a bucket. -/
def destroyBucket (ht : Hashtable) (s : Heap HtEntry × List Addr) (i : Nat) :
    Option (Heap HtEntry × List Addr) :=
  if ht.buckets i = NULL then some s
  else do
    let e ← s.1.load (ht.buckets i)
    let freed := if ht.freeFunc then s.2 ++ [e.value] else s.2
    let es ← s.1.release (ht.buckets i)
    some (es, freed)

/-- The entries that are left in memory, and all values passed to `free_func`. -/
def htDestroy (ht : Hashtable) : Option (Heap HtEntry × List Addr) :=
  (List.range ht.capacity).foldlM (destroyBucket ht) (ht.entries, ht.freed)

end TradeServer
