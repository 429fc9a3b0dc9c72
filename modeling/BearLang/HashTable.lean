import BearLang.LinkedChains
import BearLang.Machine

/-!
# The hash table behind the symbol table

The parts of `uthash.h` that `bl_mk_symbol` uses, with the hash function that
the build chooses. Entries are numbered in the order they are added; a handle
has the links of its entry in the order of addition, and the links of the chain
of its bucket. A walk along a chain has no bound in the code; the bound it has
here is the number of entries.
-/

namespace BearLang.HashTable

set_option autoImplicit false

section Layout

/-- `UT_hash_handle`. The key is the member of the entry that `key` points to. -/
structure UTHashHandle where
  prev : Option Nat := none
  next : Option Nat := none
  hhPrev : Option Nat := none
  hhNext : Option Nat := none
  keylen : UInt32
  hashv : UInt32
deriving DecidableEq, Repr

/-- `struct sym_hash_t` with its handle. -/
structure Entry where
  key : CStr
  sym : Nat
  hh : UTHashHandle
deriving DecidableEq, Repr

structure UTHashBucket where
  hhHead : Option Nat := none
  count : UInt32 := 0
  expandMult : UInt32 := 0
deriving DecidableEq, Repr

structure UTHashTable where
  buckets : List UTHashBucket
  numBuckets : UInt32
  log2NumBuckets : UInt32
  numItems : UInt32 := 0
  tail : Nat
  idealChainMaxlen : UInt32 := 0
  nonidealItems : UInt32 := 0
  ineffExpands : UInt32 := 0
  noexpand : Bool := false
deriving DecidableEq, Repr

/-- The entries in memory, the pointer `symbol_table` to the first of them, and
the table that their handles share. -/
structure Symbols where
  entries : List Entry := []
  head : Option Nat := none
  table : Option UTHashTable := none
deriving DecidableEq, Repr

/-- How the process ends: in `uthash_fatal`, or where it reads through a null
pointer or divides by zero. -/
inductive Stop
  | outOfMemory
  | crash
deriving DecidableEq, Repr

abbrev Outcome := Except Stop

def deref {α : Type} : Option α → Outcome α
  | some a => .ok a
  | none => .error .crash

/-- `GC_MALLOC`, which `room` says has that many bytes or not. -/
def uthashMalloc (room : Nat → Bool) (bytes : Nat) : Outcome Unit :=
  if room bytes then .ok () else .error .outOfMemory

def sizeofBucket : Nat := 16
def sizeofTable : Nat := 64

def initialNumBuckets : UInt32 := 128
def initialNumBucketsLog2 : UInt32 := 7
def bktCapacityThresh : UInt32 := 10

def setHandle (entries : List Entry) (a : Nat) (f : UTHashHandle → UTHashHandle) :
    Outcome (List Entry) := do
  let e ← deref entries[a]?
  .ok (entries.set a { e with hh := f e.hh })

def setHeadHandle (entries : List Entry) (a : Option Nat) (f : UTHashHandle → UTHashHandle) :
    Outcome (List Entry) :=
  match a with
  | some a => setHandle entries a f
  | none => .ok entries

end Layout

section Hashing

/-- One byte of `HASH_OAT`. -/
def oatStep (hashv : UInt32) (byte : Byte) : UInt32 :=
  let hashv := hashv + byte.toUInt32
  let hashv := hashv + (hashv <<< 10)
  hashv ^^^ (hashv >>> 6)

/-- `HASH_OAT`, which `HASH_FCN` stands for. -/
def hashOat (key : CStr) (keylen : UInt32) : UInt32 :=
  let hashv := (key.take keylen.toNat).foldl oatStep 0
  let hashv := hashv + (hashv <<< 3)
  let hashv := hashv ^^^ (hashv >>> 11)
  hashv + (hashv <<< 15)

/-- `(unsigned)uthash_strlen(s)` -/
def keyLength (s : CStr) : UInt32 := s.length.toUInt32

def hashToBkt (hashv numBkts : UInt32) : UInt32 := hashv &&& (numBkts - 1)

end Hashing

section Finding

/-- The loop of `HASH_FIND_IN_BKT`. -/
def findInBkt (entries : List Entry) (keyptr : CStr) (keylen hashval : UInt32) :
    Nat → Option Nat → Outcome (Option Nat)
  | _, none => .ok none
  | 0, some _ => .error .crash
  | bound + 1, some out => do
      let e ← deref entries[out]?
      if e.hh.hashv = hashval ∧ e.hh.keylen = keylen ∧
          e.key.take keylen.toNat = keyptr.take keylen.toNat then .ok (some out)
      else findInBkt entries keyptr keylen hashval bound e.hh.hhNext

def hashFindByhashvalue (s : Symbols) (keyptr : CStr) (keylen hashval : UInt32) :
    Outcome (Option Nat) :=
  match s.head with
  | none => .ok none
  | some _ => do
      let tbl ← deref s.table
      let bkt ← deref tbl.buckets[(hashToBkt hashval tbl.numBuckets).toNat]?
      findInBkt s.entries keyptr keylen hashval s.entries.length bkt.hhHead

def hashFindStr (s : Symbols) (findstr : CStr) : Outcome (Option Nat) :=
  hashFindByhashvalue s findstr (keyLength findstr) (hashOat findstr (keyLength findstr))

end Finding

section Expanding

/-- What the loops of `HASH_EXPAND_BUCKETS` change. -/
structure Moving where
  entries : List Entry
  newBuckets : List UTHashBucket
  nonidealItems : UInt32 := 0
deriving DecidableEq, Repr

/-- The counters after a chain of a new bucket has grown to `count` handles. -/
def countHandle (ideal count nonideal mult : UInt32) : Outcome (UInt32 × UInt32) :=
  if ideal < count then
    if ideal = 0 then .error .crash else .ok (nonideal + 1, count / ideal)
  else .ok (nonideal, mult)

/-- One handle goes to its bucket among the new ones. -/
def moveHandle (numBkts ideal : UInt32) (thh : Nat) (m : Moving) : Outcome Moving := do
  let e ← deref m.entries[thh]?
  let bkt := (hashToBkt e.hh.hashv numBkts).toNat
  let newbkt ← deref m.newBuckets[bkt]?
  let count := newbkt.count + 1
  let (nonideal, mult) ← countHandle ideal count m.nonidealItems newbkt.expandMult
  let entries ← setHandle m.entries thh fun hh =>
    { hh with hhPrev := none, hhNext := newbkt.hhHead }
  let entries ← setHeadHandle entries newbkt.hhHead fun hh => { hh with hhPrev := some thh }
  .ok ⟨entries, m.newBuckets.set bkt ⟨some thh, count, mult⟩, nonideal⟩

/-- The inner loop, along the chain of an old bucket. -/
def moveChain (numBkts ideal : UInt32) : Nat → Option Nat → Moving → Outcome Moving
  | _, none, m => .ok m
  | 0, some _, _ => .error .crash
  | bound + 1, some thh, m => do
      let e ← deref m.entries[thh]?
      let m ← moveHandle numBkts ideal thh m
      moveChain numBkts ideal bound e.hh.hhNext m

/-- The outer loop, over the old buckets. -/
def moveBuckets (old : List UTHashBucket) (numBkts ideal : UInt32) :
    Nat → Nat → Moving → Outcome Moving
  | 0, _, m => .ok m
  | left + 1, i, m => do
      let bkt ← deref old[i]?
      let m ← moveChain numBkts ideal m.entries.length bkt.hhHead m
      moveBuckets old numBkts ideal left (i + 1) m

/-- The ideal length of a chain once the buckets are doubled. -/
def idealAfter (tbl : UTHashTable) : UInt32 :=
  (tbl.numItems >>> (tbl.log2NumBuckets + 1)) +
    if tbl.numItems &&& (tbl.numBuckets * 2 - 1) ≠ 0 then 1 else 0

def hashExpandBuckets (room : Nat → Bool) (entries : List Entry) (tbl : UTHashTable) :
    Outcome (List Entry × UTHashTable) := do
  uthashMalloc room (2 * tbl.numBuckets.toNat * sizeofBucket)
  let ideal := idealAfter tbl
  let m ← moveBuckets tbl.buckets (tbl.numBuckets * 2) ideal tbl.numBuckets.toNat 0
    ⟨entries, List.replicate (2 * tbl.numBuckets.toNat) {}, 0⟩
  let ineff := if tbl.numItems >>> 1 < m.nonidealItems then tbl.ineffExpands + 1 else 0
  .ok (m.entries,
    { tbl with
      buckets := m.newBuckets
      numBuckets := tbl.numBuckets * 2
      log2NumBuckets := tbl.log2NumBuckets + 1
      idealChainMaxlen := ideal
      nonidealItems := m.nonidealItems
      ineffExpands := ineff
      noexpand := decide (1 < ineff) || tbl.noexpand })

end Expanding

section Adding

def hashMakeTable (room : Nat → Bool) (add : Nat) : Outcome UTHashTable := do
  uthashMalloc room sizeofTable
  uthashMalloc room (initialNumBuckets.toNat * sizeofBucket)
  .ok
    { buckets := List.replicate initialNumBuckets.toNat {}
      numBuckets := initialNumBuckets
      log2NumBuckets := initialNumBucketsLog2
      tail := add }

def hashAppendList (entries : List Entry) (tbl : UTHashTable) (add : Nat) :
    Outcome (List Entry × UTHashTable) := do
  let entries ← setHandle entries add fun hh => { hh with prev := some tbl.tail, next := none }
  let entries ← setHandle entries tbl.tail fun hh => { hh with next := some add }
  .ok (entries, { tbl with tail := add })

def hashAddToBkt (room : Nat → Bool) (entries : List Entry) (tbl : UTHashTable) (bkt addhh : Nat) :
    Outcome (List Entry × UTHashTable) := do
  let head ← deref tbl.buckets[bkt]?
  let count := head.count + 1
  let entries ← setHandle entries addhh fun hh =>
    { hh with hhNext := head.hhHead, hhPrev := none }
  let entries ← setHeadHandle entries head.hhHead fun hh => { hh with hhPrev := some addhh }
  let tbl := { tbl with buckets := tbl.buckets.set bkt { head with hhHead := some addhh, count } }
  if (head.expandMult + 1) * bktCapacityThresh ≤ count ∧ tbl.noexpand = false then
    hashExpandBuckets room entries tbl
  else .ok (entries, tbl)

def hashAddToTable (room : Nat → Bool) (entries : List Entry) (tbl : UTHashTable)
    (hashval : UInt32) (add : Nat) : Outcome (List Entry × UTHashTable) :=
  let tbl := { tbl with numItems := tbl.numItems + 1 }
  hashAddToBkt room entries tbl (hashToBkt hashval tbl.numBuckets).toNat add

/-- `HASH_ADD_STR` of a new entry with this key. -/
def hashAddStr (room : Nat → Bool) (s : Symbols) (key : CStr) (sym : Nat) : Outcome Symbols := do
  let add := s.entries.length
  let hashv := hashOat key (keyLength key)
  let entries := s.entries ++ [⟨key, sym, { keylen := keyLength key, hashv }⟩]
  match s.head with
  | none =>
      let tbl ← hashMakeTable room add
      let (entries, tbl) ← hashAddToTable room entries tbl hashv add
      .ok ⟨entries, some add, some tbl⟩
  | some head =>
      let tbl ← deref s.table
      let (entries, tbl) ← hashAppendList entries tbl add
      let (entries, tbl) ← hashAddToTable room entries tbl hashv add
      .ok ⟨entries, some head, some tbl⟩

def hashAddAll (room : Nat → Bool) : Symbols → List (CStr × Nat) → Outcome Symbols
  | s, [] => .ok s
  | s, (key, sym) :: more => do
      let s ← hashAddStr room s key sym
      hashAddAll room s more

end Adding

section Checking

/-- The inner loop of `HASH_FSCK`, along the chain of a bucket: it gives the
number of handles, unless a handle does not know the one before it. -/
def fsckChain (entries : List Entry) : Nat → Option Nat → Option Nat → Option Nat
  | _, _, none => some 0
  | 0, _, some _ => none
  | bound + 1, prev, some thh => do
      let e ← entries[thh]?
      if prev = e.hh.hhPrev then (fsckChain entries bound (some thh) e.hh.hhNext).map (· + 1)
      else none

/-- The loop over the entries in the order they were added. -/
def fsckOrder (entries : List Entry) : Nat → Option Nat → Option Nat → Option Nat
  | _, _, none => some 0
  | 0, _, some _ => none
  | bound + 1, prev, some thh => do
      let e ← entries[thh]?
      if prev = e.hh.prev then (fsckOrder entries bound (some thh) e.hh.next).map (· + 1)
      else none

/-- The loop over the buckets, with the number of handles met so far. -/
def fsckBuckets (entries : List Entry) : List UTHashBucket → UInt32 → Option UInt32
  | [], count => some count
  | bkt :: rest, count => do
      let chain ← fsckChain entries entries.length none bkt.hhHead
      if bkt.count = chain.toUInt32 then fsckBuckets entries rest (count + chain.toUInt32)
      else none

/-- `HASH_FSCK`, which a debug build runs after each addition and which ends the
process unless everything is in order. -/
def hashFsck (s : Symbols) : Bool :=
  match s.head, s.table with
  | none, _ => true
  | some _, none => false
  | some head, some tbl =>
      (fsckBuckets s.entries (tbl.buckets.take tbl.numBuckets.toNat) 0 == some tbl.numItems) &&
        (fsckOrder s.entries s.entries.length none (some head)).map Nat.toUInt32 == some tbl.numItems

end Checking

end BearLang.HashTable
