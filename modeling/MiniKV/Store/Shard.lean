import Mathlib.Data.List.AList
import MiniKV.Lib.Decimal
import MiniKV.Lib.MachineWord
import MiniKV.Store.Lru

/- One shard, statement by statement. Every call holds the mutex, so it is one
   function of the shard, of the shared version counter, of its clock reading and
   of the order in which its range over the map visits the keys. None is a call
   that never returns: a loop is given fuel from the size of the map. -/
namespace ShardModel
open MachineWord LruModel Decimal

inductive StoreError where
  | notFound
  | notInteger
  | overflow
  | valueTooLarge
  | memoryLimitExceeded
  | casMismatch
  deriving DecidableEq, Repr

structure Config where
  maxValueBytes : Int
  maxMemoryBytes : Int
  itemOverheadBytes : Int
  shards : Int
  deriving DecidableEq, Repr

/-- The fields of a shard that no call writes, with the arithmetic of its ints. -/
structure Limits where
  int : Word
  maxValueBytes : Int
  maxMemoryBytes : Int
  itemOverheadBytes : Int

structure Shard where
  heap : Heap
  free : Ptr
  items : AList (fun _ : Bytes => Ptr)
  lru : LruList
  memoryBytes : Int
  ttlCount : Int
  limits : Limits
  evictions : UInt64
  expirations : UInt64

structure Item where
  value : Bytes
  cas : UInt64
  deriving DecidableEq, Repr

/-- A range over a map visits every key once, in an order of the runtime's choice. -/
structure RangeOrder where
  visit : List Bytes → List Bytes
  perm : ∀ keys, (visit keys).Perm keys

def RangeOrder.asListed : RangeOrder := ⟨id, fun keys => List.Perm.refl keys⟩

def newShard (int : Word) (cfg : Config) (perShardMemory : Int) : Shard where
  heap := fun _ => ⟨⟨[],[],0,0,0⟩,none,none⟩
  free := 0
  items := ∅
  lru := ⟨none,none⟩
  memoryBytes := 0
  ttlCount := 0
  limits := ⟨int,cfg.maxValueBytes,perShardMemory,cfg.itemOverheadBytes⟩
  evictions := 0
  expirations := 0

/-- A ttl that is not positive gives the zero instant. -/
def expiresAt (now : Time) (ttl : Duration) : Time := if ttl ≤ 0 then 0 else now + ttl

def maxUint64 : UInt64 := 0xFFFFFFFFFFFFFFFF

def isDecimal (value : Bytes) : Bool := if value.length = 0 then false else value.all isDigit

/-- A slice of length zero is copied to nil, which has the same bytes. -/
def cloneBytes (value : Bytes) : Bytes := if value.length = 0 then [] else value

def Shard.peek (sh : Shard) (key : Bytes) : Option Entry :=
  (sh.items.lookup key).map fun p => (sh.heap p).toEntry

def Shard.live (sh : Shard) (now : Time) (key : Bytes) : Option Entry :=
  (sh.peek key).filter fun e => !e.expired now

def Limits.itemSize (limits : Limits) (key : Bytes) (valueBytes : Nat) : Int :=
  limits.int.wrap (limits.int.wrap ((key.length : Int) + valueBytes) + limits.itemOverheadBytes)

def Shard.itemSize (sh : Shard) (key : Bytes) (valueBytes : Nat) : Int :=
  sh.limits.itemSize key valueBytes

/-- The expression that every write assigns to its variable of that name. -/
def Shard.projected (sh : Shard) (oldSize size : Int) : Int :=
  sh.limits.int.wrap (sh.limits.int.wrap (sh.memoryBytes - oldSize) + size)

def Shard.deleteLocked (sh : Shard) (item : Ptr) : Shard :=
  let unlinked := remove sh.heap sh.lru item
  { sh with
    items := sh.items.erase (sh.heap item).key
    heap := unlinked.1
    lru := unlinked.2
    memoryBytes := sh.limits.int.wrap (sh.memoryBytes - (sh.heap item).size)
    ttlCount := if (sh.heap item).expiresAt ≠ 0 then sh.ttlCount - 1 else sh.ttlCount }

/-- The loop of both sweeps. A key that an earlier turn deleted is not visited. -/
def Shard.sweepLoop (now : Time) : List Bytes → Shard → Nat → Shard × Nat
  | [], sh, removed => (sh, removed)
  | key :: keys, sh, removed =>
    match sh.items.lookup key with
    | none => sweepLoop now keys sh removed
    | some item =>
      if (sh.heap item).expired now then sweepLoop now keys (sh.deleteLocked item) (removed + 1)
      else sweepLoop now keys sh removed

def Shard.addExpirations (sh : Shard) (removed : Nat) : Shard :=
  if removed > 0 then { sh with expirations := sh.expirations + UInt64.ofNat removed } else sh

def Shard.addEvictions (sh : Shard) (evicted : Nat) : Shard :=
  if evicted > 0 then { sh with evictions := sh.evictions + UInt64.ofNat evicted } else sh

def Shard.cleanupExpired (sh : Shard) (now : Time) (order : RangeOrder) : Shard × Nat :=
  let swept := Shard.sweepLoop now (order.visit sh.items.keys) sh 0
  (swept.1.addExpirations swept.2, swept.2)

def Shard.removeExpiredLocked (sh : Shard) (now : Time) (order : RangeOrder) : Shard :=
  let swept := Shard.sweepLoop now (order.visit sh.items.keys) sh 0
  swept.1.addExpirations swept.2

/-- The inner loop of the eviction, from a candidate towards the head. -/
def skipProtected (heap : Heap) (protectedKey : Bytes) : Nat → Option Ptr → Option (Option Ptr)
  | _, none => some none
  | 0, some _ => none
  | fuel + 1, some candidate =>
    if (heap candidate).key = protectedKey then
      skipProtected heap protectedKey fuel (heap candidate).prev
    else some (some candidate)

def Shard.evictLoop (protectedKey : Bytes) : Nat → Shard → Int → Nat → Option (Shard × Bool)
  | fuel, sh, projected, evicted =>
    if projected > sh.limits.maxMemoryBytes then
      match fuel with
      | 0 => none
      | fuel + 1 =>
        match skipProtected sh.heap protectedKey (sh.items.keys.length + 1) (back sh.lru) with
        | none => none
        | some none => some (sh.addEvictions evicted, false)
        | some (some candidate) =>
          let size := (sh.heap candidate).size
          evictLoop protectedKey fuel (sh.deleteLocked candidate)
            (sh.limits.int.wrap (projected - size)) (evicted + 1)
    else some (sh.addEvictions evicted, true)

def Shard.evictUntilFitsLocked (sh : Shard) (protectedKey : Bytes) (projected : Int) :
    Option (Shard × Bool) :=
  Shard.evictLoop protectedKey (sh.items.keys.length + 1) sh projected 0

/-- The counter of items with an expiry, when an item's expiry is replaced. -/
def retime (ttlCount : Int) (hadTTL : Bool) (expiry : Time) : Int :=
  if hadTTL && decide (expiry = 0) then ttlCount - 1
  else if !hadTTL && !decide (expiry = 0) then ttlCount + 1
  else ttlCount

/-- Reuse of a stored item, as set and cas both do it. -/
def Shard.overwrite (sh : Shard) (existing : Ptr) (value : Bytes) (expiry : Time) (size : Int)
    (newCAS : UInt64) (projected : Int) : Shard :=
  let hadTTL := decide ((sh.heap existing).expiresAt ≠ 0)
  let heap := modify sh.heap existing fun node =>
    { node with value := value, expiresAt := expiry, size := size, cas := newCAS }
  let moved := moveToFront heap sh.lru existing
  { sh with
    heap := moved.1
    lru := moved.2
    ttlCount := retime sh.ttlCount hadTTL expiry
    memoryBytes := projected }

def Shard.insert (sh : Shard) (key value : Bytes) (expiry : Time) (size : Int)
    (newCAS : UInt64) (projected : Int) : Shard :=
  let item := sh.free
  let heap := modify sh.heap item fun _ => ⟨⟨key,value,expiry,size,newCAS⟩,none,none⟩
  let pushed := pushFront heap sh.lru item
  { sh with
    heap := pushed.1
    free := sh.free + 1
    items := sh.items.insert key item
    lru := pushed.2
    ttlCount := if expiry ≠ 0 then sh.ttlCount + 1 else sh.ttlCount
    memoryBytes := projected }

/-- The tail of set, once the write is known to fit. -/
def Shard.store (sh : Shard) (cas : UInt64) (now : Time) (key value : Bytes) (ttl : Duration)
    (size projected : Int) : Shard × UInt64 × Option StoreError :=
  let expiry := expiresAt now ttl
  let newCAS := cas + 1
  match sh.items.lookup key with
  | some existing => (sh.overwrite existing value expiry size newCAS projected, newCAS, none)
  | none => (sh.insert key value expiry size newCAS projected, newCAS, none)

/-- set after the purge: evict if the write still does not fit, then store. -/
def Shard.setEvicting (sh : Shard) (oldSize size projected : Int) (cas : UInt64) (now : Time)
    (key value : Bytes) (ttl : Duration) : Option (Shard × UInt64 × Option StoreError) :=
  if projected > sh.limits.maxMemoryBytes then
    match sh.evictUntilFitsLocked key projected with
    | none => none
    | some (sh, false) => some (sh, cas, some .memoryLimitExceeded)
    | some (sh, true) => some (sh.store cas now key value ttl size (sh.projected oldSize size))
  else some (sh.store cas now key value ttl size projected)

/-- set from the computation of the size on; oldSize is the size of a live old item. -/
def Shard.setFrom (sh : Shard) (oldSize : Int) (cas : UInt64) (now : Time) (order : RangeOrder)
    (key value : Bytes) (ttl : Duration) : Option (Shard × UInt64 × Option StoreError) :=
  let size := sh.itemSize key value.length
  if size > sh.limits.maxMemoryBytes then some (sh, cas, some .memoryLimitExceeded)
  else
    let projected := sh.projected oldSize size
    if projected > sh.limits.maxMemoryBytes then
      if sh.ttlCount > 0 then
        let sh := sh.removeExpiredLocked now order
        let oldSize := match sh.items.lookup key with
          | some old => (sh.heap old).size
          | none => 0
        sh.setEvicting oldSize size (sh.projected oldSize size) cas now key value ttl
      else sh.setEvicting oldSize size projected cas now key value ttl
    else some (sh.store cas now key value ttl size projected)

def Shard.set (sh : Shard) (cas : UInt64) (now : Time) (order : RangeOrder) (key value : Bytes)
    (ttl : Duration) : Option (Shard × UInt64 × Option StoreError) :=
  if (value.length : Int) > sh.limits.maxValueBytes then some (sh, cas, some .valueTooLarge)
  else
    match sh.items.lookup key with
    | some old =>
      if (sh.heap old).expired now then
        (sh.deleteLocked old).setFrom 0 cas now order key value ttl
      else sh.setFrom (sh.heap old).size cas now order key value ttl
    | none => sh.setFrom 0 cas now order key value ttl

def Shard.get (sh : Shard) (now : Time) (key : Bytes) : Shard × Option Item :=
  match sh.items.lookup key with
  | none => (sh, none)
  | some item =>
    if (sh.heap item).expired now then (sh.deleteLocked item, none)
    else
      let moved := moveToFront sh.heap sh.lru item
      ({ sh with heap := moved.1, lru := moved.2 },
        some ⟨cloneBytes (sh.heap item).value, (sh.heap item).cas⟩)

def Shard.casEvicting (sh : Shard) (existing : Ptr) (size projected : Int) (casCounter : UInt64)
    (now : Time) (key value : Bytes) (ttl : Duration) :
    Option (Shard × UInt64 × Option StoreError) :=
  let expiry := expiresAt now ttl
  let newCAS := casCounter + 1
  if projected > sh.limits.maxMemoryBytes then
    match sh.evictUntilFitsLocked key projected with
    | none => none
    | some (sh, false) => some (sh, casCounter, some .memoryLimitExceeded)
    | some (sh, true) =>
      some (sh.overwrite existing value expiry size newCAS
        (sh.projected (sh.heap existing).size size), newCAS, none)
  else some (sh.overwrite existing value expiry size newCAS projected, newCAS, none)

def Shard.cas (sh : Shard) (casCounter : UInt64) (now : Time) (order : RangeOrder)
    (key value : Bytes) (ttl : Duration) (expected : UInt64) :
    Option (Shard × UInt64 × Option StoreError) :=
  if (value.length : Int) > sh.limits.maxValueBytes then some (sh, casCounter, some .valueTooLarge)
  else
    match sh.items.lookup key with
    | none => some (sh, casCounter, some .notFound)
    | some existing =>
      if (sh.heap existing).expired now then
        some (sh.deleteLocked existing, casCounter, some .notFound)
      else if (sh.heap existing).cas ≠ expected then some (sh, casCounter, some .casMismatch)
      else
        let size := sh.itemSize key value.length
        if size > sh.limits.maxMemoryBytes then
          some (sh, casCounter, some .memoryLimitExceeded)
        else
          let projected := sh.projected (sh.heap existing).size size
          if projected > sh.limits.maxMemoryBytes then
            if sh.ttlCount > 0 then
              let sh := sh.removeExpiredLocked now order
              match sh.items.lookup key with
              | none => some (sh, casCounter, some .notFound)
              | some existing =>
                sh.casEvicting existing size (sh.projected (sh.heap existing).size size)
                  casCounter now key value ttl
            else sh.casEvicting existing size projected casCounter now key value ttl
          else
            some (sh.overwrite existing value (expiresAt now ttl) size (casCounter + 1) projected,
              casCounter + 1, none)

def Shard.delete (sh : Shard) (now : Time) (key : Bytes) : Shard × Bool :=
  match sh.items.lookup key with
  | none => (sh, false)
  | some item =>
    if (sh.heap item).expired now then (sh.deleteLocked item, false)
    else (sh.deleteLocked item, true)

/-- The tail of incr: the expiry of the item stays as it was. -/
def Shard.rewriteCounter (sh : Shard) (item : Ptr) (nextValue : Bytes) (nextSize : Int)
    (newCAS : UInt64) (projected : Int) : Shard :=
  let heap := modify sh.heap item fun node =>
    { node with value := nextValue, size := nextSize, cas := newCAS }
  let moved := moveToFront heap sh.lru item
  { sh with heap := moved.1, lru := moved.2, memoryBytes := projected }

/-- incr after the purge; projected is computed again even when nothing is evicted. -/
def Shard.incrEvicting (sh : Shard) (item : Ptr) (nextSize projected : Int) (cas : UInt64)
    (key nextValue : Bytes) (next : UInt64) :
    Option (Shard × UInt64 × Except StoreError UInt64) :=
  let fitted :=
    if projected > sh.limits.maxMemoryBytes then sh.evictUntilFitsLocked key projected
    else some (sh, true)
  match fitted with
  | none => none
  | some (sh, false) => some (sh, cas, .error .memoryLimitExceeded)
  | some (sh, true) =>
    some (sh.rewriteCounter item nextValue nextSize (cas + 1)
      (sh.projected (sh.heap item).size nextSize), cas + 1, .ok next)

/-- incr once the next number is known not to overflow. -/
def Shard.incrTo (sh : Shard) (item : Ptr) (cas : UInt64) (now : Time) (order : RangeOrder)
    (key : Bytes) (next : UInt64) : Option (Shard × UInt64 × Except StoreError UInt64) :=
  let nextValue := formatUint next
  if (nextValue.length : Int) > sh.limits.maxValueBytes then some (sh, cas, .error .valueTooLarge)
  else
    let nextSize := sh.itemSize key nextValue.length
    if nextSize > sh.limits.maxMemoryBytes then some (sh, cas, .error .memoryLimitExceeded)
    else
      let projected := sh.projected (sh.heap item).size nextSize
      if projected > sh.limits.maxMemoryBytes then
        if sh.ttlCount > 0 then
          let sh := sh.removeExpiredLocked now order
          match sh.items.lookup key with
          | none => some (sh, cas, .error .notFound)
          | some item =>
            sh.incrEvicting item nextSize (sh.projected (sh.heap item).size nextSize)
              cas key nextValue next
        else sh.incrEvicting item nextSize projected cas key nextValue next
      else
        some (sh.rewriteCounter item nextValue nextSize (cas + 1) projected, cas + 1, .ok next)

def Shard.incr (sh : Shard) (cas : UInt64) (now : Time) (order : RangeOrder) (key : Bytes)
    (delta : UInt64) : Option (Shard × UInt64 × Except StoreError UInt64) :=
  match sh.items.lookup key with
  | none => some (sh, cas, .error .notFound)
  | some item =>
    if (sh.heap item).expired now then some (sh.deleteLocked item, cas, .error .notFound)
    else if !isDecimal (sh.heap item).value then some (sh, cas, .error .notInteger)
    else
      match parseUint (sh.heap item).value with
      | none => some (sh, cas, .error .notInteger)
      | some current =>
        if maxUint64 - current < delta then some (sh, cas, .error .overflow)
        else sh.incrTo item cas now order key (current + delta)

inductive Call where
  | set (key value : Bytes) (ttl : Duration)
  | get (key : Bytes)
  | cas (key value : Bytes) (ttl : Duration) (expected : UInt64)
  | delete (key : Bytes)
  | incr (key : Bytes) (delta : UInt64)
  | cleanupExpired
  deriving DecidableEq, Repr

/-- What a call returns; a write without an error returns nil. -/
inductive Reply where
  | wrote (err : Option StoreError)
  | found (item : Option Item)
  | deleted (ok : Bool)
  | counted (result : Except StoreError UInt64)
  | swept (removed : Nat)
  deriving DecidableEq

def Call.key : Call → Option Bytes
  | .set key _ _ => some key
  | .get key => some key
  | .cas key _ _ _ => some key
  | .delete key => some key
  | .incr key _ => some key
  | .cleanupExpired => none

def Call.writes : Call → Bool
  | .set .. | .cas .. | .incr .. => true
  | .get _ | .delete _ | .cleanupExpired => false

def Reply.success : Reply → Bool
  | .wrote err => err.isNone
  | .found item => item.isSome
  | .deleted ok => ok
  | .counted (.ok _) => true
  | .counted (.error _) => false
  | .swept _ => false

def Shard.step (sh : Shard) (cas : UInt64) (now : Time) (order : RangeOrder) :
    Call → Option (Shard × UInt64 × Reply)
  | .set key value ttl =>
    (sh.set cas now order key value ttl).map fun (sh, cas, err) => (sh, cas, .wrote err)
  | .get key => some ((sh.get now key).1, cas, .found (sh.get now key).2)
  | .cas key value ttl expected =>
    (sh.cas cas now order key value ttl expected).map fun (sh, cas, err) => (sh, cas, .wrote err)
  | .delete key => some ((sh.delete now key).1, cas, .deleted (sh.delete now key).2)
  | .incr key delta =>
    (sh.incr cas now order key delta).map fun (sh, cas, result) => (sh, cas, .counted result)
  | .cleanupExpired =>
    some ((sh.cleanupExpired now order).1, cas, .swept (sh.cleanupExpired now order).2)

/-- A call as one shard sees it: the shared counter stands anywhere, since other
    shards move it between two calls. -/
structure Visit where
  call : Call
  counter : UInt64
  now : Time
  order : RangeOrder

def Shard.visit (sh : Shard) (v : Visit) : Option (Shard × Reply) :=
  (sh.step v.counter v.now v.order v.call).map fun done => (done.1, done.2.2)

end ShardModel
