import MiniKV.Lib.KeyedList
import MiniKV.Store.Shard

/- What a shard is for: a sequence of entries, the most recently used one first,
   under a byte budget. Map, links and counters are gone; the only arithmetic left
   is the reduction of one sum. -/
namespace CacheModel
open MachineWord KeyedList LruModel Decimal ShardModel

structure Cache where
  entries : List Entry
  evictions : Nat
  expirations : Nat
  deriving DecidableEq, Repr

def empty : Cache := ⟨[],0,0⟩

def total (es : List Entry) : Int := (es.map Entry.size).sum

def timed (es : List Entry) : Nat := es.countP fun e => decide (e.expiresAt ≠ 0)

def lookup (key : Bytes) (es : List Entry) : Option Entry := find Entry.key key es

def others (key : Bytes) (es : List Entry) : List Entry := without Entry.key key es

def alive (now : Time) (es : List Entry) : List Entry := es.filter fun e => !e.expired now

def fits (limits : Limits) (size : Int) (es : List Entry) : Bool :=
  decide (limits.int.wrap (total es + size) ≤ limits.maxMemoryBytes)

/-- What a write of the given size leaves of the other entries. -/
structure Room where
  kept : List Entry
  evicted : Nat
  expired : Nat

def makeRoom (limits : Limits) (now : Time) (size : Int) (es : List Entry) : Room :=
  if fits limits size es then ⟨es,0,0⟩
  else
    let live := alive now es
    let kept := trimBack (fits limits size) live
    ⟨kept, live.length - kept.length, es.length - live.length⟩

def Cache.write (limits : Limits) (c : Cache) (now : Time) (e : Entry) : Cache :=
  let room := makeRoom limits now e.size (others e.key c.entries)
  ⟨e :: room.kept, c.evictions + room.evicted, c.expirations + room.expired⟩

def Cache.drop (c : Cache) (key : Bytes) : Cache := { c with entries := others key c.entries }

def Cache.touch (c : Cache) (e : Entry) : Cache :=
  { c with entries := e :: others e.key c.entries }

def Cache.dropExpired (c : Cache) (now : Time) (key : Bytes) : Cache :=
  match lookup key c.entries with
  | some e => if e.expired now then c.drop key else c
  | none => c

def Cache.set (limits : Limits) (c : Cache) (cas : UInt64) (now : Time) (key value : Bytes)
    (ttl : Duration) : Cache × UInt64 × Option StoreError :=
  if (value.length : Int) > limits.maxValueBytes then (c, cas, some .valueTooLarge)
  else
    let c := c.dropExpired now key
    let size := limits.itemSize key value.length
    if size > limits.maxMemoryBytes then (c, cas, some .memoryLimitExceeded)
    else (c.write limits now ⟨key,value,expiresAt now ttl,size,cas + 1⟩, cas + 1, none)

def Cache.get (c : Cache) (now : Time) (key : Bytes) : Cache × Option Item :=
  match lookup key c.entries with
  | none => (c, none)
  | some e => if e.expired now then (c.drop key, none) else (c.touch e, some ⟨e.value,e.cas⟩)

def Cache.cas (limits : Limits) (c : Cache) (casCounter : UInt64) (now : Time)
    (key value : Bytes) (ttl : Duration) (expected : UInt64) :
    Cache × UInt64 × Option StoreError :=
  if (value.length : Int) > limits.maxValueBytes then (c, casCounter, some .valueTooLarge)
  else
    match lookup key c.entries with
    | none => (c, casCounter, some .notFound)
    | some e =>
      if e.expired now then (c.drop key, casCounter, some .notFound)
      else if e.cas ≠ expected then (c, casCounter, some .casMismatch)
      else
        let size := limits.itemSize key value.length
        if size > limits.maxMemoryBytes then (c, casCounter, some .memoryLimitExceeded)
        else (c.write limits now ⟨key,value,expiresAt now ttl,size,casCounter + 1⟩,
          casCounter + 1, none)

def Cache.delete (c : Cache) (now : Time) (key : Bytes) : Cache × Bool :=
  match lookup key c.entries with
  | none => (c, false)
  | some e => (c.drop key, !e.expired now)

def nextCount (value : Bytes) (delta : UInt64) : Except StoreError UInt64 :=
  match parseUint value with
  | none => .error .notInteger
  | some current =>
    if maxUint64 - current < delta then .error .overflow else .ok (current + delta)

def Cache.incrTo (limits : Limits) (c : Cache) (e : Entry) (cas : UInt64) (now : Time)
    (key : Bytes) (next : UInt64) : Cache × UInt64 × Except StoreError UInt64 :=
  let text := formatUint next
  if (text.length : Int) > limits.maxValueBytes then (c, cas, .error .valueTooLarge)
  else
    let size := limits.itemSize key text.length
    if size > limits.maxMemoryBytes then (c, cas, .error .memoryLimitExceeded)
    else (c.write limits now ⟨key,text,e.expiresAt,size,cas + 1⟩, cas + 1, .ok next)

def Cache.incr (limits : Limits) (c : Cache) (cas : UInt64) (now : Time) (key : Bytes)
    (delta : UInt64) : Cache × UInt64 × Except StoreError UInt64 :=
  match lookup key c.entries with
  | none => (c, cas, .error .notFound)
  | some e =>
    if e.expired now then (c.drop key, cas, .error .notFound)
    else
      match nextCount e.value delta with
      | .error err => (c, cas, .error err)
      | .ok next => c.incrTo limits e cas now key next

def Cache.cleanupExpired (c : Cache) (now : Time) : Cache × Nat :=
  let live := alive now c.entries
  let removed := c.entries.length - live.length
  ({ c with entries := live, expirations := c.expirations + removed }, removed)

def Cache.step (limits : Limits) (c : Cache) (cas : UInt64) (now : Time) :
    Call → Cache × UInt64 × Reply
  | .set key value ttl =>
    let (c, cas, err) := c.set limits cas now key value ttl
    (c, cas, .wrote err)
  | .get key => ((c.get now key).1, cas, .found (c.get now key).2)
  | .cas key value ttl expected =>
    let (c, cas, err) := c.cas limits cas now key value ttl expected
    (c, cas, .wrote err)
  | .delete key => ((c.delete now key).1, cas, .deleted (c.delete now key).2)
  | .incr key delta =>
    let (c, cas, result) := c.incr limits cas now key delta
    (c, cas, .counted result)
  | .cleanupExpired => ((c.cleanupExpired now).1, cas, .swept (c.cleanupExpired now).2)

end CacheModel
