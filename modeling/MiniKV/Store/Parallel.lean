import MiniKV.Store.Effects

/- Two caches under one call. The calls are compared branch by branch once; what a
   comparison has to bring is that its relation survives the five ways in which a call
   changes a cache. -/
namespace CacheParallel
open KeyedList LruModel Decimal ShardModel CacheModel CacheEffects

variable {limits limits' : Limits} {c d : Cache} {cas : UInt64} {now : Time} {call : Call}
  {key : Bytes} {e : Entry} {Rel : Cache → Cache → Prop}

/-- The entry of the key that a reader can still see. -/
def liveEntry (now : Time) (key : Bytes) (c : Cache) : Option Entry :=
  (lookup key c.entries).filter fun e => !e.expired now

theorem liveEntry_some : liveEntry now key c = some e ↔
    lookup key c.entries = some e ∧ e.expired now = false := by
  simp [liveEntry, Option.filter_eq_some_iff]

theorem liveEntry_none (miss : liveEntry now key c = none) (hit : lookup key c.entries = some e) :
    e.expired now = true := by
  simpa [liveEntry, hit] using miss

theorem stores_live {reply : Reply} (same : liveEntry now e.key d = liveEntry now e.key c)
    (stores : Stores limits (lookup e.key c.entries) cas now call e reply) :
    Stores limits (lookup e.key d.entries) cas now call e reply := by
  cases stores with
  | set key value ttl => exact Stores.set key value ttl
  | cas key value ttl hit live =>
    have other := liveEntry_some.mp (same.trans (liveEntry_some.mpr ⟨hit,live⟩))
    exact Stores.cas key value ttl other.1 live
  | incr key hit live count =>
    have other := liveEntry_some.mp (same.trans (liveEntry_some.mpr ⟨hit,live⟩))
    exact Stores.incr key other.1 live count

theorem get_miss (miss : liveEntry now key c = none) :
    c.get now key = (c.dropExpired now key, none) := by
  unfold Cache.get Cache.dropExpired
  cases hit : lookup key c.entries with
  | none => rfl
  | some e => simp [liveEntry_none miss hit]

theorem cas_miss {value : Bytes} {ttl : Duration} {expected : UInt64}
    (short : ¬ (value.length : Int) > limits.maxValueBytes) (miss : liveEntry now key c = none) :
    c.cas limits cas now key value ttl expected = (c.dropExpired now key, cas, some .notFound) := by
  unfold Cache.cas Cache.dropExpired
  rw [if_neg short]
  cases hit : lookup key c.entries with
  | none => rfl
  | some e => simp [liveEntry_none miss hit]

theorem delete_miss (miss : liveEntry now key c = none) :
    c.delete now key = (c.dropExpired now key, false) := by
  unfold Cache.delete Cache.dropExpired
  cases hit : lookup key c.entries with
  | none => rfl
  | some e => simp [liveEntry_none miss hit]

theorem incr_miss {delta : UInt64} (miss : liveEntry now key c = none) :
    c.incr limits cas now key delta = (c.dropExpired now key, cas, .error .notFound) := by
  unfold Cache.incr Cache.dropExpired
  cases hit : lookup key c.entries with
  | none => rfl
  | some e => simp [liveEntry_none miss hit]

/-- What a relation owes to a call: the key reads alike on both sides, and every change
    that the call may make keeps the relation. -/
structure Parallel (Rel : Cache → Cache → Prop) (limits limits' : Limits) (cas : UInt64)
    (now : Time) (call : Call) (c d : Cache) : Prop where
  sizes : ∀ key n, limits'.itemSize key n = limits.itemSize key n
  values : limits'.maxValueBytes = limits.maxValueBytes
  same : Rel c d
  found : ∀ key, call.key = some key → liveEntry now key d = liveEntry now key c
  cleaned : ∀ key, call.key = some key → Rel (c.dropExpired now key) (d.dropExpired now key)
  touched : ∀ e, call.key = some e.key → liveEntry now e.key c = some e →
    Rel (c.touch e) (d.touch e)
  dropped : ∀ key, call.key = some key → Rel (c.drop key) (d.drop key)
  budget : ∀ e reply, Stores limits (lookup e.key c.entries) cas now call e reply →
    (e.value.length : Int) ≤ limits.maxValueBytes →
    (e.size > limits'.maxMemoryBytes ↔ e.size > limits.maxMemoryBytes)
  written : ∀ e reply, Stores limits (lookup e.key c.entries) cas now call e reply →
    (e.value.length : Int) ≤ limits.maxValueBytes → e.size ≤ limits.maxMemoryBytes →
    Rel (c.write limits now e) (d.write limits' now e)

def Together {ρ : Type} (Rel : Cache → Cache → Prop) (x y : Cache × ρ) : Prop :=
  Rel x.1 y.1 ∧ x.2 = y.2

theorem set_together {value : Bytes} {ttl : Duration}
    (par : Parallel Rel limits limits' cas now (.set key value ttl) c d) :
    Together Rel (c.set limits cas now key value ttl) (d.set limits' cas now key value ttl) := by
  unfold Cache.set
  rw [par.values, par.sizes]
  by_cases long : (value.length : Int) > limits.maxValueBytes
  · rw [if_pos long, if_pos long]
    exact ⟨par.same,rfl⟩
  · rw [if_neg long, if_neg long]
    let e : Entry := ⟨key,value,expiresAt now ttl,limits.itemSize key value.length,cas + 1⟩
    have stores : Stores limits (lookup key c.entries) cas now (.set key value ttl) e
      (.wrote none) := Stores.set key value ttl
    have budget : limits.itemSize key value.length > limits'.maxMemoryBytes ↔
        limits.itemSize key value.length > limits.maxMemoryBytes :=
      par.budget e _ stores (Int.not_lt.mp long)
    by_cases big : limits.itemSize key value.length > limits.maxMemoryBytes
    · simp only [if_pos big, if_pos (budget.mpr big)]
      exact ⟨par.cleaned key rfl,rfl⟩
    · have left := write_dropExpired limits c now e
      have right := write_dropExpired limits' d now e
      simp only [if_neg big, if_neg (mt budget.mp big)]
      rw [left, right]
      exact ⟨par.written e _ stores (Int.not_lt.mp long) (Int.not_lt.mp big),rfl⟩

theorem get_together (par : Parallel Rel limits limits' cas now (.get key) c d) :
    Together Rel (c.get now key) (d.get now key) := by
  have found := par.found key rfl
  cases hit : liveEntry now key c with
  | none =>
    rw [get_miss hit, get_miss (found.trans hit)]
    exact ⟨par.cleaned key rfl,rfl⟩
  | some e =>
    obtain ⟨here,live⟩ := liveEntry_some.mp hit
    obtain ⟨there,_⟩ := liveEntry_some.mp (found.trans hit)
    obtain rfl : e.key = key := (find_some here).2
    simp only [Cache.get, here, there, live, Bool.false_eq_true, if_false]
    exact ⟨par.touched e rfl hit,rfl⟩

theorem cas_together {value : Bytes} {ttl : Duration} {expected : UInt64}
    (par : Parallel Rel limits limits' cas now (.cas key value ttl expected) c d) :
    Together Rel (c.cas limits cas now key value ttl expected)
      (d.cas limits' cas now key value ttl expected) := by
  have found := par.found key rfl
  by_cases long : (value.length : Int) > limits.maxValueBytes
  · unfold Cache.cas
    rw [par.values, if_pos long, if_pos long]
    exact ⟨par.same,rfl⟩
  · have long' : ¬ (value.length : Int) > limits'.maxValueBytes := by rwa [par.values]
    cases hit : liveEntry now key c with
    | none =>
      rw [cas_miss long hit, cas_miss long' (found.trans hit)]
      exact ⟨par.cleaned key rfl,rfl⟩
    | some old =>
      obtain ⟨here,live⟩ := liveEntry_some.mp hit
      obtain ⟨there,_⟩ := liveEntry_some.mp (found.trans hit)
      unfold Cache.cas
      rw [if_neg long, if_neg long', here, there, par.sizes]
      simp only [live, Bool.false_eq_true, if_false]
      by_cases differs : old.cas ≠ expected
      · simp only [if_pos differs]
        exact ⟨par.same,rfl⟩
      · obtain rfl : old.cas = expected := by simpa using differs
        let e : Entry := ⟨key,value,expiresAt now ttl,limits.itemSize key value.length,cas + 1⟩
        have stores : Stores limits (lookup key c.entries) cas now (.cas key value ttl old.cas) e
          (.wrote none) := Stores.cas key value ttl here live
        have budget : limits.itemSize key value.length > limits'.maxMemoryBytes ↔
            limits.itemSize key value.length > limits.maxMemoryBytes :=
          par.budget e _ stores (Int.not_lt.mp long)
        simp only [if_neg differs]
        by_cases big : limits.itemSize key value.length > limits.maxMemoryBytes
        · simp only [if_pos big, if_pos (budget.mpr big)]
          exact ⟨par.same,rfl⟩
        · simp only [if_neg big, if_neg (mt budget.mp big)]
          exact ⟨par.written e _ stores (Int.not_lt.mp long) (Int.not_lt.mp big),rfl⟩

theorem delete_together (par : Parallel Rel limits limits' cas now (.delete key) c d) :
    Together Rel (c.delete now key) (d.delete now key) := by
  have found := par.found key rfl
  cases hit : liveEntry now key c with
  | none =>
    rw [delete_miss hit, delete_miss (found.trans hit)]
    exact ⟨par.cleaned key rfl,rfl⟩
  | some e =>
    obtain ⟨here,_⟩ := liveEntry_some.mp hit
    obtain ⟨there,_⟩ := liveEntry_some.mp (found.trans hit)
    simp only [Cache.delete, here, there]
    exact ⟨par.dropped key rfl,rfl⟩

theorem incr_together {delta : UInt64}
    (par : Parallel Rel limits limits' cas now (.incr key delta) c d) :
    Together Rel (c.incr limits cas now key delta) (d.incr limits' cas now key delta) := by
  have found := par.found key rfl
  cases hit : liveEntry now key c with
  | none =>
    rw [incr_miss hit, incr_miss (found.trans hit)]
    exact ⟨par.cleaned key rfl,rfl⟩
  | some old =>
    obtain ⟨here,live⟩ := liveEntry_some.mp hit
    obtain ⟨there,_⟩ := liveEntry_some.mp (found.trans hit)
    unfold Cache.incr
    rw [here, there]
    simp only [live, Bool.false_eq_true, if_false]
    cases count : nextCount old.value delta with
    | error err => exact ⟨par.same,rfl⟩
    | ok next =>
      simp only [Cache.incrTo]
      rw [par.values, par.sizes]
      by_cases long : ((formatUint next).length : Int) > limits.maxValueBytes
      · rw [if_pos long, if_pos long]
        exact ⟨par.same,rfl⟩
      · let e : Entry :=
          ⟨key,formatUint next,old.expiresAt,limits.itemSize key (formatUint next).length,cas + 1⟩
        have stores : Stores limits (lookup key c.entries) cas now (.incr key delta) e
          (.counted (.ok next)) := Stores.incr key here live count
        have budget : limits.itemSize key (formatUint next).length > limits'.maxMemoryBytes ↔
            limits.itemSize key (formatUint next).length > limits.maxMemoryBytes :=
          par.budget e _ stores (Int.not_lt.mp long)
        rw [if_neg long, if_neg long]
        by_cases big : limits.itemSize key (formatUint next).length > limits.maxMemoryBytes
        · rw [if_pos big, if_pos (budget.mpr big)]
          exact ⟨par.same,rfl⟩
        · rw [if_neg big, if_neg (mt budget.mp big)]
          exact ⟨par.written e _ stores (Int.not_lt.mp long) (Int.not_lt.mp big),rfl⟩

/-- Every keyed call keeps the relation and gives one answer. -/
theorem step_together (keyed : call ≠ .cleanupExpired)
    (par : Parallel Rel limits limits' cas now call c d) :
    Together Rel (c.step limits cas now call) (d.step limits' cas now call) := by
  cases call with
  | set key value ttl =>
    obtain ⟨after,reply⟩ := set_together par
    exact ⟨after, by simp only [Cache.step, reply]⟩
  | get key =>
    obtain ⟨after,reply⟩ := get_together par
    exact ⟨after, by simp only [Cache.step, reply]⟩
  | cas key value ttl expected =>
    obtain ⟨after,reply⟩ := cas_together par
    exact ⟨after, by simp only [Cache.step, reply]⟩
  | delete key =>
    obtain ⟨after,reply⟩ := delete_together par
    exact ⟨after, by simp only [Cache.step, reply]⟩
  | incr key delta =>
    obtain ⟨after,reply⟩ := incr_together par
    exact ⟨after, by simp only [Cache.step, reply]⟩
  | cleanupExpired => exact absurd rfl keyed

end CacheParallel
