import MiniKV.Store.Eviction
import MiniKV.Store.Pressure

/- How the three writes fail. Which error a write returns is decided by its own value,
   its own item and the limits of the shard, never by the other items: a write that
   comes to the purge and the eviction succeeds. So a failed write has changed nothing,
   except that it may have dropped its own expired item. -/
namespace ShardFailures
open MachineWord KeyedList LruModel Decimal ShardModel CacheModel CacheEffects ShardRefinement
  ShardSimulation ShardEviction ShardInvariant ShardRecency StoreModel StoreFate StoreOverflow
  StorePressure StepRuns

def setFailure (limits : Limits) (key value : Bytes) : Option StoreError :=
  if (value.length : Int) > limits.maxValueBytes then some .valueTooLarge
  else if limits.itemSize key value.length > limits.maxMemoryBytes then some .memoryLimitExceeded
  else none

def casFailure (limits : Limits) (found : Option Entry) (key value : Bytes) (expected : UInt64) :
    Option StoreError :=
  if (value.length : Int) > limits.maxValueBytes then some .valueTooLarge
  else
    match found with
    | none => some .notFound
    | some e =>
      if e.cas ≠ expected then some .casMismatch
      else if limits.itemSize key value.length > limits.maxMemoryBytes then
        some .memoryLimitExceeded
      else none

/-- The blob is a number, taken without a bound, and so is the sum. -/
def incrOutcome (limits : Limits) (found : Option Entry) (key : Bytes) (delta : UInt64) :
    Except StoreError UInt64 :=
  match found with
  | none => .error .notFound
  | some e =>
    if ¬ (e.value ≠ [] ∧ e.value.all isDigit ∧ decimalValue e.value < 2 ^ 64) then
      .error .notInteger
    else
      let sum := decimalValue e.value + delta.toNat
      if 2 ^ 64 ≤ sum then .error .overflow
      else if ((formatNat sum).length : Int) > limits.maxValueBytes then .error .valueTooLarge
      else if limits.itemSize key (formatNat sum).length > limits.maxMemoryBytes then
        .error .memoryLimitExceeded
      else .ok (UInt64.ofNat sum)

/-- The shard, key and item size with which a write goes on after its purge; none when the
    write has returned before, or fits as it is. -/
def pressed (sh : Shard) (now : Time) (order : RangeOrder) (call : Call) :
    Option (Shard × Bytes × Int) :=
  match measured sh now call with
  | none => none
  | some (sized,key,n) =>
    let size := sized.itemSize key n
    if size ≤ sized.limits.maxMemoryBytes ∧
        sized.projected (oldSizeOf sized key) size > sized.limits.maxMemoryBytes then
      some (purgedFor sized now order, key, size)
    else none

/-- The errors of the writes in a shard, and what they meet after a purge: the item that
    cas and incr look up again is there, and evictUntilFitsLocked makes room. -/
structure FailsExactly (sh : Shard) (cas : UInt64) (now : Time) (order : RangeOrder) : Prop where
  setFails : ∀ key value ttl, ∃ next counter,
    sh.set cas now order key value ttl = some (next,counter,setFailure sh.limits key value)
  casFails : ∀ key value ttl expected, ∃ next counter,
    sh.cas cas now order key value ttl expected =
      some (next,counter,casFailure sh.limits (sh.live now key) key value expected)
  incrFails : ∀ key delta, ∃ next counter,
    sh.incr cas now order key delta =
      some (next,counter,incrOutcome sh.limits (sh.live now key) key delta)
  present : ∀ call purged key size, (∀ value ttl, call ≠ .set key value ttl) →
    pressed sh now order call = some (purged,key,size) → (purged.items.lookup key).isSome = true
  evicts : ∀ call purged key size, pressed sh now order call = some (purged,key,size) →
    ∃ fitted, purged.evictUntilFitsLocked key (purged.projected (oldSizeOf purged key) size) =
      some (fitted,true)

variable {sh next purged : Shard} {c : Cache} {xs : List Ptr} {key value : Bytes} {now : Time}
  {cas counter : UInt64} {order : RangeOrder} {call : Call} {size : Int} {reply : Reply}

theorem live_none (ref : Refines sh c xs) (miss : lookup key c.entries = none) :
    sh.live now key = none := by
  rw [Shard.live, peek_refined ref, miss]
  rfl

theorem live_dead {e : Entry} (ref : Refines sh c xs) (hit : lookup key c.entries = some e)
    (dead : e.expired now = true) : sh.live now key = none := by
  rw [Shard.live, peek_refined ref, hit]
  simp [dead]

theorem live_fresh {e : Entry} (ref : Refines sh c xs) (hit : lookup key c.entries = some e)
    (fresh : e.expired now = false) : sh.live now key = some e := by
  rw [Shard.live, peek_refined ref, hit]
  simp [fresh]

theorem set_result (limits : Limits) (c : Cache) (cas : UInt64) (now : Time) (key value : Bytes)
    (ttl : Duration) : (c.set limits cas now key value ttl).2.2 = setFailure limits key value := by
  unfold Cache.set setFailure
  dsimp only
  split
  · rfl
  · split <;> rfl

theorem cas_result (ref : Refines sh c xs) (cas : UInt64) (now : Time) (key value : Bytes)
    (ttl : Duration) (expected : UInt64) :
    (c.cas sh.limits cas now key value ttl expected).2.2 =
      casFailure sh.limits (sh.live now key) key value expected := by
  unfold Cache.cas casFailure
  split
  · rfl
  · cases hit : lookup key c.entries with
    | none => rw [live_none ref hit]
    | some e =>
      dsimp only
      cases dead : e.expired now with
      | true => rw [live_dead ref hit dead, if_pos rfl]
      | false =>
        rw [live_fresh ref hit dead, if_neg Bool.false_ne_true]
        dsimp only
        split
        · rfl
        · split <;> rfl

theorem nextCount_refused {delta : UInt64}
    (bad : ¬ (value ≠ [] ∧ value.all isDigit ∧ decimalValue value < 2 ^ 64)) :
    nextCount value delta = .error .notInteger := by
  rw [nextCount, parseUint, if_neg bad]

theorem nextCount_number {delta : UInt64}
    (good : value ≠ [] ∧ value.all isDigit ∧ decimalValue value < 2 ^ 64) :
    nextCount value delta =
      if 2 ^ 64 ≤ decimalValue value + delta.toNat then .error .overflow
      else .ok (UInt64.ofNat (decimalValue value + delta.toNat)) := by
  have range := good.2.2
  have bound := delta.toNat_lt
  have same : (UInt64.ofNat (decimalValue value)).toNat = decimalValue value := by
    rw [UInt64.toNat_ofNat']
    omega
  have below : maxUint64 - UInt64.ofNat (decimalValue value) < delta ↔
      2 ^ 64 ≤ decimalValue value + delta.toNat := by
    have top : maxUint64.toNat = 2 ^ 64 - 1 := rfl
    have fits : UInt64.ofNat (decimalValue value) ≤ maxUint64 := by
      rw [UInt64.le_iff_toNat_le, top, same]
      omega
    rw [UInt64.lt_iff_toNat_lt, UInt64.toNat_sub_of_le _ _ fits, top, same]
    omega
  rw [nextCount, parseUint, if_pos good]
  dsimp only
  by_cases tooLarge : 2 ^ 64 ≤ decimalValue value + delta.toNat
  · rw [if_pos (below.mpr tooLarge), if_pos tooLarge]
  · rw [if_neg fun less => tooLarge (below.mp less), if_neg tooLarge]
    congr 1
    apply UInt64.toNat_inj.mp
    rw [UInt64.toNat_add, same, UInt64.toNat_ofNat']

theorem incr_result (ref : Refines sh c xs) (cas : UInt64) (now : Time) (key : Bytes)
    (delta : UInt64) :
    (c.incr sh.limits cas now key delta).2.2 =
      incrOutcome sh.limits (sh.live now key) key delta := by
  unfold Cache.incr incrOutcome
  cases hit : lookup key c.entries with
  | none => rw [live_none ref hit]
  | some e =>
    dsimp only
    cases dead : e.expired now with
    | true => rw [live_dead ref hit dead, if_pos rfl]
    | false =>
      rw [live_fresh ref hit dead, if_neg Bool.false_ne_true]
      dsimp only
      by_cases good : e.value ≠ [] ∧ e.value.all isDigit ∧ decimalValue e.value < 2 ^ 64
      · rw [nextCount_number good, if_neg (not_not.mpr good)]
        by_cases tooLarge : 2 ^ 64 ≤ decimalValue e.value + delta.toNat
        · rw [if_pos tooLarge, if_pos tooLarge]
        · have text : formatUint (UInt64.ofNat (decimalValue e.value + delta.toNat)) =
              formatNat (decimalValue e.value + delta.toNat) := by
            rw [formatUint, UInt64.toNat_ofNat', Nat.mod_eq_of_lt (by omega)]
          rw [if_neg tooLarge, if_neg tooLarge]
          dsimp only [Cache.incrTo]
          rw [text]
          split
          · rfl
          · split <;> rfl
      · rw [nextCount_refused good, if_pos good]

theorem pressed_purged (ref : Refines sh c xs)
    (late : pressed sh now order call = some (purged,key,size)) :
    ∃ sized n d ys e zs, measured sh now call = some (sized,key,n) ∧ Refines sized d ys ∧
      Purged sized d now key purged e zs ∧ fits sized.limits size (others key d.entries) = false ∧
      sized.limits.int.wrap size = size ∧ size ≤ sized.limits.maxMemoryBytes := by
  unfold pressed at late
  split at late
  · cases late
  · rename_i sized name n found
    dsimp only at late
    split at late
    · rename_i tight
      simp only [Option.some.injEq, Prod.mk.injEq] at late
      obtain ⟨rfl,rfl,rfl⟩ := late
      obtain ⟨d,ys,refined,_,_,_,live,_⟩ := measured_refines ref found
      obtain ⟨e,zs,clean⟩ := purgedFor_runs order refined live
      exact ⟨sized, n, d, ys, e, zs, found, refined, clean, (over_iff refined).mp tight.2,
        itemSize_reduced _ _ _, tight.1⟩
    · cases late

/-- A cas or an incr that computes a size has found its item. -/
theorem measured_present {sized : Shard} {n : Nat} (other : ∀ value ttl, call ≠ .set key value ttl)
    (found : measured sh now call = some (sized,key,n)) :
    (sized.items.lookup key).isSome = true := by
  have held {e : Entry} {name : Bytes} (hit : sh.peek name = some e) :
      (sh.items.lookup name).isSome = true := by
    obtain ⟨p,stored,_⟩ := Option.map_eq_some_iff.mp hit
    rw [stored]
    rfl
  cases call with
  | set name value ttl =>
    simp only [measured] at found
    split at found
    · cases found
    · simp only [Option.some.injEq, Prod.mk.injEq] at found
      obtain ⟨_,rfl,_⟩ := found
      exact absurd rfl (other value ttl)
  | cas name value ttl expected =>
    simp only [measured] at found
    split at found
    · cases found
    · rename_i e hit
      split at found
      · cases found
      · simp only [Option.some.injEq, Prod.mk.injEq] at found
        obtain ⟨rfl,rfl,_⟩ := found
        exact held hit
  | incr name delta =>
    simp only [measured] at found
    split at found
    · cases found
    · rename_i e hit
      split at found
      · cases found
      · split at found
        · cases found
        · simp only [Option.some.injEq, Prod.mk.injEq] at found
          obtain ⟨rfl,rfl,_⟩ := found
          exact held hit
  | get | delete | cleanupExpired => cases found

theorem refined_fails (ref : Refines sh c xs) (cas : UInt64) (now : Time) (order : RangeOrder) :
    FailsExactly sh cas now order := by
  constructor
  · intro key value ttl
    have follows : Follows sh (sh.set cas now order key value ttl)
      (c.set sh.limits cas now key value ttl) := set_follows cas order value ttl ref
    obtain ⟨next,_,done,_⟩ := follows
    rw [← set_result sh.limits c cas now key value ttl]
    exact ⟨next, _, done⟩
  · intro key value ttl expected
    have follows : Follows sh (sh.cas cas now order key value ttl expected)
      (c.cas sh.limits cas now key value ttl expected) :=
        cas_follows cas order value ttl expected ref
    obtain ⟨next,_,done,_⟩ := follows
    rw [← cas_result ref cas now key value ttl expected]
    exact ⟨next, _, done⟩
  · intro key delta
    have follows : Follows sh (sh.incr cas now order key delta)
      (c.incr sh.limits cas now key delta) := incr_follows cas order delta ref
    obtain ⟨next,_,done,_⟩ := follows
    rw [← incr_result ref cas now key delta]
    exact ⟨next, _, done⟩
  · intro call purged key size other late
    obtain ⟨sized,n,d,ys,e,zs,found,refined,clean,_⟩ := pressed_purged ref late
    rw [purged_lookup refined clean]
    exact measured_present other found
  · intro call purged key size late
    obtain ⟨sized,n,d,ys,e,zs,_,refined,clean,excess,reduced,small⟩ := pressed_purged ref late
    obtain ⟨fitted,_,_,done,_⟩ := evict_stage refined clean excess reduced small
    exact ⟨fitted,done⟩

/-- In every state that calls can reach, the writes fail on their own account only. -/
theorem writes_fail_exactly (config : Config) {steps : List ShardStep} {sh : Shard}
    (run : Run Shard.visit (freshShard config) steps sh) (cas : UInt64) (now : Time)
    (order : RangeOrder) : FailsExactly sh cas now order := by
  obtain ⟨_,c,xs,ref⟩ := run_refines run
  exact refined_fails ref cas now order

/-- The first item expires, and the second has no room to grow beside it. -/
def fullVisits : List Visit :=
  [⟨.set [97] [49] 5,0,1,.asListed⟩, ⟨.set [98] [50] 0,1,2,.asListed⟩]

theorem full_shard_fails_exactly : ∃ steps sh,
    Run Shard.visit (freshShard sampleConfig) steps sh ∧ steps.map Step.input = fullVisits ∧
      FailsExactly sh 3 9 .asListed ∧
      (pressed sh 9 .asListed (.incr [98] 9999999)).isSome = true := by
  have done : (exec Shard.visit (freshShard sampleConfig) fullVisits).map
      (fun done => (pressed done.2 9 .asListed (.incr [98] 9999999)).isSome) = some true := by decide
  obtain ⟨steps,sh,run,inputs,late⟩ := exec_shows done
  exact ⟨steps, sh, run, inputs, writes_fail_exactly sampleConfig run 3 9 .asListed, late⟩

/-- The key's own item was expired and is gone, with its share of the counters; every other
    item is where it was. -/
structure DroppedOwn (sh next : Shard) (now : Time) (key : Bytes) : Prop where
  expired : ∃ e, sh.peek key = some e ∧ e.expired now = true ∧
    next.memoryBytes = sh.limits.int.wrap (sh.memoryBytes - e.size)
  gone : next.peek key = none
  rest : listed next = others key (listed sh)
  ttl : next.ttlCount = sh.ttlCount - 1
  evictions : next.evictions = sh.evictions
  expirations : next.expirations = sh.expirations
  limits : next.limits = sh.limits

def Unspoilt (sh next : Shard) (now : Time) (key : Bytes) : Prop :=
  next = sh ∨ DroppedOwn sh next now key

theorem deleted_dropped {p : Ptr} (ref : Refines sh c xs) (hit : sh.items.lookup key = some p)
    (dead : (sh.heap p).expired now = true) : DroppedOwn sh (sh.deleteLocked p) now key := by
  have refined := deleteLocked_refines ref hit
  have timed : (sh.heap p).expiresAt ≠ 0 := by
    simp only [Entry.expired, Bool.and_eq_true, decide_eq_true_eq] at dead
    exact dead.1
  refine ⟨⟨(sh.heap p).toEntry, ?_, dead, rfl⟩, ?_, ?_, ?_, rfl, rfl, rfl⟩
  · rw [peek_refined ref]
    exact (lookup_some ref hit).2.2
  · rw [peek_refined refined]
    exact drop_lookup_self c key
  · rw [listed_refined refined, listed_refined ref]
    rfl
  · simp only [Shard.deleteLocked, if_pos timed]

theorem unspoilt_same {ρ : Type} {a b : ρ} (same : some (sh,a) = some (next,b)) :
    Unspoilt sh next now key := by
  simp only [Option.some.injEq, Prod.mk.injEq] at same
  exact Or.inl same.1.symm

theorem unspoilt_dropped {ρ : Type} {a b : ρ} {p : Ptr} (ref : Refines sh c xs)
    (hit : sh.items.lookup key = some p) (dead : (sh.heap p).expired now = true)
    (same : some (sh.deleteLocked p,a) = some (next,b)) : Unspoilt sh next now key := by
  simp only [Option.some.injEq, Prod.mk.injEq] at same
  rw [← same.1]
  exact Or.inr (deleted_dropped ref hit dead)

theorem setFrom_unspoilt {err : StoreError} (order : RangeOrder) (value : Bytes) (ttl : Duration)
    (ref : Refines sh c xs) (live : Live now key c.entries)
    (taken : sh.setFrom (oldSizeOf sh key) cas now order key value ttl =
      some (next,counter,some err)) : next = sh := by
  -- The only return with an error that a refined state leaves is the first one.
  by_cases large : sh.itemSize key value.length > sh.limits.maxMemoryBytes
  · rw [Shard.setFrom] at taken
    dsimp only at taken
    rw [if_pos large] at taken
    simp only [Option.some.injEq, Prod.mk.injEq] at taken
    exact taken.1.symm
  · obtain ⟨stored,_,done,_⟩ := setFrom_refines cas order value ttl ref live large
    rw [done] at taken
    simp at taken

theorem set_unspoilt {err : StoreError} (value : Bytes) (ttl : Duration) (ref : Refines sh c xs)
    (taken : sh.set cas now order key value ttl = some (next,counter,some err)) :
    Unspoilt sh next now key := by
  unfold Shard.set at taken
  split at taken
  · exact unspoilt_same taken
  · split at taken
    · rename_i p hit
      split at taken
      · rename_i dead
        have refined := deleteLocked_refines ref hit
        have gone : (sh.deleteLocked p).items.lookup key = none := by
          simp [Shard.deleteLocked, (lookup_some ref hit).2.1]
        have old : oldSizeOf (sh.deleteLocked p) key = 0 := by simp [oldSizeOf, gone]
        rw [← old] at taken
        have same := setFrom_unspoilt order value ttl refined
          (live_of_miss (lookup_none refined gone)) taken
        rw [same]
        exact Or.inr (deleted_dropped ref hit dead)
      · rename_i fresh
        have found := (lookup_some ref hit).2.2
        rw [← oldSize_found hit] at taken
        exact Or.inl (setFrom_unspoilt order value ttl ref (live_of_found found fresh) taken)
    · rename_i miss
      have old : oldSizeOf sh key = 0 := by simp [oldSizeOf, miss]
      rw [← old] at taken
      exact Or.inl (setFrom_unspoilt order value ttl ref (live_of_miss (lookup_none ref miss)) taken)

theorem cas_unspoilt {err : StoreError} (value : Bytes) (ttl : Duration) (expected : UInt64)
    (ref : Refines sh c xs)
    (taken : sh.cas cas now order key value ttl expected = some (next,counter,some err)) :
    Unspoilt sh next now key := by
  have failed := (refined_fails ref cas now order).casFails key value ttl expected
  obtain ⟨_,_,done⟩ := failed
  have error : casFailure sh.limits (sh.live now key) key value expected = some err := by
    rw [taken] at done
    simp only [Option.some.injEq, Prod.mk.injEq] at done
    exact done.2.2.symm
  unfold casFailure at error
  unfold Shard.cas at taken
  split at taken
  · exact unspoilt_same taken
  · rename_i short
    rw [if_neg short] at error
    split at taken
    · exact unspoilt_same taken
    · rename_i p hit
      have found := (lookup_some ref hit).2.2
      split at taken
      · rename_i dead
        exact unspoilt_dropped ref hit dead taken
      · rename_i fresh
        rw [live_fresh ref found (by simpa using fresh)] at error
        split at taken
        · exact unspoilt_same taken
        · rename_i same
          dsimp only at error taken
          rw [if_neg same] at error
          by_cases large : sh.itemSize key value.length > sh.limits.maxMemoryBytes
          · rw [if_pos large] at taken
            exact unspoilt_same taken
          · have small : ¬ sh.limits.itemSize key value.length > sh.limits.maxMemoryBytes := large
            rw [if_neg small] at error
            cases error

theorem incrTo_unspoilt {p : Ptr} {err : StoreError} {number : UInt64} (ref : Refines sh c xs)
    (hit : sh.items.lookup key = some p) (fresh : ¬ (sh.heap p).expired now = true)
    (taken : sh.incrTo p cas now order key number = some (next,counter,.error err)) :
    Unspoilt sh next now key := by
  have found := (lookup_some ref hit).2.2
  obtain ⟨_,_,done,_⟩ := incrTo_follows cas order number ref hit found fresh
  by_cases long : ((formatUint number).length : Int) > sh.limits.maxValueBytes
  · rw [Shard.incrTo] at taken
    dsimp only at taken
    rw [if_pos long] at taken
    exact unspoilt_same taken
  · by_cases large : sh.limits.itemSize key (formatUint number).length > sh.limits.maxMemoryBytes
    · have same : sh.itemSize key (formatUint number).length > sh.limits.maxMemoryBytes := large
      rw [Shard.incrTo] at taken
      dsimp only at taken
      rw [if_neg long, if_pos same] at taken
      exact unspoilt_same taken
    · rw [taken] at done
      simp [Cache.incrTo, long, large] at done

theorem incr_unspoilt {err : StoreError} (delta : UInt64) (ref : Refines sh c xs)
    (taken : sh.incr cas now order key delta = some (next,counter,.error err)) :
    Unspoilt sh next now key := by
  unfold Shard.incr at taken
  split at taken
  · exact unspoilt_same taken
  · rename_i p hit
    split at taken
    · rename_i dead
      exact unspoilt_dropped ref hit dead taken
    · rename_i fresh
      split at taken
      · exact unspoilt_same taken
      · split at taken
        · exact unspoilt_same taken
        · split at taken
          · exact unspoilt_same taken
          · exact incrTo_unspoilt ref hit fresh taken

theorem step_unspoilt (ref : Refines sh c xs)
    (taken : sh.step cas now order call = some (next,counter,reply)) (writes : call.writes = true)
    (failed : reply.success = false) :
    counter = cas ∧ ∃ key, call.key = some key ∧ Unspoilt sh next now key := by
  obtain ⟨d,ys,_,_,done⟩ := step_refined ref taken
  have stands := effect_counter (effect_of_step done)
  rw [failed, Bool.and_false] at stands
  refine ⟨stands, ?_⟩
  cases call with
  | set key value ttl =>
    obtain ⟨⟨sh',counter',err⟩,returned,same⟩ := Option.map_eq_some_iff.mp taken
    simp only [Prod.mk.injEq] at same
    obtain ⟨rfl,rfl,rfl⟩ := same
    cases err with
    | none => cases failed
    | some err => exact ⟨key, rfl, set_unspoilt value ttl ref returned⟩
  | cas key value ttl expected =>
    obtain ⟨⟨sh',counter',err⟩,returned,same⟩ := Option.map_eq_some_iff.mp taken
    simp only [Prod.mk.injEq] at same
    obtain ⟨rfl,rfl,rfl⟩ := same
    cases err with
    | none => cases failed
    | some err => exact ⟨key, rfl, cas_unspoilt value ttl expected ref returned⟩
  | incr key delta =>
    obtain ⟨⟨sh',counter',result⟩,returned,same⟩ := Option.map_eq_some_iff.mp taken
    simp only [Prod.mk.injEq] at same
    obtain ⟨rfl,rfl,rfl⟩ := same
    cases result with
    | ok number => cases failed
    | error err => exact ⟨key, rfl, incr_unspoilt delta ref returned⟩
  | get | delete | cleanupExpired => cases writes

/-- A failed write leaves the shard and the counter as they were, but for its own expired
    item. -/
theorem failed_writes_atomic (config : Config) {steps : List ShardStep} {sh next : Shard}
    (run : Run Shard.visit (freshShard config) steps sh) {cas counter : UInt64} {now : Time}
    {order : RangeOrder} {call : Call} {reply : Reply}
    (taken : sh.step cas now order call = some (next,counter,reply)) (writes : call.writes = true)
    (failed : reply.success = false) :
    counter = cas ∧ ∃ key, call.key = some key ∧ (next = sh ∨ DroppedOwn sh next now key) := by
  obtain ⟨_,c,xs,ref⟩ := run_refines run
  exact step_unspoilt ref taken writes failed

/-- A cas that is too late for its own item, in a shard with no room to spare. -/
theorem late_cas_atomic : ∃ steps sh next,
    Run Shard.visit (freshShard sampleConfig) steps sh ∧ steps.map Step.input = fullVisits ∧
      sh.step 2 9 .asListed (.cas [97] [51] 0 1) = some (next,2,.wrote (some .notFound)) ∧
      (next = sh ∨ DroppedOwn sh next 9 [97]) ∧ listed next = [⟨[98],[50],0,7,2⟩] := by
  have done : (exec Shard.visit (freshShard sampleConfig) fullVisits).map
      (fun done => (done.2.step 2 9 .asListed (.cas [97] [51] 0 1)).map
        fun r => (r.2, listed r.1)) =
      some (some ((2,.wrote (some .notFound)), [⟨[98],[50],0,7,2⟩])) := by decide
  obtain ⟨steps,sh,run,inputs,shown⟩ := exec_shows done
  obtain ⟨⟨next,counter,reply⟩,taken,values⟩ := Option.map_eq_some_iff.mp shown
  simp only [Prod.mk.injEq] at values
  obtain ⟨⟨rfl,rfl⟩,left⟩ := values
  obtain ⟨_,key,named,atomic⟩ := failed_writes_atomic sampleConfig run taken rfl rfl
  obtain rfl := Option.some.inj named
  exact ⟨steps, sh, next, run, inputs, taken, atomic, left⟩

end ShardFailures
