import MiniKV.Store.Fate

/- The operator counters against the history. An item enters through a Set that inserts
   and leaves by a deletion, an eviction or an expiration; the sweeps count what they
   remove, and the five calls that find the item of their own key expired do not. -/
namespace StoreBalance
open MachineWord KeyedList LruModel Decimal ShardModel CacheModel CacheEffects ShardRefinement
  ShardSimulation ShardInvariant StoreModel StoreFate StepRuns Partition

def found (s : Store) (call : Call) : Option Entry := call.key.bind s.peek

def stale (now : Time) (e : Option Entry) : Bool := e.any fun e => e.expired now

def standing (now : Time) (e : Option Entry) : Bool := e.any fun e => !e.expired now

def inserts (now : Time) (e : Option Entry) : Call → Reply → Bool
  | .set .., reply => reply.success && !standing now e
  | _, _ => false

def deletes : Call → Reply → Bool
  | .delete _, reply => reply.success
  | _, _ => false

/-- The call comes to its own expired item. Only Set and Cas check anything before. -/
def lapses (limits : Limits) (now : Time) (e : Option Entry) : Call → Bool
  | .set _ value _ | .cas _ value _ _ =>
    decide ((value.length : Int) ≤ limits.maxValueBytes) && stale now e
  | .get _ | .delete _ | .incr .. => stale now e
  | .cleanupExpired => false

/-- The items that are there or were counted. -/
def weight (c : Cache) : Nat := c.entries.length + c.evictions + c.expirations

variable {limits : Limits} {c : Cache} {cas : UInt64} {now : Time} {key : Bytes} {e : Entry}

/-- What goes out in one call and what comes in. -/
def Conserves (limits : Limits) (c : Cache) (cas : UInt64) (now : Time) (call : Call) : Prop :=
  let e := call.key.bind fun key => lookup key c.entries
  let reply := (c.step limits cas now call).2.2
  weight (c.step limits cas now call).1 + (deletes call reply).toNat +
    (lapses limits now e call).toNat = weight c + (inserts now e call reply).toNat

theorem others_length (distinct : Distinct Entry.key c.entries)
    (hit : lookup key c.entries = some e) : c.entries.length = (others key c.entries).length + 1 :=
  (perm_cons_without distinct hit).length_eq

theorem drop_weight (distinct : Distinct Entry.key c.entries)
    (hit : lookup key c.entries = some e) : weight (c.drop key) + 1 = weight c := by
  have length := others_length distinct hit
  simp only [weight, Cache.drop]
  omega

theorem touch_weight (distinct : Distinct Entry.key c.entries)
    (hit : lookup e.key c.entries = some e) : weight (c.touch e) = weight c := by
  have length := others_length distinct hit
  simp only [weight, Cache.touch, List.length_cons]
  omega

theorem makeRoom_counts (limits : Limits) (now : Time) (size : Int) (es : List Entry) :
    (makeRoom limits now size es).kept.length + (makeRoom limits now size es).evicted +
      (makeRoom limits now size es).expired = es.length := by
  -- Making room counts everything that it removes.
  unfold makeRoom
  split
  · rfl
  · have live : (alive now es).length ≤ es.length := List.length_filter_le _ _
    have kept := (trimBack_sublist (fits limits size) (alive now es)).length_le
    dsimp only
    omega

theorem write_weight (limits : Limits) (c : Cache) (now : Time) (e : Entry) :
    weight (c.write limits now e) = weight (c.drop e.key) + 1 := by
  have room := makeRoom_counts limits now e.size (others e.key c.entries)
  simp only [weight, Cache.write, Cache.drop, List.length_cons]
  omega

theorem insert_weight (now : Time) (named : e.key = key) (miss : lookup key c.entries = none) :
    weight (c.write limits now e) = weight c + 1 := by
  rw [write_weight, named, Cache.drop, others_absent miss]

theorem overwrite_weight {old : Entry} (now : Time) (distinct : Distinct Entry.key c.entries)
    (named : e.key = key) (hit : lookup key c.entries = some old) :
    weight (c.write limits now e) = weight c := by
  rw [write_weight, named, drop_weight distinct hit]

theorem sweep_weight (c : Cache) (now : Time) : weight (c.cleanupExpired now).1 = weight c := by
  have live : (alive now c.entries).length ≤ c.entries.length := List.length_filter_le _ _
  simp only [weight, Cache.cleanupExpired]
  omega

theorem get_conserves (distinct : Distinct Entry.key c.entries) (key : Bytes) :
    Conserves limits c cas now (.get key) := by
  simp only [Conserves, Call.key, Option.bind_some, Cache.step, Cache.get, deletes, inserts, lapses]
  cases hit : lookup key c.entries with
  | none => rfl
  | some e =>
    cases dead : e.expired now with
    | true => simpa [stale, dead] using drop_weight distinct hit
    | false =>
      have own := (find_some hit).2
      subst own
      simpa [stale, dead] using touch_weight distinct hit

theorem delete_conserves (distinct : Distinct Entry.key c.entries) (key : Bytes) :
    Conserves limits c cas now (.delete key) := by
  simp only [Conserves, Call.key, Option.bind_some, Cache.step, Cache.delete, deletes, inserts,
    lapses]
  cases hit : lookup key c.entries with
  | none => rfl
  | some e =>
    have gone := drop_weight distinct hit
    cases dead : e.expired now with
    | true => simpa [stale, dead, Reply.success] using gone
    | false => simpa [stale, dead, Reply.success] using gone

theorem cas_conserves (distinct : Distinct Entry.key c.entries) (key value : Bytes)
    (ttl : Duration) (expected : UInt64) :
    Conserves limits c cas now (.cas key value ttl expected) := by
  simp only [Conserves, Call.key, Option.bind_some, Cache.step, Cache.cas, deletes, inserts, lapses]
  by_cases short : (value.length : Int) > limits.maxValueBytes
  · simp [short]
  · cases hit : lookup key c.entries with
    | none => simp [stale, short]
    | some e =>
      cases dead : e.expired now with
      | true => simpa [stale, dead, short, Int.not_lt.mp short] using drop_weight distinct hit
      | false =>
        simp only [if_neg short, Option.any_some, stale, dead, Bool.and_false, Bool.toNat_false,
          Bool.false_eq_true, if_false]
        split
        · rfl
        · split
          · rfl
          · exact overwrite_weight now distinct rfl hit

theorem incr_conserves (distinct : Distinct Entry.key c.entries) (key : Bytes) (delta : UInt64) :
    Conserves limits c cas now (.incr key delta) := by
  simp only [Conserves, Call.key, Option.bind_some, Cache.step, Cache.incr, deletes, inserts,
    lapses]
  cases hit : lookup key c.entries with
  | none => rfl
  | some e =>
    cases dead : e.expired now with
    | true => simpa [stale, dead] using drop_weight distinct hit
    | false =>
      simp only [Option.any_some, stale, dead, Bool.toNat_false, Nat.add_zero,
        Bool.false_eq_true, if_false]
      cases nextCount e.value delta with
      | error => rfl
      | ok next =>
        simp only [Cache.incrTo]
        split
        · rfl
        · split
          · rfl
          · exact overwrite_weight now distinct rfl hit

theorem set_conserves (distinct : Distinct Entry.key c.entries) (key value : Bytes)
    (ttl : Duration) : Conserves limits c cas now (.set key value ttl) := by
  simp only [Conserves, Call.key, Option.bind_some, Cache.step, Cache.set, deletes, inserts, lapses]
  by_cases short : (value.length : Int) > limits.maxValueBytes
  · simp [short, Reply.success]
  · let fresh : Entry := ⟨key,value,expiresAt now ttl,limits.itemSize key value.length,cas + 1⟩
    have replaced : (c.dropExpired now key).write limits now fresh = c.write limits now fresh :=
      write_dropExpired limits c now fresh
    simp only [if_neg short, Int.not_lt.mp short, decide_true, Bool.true_and, Bool.toNat_false,
      Nat.add_zero]
    by_cases large : limits.itemSize key value.length > limits.maxMemoryBytes
    · simp only [if_pos large, Reply.success, Option.isNone_some, Bool.false_and, Bool.toNat_false,
        Cache.dropExpired]
      cases hit : lookup key c.entries with
      | none => rfl
      | some e =>
        cases dead : e.expired now with
        | true => simpa [stale, dead] using drop_weight distinct hit
        | false => simp [stale, dead]
    · simp only [if_neg large, Reply.success, Option.isNone_none, Bool.true_and]
      rw [replaced]
      cases hit : lookup key c.entries with
      | none => exact insert_weight now rfl hit
      | some e =>
        have same : weight (c.write limits now fresh) = weight c :=
          overwrite_weight now distinct rfl hit
        cases dead : e.expired now with
        | true => simpa [stale, standing, dead] using same
        | false => simpa [stale, standing, dead] using same

/-- One call, whatever it is: only a lapse leaves without being counted. -/
theorem step_conserves (distinct : Distinct Entry.key c.entries) (call : Call) :
    Conserves limits c cas now call := by
  cases call with
  | set key value ttl => exact set_conserves distinct key value ttl
  | get key => exact get_conserves distinct key
  | cas key value ttl expected => exact cas_conserves distinct key value ttl expected
  | delete key => exact delete_conserves distinct key
  | incr key delta => exact incr_conserves distinct key delta
  | cleanupExpired => exact sweep_weight c now

def insertedBy (x : StoreStep) : Bool :=
  inserts x.input.now (found x.before x.input.call) x.input.call x.output

def deletedBy (x : StoreStep) : Bool := deletes x.input.call x.output

def lapsedBy (limits : Limits) (x : StoreStep) : Bool :=
  lapses limits x.input.now (found x.before x.input.call) x.input.call

/-- The same of a shard, with its counters as they stand. -/
def shardWeight (sh : Shard) : Nat :=
  sh.items.keys.length + sh.evictions.toNat + sh.expirations.toNat

/-- Neither counter runs over. -/
structure Growth (sh next : Shard) : Prop where
  evictions : sh.evictions ≤ next.evictions
  expirations : sh.expirations ≤ next.expirations

theorem effect_growth {d : Cache} {counter : UInt64} {call : Call} {reply : Reply}
    (effect : Effect limits c cas now call d counter reply) :
    c.evictions ≤ d.evictions ∧ c.expirations ≤ d.expirations := by
  cases effect with
  | refused => exact ⟨le_refl _, le_refl _⟩
  | lapsed => exact ⟨le_refl _, le_refl _⟩
  | touched => exact ⟨le_refl _, le_refl _⟩
  | removed => exact ⟨le_refl _, le_refl _⟩
  | written => exact ⟨Nat.le_add_right _ _, Nat.le_add_right _ _⟩
  | swept => exact ⟨le_refl _, Nat.le_add_right _ _⟩

theorem refined_weight {sh : Shard} {xs : List Ptr} (ref : Refines sh c xs) :
    shardWeight sh = c.entries.length + (UInt64.ofNat c.evictions).toNat +
      (UInt64.ofNat c.expirations).toNat := by
  rw [shardWeight, items_length ref, ref.evictions, ref.expirations]

/-- A shard with room for what comes in counts like its cache. -/
theorem refined_counts {sh next : Shard} {d : Cache} {xs ys : List Ptr} {entered : Nat}
    (ref : Refines sh c xs) (refined : Refines next d ys) (evicted : c.evictions ≤ d.evictions)
    (expired : c.expirations ≤ d.expirations) (most : weight d ≤ weight c + entered)
    (room : shardWeight sh + entered < 2 ^ 64) :
    shardWeight next + weight c = shardWeight sh + weight d ∧ Growth sh next := by
  have before := refined_weight ref
  have after := refined_weight refined
  unfold weight at most ⊢
  have first := uint64_advance evicted (by omega)
  have second := uint64_advance expired (by omega)
  refine ⟨by omega, ⟨?_,?_⟩⟩
  · rw [ref.evictions, refined.evictions, UInt64.le_iff_toNat_le]
    omega
  · rw [ref.expirations, refined.expirations, UInt64.le_iff_toNat_le]
    omega

/-- One section: the balance of its items, and counters that only grow. -/
theorem section_conserves {x : StoreStep} (sound : Sound limits x.before) (taken : Taken x)
    (room : (x.before.shards.map shardWeight).sum + (insertedBy x).toNat < 2 ^ 64) :
    (x.after.shards.map shardWeight).sum + (deletedBy x).toNat + (lapsedBy limits x).toNat =
        (x.before.shards.map shardWeight).sum + (insertedBy x).toNat ∧
      List.Forall₂ Growth x.before.shards x.after.shards := by
  obtain ⟨i,sh,next,c,d,xs,ys,target,here,shards,ref,refined,same,_,done⟩ :=
    step_inverted sound taken
  obtain ⟨rest,before,after⟩ := sum_at (f := shardWeight) here
  have peeked : found x.before x.input.call =
      x.input.call.key.bind fun key => lookup key c.entries := by
    unfold found
    cases named : x.input.call.key with
    | none => rfl
    | some key =>
      rw [Option.bind_some, Option.bind_some, peek_here (keyed_target named target) here,
        peek_refined ref]
  have balance : Conserves limits c x.before.cas x.input.now x.input.call :=
    step_conserves (refines_distinct ref) x.input.call
  rw [Conserves, done, ← peeked] at balance
  change weight d + (deletedBy x).toNat + (lapsedBy limits x).toNat =
    weight c + (insertedBy x).toNat at balance
  obtain ⟨evicted,expired⟩ := effect_growth (effect_of_step done)
  have most : weight d ≤ weight c + (insertedBy x).toNat := by omega
  obtain ⟨counts,grown⟩ := refined_counts ref refined evicted expired most (by omega)
  rw [shards, before, after next]
  exact ⟨by omega, forall₂_set_right (fun _ => ⟨UInt64.le_refl _, UInt64.le_refl _⟩) here grown⟩

theorem countP_snoc {α : Type} (p : α → Bool) (xs : List α) (x : α) :
    (xs ++ [x]).countP p = xs.countP p + (p x).toNat := by
  rw [List.countP_append, List.countP_singleton]
  cases p x <;> rfl

/-- The number of items created is what the shards hold and have counted, the deletions, and
    the lapses that nothing counts. -/
theorem run_conserves {config : Config} {steps : List StoreStep} {last : Store}
    (run : Run Store.step (Store.new int64 config) steps last)
    (few : steps.countP insertedBy < 2 ^ 64) :
    steps.countP insertedBy =
      (last.shards.map shardWeight).sum + steps.countP deletedBy +
        steps.countP (lapsedBy (shardLimits config)) := by
  induction run with
  | nil => simp [Store.new, newShard, shardWeight]
  | @snoc steps s t work reply prior taken ih =>
    rw [countP_snoc] at few
    have before := ih (by omega)
    obtain ⟨balance,_⟩ := section_conserves (x := ⟨s,work,reply,t⟩) (run_sound prior) taken
      (by dsimp only; omega)
    rw [countP_snoc, countP_snoc, countP_snoc]
    dsimp only at balance
    omega

theorem stats_weight (int : Word) {s : Store} (room : (s.shards.map shardWeight).sum < 2 ^ 64) :
    (s.stats int).items + (s.stats int).evictions.toNat + (s.stats int).expirations.toNat =
      (s.shards.map shardWeight).sum := by
  have parts : (s.shards.map shardWeight).sum = (s.stats int).items +
      (s.shards.map fun sh => sh.evictions.toNat).sum +
      (s.shards.map fun sh => sh.expirations.toNat).sum := by
    have weights : shardWeight = fun sh : Shard =>
      sh.items.keys.length + sh.evictions.toNat + sh.expirations.toNat := rfl
    rw [weights, List.sum_map_add, List.sum_map_add]
    rfl
  have evictions : (s.shards.map Shard.evictions).sum.toNat = _ := uint64_sum _ (by omega)
  have expirations : (s.shards.map Shard.expirations).sum.toNat = _ := uint64_sum _ (by omega)
  rw [parts, ← evictions, ← expirations]
  rfl

/-- The items created so far are those in the store and those counted as evicted, as
    expired or as deleted. -/
def CountersAgree (steps : List StoreStep) (s : Store) : Prop :=
  steps.countP insertedBy = (s.stats int64).items + (s.stats int64).evictions.toNat +
    (s.stats int64).expirations.toNat + steps.countP deletedBy

instance (steps : List StoreStep) (s : Store) : Decidable (CountersAgree steps s) :=
  inferInstanceAs (Decidable (_ = _))

/-- The counters balance at the end of a run if and only if none of its sections came to
    an expired item of its own key. The two counters of a shard are 64 bits wide. -/
theorem counters_agree_iff_unlapsed (config : Config) {steps : List StoreStep} {last : Store}
    (run : Run Store.step (Store.new int64 config) steps last)
    (few : steps.countP insertedBy < 2 ^ 64) :
    CountersAgree steps last ↔ ∀ x ∈ steps, lapsedBy (shardLimits config) x = false := by
  have total := run_conserves run few
  have none : (∀ x ∈ steps, lapsedBy (shardLimits config) x = false) ↔
      steps.countP (lapsedBy (shardLimits config)) = 0 := by
    simp [List.countP_eq_zero]
  rw [none, CountersAgree, stats_weight int64 (by omega), total]
  omega

def sweptSections : List Section :=
  [⟨.set [97] [49] 0,0,1,.asListed⟩, ⟨.set [98] [50] 5,0,2,.asListed⟩,
    ⟨.cleanupExpired,0,9,.asListed⟩, ⟨.delete [97],0,10,.asListed⟩,
    ⟨.set [99] [51] 0,0,11,.asListed⟩, ⟨.set [100] [1,2,3,4,5,6,7,8] 0,0,12,.asListed⟩]

theorem swept_counters_agree : ∃ steps last,
    Run Store.step (Store.new int64 sampleConfig) steps last ∧
      steps.map Step.input = sweptSections ∧ CountersAgree steps last := by
  have done : (exec Store.step (Store.new int64 sampleConfig) sweptSections).map
      (fun done => (done.1.all fun x => !lapsedBy (shardLimits sampleConfig) x,
        done.1.countP insertedBy)) = some (true,4) := by decide
  obtain ⟨steps,last,run,inputs,shown⟩ := exec_shows done
  obtain ⟨unlapsed,created⟩ := Prod.mk.inj shown
  have all : ∀ x ∈ steps, lapsedBy (shardLimits sampleConfig) x = false := by
    simpa using unlapsed
  have few : steps.countP insertedBy < 2 ^ 64 := by
    rw [created]
    decide
  exact ⟨steps, last, run, inputs, (counters_agree_iff_unlapsed sampleConfig run few).mpr all⟩

/-- The Get finds the item expired and removes it; no counter moves. -/
theorem expired_read_uncounted : ∃ steps last,
    Run Store.step (Store.new int64 sampleConfig) steps last ∧
      steps.map Step.input = [⟨.set [97] [49] 5,0,1,.asListed⟩, ⟨.get [97],0,9,.asListed⟩] ∧
      steps.countP insertedBy = 1 ∧ steps.countP deletedBy = 0 ∧ (last.stats int64).items = 0 ∧
      (last.stats int64).evictions = 0 ∧ (last.stats int64).expirations = 0 ∧
      ¬ CountersAgree steps last := by
  have done : (exec Store.step (Store.new int64 sampleConfig)
      [⟨.set [97] [49] 5,0,1,.asListed⟩, ⟨.get [97],0,9,.asListed⟩]).map
      (fun done => (done.1.countP insertedBy, done.1.countP deletedBy,
        (done.2.stats int64).items, (done.2.stats int64).evictions,
        (done.2.stats int64).expirations)) = some (1,0,0,0,0) := by decide
  obtain ⟨steps,last,run,inputs,values⟩ := exec_shows done
  simp only [Prod.mk.injEq] at values
  obtain ⟨created,deleted,items,evictions,expirations⟩ := values
  refine ⟨steps, last, run, inputs, created, deleted, items, evictions, expirations, ?_⟩
  rw [CountersAgree, created, deleted, items, evictions, expirations]
  decide

end StoreBalance
