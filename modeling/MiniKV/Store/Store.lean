import MiniKV.Lib.Partition
import MiniKV.Lib.StepRuns
import MiniKV.Store.Shard

/- The sharded store. A keyed call is one critical section under the mutex of its
   key's shard; CleanupExpired is one section a shard, and sections of different
   calls may come between. A step is therefore one section, and a run is any
   interleaving of them. The version counter is the only state the shards share. -/
namespace StoreModel
open MachineWord LruModel ShardModel StepRuns Partition

def defaultShards : Int := 16

def defaultConfig : Config where
  maxValueBytes := 1024 * 1024
  maxMemoryBytes := 64 * 1024 * 1024
  itemOverheadBytes := 64
  shards := defaultShards

def normalizeConfig (config : Config) : Config where
  maxValueBytes :=
    if config.maxValueBytes ≤ 0 then defaultConfig.maxValueBytes else config.maxValueBytes
  maxMemoryBytes :=
    if config.maxMemoryBytes ≤ 0 then defaultConfig.maxMemoryBytes else config.maxMemoryBytes
  itemOverheadBytes :=
    if config.itemOverheadBytes < 0 then defaultConfig.itemOverheadBytes
    else config.itemOverheadBytes
  shards := if config.shards ≤ 0 then defaultConfig.shards else config.shards

/-- The budget New gives each shard; the argument is normalized. -/
def perShardMemory (config : Config) : Int :=
  let perShard := config.maxMemoryBytes.tdiv config.shards
  if perShard < 1 then 1 else perShard

structure Store where
  shards : List Shard
  cas : UInt64

/-- New, with the arithmetic of the ints as a parameter; the program's is int64. -/
def Store.new (int : Word) (config : Config) : Store :=
  let config := normalizeConfig config
  ⟨List.replicate config.shards.toNat (newShard int config (perShardMemory config)), 0⟩

def fnvOffset : UInt32 := 2166136261

def fnvPrime : UInt32 := 16777619

def fnv1a (key : Bytes) : UInt32 :=
  key.foldl (fun h b => (h ^^^ b.toUInt32) * fnvPrime) fnvOffset

/-- The count is truncated to 32 bits first; none is the division by zero. -/
def shardIndex (key : Bytes) (n : Nat) : Option UInt32 :=
  if UInt32.ofNat n = 0 then none else some (fnv1a key % UInt32.ofNat n)

def shardFor (key : Bytes) (n : Nat) : Option Nat := (shardIndex key n).map UInt32.toNat

/-- One critical section: a call with its clock reading and the map order it meets.
    Only a sweep names its shard; a keyed call goes to the shard of its key. -/
structure Section where
  call : Call
  shard : Nat
  now : Time
  order : RangeOrder

def Section.target (work : Section) (n : Nat) : Option Nat :=
  match work.call.key with
  | some key => shardFor key n
  | none => some work.shard

/-- None when the section panics or never ends. -/
def Store.step (s : Store) (work : Section) : Option (Store × Reply) :=
  (stepAt (work.target s.shards.length)
    (fun sh => sh.step s.cas work.now work.order work.call) s.shards).map
      fun done => (⟨done.1,done.2.1⟩, done.2.2)

/-- CleanupExpired: every shard reads the clock for itself. -/
def Store.cleanupExpired (s : Store) (now : Nat → Time) (order : Nat → RangeOrder) :
    Store × Nat :=
  let swept := s.shards.mapIdx fun i sh => sh.cleanupExpired (now i) (order i)
  (⟨swept.map Prod.fst, s.cas⟩, (swept.map Prod.snd).sum)

/-- A method call of a sequential client, at one reading of the clock. -/
structure Operation where
  call : Call
  now : Time
  order : Nat → RangeOrder

def Store.memoryBytes (int : Word) (s : Store) : Int :=
  s.shards.foldl (fun total sh => int.wrap (total + sh.memoryBytes)) 0

structure Stats where
  items : Nat
  memoryBytes : Int
  maxMemoryBytes : Int
  evictions : UInt64
  expirations : UInt64
  itemsPerShard : List Nat
  numShards : Nat
  deriving DecidableEq, Repr

def Store.stats (int : Word) (s : Store) : Stats where
  items := (s.shards.map fun sh => sh.items.keys.length).sum
  memoryBytes := s.shards.foldl (fun total sh => int.wrap (total + sh.memoryBytes)) 0
  maxMemoryBytes :=
    s.shards.foldl (fun total sh => int.wrap (total + sh.limits.maxMemoryBytes)) 0
  evictions := (s.shards.map Shard.evictions).sum
  expirations := (s.shards.map Shard.expirations).sum
  itemsPerShard := s.shards.map fun sh => sh.items.keys.length
  numShards := s.shards.length

def Store.shardOf (s : Store) (key : Bytes) : Option Shard :=
  (shardFor key s.shards.length).bind fun i => s.shards[i]?

def Store.peek (s : Store) (key : Bytes) : Option Entry :=
  (s.shardOf key).bind fun sh => sh.peek key

abbrev StoreStep := Step Store Section Reply

theorem normalize_positive (config : Config) :
    0 < (normalizeConfig config).maxValueBytes ∧ 0 < (normalizeConfig config).maxMemoryBytes ∧
      0 ≤ (normalizeConfig config).itemOverheadBytes ∧ 0 < (normalizeConfig config).shards := by
  simp only [normalizeConfig, defaultConfig, defaultShards]
  refine ⟨?_,?_,?_,?_⟩ <;> split <;> omega

theorem normalize_idle {config : Config} (value : 0 < config.maxValueBytes)
    (memory : 0 < config.maxMemoryBytes) (overhead : 0 ≤ config.itemOverheadBytes)
    (shards : 0 < config.shards) : normalizeConfig config = config := by
  simp only [normalizeConfig]
  rw [if_neg (by omega), if_neg (by omega), if_neg (by omega), if_neg (by omega)]

theorem perShardMemory_pos (config : Config) : 1 ≤ perShardMemory config := by
  simp only [perShardMemory]
  split <;> omega

theorem shardFor_lt {key : Bytes} {n i : Nat} (found : shardFor key n = some i) : i < n := by
  -- The hash is reduced below the count whenever the reduction is defined.
  simp only [shardFor, shardIndex, Option.map_eq_some_iff] at found
  obtain ⟨h,reduced,rfl⟩ := found
  split at reduced
  · cases reduced
  · rename_i nonzero
    obtain rfl := Option.some.inj reduced
    have positive : 0 < (UInt32.ofNat n).toNat := by
      rw [Nat.pos_iff_ne_zero]
      intro zero
      exact nonzero (UInt32.toNat_inj.mp (by simpa using zero))
    have below := Nat.mod_lt (fnv1a key).toNat positive
    have truncated : (UInt32.ofNat n).toNat ≤ n := by
      rw [UInt32.toNat_ofNat']
      exact Nat.mod_le _ _
    rw [UInt32.toNat_mod]
    omega

theorem shardFor_none_iff (key : Bytes) (n : Nat) : shardFor key n = none ↔ n % 2 ^ 32 = 0 := by
  -- No shard is found exactly when the count is a multiple of 2 ^ 32.
  have truncated : UInt32.ofNat n = 0 ↔ n % 2 ^ 32 = 0 := by
    rw [← UInt32.toNat_inj, UInt32.toNat_ofNat']
    rfl
  simp only [shardFor, shardIndex, Option.map_eq_none_iff]
  split <;> simp_all

theorem step_some_iff {s t : Store} {work : Section} {reply : Reply} :
    s.step work = some (t,reply) ↔
      ∃ i sh next, work.target s.shards.length = some i ∧ s.shards[i]? = some sh ∧
        sh.step s.cas work.now work.order work.call = some (next,t.cas,reply) ∧
        t.shards = s.shards.set i next := by
  simp only [Store.step, Option.map_eq_some_iff, Prod.exists, stepAt_some_iff, Prod.mk.injEq]
  constructor
  · rintro ⟨_,_,_,⟨i,sh,next,target,here,taken,rfl⟩,rfl,rfl⟩
    exact ⟨i,sh,next,target,here,taken,rfl⟩
  · rintro ⟨i,sh,next,target,here,taken,shards⟩
    exact ⟨_,_,_,⟨i,sh,next,target,here,taken,shards⟩,rfl,rfl⟩

theorem step_length {s t : Store} {work : Section} {reply : Reply}
    (taken : s.step work = some (t,reply)) : t.shards.length = s.shards.length := by
  obtain ⟨i,sh,next,_,_,_,shards⟩ := step_some_iff.mp taken
  rw [shards, List.length_set]

theorem run_length {s t : Store} {steps : List StoreStep} (run : Run Store.step s steps t) :
    t.shards.length = s.shards.length := by
  refine run_invariant (fun _ t => t.shards.length = s.shards.length) rfl ?_ run
  intro steps m work t reply _ same taken
  rw [step_length taken, same]

def sweepOf (now : Nat → Time) (order : Nat → RangeOrder) (i : Nat) : Section :=
  ⟨.cleanupExpired,i,now i,order i⟩

theorem sweep_first_shards (s : Store) (now : Nat → Time) (order : Nat → RangeOrder) (k : Nat)
    (inside : k ≤ s.shards.length) :
    let swept := s.shards.mapIdx fun i sh => sh.cleanupExpired (now i) (order i)
    ∃ steps, Run Store.step s steps ⟨(swept.map Prod.fst).take k ++ s.shards.drop k, s.cas⟩ ∧
      steps.map Step.input = (List.range k).map (sweepOf now order) ∧
      steps.map Step.output = ((swept.map Prod.snd).take k).map Reply.swept := by
  intro swept
  induction k with
  | zero => exact ⟨[], Run.nil, rfl, rfl⟩
  | succ k ih =>
    obtain ⟨steps,run,inputs,outputs⟩ := ih (by omega)
    have length : swept.length = s.shards.length := by simp [swept]
    have there : k < (swept.map Prod.fst).length := by simp; omega
    have value : swept[k] = s.shards[k].cleanupExpired (now k) (order k) := by simp [swept]
    have taken : Store.step ⟨(swept.map Prod.fst).take k ++ s.shards.drop k, s.cas⟩
        (sweepOf now order k) = some
          (⟨(swept.map Prod.fst).take (k + 1) ++ s.shards.drop (k + 1), s.cas⟩,
            .swept (swept[k]).2) := by
      refine step_some_iff.mpr ⟨k, s.shards[k], (swept[k]).1, rfl, ?_, ?_, ?_⟩
      · have front : ((swept.map Prod.fst).take k).length = k :=
          List.length_take_of_le (Nat.le_of_lt there)
        rw [List.getElem?_append_right (by omega), front, Nat.sub_self, List.getElem?_drop]
        exact List.getElem?_eq_getElem _
      · rw [value]
        rfl
      · rw [← set_take_drop (by omega) there]
        simp
    have counts : (swept.map Prod.snd).take (k + 1) =
        (swept.map Prod.snd).take k ++ [(swept[k]).2] := by
      rw [List.take_succ_eq_append_getElem (by simpa using there), List.getElem_map]
    refine ⟨_, Run.snoc run taken, ?_, ?_⟩
    · simp [inputs, List.range_succ]
    · rw [counts, List.map_append, List.map_append, outputs]
      rfl

/-- A CleanupExpired call is a run of one section for each shard, and its result is the
    sum of what they removed. -/
theorem cleanupExpired_run (s : Store) (now : Nat → Time) (order : Nat → RangeOrder) :
    ∃ (steps : List StoreStep) (counts : List Nat),
      Run Store.step s steps (s.cleanupExpired now order).1 ∧
      steps.map Step.input = (List.range s.shards.length).map (sweepOf now order) ∧
      steps.map Step.output = counts.map Reply.swept ∧
      (s.cleanupExpired now order).2 = counts.sum := by
  obtain ⟨steps,run,inputs,outputs⟩ := sweep_first_shards s now order s.shards.length (Nat.le_refl _)
  refine ⟨steps, _, ?_, inputs, outputs, ?_⟩
  · rw [List.take_of_length_le (by simp), List.drop_length, List.append_nil] at run
    exact run
  · rw [List.take_of_length_le (by simp)]
    rfl

end StoreModel
