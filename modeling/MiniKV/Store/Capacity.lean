import MiniKV.Protocol.Parser
import MiniKV.Store.Budget

/- Which items a validated configuration can hold. Validation compares the longest
   value with the whole budget; Set compares the item, with its key and its overhead,
   with the slice of one shard. -/
namespace StoreCapacity
open MachineWord LruModel ShardModel CacheModel ShardInvariant StoreModel StoreFate StoreBudget
  StepRuns

def slice (config : ConfigModel.Config) : Int := max 1 (config.maxMemoryBytes / config.shards)

def itemBytes (config : ConfigModel.Config) (key value : Bytes) : Int :=
  key.length + value.length + config.itemOverheadBytes

theorem perShardMemory_slice {config : ConfigModel.Config} (memory : 0 < config.maxMemoryBytes) :
    perShardMemory config.store = slice config := by
  have quotient : config.store.maxMemoryBytes.tdiv config.store.shards =
      config.maxMemoryBytes / config.shards := Int.tdiv_eq_ediv_of_nonneg (Int.le_of_lt memory)
  simp only [perShardMemory, slice, quotient]
  split <;> omega

theorem accepted_limits {config : ConfigModel.Config} (accepted : config.validate = none) :
    shardLimits config.store =
      ⟨int64,config.maxValueBytes,slice config,config.itemOverheadBytes⟩ := by
  obtain ⟨_,memory,_⟩ := ConfigModel.validate_bounds accepted
  rw [shardLimits, ConfigModel.accepted_normal accepted, perShardMemory_slice memory]
  rfl

theorem itemSize_le {limits : Limits} (int : limits.int = int64)
    (overhead : 0 ≤ limits.itemOverheadBytes) (key : Bytes) (n : Nat) :
    limits.itemSize key n ≤ key.length + n + limits.itemOverheadBytes := by
  rw [Limits.itemSize, limits.int.absorb, int]
  exact wrap_le (by omega)

theorem set_answer (limits : Limits) (int : limits.int = int64)
    (overhead : 0 ≤ limits.itemOverheadBytes) (c : Cache) (cas : UInt64) (now : Time)
    (key value : Bytes) (ttl : Duration) (short : (value.length : Int) ≤ limits.maxValueBytes)
    (bytes : Int) (counted : bytes = key.length + value.length + limits.itemOverheadBytes) :
    (bytes ≤ limits.maxMemoryBytes →
      (c.step limits cas now (.set key value ttl)).2.2 = .wrote none) ∧
    (limits.maxMemoryBytes < bytes → bytes < 2 ^ 63 →
      (c.step limits cas now (.set key value ttl)).2.2 = .wrote (some .memoryLimitExceeded)) := by
  -- What Set answers to a value within the cap depends on the size of its item alone, and not
  -- on what the shard holds.
  simp only [Cache.step, Cache.set, if_neg (Int.not_lt.mpr short)]
  constructor
  · intro fits
    have small := itemSize_le int overhead key value.length
    rw [if_neg (by omega)]
  · intro large range
    rw [counted] at large range
    rw [itemSize_exact int overhead range, if_pos large]

/-- In every reachable state a Set of a value within the cap returns. It has stored the item
    where that fits the slice of one shard, whatever the shard holds, and has failed where it
    does not; items of 2 ^ 63 bytes and more apart. The number of shards is not a multiple of
    2 ^ 32, at which no key has a shard. -/
theorem set_stores_iff_item_fits (config : ConfigModel.Config) (accepted : config.validate = none)
    (routed : config.shards.toNat % 2 ^ 32 ≠ 0) {steps : List StoreStep} {last : Store}
    (run : Run Store.step (Store.new int64 config.store) steps last)
    (key value : Bytes) (ttl : Duration) (shard : Nat) (now : Time) (order : RangeOrder)
    (short : (value.length : Int) ≤ config.maxValueBytes) :
    (itemBytes config key value ≤ slice config →
        ∃ t, last.step ⟨.set key value ttl,shard,now,order⟩ = some (t,.wrote none)) ∧
      (slice config < itemBytes config key value → itemBytes config key value < 2 ^ 63 →
        ∃ t, last.step ⟨.set key value ttl,shard,now,order⟩ =
          some (t,.wrote (some .memoryLimitExceeded))) ∧
      (ProtocolModel.validKey key = true →
        ProtocolModel.maxKeyBytes + config.maxValueBytes + config.itemOverheadBytes ≤ slice config →
        ∃ t, last.step ⟨.set key value ttl,shard,now,order⟩ = some (t,.wrote none)) := by
  obtain ⟨_,_,overhead,_⟩ := ConfigModel.validate_bounds accepted
  have reaches : Reaches last.shards.length ⟨.set key value ttl,shard,now,order⟩ :=
    keyed_reaches ((accepted_length accepted run).symm ▸ routed) rfl
  obtain ⟨t,reply,taken,_⟩ := section_returns ⟨run_sound run,rfl⟩ reaches
  obtain ⟨_,_,_,c,_,_,_,_,_,_,_,_,_,_,done⟩ := step_inverted (run_sound run) taken
  rw [accepted_limits accepted] at done
  obtain ⟨stored,refused⟩ := set_answer
    ⟨int64,config.maxValueBytes,slice config,config.itemOverheadBytes⟩ rfl overhead
    c last.cas now key value ttl short (itemBytes config key value) rfl
  rw [done] at stored refused
  dsimp only at stored refused
  rw [taken]
  refine ⟨?_, ?_, ?_⟩
  · intro fits
    exact ⟨t, by rw [stored fits]⟩
  · intro large range
    exact ⟨t, by rw [refused large range]⟩
  · intro valid room
    have bounded := ProtocolModel.validKey_length valid
    have fits : itemBytes config key value ≤ slice config := by
      unfold itemBytes
      omega
    exact ⟨t, by rw [stored fits]⟩

def roomyShards : ConfigModel.Config :=
  { ConfigModel.Config.default with
    shards := 2, maxValueBytes := 2, maxMemoryBytes := 100, itemOverheadBytes := 4 }

theorem short_item_stored : ∃ steps last t,
    Run Store.step (Store.new int64 roomyShards.store) steps last ∧
      steps.map Step.input = [⟨.set [98] [50] 0,0,1,.asListed⟩] ∧
      last.step ⟨.set [97] [1,2] 0,0,2,.asListed⟩ = some (t,.wrote none) := by
  have done : (exec Store.step (Store.new int64 roomyShards.store)
      [⟨.set [98] [50] 0,0,1,.asListed⟩]).isSome = true := by decide
  obtain ⟨⟨steps,last⟩,eq⟩ := Option.isSome_iff_exists.mp done
  obtain ⟨run,inputs⟩ := exec_run eq
  obtain ⟨t,stored⟩ := (set_stores_iff_item_fits roomyShards (by decide) (by decide) run [97] [1,2] 0
    0 2 .asListed (by decide)).1 (by decide)
  exact ⟨steps, last, t, run, inputs, stored⟩

/-- A cap equal to the budget passes the validation, and leaves no byte for the key. -/
def fullValue : ConfigModel.Config :=
  { ConfigModel.Config.default with
    shards := 1, maxValueBytes := 3, maxMemoryBytes := 3, itemOverheadBytes := 0 }

theorem longest_value_refused : fullValue.validate = none ∧
    ProtocolModel.validKey [97] = true ∧ (([1,2,3] : Bytes).length : Int) ≤ fullValue.maxValueBytes ∧
    ((Store.new int64 fullValue.store).step ⟨.set [97] [1,2,3] 0,0,1,.asListed⟩).map Prod.snd =
      some (.wrote (some .memoryLimitExceeded)) := by
  decide

end StoreCapacity
