import MiniKV.Store.Overflow

/- The budget of the whole store. No code compares the total with it: the bound is the
   number of shards times the slice that New gives to each, and the slice is at least
   one byte. -/
namespace StoreBudget
open MachineWord ShardModel CacheModel ShardInvariant StoreModel StoreOverflow StepRuns

theorem accepted_length {config : ConfigModel.Config} (accepted : config.validate = none)
    {steps : List StoreStep} {last : Store}
    (run : Run Store.step (Store.new int64 config.store) steps last) :
    last.shards.length = config.shards.toNat := by
  rw [run_length run]
  simp only [Store.new, List.length_replicate, ConfigModel.accepted_normal accepted]
  rfl

theorem wrap_le {x : Int} (lower : -2 ^ 63 ≤ x) : int64.wrap x ≤ x := by
  by_cases upper : x < 2 ^ 63
  · exact Int.le_of_eq (int64_exact ⟨lower,upper⟩)
  · have bound := (int64_in_range x).2
    omega

theorem running_total_le (shards : List Shard) (slice : Int)
    (bounds : ∀ sh ∈ shards, 0 ≤ sh.memoryBytes ∧ sh.memoryBytes ≤ slice) (start : Int)
    (lower : -2 ^ 63 ≤ start) :
    shards.foldl (fun total sh => int64.wrap (total + sh.memoryBytes)) start ≤
      start + shards.length * slice := by
  -- The running total never passes the plain sum, even where it wraps.
  induction shards generalizing start with
  | nil => simp
  | cons sh rest ih =>
    obtain ⟨positive,small⟩ := bounds sh (by simp)
    have next := ih (fun other mem => bounds other (by simp [mem]))
      (int64.wrap (start + sh.memoryBytes)) (int64_in_range _).1
    have step := wrap_le (x := start + sh.memoryBytes) (by omega)
    rw [List.foldl_cons, List.length_cons, Nat.cast_add, Nat.cast_one, Int.add_mul, Int.one_mul]
    omega

theorem slices_within (config : Config) (memory : 0 < config.maxMemoryBytes)
    (shards : 0 < config.shards) :
    config.shards * perShardMemory config ≤ max config.maxMemoryBytes config.shards := by
  -- The slices sum to the budget, or to the number of shards where the clamp applies.
  have quotient : config.shards * config.maxMemoryBytes.tdiv config.shards ≤
      config.maxMemoryBytes := by
    rw [Int.tdiv_eq_ediv_of_nonneg (by omega)]
    exact Int.mul_ediv_self_le (by omega)
  simp only [perShardMemory]
  split
  · rw [Int.mul_one]
    exact Int.le_max_right _ _
  · exact quotient.trans (Int.le_max_left _ _)

theorem books_total_le {limits : Limits} {s : Store} (int : limits.int = int64)
    (overhead : 0 ≤ limits.itemOverheadBytes) (books : Books limits s) :
    s.memoryBytes int64 ≤ s.shards.length * limits.maxMemoryBytes := by
  have bounds : ∀ sh ∈ s.shards, 0 ≤ sh.memoryBytes ∧ sh.memoryBytes ≤ limits.maxMemoryBytes := by
    intro sh mem
    obtain ⟨rfl,c,xs,ref,sound⟩ := books sh mem
    rw [accounted_memory int overhead ref sound]
    exact ⟨total_nonneg (accounted_sizes overhead sound), sound.within⟩
  have bound := running_total_le s.shards limits.maxMemoryBytes bounds 0 (by decide)
  rw [Int.zero_add] at bound
  exact bound

/-- The bound of a store as New lays it out for a configuration that was accepted. -/
theorem books_within {config : ConfigModel.Config} {s : Store} (accepted : config.validate = none)
    (length : s.shards.length = config.shards.toNat)
    (books : Books (shardLimits config.store) s) :
    s.memoryBytes int64 ≤ max config.maxMemoryBytes config.shards := by
  obtain ⟨_,memory,overhead,_,shards⟩ := ConfigModel.validate_bounds accepted
  have normal := ConfigModel.accepted_normal accepted
  have sum := books_total_le rfl (by simp only [shardLimits, normal]; exact overhead) books
  simp only [shardLimits, normal, length, Int.toNat_of_nonneg (Int.le_of_lt shards)] at sum
  exact sum.trans (slices_within config.store memory shards)

/-- In every state that exact accounting reaches, the total stays within the configured
    budget, or within one byte a shard where the shards outnumber the bytes. -/
theorem memory_within_budget (config : ConfigModel.Config) (accepted : config.validate = none)
    {steps : List StoreStep} {last : Store}
    (run : Run Store.step (Store.new int64 config.store) steps last)
    (exact : ∀ x ∈ steps, safe x.before x.input = true) :
    last.memoryBytes int64 ≤ max config.maxMemoryBytes config.shards ∧
      (config.shards ≤ config.maxMemoryBytes →
        last.memoryBytes int64 ≤ config.maxMemoryBytes) := by
  obtain ⟨_,memory,overhead,_,shards⟩ := ConfigModel.validate_bounds accepted
  have normal := ConfigModel.accepted_normal accepted
  have books := run_books run exact
  have length : (last.shards.length : Int) = config.shards := by
    rw [run_length run]
    simp only [Store.new, normal, List.length_replicate]
    exact Int.toNat_of_nonneg (Int.le_of_lt shards)
  have sum := books_total_le rfl (by simp only [shardLimits, normal]; exact overhead) books
  simp only [shardLimits, normal, length] at sum
  have slices := slices_within config.store memory shards
  have bound : last.memoryBytes int64 ≤ max config.maxMemoryBytes config.shards :=
    sum.trans slices
  refine ⟨bound, fun enough => ?_⟩
  rwa [Int.max_eq_left enough] at bound

def threeShards : ConfigModel.Config :=
  { ConfigModel.Config.default with
    shards := 3, maxValueBytes := 10, maxMemoryBytes := 32, itemOverheadBytes := 4 }

theorem three_shards_within_budget : ∃ steps last,
    Run Store.step (Store.new int64 threeShards.store) steps last ∧
      steps.map Step.input = [⟨.set [97] [1,2,3] 0,0,1,.asListed⟩,
        ⟨.set [98] [1,2] 0,0,2,.asListed⟩, ⟨.set [99] [1] 0,0,3,.asListed⟩,
        ⟨.set [100] [1,2,3] 0,0,4,.asListed⟩] ∧
      last.memoryBytes int64 ≤ threeShards.maxMemoryBytes := by
  have done : (exec Store.step (Store.new int64 threeShards.store)
      [⟨.set [97] [1,2,3] 0,0,1,.asListed⟩, ⟨.set [98] [1,2] 0,0,2,.asListed⟩,
        ⟨.set [99] [1] 0,0,3,.asListed⟩, ⟨.set [100] [1,2,3] 0,0,4,.asListed⟩]).map
      (fun done => done.1.all fun x => safe x.before x.input) = some true := by decide
  obtain ⟨steps,last,run,inputs,within⟩ := exec_shows done
  have all : ∀ x ∈ steps, safe x.before x.input = true := by simpa using within
  exact ⟨steps, last, run, inputs,
    (memory_within_budget threeShards (by decide) run all).2 (by decide)⟩

/-- Two shards for one byte: New gives a byte to each. -/
def oneByte : ConfigModel.Config :=
  { ConfigModel.Config.default with
    shards := 2, maxValueBytes := 1, maxMemoryBytes := 1, itemOverheadBytes := 0 }

theorem clamped_slices_pass_budget : oneByte.validate = none ∧ ∃ steps last,
    Run Store.step (Store.new int64 oneByte.store) steps last ∧
      steps.map Step.input = [⟨.set [97] [] 0,0,1,.asListed⟩, ⟨.set [98] [] 0,0,2,.asListed⟩] ∧
      steps.map Step.output = [.wrote none, .wrote none] ∧
      last.memoryBytes int64 = 2 ∧ ¬ last.memoryBytes int64 ≤ oneByte.maxMemoryBytes := by
  constructor
  · decide
  have done : (exec Store.step (Store.new int64 oneByte.store)
      [⟨.set [97] [] 0,0,1,.asListed⟩, ⟨.set [98] [] 0,0,2,.asListed⟩]).map
      (fun done => (done.1.map Step.output, done.2.memoryBytes int64)) =
        some ([.wrote none, .wrote none], 2) := by decide
  obtain ⟨steps,last,run,inputs,values⟩ := exec_shows done
  simp only [Prod.mk.injEq] at values
  obtain ⟨outputs,bytes⟩ := values
  refine ⟨steps, last, run, inputs, outputs, bytes, ?_⟩
  rw [bytes]
  decide

end StoreBudget
