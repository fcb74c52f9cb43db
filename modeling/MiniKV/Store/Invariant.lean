import Mathlib.Algebra.Order.BigOperators.Group.List
import MiniKV.Store.Simulation
import MiniKV.Store.Store

/- The representation invariant of a shard: list, map, byte counter and expiry
   counter tell one story in every state that calls can reach. The sizes are exact
   because every sum a call forms stays below 2 ^ 63. -/
namespace ShardInvariant
open MachineWord KeyedList LruModel ShardModel CacheModel CacheEffects ShardRefinement
  ShardSimulation StoreModel StepRuns

variable {limits : Limits} {es fs : List Entry} {e : Entry} {key : Bytes}

structure Representation (sh : Shard) (nodes : List Ptr) : Prop where
  listed : Lists sh.heap sh.lru nodes
  mapped : ∀ key p, sh.items.lookup key = some p ↔ p ∈ nodes ∧ (sh.heap p).key = key
  sized : ∀ p ∈ nodes, (sh.heap p).size = (sh.heap p).key.length + (sh.heap p).value.length +
    sh.limits.itemOverheadBytes
  short : ∀ p ∈ nodes, ((sh.heap p).value.length : Int) ≤ sh.limits.maxValueBytes
  memory : sh.memoryBytes = (nodes.map fun p => (sh.heap p).size).sum
  ttl : sh.ttlCount = nodes.countP fun p => decide ((sh.heap p).expiresAt ≠ 0)
  bounded : 0 ≤ sh.memoryBytes ∧ sh.memoryBytes ≤ sh.limits.maxMemoryBytes

/-- What the entries of a cache owe to the limits. -/
structure Accounted (limits : Limits) (es : List Entry) : Prop where
  sized : ∀ e ∈ es, e.size = e.key.length + e.value.length + limits.itemOverheadBytes
  short : ∀ e ∈ es, (e.value.length : Int) ≤ limits.maxValueBytes
  within : total es ≤ limits.maxMemoryBytes
  plain : total es < 2 ^ 63

/-- The two sums of a write that stores n bytes under the key, taken without wrapping,
    stay below 2 ^ 63. The second is formed only when the item fits alone. -/
def Exact (limits : Limits) (es : List Entry) (key : Bytes) (n : Nat) : Prop :=
  key.length + n + limits.itemOverheadBytes < 2 ^ 63 ∧
    (key.length + n + limits.itemOverheadBytes ≤ limits.maxMemoryBytes →
      total (others key es) + (key.length + n + limits.itemOverheadBytes) < 2 ^ 63)

/-- The largest terms that a write of a key of this length can meet sum below 2 ^ 63. -/
def Ranged (limits : Limits) (keyLength : Nat) : Prop :=
  limits.itemOverheadBytes + keyLength + limits.maxValueBytes + limits.maxMemoryBytes < 2 ^ 63

instance (limits : Limits) (n : Nat) : Decidable (Ranged limits n) :=
  inferInstanceAs (Decidable (_ < _))

theorem total_nil : total [] = 0 := rfl

theorem total_nonneg (sizes : ∀ e ∈ es, 0 ≤ e.size) : 0 ≤ total es := by
  apply List.sum_nonneg
  intro n mem
  obtain ⟨e,me,rfl⟩ := List.mem_map.mp mem
  exact sizes e me

theorem total_sublist (sizes : ∀ e ∈ fs, 0 ≤ e.size) (sub : es.Sublist fs) :
    total es ≤ total fs := by
  induction sub with
  | slnil => exact Int.le_refl _
  | cons a _ ih =>
    have rest := ih fun e me => sizes e (by simp [me])
    have first := sizes a (by simp)
    rw [total_cons]
    omega
  | cons_cons a _ ih =>
    have rest := ih fun e me => sizes e (by simp [me])
    rw [total_cons, total_cons]
    omega

theorem accounted_sizes (overhead : 0 ≤ limits.itemOverheadBytes) (sound : Accounted limits es) :
    ∀ e ∈ es, 0 ≤ e.size := by
  intro e me
  rw [sound.sized e me]
  omega

theorem accounted_sublist (overhead : 0 ≤ limits.itemOverheadBytes)
    (sound : Accounted limits fs) (sub : es.Sublist fs) : Accounted limits es :=
  ⟨fun e me => sound.sized e (sub.subset me), fun e me => sound.short e (sub.subset me),
    (total_sublist (accounted_sizes overhead sound) sub).trans sound.within,
    (total_sublist (accounted_sizes overhead sound) sub).trans_lt sound.plain⟩

theorem accounted_nil (room : 0 ≤ limits.maxMemoryBytes) : Accounted limits [] :=
  ⟨by simp, by simp, room, by decide⟩

theorem accounted_front (distinct : Distinct Entry.key es) (hit : lookup key es = some e)
    (sound : Accounted limits es) : Accounted limits (e :: others key es) := by
  have perm := perm_cons_without distinct hit
  have same : total (e :: others key es) = total es := by
    rw [total_cons]
    exact (sum_split Entry.size distinct hit).symm
  refine ⟨fun x mx => sound.sized x (perm.mem_iff.mpr mx),
    fun x mx => sound.short x (perm.mem_iff.mpr mx), ?_, ?_⟩ <;> rw [same]
  · exact sound.within
  · exact sound.plain

theorem itemSize_exact (int : limits.int = int64) {n : Nat}
    (overhead : 0 ≤ limits.itemOverheadBytes)
    (range : key.length + n + limits.itemOverheadBytes < 2 ^ 63) :
    limits.itemSize key n = key.length + n + limits.itemOverheadBytes := by
  rw [Limits.itemSize, limits.int.absorb, int]
  apply int64_exact
  constructor <;> omega

theorem fits_exact {size : Int} (int : limits.int = int64) (nonneg : 0 ≤ total es)
    (positive : 0 ≤ size) (range : total es + size < 2 ^ 63) :
    fits limits size es = decide (total es + size ≤ limits.maxMemoryBytes) := by
  rw [fits, int, int64_exact ⟨by omega, range⟩]

theorem accounted_write (int : limits.int = int64) (overhead : 0 ≤ limits.itemOverheadBytes)
    (now : Time) (sound : Accounted limits es)
    (sized : e.size = e.key.length + e.value.length + limits.itemOverheadBytes)
    (short : (e.value.length : Int) ≤ limits.maxValueBytes)
    (small : e.size ≤ limits.maxMemoryBytes) (range : total es + e.size < 2 ^ 63) :
    Accounted limits (e :: (makeRoom limits now e.size es).kept) := by
  -- A write keeps the account: its sum is exact, so what it leaves really fits.
  have positive : 0 ≤ e.size := by omega
  have whole := total_nonneg (accounted_sizes overhead sound)
  have sub := makeRoom_sublist limits now e.size es
  have less := total_sublist (accounted_sizes overhead sound) sub
  have kept := accounted_sublist overhead sound sub
  have nonneg := total_nonneg (accounted_sizes overhead kept)
  have alone : fits limits e.size [] = true := by
    rw [fits, total_nil, Int.zero_add, int, int64_exact ⟨by omega, by omega⟩]
    exact decide_eq_true small
  have fit := makeRoom_fits now es alone
  rw [fits_exact int nonneg positive (by omega), decide_eq_true_eq] at fit
  refine ⟨?_, ?_, ?_, ?_⟩
  · intro x mx
    rcases List.mem_cons.mp mx with rfl | mx
    · exact sized
    · exact kept.sized x mx
  · intro x mx
    rcases List.mem_cons.mp mx with rfl | mx
    · exact short
    · exact kept.short x mx
  · rw [total_cons]
    omega
  · rw [total_cons]
    omega

theorem effect_accounted {c d : Cache} {cas counter : UInt64} {now : Time} {call : Call}
    {reply : Reply} (int : limits.int = int64) (overhead : 0 ≤ limits.itemOverheadBytes)
    (distinct : Distinct Entry.key c.entries)
    (range : ∀ e, Stores limits (lookup e.key c.entries) cas now call e reply →
      (e.value.length : Int) ≤ limits.maxValueBytes →
      Exact limits c.entries e.key e.value.length)
    (effect : Effect limits c cas now call d counter reply)
    (sound : Accounted limits c.entries) : Accounted limits d.entries := by
  cases effect with
  | refused => exact sound
  | lapsed => exact accounted_sublist overhead sound (without_sublist _ _ _)
  | touched hit =>
    have front := accounted_front distinct hit sound
    rwa [← (find_some hit).2] at front
  | removed => exact accounted_sublist overhead sound (without_sublist _ _ _)
  | @written call reply e stores short small =>
    obtain ⟨_,_,_,_,computed⟩ := stores_facts stores
    obtain ⟨alone,sum⟩ := range e stores short
    have sized := computed.trans (itemSize_exact int overhead alone)
    have rest := accounted_sublist overhead sound (without_sublist Entry.key e.key c.entries)
    rw [← sized] at sum
    exact accounted_write int overhead now rest sized short small (sum small)
  | swept => exact accounted_sublist overhead sound List.filter_sublist

theorem accounted_memory {sh : Shard} {c : Cache} {xs : List Ptr}
    (int : sh.limits.int = int64) (overhead : 0 ≤ sh.limits.itemOverheadBytes)
    (ref : Refines sh c xs) (sound : Accounted sh.limits c.entries) :
    sh.memoryBytes = total c.entries := by
  have nonneg := total_nonneg (accounted_sizes overhead sound)
  rw [ref.memory, int]
  exact int64_exact ⟨by omega, sound.plain⟩

theorem representation_of_accounted {sh : Shard} {c : Cache} {xs : List Ptr}
    (int : sh.limits.int = int64) (overhead : 0 ≤ sh.limits.itemOverheadBytes)
    (ref : Refines sh c xs)
    (sound : Accounted sh.limits c.entries) : Representation sh xs := by
  have nonneg := total_nonneg (accounted_sizes overhead sound)
  have within := sound.within
  have memory := accounted_memory int overhead ref sound
  have entry : ∀ p ∈ xs, (sh.heap p).toEntry ∈ c.entries := by
    intro p mp
    rw [ref.entries]
    exact List.mem_map_of_mem mp
  refine ⟨ref.listed, ref.mapped, fun p mp => sound.sized _ (entry p mp),
    fun p mp => sound.short _ (entry p mp), ?_, ?_, by omega, by omega⟩
  · rw [memory, total, ref.entries, List.map_map]
    rfl
  · rw [ref.ttl, timed, ref.entries, List.countP_map]
    rfl

def shardLimits (config : Config) : Limits :=
  ⟨int64, (normalizeConfig config).maxValueBytes, perShardMemory (normalizeConfig config),
    (normalizeConfig config).itemOverheadBytes⟩

def freshShard (config : Config) : Shard :=
  newShard int64 (normalizeConfig config) (perShardMemory (normalizeConfig config))

variable {config : Config} {longest : Nat}

theorem exact_of_ranged {n : Nat} (overhead : 0 ≤ limits.itemOverheadBytes)
    (sound : Accounted limits es) (range : Ranged limits longest)
    (shorter : key.length ≤ longest) (short : (n : Int) ≤ limits.maxValueBytes) :
    Exact limits es key n := by
  have rest := accounted_sublist overhead sound (without_sublist Entry.key key es)
  have within : total (others key es) ≤ limits.maxMemoryBytes := rest.within
  have room := (total_nonneg (accounted_sizes overhead rest)).trans rest.within
  unfold Ranged at range
  exact ⟨by omega, fun _ => by omega⟩

/-- Whatever the sums of a run are, its shard refines a cache. -/
theorem run_refines {steps : List (Step Shard Visit Reply)} {sh : Shard}
    (run : Run Shard.visit (freshShard config) steps sh) :
    sh.limits = shardLimits config ∧ ∃ c xs, Refines sh c xs := by
  refine run_invariant (fun _ sh => sh.limits = shardLimits config ∧ ∃ c xs, Refines sh c xs)
    ⟨rfl, CacheModel.empty, [], newShard_refines int64 (by decide) _ _⟩ ?_ run
  intro steps sh v next reply _ held taken
  obtain ⟨limits,c,xs,ref⟩ := held
  obtain ⟨d,ys,_,refined,same,_⟩ := visit_refined_effect ref taken
  exact ⟨same.trans limits, d, ys, refined⟩

theorem run_accounted {steps : List (Step Shard Visit Reply)} {sh : Shard}
    (range : Ranged (shardLimits config) longest)
    (run : Run Shard.visit (freshShard config) steps sh)
    (keys : ∀ x ∈ steps, ∀ key, x.input.call.key = some key → key.length ≤ longest) :
    sh.limits = shardLimits config ∧
      ∃ c xs, Refines sh c xs ∧ Accounted (shardLimits config) c.entries := by
  obtain ⟨_,_,overhead,_⟩ := normalize_positive config
  refine run_invariant (fun steps sh =>
    (∀ x ∈ steps, ∀ key, x.input.call.key = some key → key.length ≤ longest) →
      sh.limits = shardLimits config ∧
        ∃ c xs, Refines sh c xs ∧ Accounted (shardLimits config) c.entries) ?_ ?_ run keys
  · intro _
    have positive := perShardMemory_pos (normalizeConfig config)
    refine ⟨rfl, CacheModel.empty, [], newShard_refines int64 (by decide) _ _, ?_⟩
    exact accounted_nil (by simp only [shardLimits]; omega)
  · intro steps sh v next reply _ ih taken keys
    obtain ⟨limits,c,xs,ref,sound⟩ := ih fun x mem => keys x (by simp [mem])
    obtain ⟨d,ys,counter,refined,same,effect⟩ := visit_refined_effect ref taken
    rw [limits] at same effect
    have short := keys ⟨sh,v,reply,next⟩ (by simp)
    refine ⟨same, d, ys, refined, effect_accounted rfl overhead (refines_distinct ref) ?_
      effect sound⟩
    intro e stores small
    exact exact_of_ranged overhead sound range (short e.key (stores_facts stores).1) small

/-- Every state that calls can reach from a new shard represents its items soundly,
    and no further call can fail to return. -/
theorem reachable_shard_represents (config : Config) (longest : Nat)
    (range : Ranged (shardLimits config) longest) {steps : List (Step Shard Visit Reply)}
    {sh : Shard} (run : Run Shard.visit (freshShard config) steps sh)
    (keys : ∀ x ∈ steps, ∀ key, x.input.call.key = some key → key.length ≤ longest) :
    (∃ nodes, Representation sh nodes) ∧ ∀ v, (sh.visit v).isSome := by
  obtain ⟨value,_,overhead,_⟩ := normalize_positive config
  obtain ⟨limits,c,xs,ref,sound⟩ := run_accounted range run keys
  constructor
  · refine ⟨xs, representation_of_accounted ?_ ?_ ref ?_⟩ <;> rw [limits]
    · rfl
    · exact overhead
    · exact sound
  · intro v
    obtain ⟨next,counter,reply,done⟩ := step_returns v.counter v.now v.order v.call ref
    simp [Shard.visit, done]

/-- A budget of two items of three: an insertion, a timed one, a read, an insertion that
    purges and one that evicts, a failed cas, a deletion and a sweep. -/
def sampleConfig : Config := ⟨10,20,5,1⟩

def sampleVisits : List Visit :=
  [⟨.set [97] [49] 0,0,1,.asListed⟩, ⟨.set [98] [50] 5,1,2,.asListed⟩,
    ⟨.get [97],2,3,.asListed⟩, ⟨.set [99] [51] 0,2,7,.asListed⟩,
    ⟨.set [100] [52] 0,3,8,.asListed⟩, ⟨.cas [99] [53] 0 9,4,9,.asListed⟩,
    ⟨.delete [100],4,10,.asListed⟩, ⟨.cleanupExpired,4,11,.asListed⟩]

theorem sample_shard_represents : ∃ steps sh,
    Run Shard.visit (freshShard sampleConfig) steps sh ∧ steps.map Step.input = sampleVisits ∧
      (∃ nodes, Representation sh nodes) ∧ ∀ v, (sh.visit v).isSome := by
  have done : (exec Shard.visit (freshShard sampleConfig) sampleVisits).isSome = true := by decide
  obtain ⟨⟨steps,sh⟩,eq⟩ := Option.isSome_iff_exists.mp done
  obtain ⟨run,inputs⟩ := exec_run eq
  have keys : ∀ x ∈ steps, ∀ key, x.input.call.key = some key → key.length ≤ 1 := by
    intro x mem
    have input : x.input ∈ sampleVisits := inputs ▸ List.mem_map_of_mem mem
    have all : ∀ v ∈ sampleVisits, ∀ key, v.call.key = some key → key.length ≤ 1 := by
      simp [sampleVisits, Call.key]
    exact all x.input input
  exact ⟨steps,sh,run,inputs,
    reachable_shard_represents sampleConfig 1 (by decide) run keys⟩

end ShardInvariant
