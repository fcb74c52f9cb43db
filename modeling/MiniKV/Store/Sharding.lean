import MiniKV.Store.Overflow
import MiniKV.Store.Parallel

/- Sharding without memory pressure. A store whose shards always have room behaves like
   one cache without a budget that holds the entries of all shards; the number of shards
   is gone from that cache, so any two numbers give the same answers. -/
namespace StoreSharding
open MachineWord KeyedList LruModel Decimal ShardModel CacheModel CacheEffects CacheParallel
  ShardRefinement ShardSimulation ShardInvariant StoreModel StoreFate StoreOverflow StepRuns
  Partition

/-- A budget that no int exceeds. -/
def wide (limits : Limits) : Limits := { limits with maxMemoryBytes := 2 ^ 63 - 1 }

variable {limits : Limits} {s t : Store} {cs : List Cache} {c d whole : Cache} {rest : List Entry}
  {cas counter : UInt64} {now : Time} {call : Call} {reply : Reply} {key : Bytes} {e : Entry}

def Roomy (limits : Limits) (c : Cache) (cas : UInt64) (now : Time) (call : Call) : Prop :=
  ∀ e reply, Stores limits (lookup e.key c.entries) cas now call e reply →
    (e.value.length : Int) ≤ limits.maxValueBytes →
    e.size ≤ limits.maxMemoryBytes ∧ fits limits e.size (others e.key c.entries) = true

abbrev OperationStep := Step Store Operation Reply

/-- What a step shows: its answer, MemoryBytes and the items of Stats. -/
def observed (x : OperationStep) : Reply × Int × Nat :=
  (x.output, x.after.memoryBytes int64, (x.after.stats int64).items)

variable {limits' : Limits} {s' t' : Store} {op op' : Operation} {reply' : Reply}

/-- A number of shards that the validation accepts and that is 0 as a uint32. -/
def manyShards : ConfigModel.Config := { ConfigModel.Config.default with shards := 4294967296 }

end StoreSharding
