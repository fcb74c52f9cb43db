import MiniKV.Protocol.Parser
import MiniKV.Store.Store

/- The runtime configuration and its validation. The store gets four of the fields,
   as the main program passes them on. -/
namespace ConfigModel
open LruModel ShardModel StoreModel ProtocolModel

structure Config where
  addr : Text
  pprofAddr : Text
  shards : Int
  maxValueBytes : Int
  maxMemoryBytes : Int
  itemOverheadBytes : Int
  cleanupInterval : Duration
  tlsCert : Text
  tlsKey : Text
  authToken : Text
  idleTimeout : Duration
  maxConnections : Int
  shutdownTimeout : Duration
  deriving DecidableEq, Repr

def second : Duration := 1000000000

def Config.default : Config where
  addr := ascii ['0','.','0','.','0','.','0',':','1','1','2','1','1']
  pprofAddr := []
  shards := 16
  maxValueBytes := 1024 * 1024
  maxMemoryBytes := 64 * 1024 * 1024
  itemOverheadBytes := 64
  cleanupInterval := 60 * second
  tlsCert := []
  tlsKey := []
  authToken := []
  idleTimeout := 5 * 60 * second
  maxConnections := 1024
  shutdownTimeout := 10 * second

/-- The checks in their order: what is refused, and the text of the refusal. -/
def Config.checks (c : Config) : List (Bool × String) :=
  [(decide (c.maxValueBytes ≤ 0), "max-value-bytes must be positive"),
    (decide (c.maxMemoryBytes ≤ 0), "max-memory-bytes must be positive"),
    (decide (c.itemOverheadBytes < 0), "item-overhead-bytes must be non-negative"),
    (decide (c.maxValueBytes > c.maxMemoryBytes),
      "max-value-bytes must be less than or equal to max-memory-bytes"),
    (decide (c.cleanupInterval < 0), "cleanup-interval must be non-negative"),
    (decide (c.shards ≤ 0), "shards must be positive"),
    (decide (c.tlsCert = []) != decide (c.tlsKey = []),
      "tls-cert and tls-key must be set together"),
    (decide (c.idleTimeout < 0), "idle-timeout must be non-negative"),
    (decide (c.maxConnections < 0), "max-connections must be non-negative"),
    (decide (c.shutdownTimeout < 0), "shutdown-timeout must be non-negative")]

/-- The text of the first check that refuses, none for nil. -/
def Config.validate (c : Config) : Option String :=
  (c.checks.find? fun check => check.1).map fun check => check.2

def Config.store (c : Config) : ShardModel.Config :=
  ⟨c.maxValueBytes,c.maxMemoryBytes,c.itemOverheadBytes,c.shards⟩

theorem accepted_iff (c : Config) : c.validate = none ↔ ∀ check ∈ c.checks, check.1 = false := by
  simp [Config.validate]

theorem default_accepted : Config.default.validate = none := by decide

theorem validate_bounds {c : Config} (accepted : c.validate = none) :
    0 < c.maxValueBytes ∧ 0 < c.maxMemoryBytes ∧ 0 ≤ c.itemOverheadBytes ∧
      c.maxValueBytes ≤ c.maxMemoryBytes ∧ 0 < c.shards := by
  have passed := (accepted_iff c).mp accepted
  simp only [Config.checks, List.forall_mem_cons, decide_eq_false_iff_not] at passed
  obtain ⟨value,memory,overhead,order,_,shards,_⟩ := passed
  omega

theorem accepted_normal {c : Config} (accepted : c.validate = none) :
    normalizeConfig c.store = c.store := by
  obtain ⟨value,memory,overhead,_,shards⟩ := validate_bounds accepted
  exact normalize_idle value memory overhead shards

end ConfigModel
