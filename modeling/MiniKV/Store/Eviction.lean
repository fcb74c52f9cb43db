import MiniKV.Store.Simulation

/- The turns of an over-budget write: which keys its loop evicts, in which order, and
   which value projected takes after each. -/
namespace ShardEviction
open MachineWord KeyedList LruModel ShardModel CacheModel ShardRefinement ShardSimulation

/-- The candidates that the loop of evictUntilFitsLocked deletes, with projected after each. -/
def evictTurns (protectedKey : Bytes) : Nat → Shard → Int → List (Bytes × Int)
  | 0, _, _ => []
  | fuel + 1, sh, projected =>
    if projected > sh.limits.maxMemoryBytes then
      match skipProtected sh.heap protectedKey (sh.items.keys.length + 1) (back sh.lru) with
      | some (some candidate) =>
        let next := sh.limits.int.wrap (projected - (sh.heap candidate).size)
        ((sh.heap candidate).key,next) ::
          evictTurns protectedKey fuel (sh.deleteLocked candidate) next
      | _ => []
    else []

def purgedFor (sh : Shard) (now : Time) (order : RangeOrder) : Shard :=
  if sh.ttlCount > 0 then sh.removeExpiredLocked now order else sh

def evictedKeys (sh : Shard) (now : Time) (order : RangeOrder) (key : Bytes) (size : Int) :
    List Bytes :=
  if sh.projected (oldSizeOf sh key) size > sh.limits.maxMemoryBytes then
    let purged := purgedFor sh now order
    (evictTurns key (purged.items.keys.length + 1) purged
      (purged.projected (oldSizeOf purged key) size)).map Prod.fst
  else []

variable {sh : Shard} {c : Cache} {xs : List Ptr} {key : Bytes} {now : Time} {size : Int}

theorem evictTurns_refined (key : Bytes) (reduced : sh.limits.int.wrap size = size)
    (small : size ≤ sh.limits.maxMemoryBytes) (fuel : Nat) (ref : Refines sh c xs)
    (enough : (others key c.entries).length < fuel) :
    evictTurns key fuel sh (sh.limits.int.wrap (total (others key c.entries) + size)) =
      (trimTurns (fits sh.limits size) (others key c.entries)).map
        fun turn => (turn.1.key, sh.limits.int.wrap (total turn.2 + size)) := by
  induction fuel generalizing sh c xs with
  | zero => omega
  | succ fuel ih =>
    rw [evictTurns]
    by_cases excess : sh.limits.int.wrap (total (others key c.entries) + size) >
        sh.limits.maxMemoryBytes
    · obtain ⟨p,walk,hit,off,split,tooBig,length,running⟩ :=
        evict_turn key reduced small ref excess
      have limits : (sh.deleteLocked p).limits = sh.limits := rfl
      have rest := ih (limits ▸ reduced) (limits ▸ small) (deleteLocked_refines ref hit) (by omega)
      rw [limits] at rest
      rw [if_pos excess, walk, split, trimTurns_snoc tooBig, List.map_cons, ← split]
      simp only [running, rest]
    · have ok : fits sh.limits size (others key c.entries) = true := by
        simpa [fits] using excess
      rw [if_neg excess, trimTurns_of_fits ok, List.map_nil]

theorem purgedFor_runs (order : RangeOrder) (ref : Refines sh c xs)
    (live : Live now key c.entries) :
    ∃ d ys, Purged sh c now key (purgedFor sh now order) d ys := by
  unfold purgedFor
  split
  · exact purge_runs order ref live
  · rename_i untimed
    exact ⟨c,xs,purge_skipped ref untimed⟩

theorem evictedKeys_refined (order : RangeOrder) (ref : Refines sh c xs)
    (live : Live now key c.entries) (reduced : sh.limits.int.wrap size = size)
    (small : size ≤ sh.limits.maxMemoryBytes) :
    evictedKeys sh now order key size =
      if fits sh.limits size (others key c.entries) then []
      else (trimTurns (fits sh.limits size) (alive now (others key c.entries))).map
        fun turn => turn.1.key := by
  unfold evictedKeys
  by_cases tight : sh.projected (oldSizeOf sh key) size > sh.limits.maxMemoryBytes
  · have excess := (over_iff ref).mp tight
    obtain ⟨d,ys,clean⟩ := purgedFor_runs order ref live
    generalize purgedFor sh now order = purged at clean ⊢
    have limits := clean.shrunk.limits
    have turns := evictTurns_refined key (limits ▸ reduced) (limits ▸ small)
      (purged.items.keys.length + 1) clean.refined (others_below clean.refined)
    rw [← projected_eq clean.refined, limits, clean.left] at turns
    simp only [if_pos tight, excess, Bool.false_eq_true, if_false, turns, List.map_map]
    rfl
  · have room : fits sh.limits size (others key c.entries) = true := by
      simpa using mt (over_iff ref).mpr tight
    rw [if_neg tight, if_pos room]

end ShardEviction
