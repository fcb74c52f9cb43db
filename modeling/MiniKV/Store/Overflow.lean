import MiniKV.Config.Config
import MiniKV.Store.Fate

/- When the byte accounting is exact. A write forms two sums that can leave the range
   of an int, the size of its item and the first projected total; everything later in
   the write is smaller. Where both sums stay below 2 ^ 63 the machine computes what
   unbounded integers would. -/
namespace StoreOverflow
open MachineWord KeyedList LruModel Decimal ShardModel CacheModel CacheEffects ShardRefinement
  ShardSimulation ShardInvariant StoreModel StoreFate StepRuns Partition

/-- The lazy deletion at the head of set. -/
def dropExpired (sh : Shard) (now : Time) (key : Bytes) : Shard :=
  match sh.items.lookup key with
  | some old => if (sh.heap old).expired now then sh.deleteLocked old else sh
  | none => sh

/-- The state, key and value length for which a call computes an item size; none when
    one of its earlier checks returns. -/
def measured (sh : Shard) (now : Time) : Call → Option (Shard × Bytes × Nat)
  | .set key value _ =>
    if (value.length : Int) > sh.limits.maxValueBytes then none
    else some (dropExpired sh now key, key, value.length)
  | .cas key value _ expected =>
    match sh.peek key with
    | none => none
    | some e =>
      if (value.length : Int) > sh.limits.maxValueBytes || e.expired now ||
        decide (e.cas ≠ expected) then none
      else some (sh, key, value.length)
  | .incr key delta =>
    match sh.peek key with
    | none => none
    | some e =>
      match nextCount e.value delta with
      | .error _ => none
      | .ok next =>
        if ((formatUint next).length : Int) > sh.limits.maxValueBytes || e.expired now then none
        else some (sh, key, (formatUint next).length)
  | .get _ | .delete _ | .cleanupExpired => none

def plainSize (sh : Shard) (key : Bytes) (n : Nat) : Int :=
  key.length + n + sh.limits.itemOverheadBytes

/-- Both sums of a write stay below 2 ^ 63; the second is formed only for an item within
    the budget. -/
def bounded (sh : Shard) (key : Bytes) (n : Nat) : Bool :=
  decide (plainSize sh key n < 2 ^ 63) &&
    (decide (plainSize sh key n > sh.limits.maxMemoryBytes) ||
      decide (sh.memoryBytes - oldSizeOf sh key + plainSize sh key n < 2 ^ 63))

def active (s : Store) (work : Section) : Option Shard :=
  (work.target s.shards.length).bind fun i => s.shards[i]?

def safe (s : Store) (work : Section) : Bool :=
  match (active s work).bind fun sh => measured sh work.now work.call with
  | none => true
  | some (sh,key,n) => bounded sh key n

variable {limits : Limits} {sh sized : Shard} {c d : Cache} {xs : List Ptr} {key : Bytes}
  {now : Time} {call : Call} {n : Nat} {e : Entry} {s t : Store} {work : Section} {reply : Reply}

theorem dropExpired_refines (now : Time) (key : Bytes) (ref : Refines sh c xs) :
    ∃ ys, Refines (dropExpired sh now key) (c.dropExpired now key) ys ∧
      (dropExpired sh now key).limits = sh.limits := by
  unfold dropExpired Cache.dropExpired
  cases hit : sh.items.lookup key with
  | none =>
    rw [lookup_none ref hit]
    exact ⟨xs,ref,rfl⟩
  | some p =>
    rw [(lookup_some ref hit).2.2]
    dsimp only
    split
    · exact ⟨_, deleteLocked_refines ref hit, rfl⟩
    · exact ⟨xs,ref,rfl⟩

theorem dropExpired_others (c : Cache) (now : Time) (key : Bytes) :
    others key (c.dropExpired now key).entries = others key c.entries ∧
      (c.dropExpired now key).entries.Sublist c.entries ∧
      Live now key (c.dropExpired now key).entries := by
  unfold Cache.dropExpired
  cases hit : lookup key c.entries with
  | none => exact ⟨rfl, List.Sublist.refl _, live_of_miss hit⟩
  | some e =>
    dsimp only
    split
    · exact ⟨others_others _ _, without_sublist _ _ _, live_of_miss (drop_lookup_self c key)⟩
    · rename_i fresh
      exact ⟨rfl, List.Sublist.refl _, live_of_found hit fresh⟩

theorem measured_refines (ref : Refines sh c xs)
    (found : measured sh now call = some (sized,key,n)) :
    ∃ d ys, Refines sized d ys ∧ sized.limits = sh.limits ∧
      others key d.entries = others key c.entries ∧ d.entries.Sublist c.entries ∧
      Live now key d.entries ∧ (n : Int) ≤ sh.limits.maxValueBytes := by
  -- The measured state holds the same other entries, and its own one is live.
  cases call with
  | set name value ttl =>
    simp only [measured] at found
    split at found
    · cases found
    · rename_i short
      simp only [Option.some.injEq, Prod.mk.injEq] at found
      obtain ⟨rfl,rfl,rfl⟩ := found
      obtain ⟨ys,refined,same⟩ := dropExpired_refines now name ref
      obtain ⟨rest,sub,live⟩ := dropExpired_others c now name
      exact ⟨_, ys, refined, same, rest, sub, live, Int.not_lt.mp short⟩
  | cas name value ttl expected =>
    simp only [measured, peek_refined ref] at found
    split at found
    · cases found
    · rename_i e hit
      split at found
      · cases found
      · rename_i checks
        simp only [Bool.or_eq_true, decide_eq_true_eq, not_or] at checks
        simp only [Option.some.injEq, Prod.mk.injEq] at found
        obtain ⟨rfl,rfl,rfl⟩ := found
        exact ⟨c, xs, ref, rfl, rfl, List.Sublist.refl _, live_of_found hit checks.1.2,
          Int.not_lt.mp checks.1.1⟩
  | incr name delta =>
    simp only [measured, peek_refined ref] at found
    split at found
    · cases found
    · rename_i e hit
      split at found
      · cases found
      · split at found
        · cases found
        · rename_i checks
          simp only [Bool.or_eq_true, decide_eq_true_eq, not_or] at checks
          simp only [Option.some.injEq, Prod.mk.injEq] at found
          obtain ⟨rfl,rfl,rfl⟩ := found
          exact ⟨c, xs, ref, rfl, rfl, List.Sublist.refl _, live_of_found hit checks.2,
            Int.not_lt.mp checks.1⟩
  | get | delete | cleanupExpired => cases found

theorem stores_measured {cas : UInt64} (ref : Refines sh c xs)
    (stores : Stores limits (lookup e.key c.entries) cas now call e reply)
    (short : (e.value.length : Int) ≤ sh.limits.maxValueBytes) :
    ∃ sized, measured sh now call = some (sized,e.key,e.value.length) := by
  cases stores with
  | set name value ttl =>
    exact ⟨_, by simp only [measured]; rw [if_neg (Int.not_lt.mpr short)]⟩
  | @cas old name value ttl hit live =>
    have held : sh.peek name = some old := (peek_refined ref name).trans hit
    refine ⟨sh, ?_⟩
    simp only [measured, held]
    rw [if_neg (by simpa [live] using short)]
  | @incr old delta next name hit live count =>
    have held : sh.peek name = some old := (peek_refined ref name).trans hit
    refine ⟨sh, ?_⟩
    simp only [measured, held, count]
    rw [if_neg (by simpa [live] using short)]

theorem bounded_iff {ys : List Ptr} (int : sh.limits.int = int64)
    (overhead : 0 ≤ sh.limits.itemOverheadBytes) (ref : Refines sh d ys)
    (sound : Accounted sh.limits d.entries) :
    bounded sh key n = true ↔ Exact sh.limits d.entries key n := by
  have memory := accounted_memory int overhead ref sound
  have rest : sh.memoryBytes - oldSizeOf sh key = total (others key d.entries) := by
    rw [memory]
    exact total_less_own ref
  simp only [bounded, Bool.and_eq_true, Bool.or_eq_true, decide_eq_true_eq, rest]
  unfold plainSize Exact
  omega

/-- Every shard keeps its account under the same limits. -/
def Books (limits : Limits) (s : Store) : Prop :=
  ∀ sh ∈ s.shards, sh.limits = limits ∧ ∃ c xs, Refines sh c xs ∧ Accounted limits c.entries

theorem new_books (config : ShardModel.Config) :
    Books (shardLimits config) (Store.new int64 config) := by
  intro sh mem
  obtain rfl := List.eq_of_mem_replicate mem
  have positive := perShardMemory_pos (normalizeConfig config)
  exact ⟨rfl, CacheModel.empty, [], newShard_refines int64 (by decide) _ _,
    accounted_nil (by simp only [shardLimits]; omega)⟩

theorem active_some {i : Nat} (target : work.target s.shards.length = some i)
    (here : s.shards[i]? = some sh) : active s work = some sh := by
  simp [active, target, here]

theorem exact_of_bounded (int : sh.limits.int = int64)
    (overhead : 0 ≤ sh.limits.itemOverheadBytes) (ref : Refines sh c xs)
    (sound : Accounted sh.limits c.entries)
    (found : measured sh now call = some (sized,key,n)) :
    bounded sized key n = true ↔ Exact sh.limits c.entries key n := by
  obtain ⟨d,ys,refined,same,rest,sub,_,_⟩ := measured_refines ref found
  have small := accounted_sublist overhead sound sub
  rw [← same] at int overhead small
  rw [bounded_iff int overhead refined small, Exact, Exact, rest, same]

theorem safe_exact {i : Nat} {cas : UInt64} (int : limits.int = int64)
    (overhead : 0 ≤ limits.itemOverheadBytes) (target : work.target s.shards.length = some i)
    (here : s.shards[i]? = some sh) (same : sh.limits = limits) (ref : Refines sh c xs)
    (sound : Accounted limits c.entries) (exact : safe s work = true)
    (stores : Stores limits (lookup e.key c.entries) cas work.now work.call e reply)
    (short : (e.value.length : Int) ≤ limits.maxValueBytes) :
    Exact limits c.entries e.key e.value.length := by
  subst same
  obtain ⟨sized,found⟩ := stores_measured ref stores short
  simp only [safe, active_some target here, Option.bind_some, found] at exact
  exact (exact_of_bounded int overhead ref sound found).mp exact

theorem step_books (int : limits.int = int64) (overhead : 0 ≤ limits.itemOverheadBytes)
    (books : Books limits s) (exact : safe s work = true)
    (taken : s.step work = some (t,reply)) : Books limits t := by
  obtain ⟨i,sh,next,target,here,stepped,shards⟩ := step_some_iff.mp taken
  obtain ⟨same,c,xs,ref,sound⟩ := books sh (List.mem_of_getElem? here)
  obtain ⟨d,ys,refined,kept,done⟩ := step_refined ref stepped
  rw [same] at kept done
  have account : Accounted limits d.entries :=
    effect_accounted int overhead (refines_distinct ref)
      (fun _ => safe_exact int overhead target here same ref sound exact)
      (effect_of_step done) sound
  intro other mem
  rw [shards] at mem
  rcases List.mem_or_eq_of_mem_set mem with old | new
  · exact books other old
  · subst new
    exact ⟨kept,d,ys,refined,account⟩

theorem run_books {config : ShardModel.Config} {steps : List StoreStep}
    (run : Run Store.step (Store.new int64 config) steps s)
    (exact : ∀ x ∈ steps, safe x.before x.input = true) : Books (shardLimits config) s := by
  obtain ⟨_,_,overhead,_⟩ := normalize_positive config
  refine run_invariant (fun steps s => (∀ x ∈ steps, safe x.before x.input = true) →
    Books (shardLimits config) s) (fun _ => new_books config) ?_ run exact
  intro steps s work t reply _ ih taken exact
  exact step_books rfl overhead (ih fun x mem => exact x (by simp [mem]))
    (exact ⟨s,work,reply,t⟩ (by simp)) taken

theorem run_books_at {config : ShardModel.Config} {steps : List StoreStep} {x : StoreStep}
    (run : Run Store.step (Store.new int64 config) steps s)
    (exact : ∀ x ∈ steps, safe x.before x.input = true) (mem : x ∈ steps) :
    Books (shardLimits config) x.before ∧ Taken x := by
  obtain ⟨before,after,rfl⟩ := List.append_of_mem mem
  obtain ⟨prior,taken,_⟩ := run_cut run before x after rfl
  exact ⟨run_books prior fun y my => exact y (by simp [my]), taken⟩

theorem measured_named (found : measured sh now call = some (sized,key,n)) :
    call.key = some key := by
  cases call with
  | set k value ttl =>
    simp only [measured] at found
    split at found <;> simp_all [Call.key]
  | cas k value ttl expected =>
    simp only [measured] at found
    split at found
    · cases found
    · split at found <;> simp_all [Call.key]
  | incr k delta =>
    simp only [measured] at found
    split at found
    · cases found
    · split at found
      · cases found
      · split at found <;> simp_all [Call.key]
  | get | delete | cleanupExpired => cases found

/-- Keys of bounded length keep every sum of a ranged configuration exact. -/
theorem ranged_safe {longest : Nat} (int : limits.int = int64)
    (overhead : 0 ≤ limits.itemOverheadBytes) (range : Ranged limits longest)
    (books : Books limits s)
    (short : ∀ key, work.call.key = some key → key.length ≤ longest) : safe s work = true := by
  unfold safe
  rcases asked : (active s work).bind fun sh => measured sh work.now work.call with
    _ | ⟨sized,key,n⟩
  · rfl
  · obtain ⟨sh,busy,found⟩ := Option.bind_eq_some_iff.mp asked
    obtain ⟨i,_,here⟩ := Option.bind_eq_some_iff.mp busy
    obtain ⟨rfl,c,xs,ref,sound⟩ := books sh (List.mem_of_getElem? here)
    obtain ⟨_,_,_,_,_,_,_,value⟩ := measured_refines ref found
    exact (exact_of_bounded int overhead ref sound found).mpr
      (exact_of_ranged overhead sound range (short key (measured_named found)) value)

theorem run_ranged_books {config : ShardModel.Config} {steps : List StoreStep} {longest : Nat}
    (range : Ranged (shardLimits config) longest)
    (run : Run Store.step (Store.new int64 config) steps s)
    (keys : ∀ x ∈ steps, ∀ key, x.input.call.key = some key → key.length ≤ longest) :
    Books (shardLimits config) s := by
  obtain ⟨_,_,overhead,_⟩ := normalize_positive config
  refine run_invariant (fun steps s => (∀ x ∈ steps, ∀ key, x.input.call.key = some key →
    key.length ≤ longest) → Books (shardLimits config) s) (fun _ => new_books config) ?_ run keys
  intro steps s work t reply _ ih taken keys
  have books := ih fun x mem => keys x (by simp [mem])
  exact step_books rfl overhead books
    (ranged_safe rfl overhead range books (keys ⟨s,work,reply,t⟩ (by simp))) taken

theorem books_represent {config : ShardModel.Config}
    (overhead : 0 ≤ (shardLimits config).itemOverheadBytes) (books : Books (shardLimits config) s) :
    ∀ sh ∈ s.shards, ∃ nodes, Representation sh nodes := by
  intro sh mem
  obtain ⟨limits,c,nodes,ref,sound⟩ := books sh mem
  rw [← limits] at sound overhead
  exact ⟨nodes, representation_of_accounted (by rw [limits]; rfl) overhead ref sound⟩

/-- An overhead at the end of the range passes the validation and no sum with it is safe. -/
def hugeOverhead : ConfigModel.Config :=
  { ConfigModel.Config.default with
    shards := 1, maxValueBytes := 10, maxMemoryBytes := 10,
    itemOverheadBytes := 9223372036854775807 }

end StoreOverflow
