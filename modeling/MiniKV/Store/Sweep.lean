import MiniKV.Store.Eviction
import MiniKV.Store.Overflow
import MiniKV.Store.Purge

/- The sweep is invisible. Two stores are twins at a time when their shards hold the
   same live entries in the same order; a sweep of either keeps them twins, and so does
   a keyed call on both, with one answer. -/
namespace StoreSweep
open MachineWord KeyedList LruModel Decimal ShardModel CacheModel CacheEffects CacheParallel
  ShardRefinement ShardSimulation ShardEviction ShardInvariant CachePurge StoreModel StoreFate StoreOverflow
  StepRuns Partition

def keyed (work : Section) : Bool := decide (work.call ≠ .cleanupExpired)

def evictedBy (s : Store) (work : Section) : List Bytes :=
  match (active s work).bind fun sh => measured sh work.now work.call with
  | none => []
  | some (sh,key,n) =>
    if sh.itemSize key n > sh.limits.maxMemoryBytes then []
    else evictedKeys sh work.now work.order key (sh.itemSize key n)

def expire (s : Store) (now : Time) (order : RangeOrder) : Store :=
  (s.cleanupExpired (fun _ => now) fun _ => order).1

/-- The eager store: nothing that has expired is there when a section begins. -/
def eagerStep (s : Store) (work : Section) : Option (Store × Reply) :=
  (expire s work.now work.order).step work

structure Twin (limits : Limits) (now : Time) (a b : Shard) (c d : Cache) (xs ys : List Ptr) :
    Prop where
  limited : a.limits = limits ∧ b.limits = limits
  left : Refines a c xs
  right : Refines b d ys
  sound : Accounted limits c.entries
  sound' : Accounted limits d.entries
  same : SameLive now c d

def Twins (limits : Limits) (now : Time) (a b : Shard) : Prop :=
  ∃ c d xs ys, Twin limits now a b c d xs ys

structure Related (limits : Limits) (now : Time) (s t : Store) : Prop where
  shards : List.Forall₂ (Twins limits now) s.shards t.shards
  cas : s.cas = t.cas

variable {limits : Limits} {s t s' t' : Store} {work : Section} {reply reply' : Reply}
  {now later : Time} {a b : Shard} {c d : Cache} {xs ys : List Ptr}

theorem related_later (order : now ≤ later) (related : Related limits now s t) :
    Related limits later s t := by
  refine ⟨related.shards.imp ?_, related.cas⟩
  rintro a b ⟨c,d,xs,ys,twin⟩
  exact ⟨c,d,xs,ys,twin.limited,twin.left,twin.right,twin.sound,twin.sound',
    purged_later order twin.same⟩

theorem related_length (related : Related limits now s t) :
    s.shards.length = t.shards.length := related.shards.length_eq

theorem new_related (config : ShardModel.Config) (now : Time) :
    Related (shardLimits config) now (Store.new int64 config) (Store.new int64 config) := by
  refine ⟨List.forall₂_same.mpr ?_, rfl⟩
  intro sh mem
  obtain ⟨same,c,xs,ref,sound⟩ := new_books config sh mem
  exact ⟨c,c,xs,xs,⟨same,same⟩,ref,ref,sound,sound,rfl⟩

theorem related_at {i : Nat} (related : Related limits now s t) (here : s.shards[i]? = some a)
    (there : t.shards[i]? = some b) : Twins limits now a b := by
  obtain ⟨inside,rfl⟩ := List.getElem?_eq_some_iff.mp here
  obtain ⟨inside',rfl⟩ := List.getElem?_eq_some_iff.mp there
  exact related.shards.get inside inside'

theorem sweep_related (overhead : 0 ≤ limits.itemOverheadBytes)
    (related : Related limits work.now s t) (hidden : keyed work = false)
    (taken : s.step work = some (s',reply)) : Related limits work.now s' t := by
  have call : work.call = .cleanupExpired := by simpa [keyed] using hidden
  obtain ⟨i,a,next,_,here,stepped,shards⟩ := step_some_iff.mp taken
  obtain ⟨inside,_⟩ := List.getElem?_eq_some_iff.mp here
  have inside' : i < t.shards.length := related_length related ▸ inside
  have there : t.shards[i]? = some t.shards[i] := List.getElem?_eq_getElem inside'
  obtain ⟨c,d,xs,ys,twin⟩ := related_at related here there
  obtain ⟨c',zs,refined,kept,done⟩ := step_refined twin.left stepped
  rw [call] at done
  simp only [Cache.step, Prod.mk.injEq] at done
  obtain ⟨rfl,counter,_⟩ := done
  have pair : Twins limits work.now next t.shards[i] := by
    refine ⟨_, d, zs, ys, ⟨kept.trans twin.limited.1, twin.limited.2⟩, refined, twin.right, ?_,
      twin.sound', (cleanupExpired_purged _ c).trans twin.same⟩
    exact accounted_sublist overhead twin.sound List.filter_sublist
  have both := forall₂_set related.shards i pair
  rw [List.set_getElem_self] at both
  exact ⟨shards ▸ both, counter.symm.trans related.cas⟩

theorem run_sweeps_related (overhead : 0 ≤ limits.itemOverheadBytes) {steps : List StoreStep}
    (related : Related limits now s t) (run : Run Store.step s steps s')
    (sweeps : ∀ x ∈ steps, keyed x.input = false ∧ x.input.now = now) :
    Related limits now s' t := by
  refine run_invariant (fun steps s' => (∀ x ∈ steps, keyed x.input = false ∧
    x.input.now = now) → Related limits now s' t) (fun _ => related) ?_ run sweeps
  intro steps m work u reply _ ih taken sweeps
  obtain ⟨hidden,rfl⟩ := sweeps ⟨m,work,reply,u⟩ (by simp)
  exact sweep_related overhead (ih fun x mem => sweeps x (by simp [mem])) hidden taken

theorem expire_related (overhead : 0 ≤ limits.itemOverheadBytes) (order : RangeOrder)
    (related : Related limits now s t) : Related limits now (expire s now order) t := by
  obtain ⟨steps,counts,run,inputs,_,_⟩ := cleanupExpired_run s (fun _ => now) fun _ => order
  refine run_sweeps_related overhead related run ?_
  intro x mem
  have member : x.input ∈ steps.map Step.input := List.mem_map_of_mem mem
  rw [inputs] at member
  obtain ⟨i,_,same⟩ := List.mem_map.mp member
  rw [← same]
  exact ⟨rfl,rfl⟩

theorem safe_regular {i : Nat} (cas : UInt64) (int : limits.int = int64)
    (overhead : 0 ≤ limits.itemOverheadBytes) (target : work.target s.shards.length = some i)
    (here : s.shards[i]? = some a) (same : a.limits = limits) (ref : Refines a c xs)
    (sound : Accounted limits c.entries) (exact : safe s work = true) :
    Regular limits c cas work.now work.call := by
  -- The sums of a safe section are monotone, so its calls ignore expired entries.
  intro e reply stores short small
  obtain ⟨_,_,_,_,sized⟩ := stores_facts stores
  rw [sized] at small ⊢
  exact monotone_of_exact _ int overhead sound small
    (safe_exact int overhead target here same ref sound exact stores short)

theorem step_related (int : limits.int = int64) (overhead : 0 ≤ limits.itemOverheadBytes)
    (related : Related limits work.now s t) (shown : keyed work = true)
    (exact : safe s work = true) (exact' : safe t work = true)
    (taken : s.step work = some (s',reply)) (taken' : t.step work = some (t',reply')) :
    Related limits work.now s' t' ∧ reply = reply' := by
  have call : work.call ≠ .cleanupExpired := by simpa [keyed] using shown
  obtain ⟨i,a,next,target,here,stepped,shards⟩ := step_some_iff.mp taken
  obtain ⟨j,b,next',target',there,stepped',shards'⟩ := step_some_iff.mp taken'
  rw [← related_length related] at target'
  obtain rfl : i = j := Option.some.inj (target.symm.trans target')
  rw [related_length related] at target'
  obtain ⟨c,d,xs,ys,twin⟩ := related_at related here there
  have regular := safe_regular s.cas int overhead target here twin.limited.1 twin.left
    twin.sound exact
  have regular' := safe_regular s.cas int overhead target' there twin.limited.2 twin.right
    twin.sound' exact'
  obtain ⟨c',zs,refined,kept,done⟩ := step_refined twin.left stepped
  obtain ⟨d',ws,refined',kept',done'⟩ := step_refined twin.right stepped'
  rw [twin.limited.1] at kept done
  rw [twin.limited.2, ← related.cas] at done'
  rw [twin.limited.2] at kept'
  have agrees := step_sameLive call twin.same (refines_distinct twin.left)
    (refines_distinct twin.right) regular regular'
  rw [done, done'] at agrees
  obtain ⟨after,answers⟩ := agrees
  simp only [Prod.mk.injEq] at answers
  have sound := effect_accounted int overhead (refines_distinct twin.left)
    (fun _ => safe_exact int overhead target here twin.limited.1 twin.left twin.sound exact)
    (effect_of_step done) twin.sound
  have sound' := effect_accounted int overhead (refines_distinct twin.right)
    (fun _ => safe_exact int overhead target' there twin.limited.2 twin.right twin.sound' exact')
    (effect_of_step done') twin.sound'
  have pair : Twins limits work.now next next' :=
    ⟨c',d',zs,ws,⟨kept,kept'⟩,refined,refined',sound,sound',after⟩
  refine ⟨⟨?_, answers.1⟩, answers.2⟩
  rw [shards, shards']
  exact forall₂_set related.shards i pair

/-- The key and length that a call measures, from the live entries. -/
def wanted (limits : Limits) (found : Bytes → Option Entry) : Call → Option (Bytes × Nat)
  | .set key value _ =>
    if (value.length : Int) > limits.maxValueBytes then none else some (key,value.length)
  | .cas key value _ expected =>
    match found key with
    | none => none
    | some e =>
      if (value.length : Int) > limits.maxValueBytes || decide (e.cas ≠ expected) then none
      else some (key,value.length)
  | .incr key delta =>
    match found key with
    | none => none
    | some e =>
      match nextCount e.value delta with
      | .error _ => none
      | .ok next =>
        if ((formatUint next).length : Int) > limits.maxValueBytes then none
        else some (key,(formatUint next).length)
  | .get _ | .delete _ | .cleanupExpired => none

theorem measured_wanted (ref : Refines a c xs) (now : Time) (call : Call) :
    (measured a now call).map Prod.snd =
      wanted a.limits (fun key => lookup key (purged now c).entries) call := by
  have view : (fun key => lookup key (purged now c).entries) = fun key => liveEntry now key c :=
    funext fun key => (liveEntry_purged now (refines_distinct ref) key).symm
  rw [view]
  cases call with
  | set key value ttl =>
    simp only [measured, wanted]
    split <;> rfl
  | cas key value ttl expected =>
    simp only [measured, wanted, peek_refined ref, liveEntry]
    cases lookup key c.entries with
    | none => rfl
    | some e =>
      cases dead : e.expired now with
      | true => simp [dead, Option.filter_some]
      | false =>
        simp only [dead, Bool.or_false, Bool.not_false, Option.filter_some, if_true]
        split <;> rfl
  | incr key delta =>
    simp only [measured, wanted, peek_refined ref, liveEntry]
    cases lookup key c.entries with
    | none => rfl
    | some e =>
      cases dead : e.expired now with
      | true => cases count : nextCount e.value delta <;>
          simp [count, dead, Option.filter_some]
      | false =>
        simp only [Option.filter_some, dead, Bool.not_false, if_true, Bool.or_false,
          decide_eq_true_eq]
        cases nextCount e.value delta with
        | error => rfl
        | ok next =>
          dsimp only
          split <;> rfl
  | get | delete | cleanupExpired => rfl

/-- A write with exact sums evicts from the back of the live entries, whatever else the
    shard still holds. -/
theorem evictedKeys_live {sized : Shard} {call : Call} {key : Bytes} {n : Nat} (order : RangeOrder)
    (int : a.limits.int = int64) (overhead : 0 ≤ a.limits.itemOverheadBytes)
    (ref : Refines a c xs) (sound : Accounted a.limits c.entries)
    (found : measured a now call = some (sized,key,n)) (exact : bounded sized key n = true)
    (small : a.limits.itemSize key n ≤ a.limits.maxMemoryBytes) :
    evictedKeys sized now order key (sized.itemSize key n) =
      (trimTurns (fits a.limits (a.limits.itemSize key n))
        (others key (alive now c.entries))).map fun turn => turn.1.key := by
  obtain ⟨e,ys,refined,same,rest,_,live,_⟩ := measured_refines ref found
  have sums := (exact_of_bounded int overhead ref sound found).mp exact
  have size : sized.itemSize key n = a.limits.itemSize key n := by rw [Shard.itemSize, same]
  rw [size, evictedKeys_refined order refined live (by rw [same]; exact itemSize_reduced _ _ _)
    (by rw [same]; exact small), same, rest, others_alive]
  split
  · rename_i fit
    have enough := monotone_of_exact now int overhead sound small sums fit
    rw [trimTurns_of_fits enough, List.map_nil]
  · rfl

/-- The evictions of a section in terms of the live entries alone. -/
def evictedFrom (limits : Limits) (live : List Entry) (call : Call) : List Bytes :=
  match wanted limits (fun key => lookup key live) call with
  | none => []
  | some (key,n) =>
    if limits.itemSize key n > limits.maxMemoryBytes then []
    else (trimTurns (fits limits (limits.itemSize key n)) (others key live)).map
      fun turn => turn.1.key

theorem evictedBy_live {i : Nat} (int : limits.int = int64)
    (overhead : 0 ≤ limits.itemOverheadBytes) (target : work.target s.shards.length = some i)
    (here : s.shards[i]? = some a) (same : a.limits = limits) (ref : Refines a c xs)
    (sound : Accounted limits c.entries) (exact : safe s work = true) :
    evictedBy s work = evictedFrom limits (purged work.now c).entries work.call := by
  subst same
  have view := measured_wanted ref work.now work.call
  simp only [safe, active_some target here, Option.bind_some] at exact
  simp only [evictedBy, evictedFrom, active_some target here, Option.bind_some]
  cases found : measured a work.now work.call with
  | none =>
    rw [found] at view
    rw [← view]
    rfl
  | some result =>
    obtain ⟨sized,key,n⟩ := result
    rw [found] at view exact
    rw [← view]
    obtain ⟨_,_,_,limits,_⟩ := measured_refines ref found
    simp only [Option.map_some, Shard.itemSize, limits]
    split
    · rfl
    · rename_i small
      have evicted := evictedKeys_live work.order int overhead ref sound found exact
        (Int.not_lt.mp small)
      rw [Shard.itemSize, limits] at evicted
      exact evicted

theorem evictedBy_related (int : limits.int = int64) (overhead : 0 ≤ limits.itemOverheadBytes)
    (related : Related limits work.now s t) (exact : safe s work = true)
    (exact' : safe t work = true) : evictedBy s work = evictedBy t work := by
  have length := related_length related
  cases target : work.target s.shards.length with
  | none =>
    have target' := target
    rw [length] at target'
    simp only [evictedBy, active, target, target', Option.bind_none]
  | some i =>
    have target' := target
    rw [length] at target'
    cases here : s.shards[i]? with
    | none =>
      have past : t.shards[i]? = none := by
        rw [List.getElem?_eq_none_iff] at here ⊢
        omega
      simp only [evictedBy, active, target, target', here, past, Option.bind_some,
        Option.bind_none]
    | some a =>
      obtain ⟨inside,_⟩ := List.getElem?_eq_some_iff.mp here
      have there : t.shards[i]? = some t.shards[i] := List.getElem?_eq_getElem (length ▸ inside)
      obtain ⟨c,d,xs,ys,twin⟩ := related_at related here there
      rw [evictedBy_live int overhead target here twin.limited.1 twin.left twin.sound exact,
        evictedBy_live int overhead target' there twin.limited.2 twin.right twin.sound' exact',
        twin.same]

theorem related_evictions (related : Related limits now s t) :
    s.shards.map Shard.evictions = t.shards.map Shard.evictions := by
  rw [← List.forall₂_eq_eq_eq, List.forall₂_map_left_iff, List.forall₂_map_right_iff]
  refine related.shards.imp ?_
  rintro a b ⟨c,d,xs,ys,twin⟩
  have same := congrArg Cache.evictions twin.same
  rw [twin.left.evictions, twin.right.evictions]
  exact congrArg UInt64.ofNat same

/-- Everything that clients and operators see of two runs, except memory, items and
    expirations. -/
structure SameResults (xs ys : List StoreStep) (s t : Store) : Prop where
  outputs : xs.map Step.output = ys.map Step.output
  evicted : (xs.map fun x => evictedBy x.before x.input) =
    ys.map fun y => evictedBy y.before y.input
  evictions : s.shards.map Shard.evictions = t.shards.map Shard.evictions

/-- A section of the eager store as it begins. -/
def opened (x : StoreStep) : StoreStep :=
  { x with before := expire x.before x.input.now x.input.order }

theorem sections_run (sound : Sound limits s) (inputs : List Section)
    (fit : ∀ work ∈ inputs, Reaches s.shards.length work) :
    ∃ steps t, Run Store.step s steps t ∧ steps.map Step.input = inputs :=
  run_exists (Serves limits s.shards.length) (Reaches s.shards.length)
    (fun _ _ => section_returns) inputs s ⟨sound,rfl⟩ fit

theorem eager_sections_run (sound : Sound limits s) (inputs : List Section)
    (fit : ∀ work ∈ inputs, Reaches s.shards.length work) :
    ∃ steps t, Run eagerStep s steps t ∧ steps.map Step.input = inputs :=
  run_exists (Serves limits s.shards.length) (Reaches s.shards.length)
    (fun _ _ serves => section_returns (cleanupExpired_serves _ _ serves)) inputs s ⟨sound,rfl⟩ fit

theorem same_results {xs ys : List StoreStep} (int : limits.int = int64)
    (overhead : 0 ≤ limits.itemOverheadBytes)
    (pairs : List.Forall₂ (fun x y => Related limits x.input.now x.before y.before ∧
      x.input = y.input ∧ x.output = y.output) xs ys)
    (exact : ∀ x ∈ xs, safe x.before x.input = true)
    (exact' : ∀ y ∈ ys, safe y.before y.input = true) (related : Related limits now s t) :
    SameResults xs ys s t := by
  have both : List.Forall₂ (fun x y => x.output = y.output ∧
      evictedBy x.before x.input = evictedBy y.before y.input) xs ys := by
    clear related
    induction pairs with
    | nil => exact List.Forall₂.nil
    | @cons x y xs ys pair _ ih =>
      obtain ⟨before,input,output⟩ := pair
      have here := exact' y (by simp)
      rw [← input] at here
      refine List.Forall₂.cons ⟨output, ?_⟩ (ih (fun z mem => exact z (by simp [mem]))
        fun z mem => exact' z (by simp [mem]))
      rw [← input]
      exact evictedBy_related int overhead before (exact x (by simp)) here
  refine ⟨?_, ?_, related_evictions related⟩
  · rw [← List.forall₂_eq_eq_eq, List.forall₂_map_left_iff, List.forall₂_map_right_iff]
    exact both.imp fun _ _ pair => pair.1
  · rw [← List.forall₂_eq_eq_eq, List.forall₂_map_left_iff, List.forall₂_map_right_iff]
    exact both.imp fun _ _ pair => pair.2

theorem latest_reading (works : List Section) : ∃ now, ∀ work ∈ works, work.now ≤ now := by
  induction works with
  | nil => exact ⟨0, by simp⟩
  | cons work rest ih =>
    obtain ⟨now,bound⟩ := ih
    refine ⟨max work.now now, ?_⟩
    intro other mem
    rcases List.mem_cons.mp mem with rfl | old
    · exact Int.le_max_left _ _
    · exact (bound other old).trans (Int.le_max_right _ _)

section Transparent
variable {config : ShardModel.Config} {steps swept eager : List StoreStep} {last final : Store}

theorem swept_same_results (run : Run Store.step (Store.new int64 config) steps last)
    (run' : Run Store.step (Store.new int64 config) swept final)
    (inserted : (swept.map Step.input).filter keyed = steps.map Step.input)
    (clock : ((swept.map Step.input).map Section.now).Pairwise (· ≤ ·))
    (exact : ∀ x ∈ steps, safe x.before x.input = true)
    (exact' : ∀ x ∈ swept, safe x.before x.input = true) :
    SameResults (swept.filter fun x => keyed x.input) steps final last := by
  obtain ⟨_,_,overhead,_⟩ := normalize_positive config
  obtain ⟨pairs,related⟩ := run_stuttering (Related (shardLimits config)) Section.now keyed
    (fun s work => safe s work = true) (fun s work => safe s work = true)
    (fun _ _ _ _ => related_later) (new_related config)
    (fun _ _ _ _ _ related hidden _ => sweep_related overhead related hidden)
    (fun _ _ _ _ _ _ _ => step_related rfl overhead) run' steps last run inserted.symm
    (by rwa [List.map_map] at clock) exact' exact
  obtain ⟨now,bound⟩ := latest_reading (swept.map Step.input)
  refine same_results rfl overhead (pairs.imp fun x y pair =>
    ⟨pair.before,pair.input,pair.output⟩) ?_ exact
    (related now fun x mem => bound _ (List.mem_map_of_mem mem))
  intro x mem
  exact exact' x (List.mem_of_mem_filter mem)

theorem eager_same_results (run : Run Store.step (Store.new int64 config) steps last)
    (run' : Run eagerStep (Store.new int64 config) eager final)
    (same : eager.map Step.input = steps.map Step.input)
    (shown : ∀ x ∈ steps, keyed x.input = true)
    (clock : ((steps.map Step.input).map Section.now).Pairwise (· ≤ ·))
    (exact : ∀ x ∈ steps, safe x.before x.input = true)
    (exact' : ∀ x ∈ eager.map opened, safe x.before x.input = true) :
    SameResults (eager.map opened) steps final last := by
  obtain ⟨_,_,overhead,_⟩ := normalize_positive config
  have together : ∀ (s t : Store) (work : Section) (s' t' : Store) (reply reply' : Reply),
      Related (shardLimits config) work.now s t → true = true →
      safe (expire s work.now work.order) work = true →
      (keyed work = true ∧ safe t work = true) → eagerStep s work = some (s',reply) →
      t.step work = some (t',reply') →
      Related (shardLimits config) work.now s' t' ∧ reply = reply' := by
    intro s t work s' t' reply reply' related _ exact exact' taken taken'
    exact step_related rfl overhead (expire_related overhead work.order related) exact'.1 exact
      exact'.2 taken taken'
  obtain ⟨pairs,related⟩ := run_stuttering (Related (shardLimits config)) Section.now
    (fun _ => true) (fun s work => safe (expire s work.now work.order) work = true)
    (fun s work => keyed work = true ∧ safe s work = true)
    (fun _ _ _ _ => related_later) (new_related config) (by simp) together run' steps last run
    (by simpa using same.symm) (by rw [← same, List.map_map] at clock; exact clock)
    (fun x mem => exact' (opened x) (List.mem_map_of_mem mem))
    (fun x mem => ⟨shown x mem, exact x mem⟩)
  obtain ⟨now,bound⟩ := latest_reading (eager.map Step.input)
  refine same_results rfl overhead ?_ exact' exact
    (related now fun x mem => bound _ (List.mem_map_of_mem mem))
  rw [List.forall₂_map_left_iff]
  rw [List.filter_true] at pairs
  exact pairs.imp fun x y pair =>
    ⟨expire_related overhead _ pair.before, pair.input, pair.output⟩

end Transparent

/-- The sweep is transparent. Sweeps inserted anywhere into a run change no answer and no
    eviction, and the lazy store answers like the one that drops every item as it expires,
    in all runs whose sums stay below 2 ^ 63. -/
theorem sweeps_invisible (config : ShardModel.Config) {steps : List StoreStep} {last : Store}
    (run : Run Store.step (Store.new int64 config) steps last)
    (exact : ∀ x ∈ steps, safe x.before x.input = true) {inputs : List Section}
    (inserted : inputs.filter keyed = steps.map Step.input)
    (inside : ∀ work ∈ inputs, keyed work = false → work.shard < last.shards.length)
    (clock : (inputs.map Section.now).Pairwise (· ≤ ·)) :
    (∃ (swept : List StoreStep) (final : Store),
        Run Store.step (Store.new int64 config) swept final ∧ swept.map Step.input = inputs ∧
        ((∀ x ∈ swept, safe x.before x.input = true) →
          SameResults (swept.filter fun x => keyed x.input) steps final last)) ∧
      ∃ (eager : List StoreStep) (final : Store),
        Run eagerStep (Store.new int64 config) eager final ∧
        eager.map Step.input = steps.map Step.input ∧
        ((∀ x ∈ eager.map opened, safe x.before x.input = true) →
          SameResults (eager.map opened) steps final last) := by
  have sound := new_sound config
  have length := run_length run
  have targets : ∀ work ∈ steps.map Step.input,
      Reaches (Store.new int64 config).shards.length work := by
    intro work mem
    obtain ⟨x,mx,rfl⟩ := List.mem_map.mp mem
    exact run_targets run x mx
  constructor
  · have fit : ∀ work ∈ inputs, Reaches (Store.new int64 config).shards.length work := by
      intro work mem
      cases key : keyed work with
      | true => exact targets work (inserted ▸ List.mem_filter.mpr ⟨mem,key⟩)
      | false =>
        have call : work.call = .cleanupExpired := by simpa [keyed] using key
        exact ⟨work.shard, length ▸ inside work mem key, by simp [Section.target, call, Call.key]⟩
    obtain ⟨swept,final,run',rfl⟩ := sections_run sound inputs fit
    exact ⟨swept, final, run', rfl, swept_same_results run run' inserted clock exact⟩
  · have shown : ∀ x ∈ steps, keyed x.input = true := by
      intro x mem
      have member : x.input ∈ steps.map Step.input := List.mem_map_of_mem mem
      rw [← inserted] at member
      exact (List.mem_filter.mp member).2
    have ordered : ((steps.map Step.input).map Section.now).Pairwise (· ≤ ·) := by
      rw [← inserted]
      exact clock.sublist (List.filter_sublist.map _)
    obtain ⟨eager,final,run',same⟩ := eager_sections_run sound (steps.map Step.input) targets
    exact ⟨eager, final, run', same, eager_same_results run run' same shown ordered exact⟩

def sweptSections : List Section :=
  [⟨.set [97] [49] 5,0,1,.asListed⟩, ⟨.set [98] [50] 0,0,2,.asListed⟩,
    ⟨.cleanupExpired,0,10,.asListed⟩, ⟨.cleanupExpired,1,11,.asListed⟩,
    ⟨.get [97],0,12,.asListed⟩, ⟨.get [98],0,13,.asListed⟩]

theorem sweep_keeps_results : ∃ steps last swept final,
    Run Store.step (Store.new int64 ⟨10,40,5,2⟩) steps last ∧
      steps.map Step.output = [.wrote none, .wrote none, .found none, .found (some ⟨[50],2⟩)] ∧
      Run Store.step (Store.new int64 ⟨10,40,5,2⟩) swept final ∧
      swept.map Step.input = sweptSections ∧
      SameResults (swept.filter fun x => keyed x.input) steps final last := by
  have done : (exec Store.step (Store.new int64 ⟨10,40,5,2⟩) (sweptSections.filter keyed)).map
      (fun done => (done.1.map Step.output, done.2.shards.length,
        done.1.all fun x => safe x.before x.input)) =
      some ([.wrote none, .wrote none, .found none, .found (some ⟨[50],2⟩)], 2, true) := by decide
  obtain ⟨steps,last,run,inputs,values⟩ := exec_shows done
  simp only [Prod.mk.injEq, List.all_eq_true] at values
  obtain ⟨outputs,length,within⟩ := values
  obtain ⟨⟨swept,final,run',inputs',results⟩,_⟩ := sweeps_invisible ⟨10,40,5,2⟩ run within
    inputs.symm (by rw [length]; decide) (by decide)
  have within' : (exec Store.step (Store.new int64 ⟨10,40,5,2⟩) sweptSections).all
      (fun done => done.1.all fun x => safe x.before x.input) = true := by decide
  rw [← inputs', run_exec run', Option.all_some, List.all_eq_true] at within'
  exact ⟨steps, last, swept, final, run, outputs, run', inputs', results within'⟩

/-- Where sizes wrap, the sweep decides about an eviction: b answers only without it. -/
def wrappedSections : List Section :=
  [⟨.set [97] [] 5,0,1,.asListed⟩, ⟨.set [98] [] 0,0,2,.asListed⟩,
    ⟨.cleanupExpired,0,10,.asListed⟩,
    ⟨.set [99,99,99,99,99,99,99,99,99,99,99] [1,2,3,4,5,6,7,8,9,10] 0,0,11,.asListed⟩,
    ⟨.get [98],0,12,.asListed⟩]

theorem wrapped_sweep_evicts : hugeOverhead.validate = none ∧
    (wrappedSections.map Section.now).Pairwise (· ≤ ·) ∧
    ∃ (steps : List StoreStep) (last : Store) (swept : List StoreStep) (final : Store),
      Run Store.step (Store.new int64 hugeOverhead.store) steps last ∧
      Run Store.step (Store.new int64 hugeOverhead.store) swept final ∧
      steps.map Step.input = wrappedSections.filter keyed ∧
      swept.map Step.input = wrappedSections ∧
      steps.map Step.output =
        [.wrote none, .wrote none, .wrote none, .found (some ⟨[],2⟩)] ∧
      (swept.filter fun x => keyed x.input).map Step.output =
        [.wrote none, .wrote none, .wrote none, .found none] := by
  have plain : (exec Store.step (Store.new int64 hugeOverhead.store)
      (wrappedSections.filter keyed)).map (fun done => done.1.map Step.output) =
        some [.wrote none, .wrote none, .wrote none, .found (some ⟨[],2⟩)] := by decide
  have mixed : (exec Store.step (Store.new int64 hugeOverhead.store) wrappedSections).map
      (fun done => (done.1.filter fun x => keyed x.input).map Step.output) =
        some [.wrote none, .wrote none, .wrote none, .found none] := by decide
  obtain ⟨⟨steps,last⟩,eq,outputs⟩ := Option.map_eq_some_iff.mp plain
  obtain ⟨⟨swept,final⟩,eq',outputs'⟩ := Option.map_eq_some_iff.mp mixed
  obtain ⟨run,inputs⟩ := exec_run eq
  obtain ⟨run',inputs'⟩ := exec_run eq'
  exact ⟨by decide, by decide, steps, last, swept, final, run, run', inputs, inputs', outputs,
    outputs'⟩

end StoreSweep
