import MiniKV.Store.Eviction
import MiniKV.Store.Overflow

/- Every value that a write gives to its variable projected, against the value that
   unbounded integers would give. The twin of a shard is the shard with its wrapping
   arithmetic replaced; it runs the same definitions. -/
namespace StoreAccounting
open MachineWord KeyedList LruModel Decimal ShardModel CacheModel CacheEffects ShardRefinement
  ShardSimulation ShardEviction ShardInvariant StoreModel StoreFate StoreOverflow StepRuns

/-- All values of projected in a write of an item of this size: the first sum, the sum
    after the purge, the running values of the eviction and the sum after it. -/
def projections (sh : Shard) (now : Time) (order : RangeOrder) (key : Bytes) (size : Int) :
    List Int :=
  let first := sh.projected (oldSizeOf sh key) size
  if first > sh.limits.maxMemoryBytes then
    let purged := purgedFor sh now order
    let second := purged.projected (oldSizeOf purged key) size
    if second > purged.limits.maxMemoryBytes then
      first :: second :: ((evictTurns key (purged.items.keys.length + 1) purged second).map Prod.snd ++
        match purged.evictUntilFitsLocked key second with
        | some (fitted,_) => [fitted.projected (oldSizeOf fitted key) size]
        | none => [])
    else [first,second]
  else [first]

def plain (sh : Shard) : Shard := { sh with limits := { sh.limits with int := unbounded } }

variable {sh : Shard} {c : Cache} {xs : List Ptr} {key : Bytes} {now : Time} {size : Int}

def roomProjections (limits : Limits) (now : Time) (size : Int) (es : List Entry) : List Int :=
  let value := fun es => limits.int.wrap (total es + size)
  let live := alive now es
  if fits limits size es then [value es]
  else if fits limits size live then [value es, value live]
  else value es :: value live :: ((trimTurns (fits limits size) live).map (fun turn => value turn.2) ++
    [value (trimBack (fits limits size) live)])

theorem projections_refined (order : RangeOrder) (ref : Refines sh c xs)
    (live : Live now key c.entries) (reduced : sh.limits.int.wrap size = size)
    (small : size ≤ sh.limits.maxMemoryBytes) :
    projections sh now order key size =
      roomProjections sh.limits now size (others key c.entries) := by
  unfold projections roomProjections
  have first : sh.projected (oldSizeOf sh key) size =
      sh.limits.int.wrap (total (others key c.entries) + size) := projected_eq ref
  by_cases tight : sh.projected (oldSizeOf sh key) size > sh.limits.maxMemoryBytes
  · have excess := (over_iff ref).mp tight
    obtain ⟨d,ys,clean⟩ := purgedFor_runs order ref live
    generalize purgedFor sh now order = purged at clean ⊢
    have limits := clean.shrunk.limits
    have second : purged.projected (oldSizeOf purged key) size =
        purged.limits.int.wrap (total (others key d.entries) + size) := projected_eq clean.refined
    rw [limits, clean.left] at second
    simp only [if_pos tight, excess, Bool.false_eq_true, if_false]
    by_cases still : purged.projected (oldSizeOf purged key) size > purged.limits.maxMemoryBytes
    · have more := (purged_over clean).mp still
      rw [clean.left] at more
      obtain ⟨ready,e,zs,run,made⟩ := evict_stage ref clean excess reduced small
      have third : ready.projected (oldSizeOf ready key) size =
          ready.limits.int.wrap (total (others key e.entries) + size) := projected_eq made.refined
      have room : (makeRoom sh.limits now size (others key c.entries)).kept =
          trimBack (fits sh.limits size) (alive now (others key c.entries)) := by
        simp [makeRoom, excess]
      rw [made.shrunk.limits, made.kept, room] at third
      have turns := evictTurns_refined key (limits ▸ reduced) (limits ▸ small)
        (purged.items.keys.length + 1) clean.refined (others_below clean.refined)
      rw [← projected_eq clean.refined, limits, clean.left] at turns
      simp only [if_pos still, more, Bool.false_eq_true, if_false, run]
      rw [turns, first, second, third, List.map_map]
      rfl
    · have enough : fits sh.limits size (alive now (others key c.entries)) = true := by
        have := mt (purged_over clean).mpr still
        rw [clean.left] at this
        simpa using this
      simp only [if_neg still, enough, if_true]
      rw [first, second]
  · have room : fits sh.limits size (others key c.entries) = true := by
      simpa using mt (over_iff ref).mpr tight
    simp only [if_neg tight, room, if_true]
    rw [first]

theorem projections_head (sh : Shard) (now : Time) (order : RangeOrder) (key : Bytes)
    (size : Int) : ∃ rest, projections sh now order key size =
      sh.projected (oldSizeOf sh key) size :: rest := by
  unfold projections
  by_cases tight : sh.projected (oldSizeOf sh key) size > sh.limits.maxMemoryBytes
  · rw [if_pos tight]
    generalize purgedFor sh now order = purged
    dsimp only
    split <;> exact ⟨_,rfl⟩
  · rw [if_neg tight]
    exact ⟨_,rfl⟩

/-- Below 2 ^ 63 the machine and the unbounded integers make the same room. -/
theorem roomProjections_exact {limits : Limits} {es : List Entry} (int : limits.int = int64)
    (sizes : ∀ e ∈ es, 0 ≤ e.size) (positive : 0 ≤ size) (range : total es + size < 2 ^ 63) :
    roomProjections limits now size es =
      roomProjections { limits with int := unbounded } now size es := by
  have value : ∀ fs, fs.Sublist es → limits.int.wrap (total fs + size) = total fs + size := by
    intro fs sub
    have less := total_sublist sizes sub
    have nonneg := total_nonneg fun e me => sizes e (sub.subset me)
    rw [int]
    exact int64_exact ⟨by omega, by omega⟩
  have same : ∀ fs, fs.Sublist es →
      fits limits size fs = fits { limits with int := unbounded } size fs := by
    intro fs sub
    rw [fits, fits, value fs sub, unbounded_wrap]
  have liveSub : (alive now es).Sublist es := List.filter_sublist
  have initial : ∀ ys, ys <+: alive now es →
      fits limits size ys = fits { limits with int := unbounded } size ys :=
    fun ys pre => same ys (pre.sublist.trans liveSub)
  obtain ⟨back,steps⟩ := trim_congr initial
  have turns : (trimTurns (fits { limits with int := unbounded } size) (alive now es)).map
        (fun turn => limits.int.wrap (total turn.2 + size)) =
      (trimTurns (fits { limits with int := unbounded } size) (alive now es)).map
        fun turn => total turn.2 + size := by
    apply List.map_congr_left
    intro turn mem
    exact value turn.2 ((trimTurns_initial _ _ turn mem).sublist.trans liveSub)
  have last := value _ ((trimBack_sublist (fits { limits with int := unbounded } size)
    (alive now es)).trans liveSub)
  simp only [roomProjections, same es (List.Sublist.refl es), same (alive now es) liveSub, back,
    steps, turns, last, value es (List.Sublist.refl es), value (alive now es) liveSub,
    unbounded_wrap]

theorem plain_refines (int : sh.limits.int = int64) (overhead : 0 ≤ sh.limits.itemOverheadBytes)
    (ref : Refines sh c xs) (sound : Accounted sh.limits c.entries) : Refines (plain sh) c xs := by
  have memory : sh.memoryBytes = total c.entries := accounted_memory int overhead ref sound
  exact ⟨ref.listed, ref.mapped, ref.allocated, ref.entries, memory, ref.ttl, ref.evictions,
    ref.expirations⟩

/-- The size of the item and every value of projected are those of unbounded integers. -/
def ExactWrite (sized : Shard) (now : Time) (order : RangeOrder) (key : Bytes) (n : Nat) : Prop :=
  sized.itemSize key n = (plain sized).itemSize key n ∧
    (sized.itemSize key n ≤ sized.limits.maxMemoryBytes →
      projections sized now order key (sized.itemSize key n) =
        projections (plain sized) now order key ((plain sized).itemSize key n))

theorem plain_itemSize (sh : Shard) (key : Bytes) (n : Nat) :
    (plain sh).itemSize key n = plainSize sh key n := rfl

/-- A write is exact if and only if its two sums stay below 2 ^ 63. -/
theorem exactWrite_iff {n : Nat} (order : RangeOrder) (int : sh.limits.int = int64)
    (overhead : 0 ≤ sh.limits.itemOverheadBytes) (ref : Refines sh c xs)
    (live : Live now key c.entries) (sound : Accounted sh.limits c.entries) :
    ExactWrite sh now order key n ↔ bounded sh key n = true := by
  have rest := accounted_sublist overhead sound (without_sublist Entry.key key c.entries)
  have sizes := accounted_sizes overhead rest
  have nonneg : 0 ≤ total (others key c.entries) := total_nonneg sizes
  have twin := plain_refines int overhead ref sound
  rw [bounded_iff int overhead ref sound]
  constructor
  · rintro ⟨alone,sums⟩
    rw [plain_itemSize] at alone sums
    have small : plainSize sh key n < 2 ^ 63 := by
      rw [← alone, Shard.itemSize, Limits.itemSize, int]
      exact (int64_in_range _).2
    refine ⟨small, fun within => ?_⟩
    have equal := sums (by rw [alone]; exact within)
    obtain ⟨_,first⟩ := projections_head sh now order key (sh.itemSize key n)
    obtain ⟨_,second⟩ := projections_head (plain sh) now order key (plainSize sh key n)
    rw [first, second, List.cons.injEq, projected_eq ref, int, alone] at equal
    have exact : int64.wrap (total (others key c.entries) + plainSize sh key n) =
        total (others key c.entries) + plainSize sh key n := by
      have ideal : (plain sh).projected (oldSizeOf (plain sh) key) (plainSize sh key n) =
          total (others key c.entries) + plainSize sh key n := projected_eq twin
      rw [equal.1, ideal]
    exact ((int64_exact_iff _).mp exact).2
  · rintro ⟨small,sum⟩
    have alone : sh.itemSize key n = plainSize sh key n := itemSize_exact int overhead small
    refine ⟨alone, fun within => ?_⟩
    rw [alone] at within
    have positive : 0 ≤ plainSize sh key n := by
      unfold plainSize
      omega
    have reduced : sh.limits.int.wrap (plainSize sh key n) = plainSize sh key n := by
      rw [← alone]
      exact itemSize_reduced sh.limits key n
    rw [plain_itemSize, alone, projections_refined order ref live reduced within,
      projections_refined order twin live rfl within]
    exact roomProjections_exact int sizes positive (sum within)

def ExactStep (x : StoreStep) : Prop :=
  ∀ sh sized key n, active x.before x.input = some sh →
    measured sh x.input.now x.input.call = some (sized,key,n) →
    ExactWrite sized x.input.now x.input.order key n

def NonNegative (s : Store) : Prop :=
  ∀ sh ∈ s.shards, 0 ≤ sh.memoryBytes ∧ ∀ key e, sh.peek key = some e → 0 ≤ e.size

variable {limits : Limits} {s : Store} {x : StoreStep}

theorem books_nonnegative (int : limits.int = int64) (overhead : 0 ≤ limits.itemOverheadBytes)
    (books : Books limits s) : NonNegative s := by
  intro sh mem
  obtain ⟨rfl,c,xs,ref,sound⟩ := books sh mem
  have sizes := accounted_sizes overhead sound
  rw [accounted_memory int overhead ref sound]
  refine ⟨total_nonneg sizes, ?_⟩
  intro key e held
  rw [peek_refined ref] at held
  exact sizes e (find_some held).1

theorem exactStep_iff (int : limits.int = int64) (overhead : 0 ≤ limits.itemOverheadBytes)
    (books : Books limits x.before) : ExactStep x ↔ safe x.before x.input = true := by
  unfold ExactStep safe
  cases here : active x.before x.input with
  | none => simp
  | some sh =>
    have mem : sh ∈ x.before.shards := by
      simp only [active, Option.bind_eq_some_iff] at here
      obtain ⟨i,_,found⟩ := here
      exact List.mem_of_getElem? found
    obtain ⟨rfl,c,xs,ref,sound⟩ := books sh mem
    cases found : measured sh x.input.now x.input.call with
    | none =>
      simp only [Option.bind_some, found, iff_true]
      rintro other sized key n same found'
      obtain rfl := Option.some.inj same
      rw [found] at found'
      cases found'
    | some write =>
      obtain ⟨sized,key,n⟩ := write
      obtain ⟨d,ys,refined,same,_,sub,live,_⟩ := measured_refines ref found
      have small := accounted_sublist overhead sound sub
      rw [← same] at int overhead small
      have single := exactWrite_iff (n := n) x.input.order int overhead refined live small
      simp only [Option.bind_some, found, ← single, Option.some.injEq]
      constructor
      · intro all
        exact all sh sized key n rfl found
      · rintro one other sized' key' n' rfl found'
        rw [found] at found'
        simp only [Option.some.injEq, Prod.mk.injEq] at found'
        obtain ⟨rfl,rfl,rfl⟩ := found'
        exact one

theorem exact_steps_safe {config : ShardModel.Config} {steps : List StoreStep} {last : Store}
    (run : Run Store.step (Store.new int64 config) steps last)
    (exact : ∀ x ∈ steps, ExactStep x) : ∀ x ∈ steps, safe x.before x.input = true := by
  obtain ⟨_,_,overhead,_⟩ := normalize_positive config
  refine run_invariant (fun steps _ => (∀ x ∈ steps, ExactStep x) →
    ∀ x ∈ steps, safe x.before x.input = true) (by simp) ?_ run exact
  intro steps s work t reply prior ih taken exact x mem
  have before := ih fun y my => exact y (by simp [my])
  rcases List.mem_append.mp mem with old | new
  · exact before x old
  · obtain rfl := List.mem_singleton.mp new
    exact (exactStep_iff rfl overhead (run_books prior before)).mp (exact _ mem)

/-- The accounting of a run is exact in every step, and no size or total it leaves is
    negative, if and only if the sums of every step stay below 2 ^ 63. -/
theorem accounting_exact_iff_safe (config : ConfigModel.Config) {steps : List StoreStep}
    {last : Store} (run : Run Store.step (Store.new int64 config.store) steps last) :
    (∀ x ∈ steps, ExactStep x ∧ NonNegative x.after) ↔
      ∀ x ∈ steps, safe x.before x.input = true := by
  obtain ⟨_,_,overhead,_⟩ := normalize_positive config.store
  constructor
  · intro exact
    exact exact_steps_safe run fun x mem => (exact x mem).1
  · intro within x mem
    obtain ⟨books,taken⟩ := run_books_at run within mem
    have here := within x mem
    exact ⟨(exactStep_iff rfl overhead books).mpr here,
      books_nonnegative rfl overhead (step_books rfl overhead books here taken)⟩

theorem default_accounting_exact : ∃ steps last,
    Run Store.step (Store.new int64 ConfigModel.Config.default.store) steps last ∧
      steps.map Step.input = [⟨.set [97] [49] 0,0,1,.asListed⟩, ⟨.set [98] [50] 5,0,2,.asListed⟩,
        ⟨.cas [97] [51,52] 0 1,0,3,.asListed⟩] ∧
      ∀ x ∈ steps, ExactStep x ∧ NonNegative x.after := by
  have done : (exec Store.step (Store.new int64 ConfigModel.Config.default.store)
      [⟨.set [97] [49] 0,0,1,.asListed⟩, ⟨.set [98] [50] 5,0,2,.asListed⟩,
        ⟨.cas [97] [51,52] 0 1,0,3,.asListed⟩]).map
      (fun done => done.1.all fun x => safe x.before x.input) = some true := by decide
  obtain ⟨steps,last,run,inputs,within⟩ := exec_shows done
  have all : ∀ x ∈ steps, safe x.before x.input = true := by simpa using within
  exact ⟨steps, last, run, inputs,
    (accounting_exact_iff_safe ConfigModel.Config.default run).mpr all⟩

theorem huge_overhead_wraps : hugeOverhead.validate = none ∧ ∃ steps last,
    Run Store.step (Store.new int64 hugeOverhead.store) steps last ∧
      steps.map Step.input = [⟨.set [97] [49] 0,0,1,.asListed⟩] ∧
      steps.map Step.output = [.wrote none] ∧
      last.shards.map Shard.memoryBytes = [-9223372036854775807] ∧
      ¬ ∀ x ∈ steps, ExactStep x ∧ NonNegative x.after := by
  refine ⟨by decide, ?_⟩
  have done : (exec Store.step (Store.new int64 hugeOverhead.store)
      [⟨.set [97] [49] 0,0,1,.asListed⟩]).map (fun done => (done.1.map Step.output,
        done.2.shards.map Shard.memoryBytes)) = some ([.wrote none],[-9223372036854775807]) := by
    decide
  obtain ⟨steps,last,run,inputs,values⟩ := exec_shows done
  simp only [Prod.mk.injEq] at values
  refine ⟨steps, last, run, inputs, values.1, values.2, ?_⟩
  intro exact
  cases run with
  | nil => simp at inputs
  | @snoc steps s t work reply prior taken =>
    have nonneg := (exact ⟨s,work,reply,last⟩ (by simp)).2
    obtain ⟨sh,mem,negative⟩ : ∃ sh ∈ last.shards, sh.memoryBytes = -9223372036854775807 := by
      have member : (-9223372036854775807 : Int) ∈ last.shards.map Shard.memoryBytes := by
        rw [values.2]
        exact List.mem_singleton.mpr rfl
      exact List.mem_map.mp member
    have claim := (nonneg sh mem).1
    omega

end StoreAccounting
