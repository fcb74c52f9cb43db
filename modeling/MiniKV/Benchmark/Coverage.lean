import MiniKV.Benchmark.Completion

/- The benchmark as a whole: in every phase that ends, each key of the workload has been
   called for once, by the worker whose slice it is in. -/
namespace BenchmarkCoverage
open MachineWord LruModel Decimal StepRuns Slices ProtocolModel ServerModel BenchmarkModel
  BenchmarkKeyspace BenchmarkSchedule BenchmarkCompletion

variable {b : Bench} {shown : List Shown} {run : Int} {phase : Phase} {w : Nat}

/-- What a history shows of the keys: who calls for which, and how often. -/
structure Exact (w : Workload) (shown : List Shown) : Prop where
  own : ∀ c ∈ calls shown, (c.worker : Int) < w.concurrency ∧
    (workerSlice w.keys w.concurrency c.worker).1 ≤ c.index ∧
    c.index < (workerSlice w.keys w.concurrency c.worker).2 ∧
    c.key = workloadKey w.keyPrefix c.run c.index
  once : ∀ phase key, ((calls shown).filter fun c => c.phase = phase ∧ c.key = key).length ≤ 1
  apart : ∀ c ∈ calls shown, ∀ d ∈ calls shown, c.key = d.key →
    c.run = d.run ∧ c.worker = d.worker
  complete : ∀ run phase latencies, Shown.merged run phase latencies ∈ shown →
    (latencies.length : Int) = w.keys ∧ ∀ i, 0 ≤ i → i < w.keys → ∃ worker,
      (calls shown).filter (fun c => c.phase = phase ∧ c.key = workloadKey w.keyPrefix run i) =
        [⟨run,phase,worker,i,workloadKey w.keyPrefix run i⟩]

theorem mem_callsOf {c : KeyCall} (mem : c ∈ calls shown) :
    c.index ∈ callsOf shown c.run c.phase c.worker :=
  List.mem_map_of_mem (List.mem_filter.mpr ⟨mem, by simp⟩)

theorem due_within (orderly : Orderly shown b) {i : Int} (mem : i ∈ due b run phase w) :
    w < b.clients.length ∧ InSlice (boundsOf b) w i := by
  unfold due at mem
  split at mem
  · split at mem
    · rename_i inside
      exact ⟨inside.2, Int.mem_range_iff.mp mem⟩
    · cases mem
  · split at mem
    · unfold progress at mem
      split at mem
      · rename_i x here
        obtain ⟨inside,_⟩ := List.getElem?_eq_some_iff.mp here
        obtain ⟨low,high⟩ := Int.mem_range_iff.mp mem
        have fits := orderly.fits w x here
        have few := orderly.spawned
        refine ⟨by omega, low, ?_⟩
        rw [← fits.stop]
        exact Int.lt_of_lt_of_le high fits.high
      · cases mem
    · cases mem

theorem call_placed (orderly : Orderly shown b) {c : KeyCall} (mem : c ∈ calls shown) :
    c.worker < b.clients.length ∧ InSlice (boundsOf b) c.worker c.index := by
  have held := mem_callsOf mem
  rw [orderly.called] at held
  exact due_within orderly held

/-- Two calls for one key are calls of one worker in one run. -/
theorem same_key (orderly : Orderly shown b) {c d : KeyCall} (left : c ∈ calls shown)
    (right : d ∈ calls shown) (same : c.key = d.key) :
    c.run = d.run ∧ c.index = d.index ∧ c.worker = d.worker := by
  rw [orderly.keyed c left, orderly.keyed d right] at same
  obtain ⟨runs,indices⟩ := workloadKey_inj same
  have inside := (call_placed orderly left).2
  rw [indices] at inside
  exact ⟨runs, indices, slice_unique (bounds_le orderly) inside (call_placed orderly right).2⟩

theorem callsOf_nodup (orderly : Orderly shown b) (run : Int) (phase : Phase) (w : Nat) :
    (callsOf shown run phase w).Nodup := by
  rw [orderly.called]
  unfold due
  split
  · split
    · exact range_nodup _ _
    · exact List.nodup_nil
  · split
    · unfold progress
      split
      · exact range_nodup _ _
      · exact List.nodup_nil
    · exact List.nodup_nil

theorem called_once (orderly : Orderly shown b) (phase : Phase) (key : Text) :
    ((calls shown).filter fun c => c.phase = phase ∧ c.key = key).length ≤ 1 := by
  cases found : (calls shown).filter fun c => c.phase = phase ∧ c.key = key with
  | nil => exact Nat.zero_le _
  | cons c rest =>
    rw [← found]
    have first : c ∈ (calls shown).filter fun c => c.phase = phase ∧ c.key = key := by
      rw [found]
      exact List.mem_cons_self
    obtain ⟨mem,own⟩ := List.mem_filter.mp first
    simp only [decide_eq_true_eq] at own
    -- All of them are calls of one worker for one index, and it calls for no index twice.
    have alike : ∀ d ∈ (calls shown).filter (fun c => c.phase = phase ∧ c.key = key),
        d.index = c.index ∧ d.run = c.run ∧ d.phase = phase ∧ d.worker = c.worker := by
      intro d held
      obtain ⟨also,other⟩ := List.mem_filter.mp held
      simp only [decide_eq_true_eq] at other
      obtain ⟨runs,indices,workers⟩ := same_key orderly also mem (other.2.trans own.2.symm)
      exact ⟨indices,runs,other.1,workers⟩
    have part : ((calls shown).filter fun c => c.phase = phase ∧ c.key = key).Sublist
        ((calls shown).filter fun d => d.run = c.run ∧ d.phase = phase ∧ d.worker = c.worker) :=
      filter_sublist_filter fun d held => decide_eq_true (alike d held).2
    have distinct := (part.map KeyCall.index).nodup (callsOf_nodup orderly c.run phase c.worker)
    have constant : ∀ i ∈ ((calls shown).filter fun c => c.phase = phase ∧ c.key = key).map
        KeyCall.index, i = c.index := by
      intro i held
      obtain ⟨d,kept,rfl⟩ := List.mem_map.mp held
      exact (alike d kept).1
    rw [List.eq_replicate_of_mem constant, List.nodup_replicate, List.length_map] at distinct
    exact distinct

theorem phase_complete (orderly : Orderly shown b) {latencies : List Duration}
    (shows : Shown.merged run phase latencies ∈ shown) {i : Int} (low : 0 ≤ i)
    (high : i < b.workload.keys) : ∃ worker,
      (calls shown).filter
          (fun c => c.phase = phase ∧ c.key = workloadKey b.workload.keyPrefix run i) =
        [⟨run,phase,worker,i,workloadKey b.workload.keyPrefix run i⟩] := by
  obtain ⟨sign,_,before⟩ := orderly.merged run phase latencies shows
  have first : boundsOf b 0 = 0 := sliceBound_first orderly.positive orderly.enough
  have last : boundsOf b b.clients.length = b.workload.keys := sliceBound_last orderly.positive
  obtain ⟨w,small,inside⟩ : ∃ w, w < b.clients.length ∧ InSlice (boundsOf b) w i :=
    slice_exists (by omega) (by omega)
  have held : i ∈ callsOf shown run phase w := by
    rw [orderly.called, due_past before, if_pos ⟨sign,small⟩]
    exact Int.mem_range_iff.mpr inside
  obtain ⟨c,kept,rfl⟩ := List.mem_map.mp held
  obtain ⟨mem,own⟩ := List.mem_filter.mp kept
  simp only [decide_eq_true_eq] at own
  obtain ⟨rfl,rfl,rfl⟩ := own
  have keyed := orderly.keyed c mem
  refine ⟨c.worker, ?_⟩
  rw [← keyed]
  have found : c ∈ (calls shown).filter fun d => d.phase = c.phase ∧ d.key = c.key :=
    List.mem_filter.mpr ⟨mem, by simp⟩
  obtain ⟨d,single⟩ := List.length_eq_one_iff.mp
    (Nat.le_antisymm (called_once orderly c.phase c.key) (List.length_pos_of_mem found))
  rw [single] at found ⊢
  rw [List.mem_singleton.mp found]

theorem orderly_exact {w : Workload} (orderly : Orderly shown b) (same : b.workload = w)
    (size : (b.clients.length : Int) = w.concurrency) : Exact w shown := by
  subst same
  have slices : ∀ n : Nat, workerSlice b.workload.keys b.workload.concurrency n =
      (boundsOf b n,boundsOf b (n + 1)) := by
    intro n
    rw [← size]
    exact workerSlice_bounds _ _ n
  constructor
  · intro c mem
    obtain ⟨small,low,high⟩ := call_placed orderly mem
    rw [slices]
    exact ⟨by omega, low, high, orderly.keyed c mem⟩
  · exact called_once orderly
  · intro c left d right same
    obtain ⟨runs,_,workers⟩ := same_key orderly left right same
    exact ⟨runs,workers⟩
  · intro run phase latencies shows
    exact ⟨(orderly.merged run phase latencies shows).2.1, fun i => phase_complete orderly shows⟩

/-- What every schedule of the workers does with the keys. It ends, unless the memory or a
    client stops it, and it fails only where a call fails. -/
structure Covers (maxAlloc : Nat) (w : Workload) (start : Bench) : Prop where
  exact : ∀ steps b, Run (Bench.step maxAlloc) start steps b → Exact w (steps.map Step.output)
  finished : ∀ steps b, Run (Bench.step maxAlloc) start steps b →
    ∀ result, b.returned = some (.ok result) → ∀ run phase, 0 ≤ run → run < w.runs →
      ∃ latencies, Shown.merged run phase latencies ∈ steps.map Step.output
  bounded : ∃ limit, ∀ steps b, Run (Bench.step maxAlloc) start steps b → steps.length ≤ limit
  goesOn : 24 * w.concurrency ≤ maxAlloc → 8 * w.keys ≤ maxAlloc →
    ∀ steps b, Run (Bench.step maxAlloc) start steps b → b.returned = none →
      ∃ event t out, b.step maxAlloc event = some (t,out)
  blame : ∀ steps b, Run (Bench.step maxAlloc) start steps b →
    (∀ x ∈ steps, ¬ Fails x.before x.input) → ∀ err, b.returned ≠ some (.error err)

theorem start_covers {maxAlloc : Nat} {dial : Nat → Except Text Text} {workload : Workload}
    {start : Bench} (positive : 1 ≤ workload.concurrency)
    (enough : workload.concurrency ≤ workload.keys)
    (started : Bench.start maxAlloc dial workload = some (.ok start)) :
    Covers maxAlloc (prepared workload) start := by
  obtain ⟨fresh,same,size,idle,running⟩ := start_orderly positive enough started
  constructor
  · intro steps b run
    obtain ⟨workload,clients⟩ := run_same run
    refine orderly_exact (orderly_run run fresh) (workload.trans same) ?_
    rw [clients]
    exact size
  · intro steps b run result ended r phase sign inside
    have orderly := orderly_run run fresh
    have whole := orderly.ended result ended
    rw [(run_same run).1, same] at whole
    refine orderly.past r phase sign ?_
    cases phase <;> cases b.phase <;> simp only [turn] <;> omega
  · refine ⟨cost start, ?_⟩
    intro steps b run
    have bound := run_bounded run fresh
    omega
  · intro several all steps b run waiting
    obtain ⟨workload,clients⟩ := run_same run
    have room : Roomy maxAlloc b := by
      have count : 24 * (start.clients.length : Int) ≤ maxAlloc := by
        rw [size]
        exact several
      rw [Roomy, workload, clients, same]
      exact ⟨by omega, all⟩
    exact goes_on (orderly_run run fresh) room waiting
  · intro steps b run succeeds
    have fine : Fine start := ⟨by simp [idle], by simp [running]⟩
    exact (fine_run run fine succeeds).returned

/-- The slices of the workers partition the keys, keys of different runs or indices differ,
    and so in every phase each key is called for once, by the worker that owns it. -/
theorem keyspace_partitioned (workload : Workload) (positive : 1 ≤ workload.concurrency)
    (enough : workload.concurrency ≤ workload.keys) :
    Partitions workload.keys workload.concurrency ∧
    (∀ keyPrefix run index run' index',
      workloadKey keyPrefix run index = workloadKey keyPrefix run' index' →
        run = run' ∧ index = index') ∧
    ∀ maxAlloc dial start, Bench.start maxAlloc dial workload = some (.ok start) →
      Covers maxAlloc (prepared workload) start :=
  ⟨workerSlice_partitions positive enough, fun _ _ _ _ _ => workloadKey_inj,
    fun _ _ _ started => start_covers positive enough started⟩

def sampleWorkload : Workload := ⟨1,3,1,[112],2⟩

def sampleStart : Bench where
  workload := sampleWorkload
  clients := [[99],[99]]
  payload := [120]
  run := 0
  phase := .write
  workers := []
  writes := []
  reads := []
  returned := none

/-- Two workers whose calls overlap in the first phase and do not in the second. -/
def sampleEvents : List Event :=
  [.spawn, .call 0, .spawn, .call 1, .answer 1 ⟨[],false,none⟩ 4, .answer 0 ⟨[],false,none⟩ 9,
    .call 0, .leave 1, .answer 0 ⟨[],false,none⟩ 2, .leave 0, .join,
    .spawn, .call 0, .answer 0 ⟨[120],true,none⟩ 1, .call 0, .answer 0 ⟨[120],true,none⟩ 1,
    .leave 0, .spawn, .call 1, .answer 1 ⟨[120],true,none⟩ 1, .leave 1, .join]

theorem sample_covered :
    Bench.start 1000 (fun _ => .ok [99]) sampleWorkload = some (.ok sampleStart) ∧
    Partitions 3 2 ∧ Covers 1000 (prepared sampleWorkload) sampleStart ∧
    ∃ steps b, Run (Bench.step 1000) sampleStart steps b ∧ steps.map Step.input = sampleEvents ∧
      b.returned = some (.ok ([99],[9,2,4],[1,1,1])) := by
  have started : Bench.start 1000 (fun _ => .ok [99]) sampleWorkload = some (.ok sampleStart) := rfl
  obtain ⟨partitions,_,covers⟩ := keyspace_partitioned sampleWorkload (by decide) (by decide)
  have done : (exec (Bench.step 1000) sampleStart sampleEvents).map (fun done => done.2.returned) =
      some (some (.ok ([99],[9,2,4],[1,1,1]))) := by decide
  obtain ⟨steps,b,run,inputs,returned⟩ := exec_shows done
  exact ⟨started, partitions, covers 1000 _ _ started, steps, b, run, inputs, returned⟩

end BenchmarkCoverage
