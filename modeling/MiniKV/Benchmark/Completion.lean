import MiniKV.Benchmark.Schedule
import MiniKV.Lib.Partition

/- No schedule goes on for ever or gets stuck: every step lowers what is left to do, and
   where Run has not returned there is a step. Only a call that fails makes it fail. -/
namespace BenchmarkCompletion
open MachineWord LruModel Decimal StepRuns Slices Partition ProtocolModel ServerModel
  BenchmarkModel BenchmarkKeyspace BenchmarkSchedule

/-- The steps that a worker has ahead of it. -/
def work (x : Worker) : Nat :=
  match x.stage with
  | .looping => 2 * (x.stop - x.i).toNat + 1
  | .calling => 2 * (x.stop - x.i).toNat
  | .returned _ => 0

/-- The steps of the workers that have not been started. -/
def ahead (b : Bench) : Nat :=
  2 * (b.workload.keys - boundsOf b b.workers.length).toNat +
    2 * (b.clients.length - b.workers.length)

/-- What is left of the present phase but for its join. -/
def phaseLeft (b : Bench) : Nat := ahead b + (b.workers.map work).sum

def phaseCost (b : Bench) : Nat := 2 * b.workload.keys.toNat + 2 * b.clients.length + 1

def cost (b : Bench) : Nat :=
  (2 * b.workload.runs - turn b.run b.phase).toNat * phaseCost b + phaseLeft b +
    if b.returned = none then 1 else 0

/-- The slices of a phase can be made. -/
def Roomy (maxAlloc : Nat) (b : Bench) : Prop :=
  24 * b.clients.length ≤ maxAlloc ∧ 8 * b.workload.keys ≤ maxAlloc

/-- Nothing has failed so far. -/
structure Fine (b : Bench) : Prop where
  workers : ∀ x ∈ b.workers, ∀ err, x.stage ≠ .returned (.error err)
  returned : ∀ err, b.returned ≠ some (.error err)

variable {maxAlloc w : Nat} {b t start : Bench} {event : Event} {out : Shown} {x y : Worker}
  {shown : List Shown} {workers : List Worker} {steps : List (Step Bench Event Shown)}

theorem work_moves (high : reached x ≤ x.stop) (moves : WorkerMove x y) : work y < work x := by
  cases moves with
  | timed now elapsed =>
    have next : x.i + 1 ≤ x.stop := by rwa [reached, now] at high
    simp only [work, now]
    omega
  | failed now err =>
    have next : x.i + 1 ≤ x.stop := by rwa [reached, now] at high
    simp only [work, now]
    omega
  | left now spent =>
    simp only [work, now]
    omega

theorem cost_workers (less : phaseLeft { b with workers := workers } < phaseLeft b) :
    cost { b with workers := workers } < cost b :=
  Nat.add_lt_add_right (Nat.add_lt_add_left less _) _

theorem cost_put (here : b.workers[w]? = some x) (less : work y < work x) :
    cost (b.put w y) < cost b := by
  obtain ⟨rest,before,after⟩ := sum_at (f := work) here
  have size : (b.workers.set w y).length = b.workers.length := List.length_set
  have same : ahead { b with workers := b.workers.set w y } = ahead b := by
    rw [ahead, size]
    rfl
  apply cost_workers
  rw [phaseLeft, phaseLeft, same, before]
  have sum := after y
  dsimp only
  omega

theorem cost_spawned (orderly : Orderly shown b) (room : b.workers.length < b.clients.length) :
    cost { b with workers := b.workers ++
      [⟨(workerSlice b.workload.keys b.clients.length b.workers.length).1,
        (workerSlice b.workload.keys b.clients.length b.workers.length).2,[],.looping⟩] } <
      cost b := by
  have last : boundsOf b b.clients.length = b.workload.keys := sliceBound_last orderly.positive
  have wide : boundsOf b b.workers.length ≤ boundsOf b (b.workers.length + 1) :=
    bounds_le orderly (Nat.le_succ _)
  have within : boundsOf b (b.workers.length + 1) ≤ boundsOf b b.clients.length :=
    bounds_le orderly room
  have own : work ⟨boundsOf b b.workers.length,boundsOf b (b.workers.length + 1),[],.looping⟩ =
      2 * (boundsOf b (b.workers.length + 1) - boundsOf b b.workers.length).toNat + 1 := rfl
  rw [workerSlice_bounds]
  apply cost_workers
  have fewer : ahead { b with workers := b.workers ++
      [⟨boundsOf b b.workers.length,boundsOf b (b.workers.length + 1),[],.looping⟩] } =
      2 * (b.workload.keys - boundsOf b (b.workers.length + 1)).toNat +
        2 * (b.clients.length - (b.workers.length + 1)) := by
    rw [ahead, List.length_append, List.length_singleton]
    rfl
  rw [phaseLeft, phaseLeft, List.map_append, List.sum_append, List.map_singleton,
    List.sum_singleton]
  change ahead { b with workers := b.workers ++
    [⟨boundsOf b b.workers.length,boundsOf b (b.workers.length + 1),[],.looping⟩] } +
      ((b.workers.map work).sum +
        work ⟨boundsOf b b.workers.length,boundsOf b (b.workers.length + 1),[],.looping⟩) < _
  rw [fewer, own, ahead]
  omega

theorem cost_joined (orderly : Orderly shown b) (running : b.returned = none)
    (merged : List Duration) : cost (b.next merged) < cost b := by
  obtain ⟨workload,clients,emptied,turned⟩ := next_same b merged
  have going := orderly.running running
  have first : boundsOf b 0 = 0 := sliceBound_first orderly.positive orderly.enough
  have bounds : boundsOf (b.next merged) = boundsOf b := by
    rw [boundsOf, boundsOf, workload, clients]
  have whole : phaseLeft (b.next merged) + 1 = phaseCost b := by
    simp only [phaseLeft, ahead, phaseCost, workload, clients, emptied, bounds, List.length_nil, first,
      List.map_nil, List.sum_nil]
    omega
  have each : phaseCost (b.next merged) = phaseCost b := by
    rw [phaseCost, phaseCost, workload, clients]
  have before : turn b.run b.phase < 2 * b.workload.runs := by
    cases b.phase <;> simp only [turn] <;> omega
  have one : (2 * b.workload.runs - turn b.run b.phase).toNat =
      (2 * b.workload.runs - (turn b.run b.phase + 1)).toNat + 1 := by omega
  have last : (if (b.next merged).returned = none then 1 else 0) ≤ 1 := by split <;> omega
  rw [cost, cost, workload, turned, each, one, Nat.succ_mul, if_pos running]
  omega

/-- Every step is one less to go. -/
theorem cost_step (orderly : Orderly shown b) (taken : b.step maxAlloc event = some (t,out)) :
    cost t < cost b := by
  obtain ⟨running,move⟩ := step_moves taken
  cases move with
  | spawned room => exact cost_spawned orderly room
  | called here looping inside =>
    refine cost_put here ?_
    simp only [work, looping]
    omega
  | worked here moves _ => exact cost_put here (work_moves (orderly.fits _ _ here).high moves)
  | failed _ _ =>
    rw [cost, cost, if_pos running]
    exact Nat.lt_succ_self _
  | joined all waited ok => exact cost_joined orderly running _

theorem run_bounded (run : Run (Bench.step maxAlloc) start steps b) (orderly : Orderly [] start) :
    steps.length + cost b ≤ cost start := by
  induction run with
  | nil => simp
  | snoc prior taken ih =>
    have lower := cost_step (orderly_run prior orderly) taken
    rw [List.length_append, List.length_singleton]
    omega

theorem makes_of_le {size : Nat} {capacity : Int} (sign : 0 ≤ capacity)
    (room : size * capacity ≤ maxAlloc) : makes maxAlloc size capacity = true :=
  decide_eq_true ⟨sign,room⟩

theorem spawn_goes (orderly : Orderly shown b) (room : Roomy maxAlloc b)
    (free : b.workers.length < b.clients.length) : ∃ t, b.spawn maxAlloc = some t := by
  have first : boundsOf b 0 = 0 := sliceBound_first orderly.positive orderly.enough
  have last : boundsOf b b.clients.length = b.workload.keys := sliceBound_last orderly.positive
  have low : boundsOf b 0 ≤ boundsOf b b.workers.length :=
    bounds_le orderly (Nat.zero_le _)
  have wide : boundsOf b b.workers.length ≤ boundsOf b (b.workers.length + 1) :=
    bounds_le orderly (Nat.le_succ _)
  have within : boundsOf b (b.workers.length + 1) ≤ boundsOf b b.clients.length :=
    bounds_le orderly free
  obtain ⟨several,all⟩ := room
  have slices : makes maxAlloc 24 b.clients.length = true :=
    makes_of_le (by omega) (by push_cast; omega)
  have errs : makes maxAlloc 16 b.clients.length = true :=
    makes_of_le (by omega) (by push_cast; omega)
  have own : makes maxAlloc 8
      (boundsOf b (b.workers.length + 1) - boundsOf b b.workers.length) = true :=
    makes_of_le (by omega) (by push_cast; omega)
  unfold Bench.spawn
  rw [if_pos free, workerSlice_bounds]
  dsimp only
  change ∃ t, (if (makes maxAlloc 24 b.clients.length && makes maxAlloc 16 b.clients.length &&
    makes maxAlloc 8 (boundsOf b (b.workers.length + 1) - boundsOf b b.workers.length)) = true
      then _ else none) = some t
  rw [slices, errs, own]
  exact ⟨_,rfl⟩

theorem waitAll_goes (done : ∀ x ∈ workers, ∃ result, x.stage = .returned result) :
    ∃ results, waitAll workers = some results := by
  induction workers with
  | nil => exact ⟨[],rfl⟩
  | cons x rest ih =>
    obtain ⟨result,stage⟩ := done x (by simp)
    obtain ⟨results,waited⟩ := ih fun y mem => done y (by simp [mem])
    exact ⟨result :: results, by rw [waitAll, stage, waited]; rfl⟩

theorem join_goes (room : Roomy maxAlloc b) (sign : 0 ≤ b.workload.keys)
    (all : b.workers.length = b.clients.length)
    (done : ∀ x ∈ b.workers, ∃ result, x.stage = .returned result) :
    ∃ t out, b.join maxAlloc = some (t,out) := by
  obtain ⟨results,waited⟩ := waitAll_goes done
  have slice : makes maxAlloc 8 b.workload.keys = true := makes_of_le sign room.2
  unfold Bench.join
  rw [if_pos all, waited]
  dsimp only
  cases mergeResults results with
  | error err => exact ⟨_,_,rfl⟩
  | ok merged =>
    dsimp only
    rw [if_pos slice]
    exact ⟨_,_,rfl⟩

theorem worker_goes (running : b.returned = none) (here : b.workers[w]? = some x)
    (busy : ¬ ∃ result, x.stage = .returned result) :
    ∃ event t out, b.step maxAlloc event = some (t,out) := by
  cases stage : x.stage with
  | looping =>
    by_cases inside : x.i < x.stop
    · obtain ⟨done,called⟩ : ∃ done, b.call w x = some done := by
        rw [Bench.call, if_pos ⟨stage,inside⟩]
        exact ⟨_,rfl⟩
      exact ⟨.call w, done.1, .called done.2, by simp [Bench.step, running, here, called]⟩
    · obtain ⟨t,left⟩ : ∃ t, b.leave w x = some t := by
        rw [Bench.leave, if_pos ⟨stage,inside⟩]
        exact ⟨_,rfl⟩
      exact ⟨.leave w, t, .nothing, by simp [Bench.step, running, here, left]⟩
  | calling =>
    obtain ⟨t,done⟩ : ∃ t, b.answer w x ⟨[],true,none⟩ 0 = some t := by
      rw [Bench.answer, if_pos stage]
      split <;> exact ⟨_,rfl⟩
    exact ⟨.answer w ⟨[],true,none⟩ 0, t, .nothing, by simp [Bench.step, running, here, done]⟩
  | returned result => exact absurd ⟨result,stage⟩ busy

/-- Where Run has not returned, the main goroutine or a worker can take a step; a worker
    in a call takes it when the client answers. -/
theorem goes_on (orderly : Orderly shown b) (room : Roomy maxAlloc b)
    (running : b.returned = none) : ∃ event t out, b.step maxAlloc event = some (t,out) := by
  by_cases free : b.workers.length < b.clients.length
  · obtain ⟨t,done⟩ := spawn_goes orderly room free
    exact ⟨.spawn, t, .nothing, by simp [Bench.step, running, done]⟩
  · have positive := orderly.positive
    have enough := orderly.enough
    have few := orderly.spawned
    by_cases all : ∀ x ∈ b.workers, ∃ result, x.stage = .returned result
    · obtain ⟨t,out,done⟩ := join_goes room (by omega) (by omega) all
      exact ⟨.join, t, out, by simp [Bench.step, running, done]⟩
    · simp only [not_forall] at all
      obtain ⟨x,mem,busy⟩ := all
      obtain ⟨w,here⟩ := List.mem_iff_getElem?.mp mem
      exact worker_goes running here busy

theorem fine_put (fine : Fine b) (good : ∀ err, y.stage ≠ .returned (.error err)) :
    Fine (b.put w y) := by
  refine ⟨?_, fine.returned⟩
  intro x mem
  rcases List.mem_or_eq_of_mem_set mem with old | rfl
  · exact fine.workers x old
  · exact good

theorem merge_fine (fine : ∀ x ∈ workers, ∀ err, x.stage ≠ .returned (.error err))
    {results : List (Except PhaseError (List Duration))}
    (waited : waitAll workers = some results) : ∀ err, mergeResults results ≠ .error err := by
  intro err failed
  have held := List.mem_map_of_mem (f := Stage.returned) (mergeResults_error failed)
  rw [← waitAll_stages waited] at held
  obtain ⟨x,mem,stage⟩ := List.mem_map.mp held
  exact fine x mem err stage

theorem next_fine (fine : Fine b) (merged : List Duration) : Fine (b.next merged) := by
  unfold Bench.next
  cases b.phase with
  | write => exact ⟨by simp, fine.returned⟩
  | read =>
    dsimp only
    split
    · exact ⟨by simp, fine.returned⟩
    · exact ⟨by simp, by simp⟩

theorem fine_step (fine : Fine b) (taken : b.step maxAlloc event = some (t,out))
    (succeeds : ¬ Fails b event) : Fine t := by
  cases (step_moves taken).2 with
  | spawned room =>
    refine ⟨?_, fine.returned⟩
    intro x mem
    rcases List.mem_append.mp mem with old | new
    · exact fine.workers x old
    · rw [List.mem_singleton.mp new]
      simp
  | called here looping inside => exact fine_put fine (by simp)
  | worked here moves blame => exact fine_put fine fun err failed => succeeds (blame err failed)
  | failed waited broken => exact absurd broken (merge_fine fine.workers waited _)
  | joined all waited ok => exact next_fine fine _

theorem fine_run (run : Run (Bench.step maxAlloc) start steps b) (fine : Fine start)
    (succeeds : ∀ x ∈ steps, ¬ Fails x.before x.input) : Fine b :=
  (run_keeps Fine (fun x => ¬ Fails x.before x.input) (fun _ => True)
    (fun _ before taken good => ⟨fine_step before taken good,trivial⟩) run fine succeeds).1

end BenchmarkCompletion
