import MiniKV.Benchmark.Schedule
import MiniKV.Benchmark.Stats

/- What Run reports: for each phase the summary of exactly the times that were measured in
   it, however the workers took turns. -/
namespace BenchmarkReport
open MachineWord LruModel Decimal StepRuns ProtocolModel ServerModel BenchmarkModel
  BenchmarkKeyspace BenchmarkSchedule BenchmarkStats

/-- The time that a step measures; a call that fails leaves none. -/
def gained (b : Bench) (phase : Phase) : Event → Option Duration
  | .answer _ a elapsed =>
    if b.phase = phase ∧ a.failure b.payload b.phase = none then some elapsed else none
  | _ => none

def measured (phase : Phase) (steps : List (Step Bench Event Shown)) : List Duration :=
  steps.filterMap fun x => gained x.before phase x.input

def kept (b : Bench) : Phase → List Duration
  | .write => b.writes
  | .read => b.reads

/-- The times of a phase that Run or its workers hold. -/
def held (b : Bench) (phase : Phase) : List Duration :=
  kept b phase ++
    if b.phase = phase then (b.workers.map Worker.latencies).flatten else []

variable {maxAlloc w : Nat} {b t start : Bench} {event : Event} {out : Shown} {x y : Worker}
  {workers : List Worker} {shown : List Shown} {steps : List (Step Bench Event Shown)}

theorem latencies_set {more : List Duration} (here : workers[w]? = some x)
    (added : y.latencies = x.latencies ++ more) :
    (((workers.set w y).map Worker.latencies).flatten).Perm
      ((workers.map Worker.latencies).flatten ++ more) := by
  induction workers generalizing w with
  | nil => simp at here
  | cons z rest ih =>
    cases w with
    | zero =>
      obtain rfl : z = x := by simpa using here
      simp only [List.set_cons_zero, List.map_cons, List.flatten_cons, added, List.append_assoc]
      exact (List.perm_append_comm).append_left _
    | succ w =>
      simp only [List.set_cons_succ, List.map_cons, List.flatten_cons, List.append_assoc]
      exact (ih (by simpa using here)).append_left _

theorem held_put (more : List Duration) (here : b.workers[w]? = some x)
    (added : y.latencies = x.latencies ++ more) (phase : Phase) :
    (held (b.put w y) phase).Perm (held b phase ++ if b.phase = phase then more else []) := by
  have same : kept (b.put w y) phase = kept b phase := by cases phase <;> rfl
  have still : (b.put w y).phase = b.phase := rfl
  unfold held
  rw [same, still, List.append_assoc]
  refine List.Perm.append_left _ ?_
  by_cases own : b.phase = phase
  · simp only [if_pos own]
    exact latencies_set here added
  · simp only [if_neg own]
    exact List.Perm.refl _

theorem held_same (here : b.workers[w]? = some x) (same : y.latencies = x.latencies)
    (phase : Phase) : (held (b.put w y) phase).Perm (held b phase) := by
  simpa using held_put [] here (by simp [same]) phase

theorem kept_next (b : Bench) (merged : List Duration) (phase : Phase) :
    kept (b.next merged) phase =
      kept b phase ++ if b.phase = phase then merged else [] := by
  unfold Bench.next
  cases own : b.phase <;> cases phase
  · simp [kept]
  · simp [kept]
  · dsimp only
    split <;> simp [kept]
  · dsimp only
    split <;> simp [kept]

theorem held_next (b : Bench) (phase : Phase) :
    held (b.next (b.workers.map Worker.latencies).flatten) phase = held b phase := by
  have idle := (next_same b (b.workers.map Worker.latencies).flatten).2.2.1
  simp only [held, kept_next, idle, List.map_nil, List.flatten_nil, ite_self, List.append_nil]

theorem join_held (orderly : Orderly shown b) (taken : b.join maxAlloc = some (t,out))
    (phase : Phase) : held t phase = held b phase := by
  unfold Bench.join at taken
  split at taken
  · split at taken
    · cases taken
    · rename_i results waited
      split at taken
      · obtain ⟨rfl,rfl⟩ := Prod.mk.inj (Option.some.inj taken)
        cases phase <;> rfl
      · rename_i merged ok
        split at taken
        · obtain ⟨rfl,rfl⟩ := Prod.mk.inj (Option.some.inj taken)
          have honest : ∀ x ∈ b.workers, ∀ latencies,
              x.stage = .returned (.ok latencies) → latencies = x.latencies := by
            intro x mem latencies left
            obtain ⟨w,here⟩ := List.getElem?_of_mem mem
            exact ((orderly.fits w x here).done latencies left).1
          obtain ⟨rfl,-⟩ := merged_latencies waited ok honest
          exact held_next b phase
        · cases taken
  · cases taken

/-- A step adds to the times held what it measures. -/
theorem step_held (orderly : Orderly shown b) (taken : b.step maxAlloc event = some (t,out))
    (phase : Phase) : (held t phase).Perm (held b phase ++ (gained b phase event).toList) := by
  have running := (step_moves taken).1
  unfold Bench.step at taken
  rw [if_neg (by simp [running])] at taken
  cases event with
  | spawn =>
    obtain ⟨next,done,same⟩ := Option.map_eq_some_iff.mp taken
    obtain ⟨rfl,rfl⟩ := Prod.mk.inj same
    unfold Bench.spawn at done
    split at done
    · dsimp only at done
      split at done
      · obtain rfl := Option.some.inj done
        simp [held, kept, gained]
      · cases done
    · cases done
  | call w =>
    obtain ⟨x,here,called⟩ := Option.bind_eq_some_iff.mp taken
    obtain ⟨⟨next,c⟩,done,same⟩ := Option.map_eq_some_iff.mp called
    obtain ⟨rfl,rfl⟩ := Prod.mk.inj same
    unfold Bench.call at done
    split at done
    · obtain ⟨rfl,rfl⟩ := Prod.mk.inj (Option.some.inj done)
      simp only [gained, Option.toList_none, List.append_nil]
      exact held_same here (by rfl) phase
    · cases done
  | answer w a elapsed =>
    obtain ⟨x,here,answered⟩ := Option.bind_eq_some_iff.mp taken
    obtain ⟨next,done,same⟩ := Option.map_eq_some_iff.mp answered
    obtain ⟨rfl,rfl⟩ := Prod.mk.inj same
    unfold Bench.answer at done
    split at done
    · split at done
      · rename_i cause failure
        obtain rfl := Option.some.inj done
        simp only [gained, failure, reduceCtorEq, and_false, if_false, Option.toList_none,
          List.append_nil]
        exact held_same here (by rfl) phase
      · rename_i fine
        obtain rfl := Option.some.inj done
        have more := held_put [elapsed] (b := b) (y := ⟨x.i + 1,x.stop,x.latencies ++ [elapsed],.looping⟩)
          here rfl phase
        simp only [gained, fine, and_true]
        by_cases own : b.phase = phase
        · simpa [own] using more
        · simpa [own] using more
    · cases done
  | leave w =>
    obtain ⟨x,here,left⟩ := Option.bind_eq_some_iff.mp taken
    obtain ⟨next,done,same⟩ := Option.map_eq_some_iff.mp left
    obtain ⟨rfl,rfl⟩ := Prod.mk.inj same
    unfold Bench.leave at done
    split at done
    · obtain rfl := Option.some.inj done
      simp only [gained, Option.toList_none, List.append_nil]
      exact held_same here (by rfl) phase
    · cases done
  | join =>
    simp only [gained, Option.toList_none, List.append_nil]
    exact List.Perm.of_eq (join_held orderly taken phase)

/-- What has been measured is held, as much of it as the phases so far have to give. -/
structure Recorded (steps : List (Step Bench Event Shown)) (b : Bench) : Prop where
  times : ∀ phase, (measured phase steps).Perm (held b phase)
  writes : (b.writes.length : Int) =
    b.workload.keys * match b.phase with
      | .write => b.run
      | .read => b.run + 1
  reads : (b.reads.length : Int) = b.workload.keys * b.run
  most : b.run ≤ b.workload.runs
  report : ∀ done, b.returned = some (.ok done) →
    done = (b.clients.headD [],b.writes,b.reads) ∧ b.phase = .write ∧ b.workers = []

theorem measured_snoc (phase : Phase) (steps : List (Step Bench Event Shown)) (i : Event) :
    measured phase (steps ++ [⟨b,i,out,t⟩]) = measured phase steps ++ (gained b phase i).toList := by
  rw [measured, List.filterMap_append]
  cases gain : gained b phase i <;> simp [measured, gain]

theorem next_recorded {merged : List Duration} (recorded : Recorded steps b)
    (running : b.returned = none) (going : b.run < b.workload.runs)
    (whole : (merged.length : Int) = b.workload.keys) {more : List (Step Bench Event Shown)}
    (times : ∀ phase, (measured phase more).Perm (held (b.next merged) phase)) :
    Recorded more (b.next merged) := by
  have writes := recorded.writes
  have reads := recorded.reads
  cases own : b.phase with
  | write =>
    rw [own] at writes
    have next : b.next merged = { b with phase := .read, workers := [], writes := b.writes ++ merged } := by
      rw [Bench.next, own]
    rw [next] at times ⊢
    refine ⟨times, ?_, reads, recorded.most, by simp [running]⟩
    simp only [List.length_append, Nat.cast_add, writes, whole]
    ring
  | read =>
    rw [own] at writes
    have next : b.next merged =
        let t := { b with
          run := b.run + 1, phase := .write, workers := [], reads := b.reads ++ merged }
        if t.run < t.workload.runs then t
        else { t with returned := some (.ok (t.clients.headD [],t.writes,t.reads)) } := by
      rw [Bench.next, own]
    have longer : ((b.reads ++ merged).length : Int) = b.workload.keys * (b.run + 1) := by
      simp only [List.length_append, Nat.cast_add, reads, whole]
      ring
    rw [next] at times ⊢
    dsimp only at times ⊢
    split at times
    · rename_i further
      rw [if_pos further]
      exact ⟨times, writes, longer, further.le, by simp [running]⟩
    · rename_i last
      rw [if_neg last]
      refine ⟨times, writes, longer, by dsimp only; omega, ?_⟩
      intro done returned
      obtain rfl := Except.ok.inj (Option.some.inj returned)
      exact ⟨rfl,rfl,rfl⟩

theorem step_recorded (orderly : Orderly shown b) (recorded : Recorded steps b)
    (taken : b.step maxAlloc event = some (t,out)) :
    Recorded (steps ++ [⟨b,event,out,t⟩]) t := by
  have times : ∀ phase, (measured phase (steps ++ [⟨b,event,out,t⟩])).Perm (held t phase) := by
    intro phase
    rw [measured_snoc]
    exact ((recorded.times phase).append_right _).trans (step_held orderly taken phase).symm
  obtain ⟨running,move⟩ := step_moves taken
  cases move with
  | spawned _ =>
    exact ⟨times, recorded.writes, recorded.reads, recorded.most, by simp [running]⟩
  | called _ _ _ =>
    exact ⟨times, recorded.writes, recorded.reads, recorded.most, by simp [Bench.put, running]⟩
  | worked _ _ _ =>
    exact ⟨times, recorded.writes, recorded.reads, recorded.most, by simp [Bench.put, running]⟩
  | failed _ _ => exact ⟨times, recorded.writes, recorded.reads, recorded.most, by simp⟩
  | joined all waited ok =>
    exact next_recorded recorded running (orderly.running running)
      (joined_whole orderly all waited ok).2 times

theorem run_recorded (fresh : Orderly [] start) (recorded : Recorded [] start)
    (run : Run (Bench.step maxAlloc) start steps b) : Recorded steps b := by
  induction run with
  | nil => exact recorded
  | snoc prior taken ih => exact step_recorded (orderly_run prior fresh) ih taken

theorem checked_accepts {v workload : Workload} (ok : workload.checked = .ok v) :
    0 < v.runs ∧ 1 ≤ v.concurrency ∧ v.concurrency ≤ v.keys ∧ v.runs = workload.runs ∧
      v.keys = workload.keys := by
  unfold Workload.checked at ok
  by_cases runs : workload.runs ≤ 0
  · rw [if_pos runs] at ok
    cases ok
  by_cases keys : workload.keys ≤ 0
  · rw [if_neg runs, if_pos keys] at ok
    cases ok
  by_cases bytes : workload.valueBytes ≤ 0
  · rw [if_neg runs, if_neg keys, if_pos bytes] at ok
    cases ok
  rw [if_neg runs, if_neg keys, if_neg bytes] at ok
  by_cases empty : workload.keyPrefix = [] <;> by_cases single : workload.concurrency ≤ 0
  all_goals
    simp only [empty, single, if_true, if_false] at ok
    split at ok
    · cases ok
    · obtain rfl := Except.ok.inj ok
      try dsimp only
      omega

theorem start_recorded {dial : Nat → Except Text Text} {workload : Workload}
    (started : Bench.start maxAlloc dial workload = some (.ok b)) :
    Orderly [] b ∧ Recorded [] b ∧ 0 < workload.runs * workload.keys ∧
      b.workload.runs = workload.runs ∧ b.workload.keys = workload.keys := by
  unfold Bench.start at started
  split at started
  · cases started
  · rename_i v checked
    obtain ⟨runs,several,enough,sameRuns,sameKeys⟩ := checked_accepts checked
    split at started
    · cases started
    · split at started
      · cases started
      · rename_i clients dialled
        dsimp only at started
        split at started
        · have size : (clients.length : Int) = v.concurrency := by
            rw [dialAll_length dialled]
            exact Int.toNat_of_nonneg (by omega)
          obtain rfl := Except.ok.inj (Option.some.inj started)
          have calls : 0 < workload.runs * workload.keys :=
            Int.mul_pos (by omega) (by omega)
          refine ⟨orderly_fresh (by omega) (by omega) runs, ?_, calls, sameRuns, sameKeys⟩
          refine ⟨?_, by simp, by simp, runs.le, by simp⟩
          intro phase
          cases phase <;> simp [measured, held, kept]
        · cases started

theorem phase_measured (recorded : Recorded steps b)
    {done : Text × List Duration × List Duration} (ended : b.returned = some (.ok done)) :
    (measured .write steps).Perm done.2.1 ∧ (measured .read steps).Perm done.2.2 := by
  obtain ⟨rfl,own,idle⟩ := recorded.report done ended
  have writes := recorded.times .write
  have reads := recorded.times .read
  simp only [held, own, idle, kept, List.map_nil, List.flatten_nil, ite_self, List.append_nil]
    at writes reads
  exact ⟨writes,reads⟩

theorem phase_count (orderly : Orderly shown b) (recorded : Recorded steps b)
    {done : Text × List Duration × List Duration} (ended : b.returned = some (.ok done)) :
    (done.2.1.length : Int) = b.workload.runs * b.workload.keys ∧
      (done.2.2.length : Int) = b.workload.runs * b.workload.keys := by
  obtain ⟨rfl,own,-⟩ := recorded.report done ended
  have writes := recorded.writes
  have whole : b.run = b.workload.runs := le_antisymm recorded.most (orderly.ended _ ended)
  rw [own, whole, mul_comm] at writes
  have reads := recorded.reads
  rw [whole, mul_comm] at reads
  exact ⟨writes,reads⟩

/-- However the workers take turns and whatever the clients take, a benchmark that does not
    fail reports of each phase the count, the extremes, the mean and the nearest-rank
    percentiles of exactly the calls made in it. -/
theorem report_describes_calls {maxAlloc : Nat} {dial : Nat → Except Text Text}
    {workload : Workload} {start b : Bench} {steps : List (Step Bench Event Shown)}
    {done : Text × List Duration × List Duration} (writeWall readWall : Duration)
    (started : Bench.start maxAlloc dial workload = some (.ok start))
    (run : Run (Bench.step maxAlloc) start steps b)
    (ended : b.returned = some (.ok done))
    (few : workload.runs * workload.keys ≤ 2 ^ 48)
    (range : ∀ phase, InRange (measured phase steps).sum) :
    ∃ writes reads,
      results done writeWall readWall =
        some [⟨done.1,text "write",writes⟩,⟨done.1,text "read",reads⟩] ∧
      Describes (measured .write steps) writes ∧ Describes (measured .read steps) reads ∧
      writes.count = workload.runs * workload.keys ∧
      reads.count = workload.runs * workload.keys := by
  obtain ⟨fresh,recorded,calls,runs,keys⟩ := start_recorded started
  have orderly := orderly_run run fresh
  have recorded := run_recorded fresh recorded run
  obtain ⟨writes,reads⟩ := phase_measured recorded ended
  obtain ⟨writeCount,readCount⟩ := phase_count orderly recorded ended
  rw [(run_same run).1, runs, keys, ← writes.length_eq] at writeCount
  rw [(run_same run).1, runs, keys, ← reads.length_eq] at readCount
  have filled : ∀ times : List Duration, (times.length : Int) = workload.runs * workload.keys →
      times ≠ [] ∧ times.length ≤ 2 ^ 48 := by
    intro times count
    refine ⟨?_, by omega⟩
    rintro rfl
    rw [List.length_nil] at count
    omega
  obtain ⟨first,summary,described⟩ := summarize_describes (filled _ writeCount).1
    (filled _ writeCount).2 (range .write) writeWall
  obtain ⟨second,summary',described'⟩ := summarize_describes (filled _ readCount).1
    (filled _ readCount).2 (range .read) readWall
  rw [summarize_perm writes] at summary
  rw [summarize_perm reads] at summary'
  refine ⟨first, second, by rw [results, summary, summary'], described, described', ?_, ?_⟩
  · rw [described.count, writeCount]
  · rw [described'.count, readCount]

def slowWorkload : Workload := ⟨1,2,1,[112],2⟩

def slowStart : Bench where
  workload := slowWorkload
  clients := [[99],[99]]
  payload := [120]
  run := 0
  phase := .write
  workers := []
  writes := []
  reads := []
  returned := none

/-- The second worker is the faster one in the first phase. -/
def slowEvents : List Event :=
  [.spawn, .call 0, .spawn, .call 1, .answer 1 ⟨[],false,none⟩ 4, .answer 0 ⟨[],false,none⟩ 9,
    .leave 1, .leave 0, .join,
    .spawn, .call 0, .answer 0 ⟨[120],true,none⟩ 1, .leave 0, .spawn, .call 1,
    .answer 1 ⟨[120],true,none⟩ 3, .leave 1, .join]

theorem slow_run_described :
    ∃ steps b, Run (Bench.step 1000) slowStart steps b ∧
      measured .write steps = [4,9] ∧ b.returned = some (.ok ([99],[9,4],[1,3])) ∧
      ∃ writes reads, results ([99],[9,4],[1,3]) 10 5 =
          some [⟨[99],text "write",writes⟩,⟨[99],text "read",reads⟩] ∧
        Describes [4,9] writes ∧ writes.count = 2 := by
  have started : Bench.start 1000 (fun _ => .ok [99]) slowWorkload = some (.ok slowStart) := rfl
  have done : (exec (Bench.step 1000) slowStart slowEvents).map
      (fun done => ((measured .write done.1,measured .read done.1),done.2.returned)) =
        some (([4,9],[1,3]),some (.ok ([99],[9,4],[1,3]))) := rfl
  obtain ⟨steps,b,run,-,shown⟩ := exec_shows done
  obtain ⟨times,ended⟩ := Prod.mk.inj shown
  obtain ⟨writes,reads⟩ := Prod.mk.inj times
  refine ⟨steps, b, run, writes, ended, ?_⟩
  obtain ⟨first,second,report,described,-,count,-⟩ :=
    report_describes_calls 10 5 started run ended (by decide)
      (fun phase => by cases phase <;> simp only [writes, reads] <;> decide)
  rw [writes] at described
  exact ⟨first, second, report, described, count⟩

end BenchmarkReport
