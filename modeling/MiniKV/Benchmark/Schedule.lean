import MiniKV.Benchmark.Keyspace
import MiniKV.Lib.StepRuns

/- Every schedule of the workers: what a step can do, and what holds in every state that
   steps can reach. What each worker has called for is read off its place in its slice. -/
namespace BenchmarkSchedule
open MachineWord LruModel Decimal StepRuns Slices ProtocolModel ServerModel BenchmarkModel
  BenchmarkKeyspace

/-- What a worker does between two calls, or behind its last. -/
inductive WorkerMove (x : Worker) : Worker → Prop where
  | timed (calling : x.stage = .calling) (elapsed : Duration) :
      WorkerMove x ⟨x.i + 1,x.stop,x.latencies ++ [elapsed],.looping⟩
  | failed (calling : x.stage = .calling) (err : PhaseError) :
      WorkerMove x ⟨x.i,x.stop,x.latencies,.returned (.error err)⟩
  | left (looping : x.stage = .looping) (spent : ¬ x.i < x.stop) :
      WorkerMove x ⟨x.i,x.stop,x.latencies,.returned (.ok x.latencies)⟩

/-- The answer to a call that makes its worker give up. -/
def Fails (b : Bench) (event : Event) : Prop :=
  ∃ w a elapsed, event = .answer w a elapsed ∧ (a.failure b.payload b.phase).isSome = true

/-- Everything that a step can do. -/
inductive Move (b : Bench) (event : Event) : Bench → Shown → Prop where
  | spawned (room : b.workers.length < b.clients.length) :
      Move b event { b with workers := b.workers ++
        [⟨(workerSlice b.workload.keys b.clients.length b.workers.length).1,
          (workerSlice b.workload.keys b.clients.length b.workers.length).2,[],.looping⟩] } .nothing
  | called {w : Nat} {x : Worker} (here : b.workers[w]? = some x) (looping : x.stage = .looping)
      (inside : x.i < x.stop) :
      Move b event (b.put w ⟨x.i,x.stop,x.latencies,.calling⟩)
        (.called ⟨b.run,b.phase,w,x.i,workloadKey b.workload.keyPrefix b.run x.i⟩)
  | worked {w : Nat} {x y : Worker} (here : b.workers[w]? = some x) (moves : WorkerMove x y)
      (blame : ∀ err, y.stage = .returned (.error err) → Fails b event) :
      Move b event (b.put w y) .nothing
  | failed {results : List (Except PhaseError (List Duration))} {err : PhaseError}
      (waited : waitAll b.workers = some results) (broken : mergeResults results = .error err) :
      Move b event { b with returned := some (.error (.phase err)) } .nothing
  | joined {results : List (Except PhaseError (List Duration))} {merged : List Duration}
      (all : b.workers.length = b.clients.length) (waited : waitAll b.workers = some results)
      (ok : mergeResults results = .ok merged) :
      Move b event (b.next merged) (.merged b.run b.phase merged)

variable {maxAlloc w n : Nat} {b t : Bench} {event : Event} {out : Shown} {x y : Worker}
  {bound : Nat → Int} {shown : List Shown} {workers : List Worker} {run : Int} {phase : Phase}

theorem spawn_moves (taken : b.spawn maxAlloc = some t) : Move b event t .nothing := by
  unfold Bench.spawn at taken
  split at taken
  · rename_i room
    dsimp only at taken
    split at taken
    · obtain rfl := Option.some.inj taken
      exact Move.spawned room
    · cases taken
  · cases taken

theorem call_moves (here : b.workers[w]? = some x) {c : KeyCall} (taken : b.call w x = some (t,c)) :
    Move b event t (.called c) := by
  unfold Bench.call at taken
  split at taken
  · rename_i ready
    obtain ⟨rfl,rfl⟩ := Prod.mk.inj (Option.some.inj taken)
    exact Move.called here ready.1 ready.2
  · cases taken

theorem answer_moves (here : b.workers[w]? = some x) {a : Answer} {elapsed : Duration}
    (taken : b.answer w x a elapsed = some t) : Move b (.answer w a elapsed) t .nothing := by
  unfold Bench.answer at taken
  split at taken
  · rename_i calling
    split at taken
    · rename_i cause failure
      obtain rfl := Option.some.inj taken
      refine Move.worked here (WorkerMove.failed calling _) ?_
      intro err _
      exact ⟨w, a, elapsed, rfl, Option.isSome_of_eq_some failure⟩
    · obtain rfl := Option.some.inj taken
      exact Move.worked here (WorkerMove.timed calling elapsed) (by simp)
  · cases taken

theorem leave_moves (here : b.workers[w]? = some x) (taken : b.leave w x = some t) :
    Move b event t .nothing := by
  unfold Bench.leave at taken
  split at taken
  · rename_i ready
    obtain rfl := Option.some.inj taken
    exact Move.worked here (WorkerMove.left ready.1 ready.2) (by simp)
  · cases taken

theorem join_moves (taken : b.join maxAlloc = some (t,out)) : Move b event t out := by
  unfold Bench.join at taken
  split at taken
  · rename_i all
    split at taken
    · cases taken
    · rename_i results waited
      split at taken
      · rename_i err broken
        obtain ⟨rfl,rfl⟩ := Prod.mk.inj (Option.some.inj taken)
        exact Move.failed waited broken
      · rename_i merged ok
        split at taken
        · obtain ⟨rfl,rfl⟩ := Prod.mk.inj (Option.some.inj taken)
          exact Move.joined all waited ok
        · cases taken
  · cases taken

theorem step_moves (taken : b.step maxAlloc event = some (t,out)) :
    b.returned = none ∧ Move b event t out := by
  unfold Bench.step at taken
  split at taken
  · cases taken
  · rename_i running
    refine ⟨by simpa using running, ?_⟩
    cases event with
    | spawn =>
      obtain ⟨next,done,same⟩ := Option.map_eq_some_iff.mp taken
      obtain ⟨rfl,rfl⟩ := Prod.mk.inj same
      exact spawn_moves done
    | call w =>
      obtain ⟨x,here,called⟩ := Option.bind_eq_some_iff.mp taken
      obtain ⟨⟨next,c⟩,done,same⟩ := Option.map_eq_some_iff.mp called
      obtain ⟨rfl,rfl⟩ := Prod.mk.inj same
      exact call_moves here done
    | answer w a elapsed =>
      obtain ⟨x,here,answered⟩ := Option.bind_eq_some_iff.mp taken
      obtain ⟨next,done,same⟩ := Option.map_eq_some_iff.mp answered
      obtain ⟨rfl,rfl⟩ := Prod.mk.inj same
      exact answer_moves here done
    | leave w =>
      obtain ⟨x,here,left⟩ := Option.bind_eq_some_iff.mp taken
      obtain ⟨next,done,same⟩ := Option.map_eq_some_iff.mp left
      obtain ⟨rfl,rfl⟩ := Prod.mk.inj same
      exact leave_moves here done
    | join => exact join_moves taken

/-- The calls that a run shows, in their order. -/
def calls (shown : List Shown) : List KeyCall := shown.filterMap fun
  | .called c => some c
  | _ => none

/-- The indices that a worker has called for in a phase. -/
def callsOf (shown : List Shown) (run : Int) (phase : Phase) (w : Nat) : List Int :=
  ((calls shown).filter fun c => c.run = run ∧ c.phase = phase ∧ c.worker = w).map KeyCall.index

/-- The first index that a worker has not called for. -/
def reached (x : Worker) : Int :=
  match x.stage with
  | .looping => x.i
  | .calling => x.i + 1
  | .returned (.ok _) => x.i
  | .returned (.error _) => x.i + 1

def progress (bound : Nat → Int) (workers : List Worker) (w : Nat) : List Int :=
  match workers[w]? with
  | some x => Int.range (bound w) (reached x)
  | none => []

/-- The place of a phase in the order of all phases. -/
def turn (run : Int) : Phase → Int
  | .write => 2 * run
  | .read => 2 * run + 1

def boundsOf (b : Bench) : Nat → Int := sliceBound b.workload.keys b.clients.length

/-- What a worker has to have called for: all of its slice in a phase that is over, and
    in the present one what its place says. -/
def due (b : Bench) (run : Int) (phase : Phase) (w : Nat) : List Int :=
  if turn run phase < turn b.run b.phase then
    if 0 ≤ run ∧ w < b.clients.length then Int.range (boundsOf b w) (boundsOf b (w + 1)) else []
  else if turn run phase = turn b.run b.phase then progress (boundsOf b) b.workers w
  else []

structure WorkerFits (bound : Nat → Int) (w : Nat) (x : Worker) : Prop where
  stop : x.stop = bound (w + 1)
  low : bound w ≤ x.i
  high : reached x ≤ x.stop
  timed : (x.latencies.length : Int) = x.i - bound w
  done : ∀ latencies, x.stage = .returned (.ok latencies) → latencies = x.latencies ∧ x.i = x.stop

/-- The state and what has been shown of the way to it. -/
structure Orderly (shown : List Shown) (b : Bench) : Prop where
  positive : 1 ≤ (b.clients.length : Int)
  enough : (b.clients.length : Int) ≤ b.workload.keys
  sign : 0 ≤ b.run
  spawned : b.workers.length ≤ b.clients.length
  fits : ∀ w x, b.workers[w]? = some x → WorkerFits (boundsOf b) w x
  called : ∀ run phase w, callsOf shown run phase w = due b run phase w
  keyed : ∀ c ∈ calls shown, c.key = workloadKey b.workload.keyPrefix c.run c.index
  merged : ∀ run phase latencies, Shown.merged run phase latencies ∈ shown →
    0 ≤ run ∧ (latencies.length : Int) = b.workload.keys ∧ turn run phase < turn b.run b.phase
  past : ∀ run phase, 0 ≤ run → turn run phase < turn b.run b.phase →
    ∃ latencies, Shown.merged run phase latencies ∈ shown
  running : b.returned = none → b.run < b.workload.runs
  ended : ∀ result, b.returned = some (.ok result) → b.workload.runs ≤ b.run

theorem fits_moves (fits : WorkerFits bound w x) (moves : WorkerMove x y) :
    WorkerFits bound w y ∧ reached y = reached x := by
  obtain ⟨stop,low,high,timed,_⟩ := fits
  cases moves with
  | timed now elapsed =>
    have same : reached x = x.i + 1 := by rw [reached, now]
    rw [same] at high ⊢
    refine ⟨⟨stop, by dsimp only; omega, high, ?_, by simp⟩, rfl⟩
    rw [List.length_append, List.length_singleton]
    push_cast
    omega
  | failed now err =>
    have same : reached x = x.i + 1 := by rw [reached, now]
    rw [same] at high ⊢
    exact ⟨⟨stop, low, high, timed, by simp⟩, rfl⟩
  | left now spent =>
    have same : reached x = x.i := by rw [reached, now]
    rw [same] at high ⊢
    refine ⟨⟨stop, low, high, timed, ?_⟩, rfl⟩
    intro latencies kept
    simp only [Stage.returned.injEq, Except.ok.injEq] at kept
    exact ⟨kept.symm, by dsimp only; omega⟩

theorem calls_snoc (shown : List Shown) (out : Shown) :
    calls (shown ++ [out]) = calls shown ++ calls [out] := List.filterMap_append

theorem callsOf_quiet (quiet : calls [out] = []) (run : Int) (phase : Phase) (w : Nat) :
    callsOf (shown ++ [out]) run phase w = callsOf shown run phase w := by
  rw [callsOf, calls_snoc, quiet, List.append_nil, callsOf]

theorem turn_inj {other : Int} {place : Phase} (same : turn run phase = turn other place) :
    run = other ∧ phase = place := by
  cases phase <;> cases place <;> simp only [turn] at same
  · exact ⟨by omega, rfl⟩
  · omega
  · omega
  · exact ⟨by omega, rfl⟩

theorem callsOf_called (shown : List Shown) (c : KeyCall) (run : Int) (phase : Phase) (w : Nat) :
    callsOf (shown ++ [.called c]) run phase w = callsOf shown run phase w ++
      if c.run = run ∧ c.phase = phase ∧ c.worker = w then [c.index] else [] := by
  have own : calls [.called c] = [c] := rfl
  rw [callsOf, calls_snoc, own, List.filter_append, List.map_append, callsOf]
  by_cases counted : c.run = run ∧ c.phase = phase ∧ c.worker = w
  · rw [if_pos counted, List.filter_cons_of_pos (by simp [counted])]
    rfl
  · rw [if_neg counted, List.filter_cons_of_neg (by simpa using counted)]
    rfl

theorem due_past (before : turn run phase < turn b.run b.phase) (w : Nat) :
    due b run phase w =
      if 0 ≤ run ∧ w < b.clients.length then Int.range (boundsOf b w) (boundsOf b (w + 1))
      else [] :=
  if_pos before

theorem due_now (b : Bench) (w : Nat) :
    due b b.run b.phase w = progress (boundsOf b) b.workers w := by
  rw [due, if_neg (Int.lt_irrefl _), if_pos rfl]

theorem due_later (after : turn b.run b.phase < turn run phase) (w : Nat) :
    due b run phase w = [] := by
  rw [due, if_neg (by omega), if_neg (by omega)]

theorem progress_set (here : workers[w]? = some x) (y : Worker) (v : Nat) :
    progress bound (workers.set w y) v =
      if v = w then Int.range (bound w) (reached y) else progress bound workers v := by
  obtain ⟨inside,_⟩ := List.getElem?_eq_some_iff.mp here
  unfold progress
  rw [List.getElem?_set]
  by_cases same : v = w
  · rw [same, if_pos rfl, if_pos inside, if_pos rfl]
  · rw [if_neg (Ne.symm same), if_neg same]

theorem progress_same (here : workers[w]? = some x) (same : reached y = reached x) :
    progress bound (workers.set w y) = progress bound workers := by
  funext v
  rw [progress_set here]
  split
  · rename_i own
    rw [own, same, progress, here]
  · rfl

theorem progress_spawn (fresh : reached x = bound workers.length) :
    progress bound (workers ++ [x]) = progress bound workers := by
  funext v
  unfold progress
  rcases Nat.lt_trichotomy v workers.length with before | same | behind
  · rw [List.getElem?_append_left before]
  · rw [same, List.getElem?_concat_length, List.getElem?_eq_none (Nat.le_refl _)]
    dsimp only
    rw [fresh, range_empty]
  · rw [List.getElem?_eq_none (by simp; omega), List.getElem?_eq_none (by omega)]

theorem progress_over (all : workers.length = n)
    (spent : ∀ w x, workers[w]? = some x → reached x = bound (w + 1)) (w : Nat) :
    progress bound workers w = if w < n then Int.range (bound w) (bound (w + 1)) else [] := by
  unfold progress
  cases here : workers[w]? with
  | none =>
    have behind := List.getElem?_eq_none_iff.mp here
    rw [if_neg (by omega)]
  | some x =>
    obtain ⟨inside,_⟩ := List.getElem?_eq_some_iff.mp here
    rw [if_pos (by omega)]
    dsimp only
    rw [spent w x here]

theorem waitAll_stages {results : List (Except PhaseError (List Duration))}
    (waited : waitAll workers = some results) :
    workers.map Worker.stage = results.map Stage.returned := by
  induction workers generalizing results with
  | nil =>
    obtain rfl := Option.some.inj waited
    rfl
  | cons x rest ih =>
    unfold waitAll at waited
    cases stage : x.stage with
    | looping =>
      rw [stage] at waited
      cases waited
    | calling =>
      rw [stage] at waited
      cases waited
    | returned result =>
      rw [stage] at waited
      obtain ⟨later,waits,rfl⟩ := Option.map_eq_some_iff.mp waited
      rw [List.map_cons, List.map_cons, stage, ih waits]

theorem mergeResults_ok {results : List (Except PhaseError (List Duration))}
    {merged : List Duration} (ok : mergeResults results = .ok merged) :
    ∃ parts : List (List Duration), results = parts.map .ok ∧ merged = parts.flatten := by
  induction results generalizing merged with
  | nil => exact ⟨[], rfl, (Except.ok.inj ok).symm⟩
  | cons result rest ih =>
    cases result with
    | error err => cases ok
    | ok latencies =>
      unfold mergeResults at ok
      cases joined : mergeResults rest with
      | error err =>
        rw [joined] at ok
        cases ok
      | ok more =>
        rw [joined] at ok
        obtain rfl := Except.ok.inj ok
        obtain ⟨parts,rfl,rfl⟩ := ih joined
        exact ⟨latencies :: parts, rfl, rfl⟩

theorem mergeResults_error {results : List (Except PhaseError (List Duration))}
    (failed : mergeResults results = .error err) : .error err ∈ results := by
  induction results with
  | nil => cases failed
  | cons result rest ih =>
    cases result with
    | error other =>
      obtain rfl := Except.error.inj failed
      exact List.mem_cons_self
    | ok latencies =>
      unfold mergeResults at failed
      cases joined : mergeResults rest with
      | error other =>
        rw [joined] at failed
        exact List.mem_cons_of_mem _ (ih (joined.trans failed))
      | ok more =>
        rw [joined] at failed
        cases failed

/-- What Wait leaves when no worker has failed. -/
theorem merged_latencies {results : List (Except PhaseError (List Duration))}
    {merged : List Duration} (waited : waitAll workers = some results)
    (ok : mergeResults results = .ok merged)
    (honest : ∀ x ∈ workers, ∀ latencies, x.stage = .returned (.ok latencies) →
      latencies = x.latencies) :
    merged = (workers.map Worker.latencies).flatten ∧
      ∀ x ∈ workers, x.stage = .returned (.ok x.latencies) := by
  obtain ⟨parts,rfl,rfl⟩ := mergeResults_ok ok
  have stages := waitAll_stages waited
  rw [List.map_map] at stages
  have own : ∀ x ∈ workers, x.stage = .returned (.ok x.latencies) := by
    intro x mem
    have held := List.mem_map_of_mem (f := Worker.stage) mem
    rw [stages] at held
    obtain ⟨latencies,_,same⟩ := List.mem_map.mp held
    rw [← honest x mem latencies same.symm]
    exact same.symm
  refine ⟨?_, own⟩
  have distinct : Function.Injective (Stage.returned ∘ Except.ok) := by
    intro left right same
    exact Except.ok.inj (Stage.returned.inj same)
  have same : parts = workers.map Worker.latencies := by
    apply List.map_injective_iff.mpr distinct
    rw [← stages, List.map_map]
    exact List.map_congr_left own
  rw [same]

theorem next_same (b : Bench) (merged : List Duration) :
    (b.next merged).workload = b.workload ∧ (b.next merged).clients = b.clients ∧
      (b.next merged).workers = [] ∧
      turn (b.next merged).run (b.next merged).phase = turn b.run b.phase + 1 := by
  unfold Bench.next
  cases place : b.phase with
  | write => exact ⟨rfl, rfl, rfl, rfl⟩
  | read =>
    dsimp only
    split <;> refine ⟨rfl, rfl, rfl, ?_⟩ <;> simp only [turn] <;> omega

/-- A step that shows nothing and calls for nothing. -/
theorem orderly_quiet {result : Option (Except RunError (Text × List Duration × List Duration))}
    (orderly : Orderly shown b) (running : b.returned = none)
    (few : workers.length ≤ b.clients.length)
    (fits : ∀ w x, workers[w]? = some x → WorkerFits (boundsOf b) w x)
    (same : progress (boundsOf b) workers = progress (boundsOf b) b.workers)
    (going : ∀ done, result ≠ some (.ok done)) :
    Orderly (shown ++ [.nothing]) { b with workers := workers, returned := result } where
  positive := orderly.positive
  enough := orderly.enough
  sign := orderly.sign
  spawned := few
  fits := fits
  called := by
    intro run phase w
    rw [callsOf_quiet rfl, orderly.called, due, due, ← same]
    rfl
  keyed := by
    intro c mem
    rw [calls_snoc] at mem
    exact orderly.keyed c (by simpa [calls] using mem)
  merged := by
    intro run phase latencies mem
    exact orderly.merged run phase latencies (by simpa using mem)
  past := by
    intro run phase sign before
    obtain ⟨latencies,mem⟩ := orderly.past run phase sign before
    exact ⟨latencies, by simp [mem]⟩
  running := fun _ => orderly.running running
  ended := fun done same => absurd same (going done)

theorem fits_set (orderly : Orderly shown b) (fits : WorkerFits (boundsOf b) w y) :
    ∀ v x, (b.workers.set w y)[v]? = some x → WorkerFits (boundsOf b) v x := by
  intro v x here
  rw [List.getElem?_set] at here
  split at here
  · rename_i same
    split at here
    · obtain rfl := Option.some.inj here
      exact same ▸ fits
    · cases here
  · exact orderly.fits v x here

theorem bounds_le (orderly : Orderly shown b) {v w : Nat} (le : v ≤ w) :
    boundsOf b v ≤ boundsOf b w := sliceBound_monotone orderly.positive orderly.enough le

theorem orderly_spawned (orderly : Orderly shown b) (running : b.returned = none)
    (room : b.workers.length < b.clients.length) :
    Orderly (shown ++ [.nothing]) { b with workers := b.workers ++
      [⟨(workerSlice b.workload.keys b.clients.length b.workers.length).1,
        (workerSlice b.workload.keys b.clients.length b.workers.length).2,[],.looping⟩] } := by
  rw [workerSlice_bounds]
  have wide : boundsOf b b.workers.length ≤ boundsOf b (b.workers.length + 1) :=
    bounds_le orderly (Nat.le_succ _)
  refine orderly_quiet orderly running ?_ ?_ ?_ ?_
  · rw [List.length_append, List.length_singleton]
    omega
  · intro v x here
    rcases Nat.lt_or_ge v b.workers.length with before | behind
    · rw [List.getElem?_append_left before] at here
      exact orderly.fits v x here
    · rw [List.getElem?_append_right behind, List.getElem?_singleton] at here
      split at here
      · obtain rfl := Option.some.inj here
        obtain rfl : v = b.workers.length := by omega
        exact ⟨rfl, Int.le_refl _, wide, by simp [boundsOf], by simp⟩
      · cases here
  · exact progress_spawn rfl
  · rw [running]
    simp

theorem orderly_worked (orderly : Orderly shown b) (running : b.returned = none)
    (here : b.workers[w]? = some x) (moves : WorkerMove x y) :
    Orderly (shown ++ [.nothing]) (b.put w y) := by
  obtain ⟨fits,same⟩ := fits_moves (orderly.fits w x here) moves
  refine orderly_quiet orderly running ?_ (fits_set orderly fits) (progress_same here same) ?_
  · rw [List.length_set]
    exact orderly.spawned
  · rw [running]
    simp

/-- A call adds its index to what its worker has called for. -/
theorem due_called (here : b.workers[w]? = some x) (looping : x.stage = .looping)
    (low : boundsOf b w ≤ x.i) (run : Int) (phase : Phase) (v : Nat) :
    due (b.put w ⟨x.i,x.stop,x.latencies,.calling⟩) run phase v =
      due b run phase v ++ if b.run = run ∧ b.phase = phase ∧ w = v then [x.i] else [] := by
  by_cases current : turn run phase = turn b.run b.phase
  · obtain ⟨rfl,rfl⟩ := turn_inj current
    have after : due (b.put w ⟨x.i,x.stop,x.latencies,.calling⟩) b.run b.phase v =
        progress (boundsOf b) (b.workers.set w ⟨x.i,x.stop,x.latencies,.calling⟩) v := due_now _ v
    rw [after, progress_set here, due_now]
    by_cases own : v = w
    · have place : reached x = x.i := by rw [reached, looping]
      rw [if_pos own, if_pos ⟨rfl,rfl,own.symm⟩, own, progress, here]
      dsimp only
      rw [place, ← range_snoc low]
      rfl
    · rw [if_neg own, if_neg fun same => own same.2.2.symm, List.append_nil]
  · have other : ¬ (b.run = run ∧ b.phase = phase ∧ w = v) := by
      rintro ⟨rfl,rfl,_⟩
      exact current rfl
    rw [if_neg other, List.append_nil]
    unfold due
    rw [if_neg current]
    exact congrArg _ (if_neg current)

theorem orderly_called (orderly : Orderly shown b) (here : b.workers[w]? = some x)
    (looping : x.stage = .looping) (inside : x.i < x.stop) :
    Orderly
      (shown ++ [.called ⟨b.run,b.phase,w,x.i,workloadKey b.workload.keyPrefix b.run x.i⟩])
      (b.put w ⟨x.i,x.stop,x.latencies,.calling⟩) := by
  have old := orderly.fits w x here
  have fits : WorkerFits (boundsOf b) w ⟨x.i,x.stop,x.latencies,.calling⟩ :=
    ⟨old.stop, old.low, inside, old.timed, by simp⟩
  refine ⟨orderly.positive, orderly.enough, orderly.sign, ?_, fits_set orderly fits, ?_, ?_, ?_, ?_,
    orderly.running, orderly.ended⟩
  · rw [Bench.put, List.length_set]
    exact orderly.spawned
  · intro run phase v
    rw [callsOf_called, orderly.called, due_called here looping old.low]
  · intro c mem
    rw [calls_snoc, List.mem_append] at mem
    rcases mem with earlier | now
    · exact orderly.keyed c earlier
    · obtain rfl := List.mem_singleton.mp now
      rfl
  · intro run phase latencies mem
    exact orderly.merged run phase latencies (by simpa using mem)
  · intro run phase sign before
    obtain ⟨latencies,mem⟩ := orderly.past run phase sign before
    exact ⟨latencies, by simp [mem]⟩

theorem next_returns (running : b.returned = none) (going : b.run < b.workload.runs)
    (merged : List Duration) :
    b.run ≤ (b.next merged).run ∧
      ((b.next merged).returned = none → (b.next merged).run < b.workload.runs) ∧
      ∀ result, (b.next merged).returned = some (.ok result) →
        b.workload.runs ≤ (b.next merged).run := by
  unfold Bench.next
  cases b.phase with
  | write =>
    refine ⟨Int.le_refl _, fun _ => going, ?_⟩
    intro result done
    cases running.symm.trans done
  | read =>
    have later : b.run ≤ b.run + 1 := by omega
    dsimp only
    split
    · rename_i more
      refine ⟨later, fun _ => more, ?_⟩
      intro result done
      cases running.symm.trans done
    · rename_i last
      refine ⟨later, ?_, fun _ _ => Int.not_lt.mp last⟩
      intro goes
      cases goes

/-- Behind Wait without an error every worker is at the end of its slice, and there are
    as many latencies as keys. -/
theorem joined_whole {results : List (Except PhaseError (List Duration))}
    {merged : List Duration} (orderly : Orderly shown b)
    (all : b.workers.length = b.clients.length) (waited : waitAll b.workers = some results)
    (ok : mergeResults results = .ok merged) :
    (∀ w x, b.workers[w]? = some x → reached x = boundsOf b (w + 1)) ∧
      (merged.length : Int) = b.workload.keys := by
  have honest : ∀ x ∈ b.workers, ∀ latencies, x.stage = .returned (.ok latencies) →
      latencies = x.latencies := by
    intro x mem latencies stage
    obtain ⟨w,here⟩ := List.mem_iff_getElem?.mp mem
    exact ((orderly.fits w x here).done latencies stage).1
  obtain ⟨whole,stages⟩ := merged_latencies waited ok honest
  have spent : ∀ w x, b.workers[w]? = some x → x.i = boundsOf b (w + 1) := by
    intro w x here
    have stage := stages x (List.mem_of_getElem? here)
    have fits := orderly.fits w x here
    exact ((fits.done _ stage).2).trans fits.stop
  constructor
  · intro w x here
    rw [reached, stages x (List.mem_of_getElem? here), spent w x here]
  · have lengths : ∀ w part, (b.workers.map Worker.latencies)[w]? = some part →
        (part.length : Int) = boundsOf b (w + 1) - boundsOf b w := by
      intro w part here
      rw [List.getElem?_map] at here
      obtain ⟨x,found,rfl⟩ := Option.map_eq_some_iff.mp here
      rw [(orderly.fits w x found).timed, spent w x found]
    have first : boundsOf b 0 = 0 := sliceBound_first orderly.positive orderly.enough
    have last : boundsOf b b.clients.length = b.workload.keys := sliceBound_last orderly.positive
    rw [whole, flatten_length _ lengths, List.length_map, all, first, last, Int.sub_zero]

/-- A phase that ends turns what its workers have called for into whole slices. -/
theorem due_joined (sign : 0 ≤ b.run) (all : b.workers.length = b.clients.length)
    (spent : ∀ w x, b.workers[w]? = some x → reached x = boundsOf b (w + 1))
    (merged : List Duration) (run : Int) (phase : Phase) (v : Nat) :
    due (b.next merged) run phase v = due b run phase v := by
  obtain ⟨workload,clients,workers,turned⟩ := next_same b merged
  have bounds : boundsOf (b.next merged) = boundsOf b := by
    rw [boundsOf, boundsOf, workload, clients]
  rcases Int.lt_trichotomy (turn run phase) (turn b.run b.phase) with before | now | after
  · rw [due_past before, due_past (by omega), clients, bounds]
  · obtain ⟨rfl,rfl⟩ := turn_inj now
    rw [due_now, due_past (by omega), clients, bounds, progress_over all spent]
    simp only [sign, true_and]
  · rw [due_later after, due, if_neg (by omega), workers]
    simp [progress]

theorem orderly_joined {results : List (Except PhaseError (List Duration))}
    {merged : List Duration} (orderly : Orderly shown b) (running : b.returned = none)
    (all : b.workers.length = b.clients.length) (waited : waitAll b.workers = some results)
    (ok : mergeResults results = .ok merged) :
    Orderly (shown ++ [.merged b.run b.phase merged]) (b.next merged) := by
  obtain ⟨spent,size⟩ := joined_whole orderly all waited ok
  obtain ⟨workload,clients,workers,turned⟩ := next_same b merged
  obtain ⟨later,going,ended⟩ := next_returns running (orderly.running running) merged
  refine ⟨?_, ?_, orderly.sign.trans later, ?_, ?_, ?_, ?_, ?_, ?_, ?_, ?_⟩
  · rw [clients]
    exact orderly.positive
  · rw [workload, clients]
    exact orderly.enough
  · simp [workers]
  · simp [workers]
  · intro run phase v
    rw [callsOf_quiet rfl, orderly.called, due_joined orderly.sign all spent]
  · intro c mem
    rw [calls_snoc] at mem
    rw [workload]
    exact orderly.keyed c (by simpa [calls] using mem)
  · intro run phase latencies mem
    rw [workload, turned]
    rcases List.mem_append.mp mem with earlier | new
    · obtain ⟨sign,length,before⟩ := orderly.merged run phase latencies earlier
      exact ⟨sign, length, by omega⟩
    · simp only [List.mem_singleton, Shown.merged.injEq] at new
      obtain ⟨rfl,rfl,rfl⟩ := new
      exact ⟨orderly.sign, size, by omega⟩
  · intro run phase sign before
    rw [turned] at before
    rcases Int.lt_or_eq_of_le (Int.lt_add_one_iff.mp before) with earlier | now
    · obtain ⟨latencies,mem⟩ := orderly.past run phase sign earlier
      exact ⟨latencies, by simp [mem]⟩
    · obtain ⟨rfl,rfl⟩ := turn_inj now
      exact ⟨merged, by simp⟩
  · rw [workload]
    exact going
  · rw [workload]
    exact ended

theorem orderly_step (orderly : Orderly shown b) (taken : b.step maxAlloc event = some (t,out)) :
    Orderly (shown ++ [out]) t := by
  obtain ⟨running,move⟩ := step_moves taken
  cases move with
  | spawned room => exact orderly_spawned orderly running room
  | called here looping inside => exact orderly_called orderly here looping inside
  | worked here moves _ => exact orderly_worked orderly running here moves
  | failed _ _ => exact orderly_quiet orderly running orderly.spawned orderly.fits rfl (by simp)
  | joined all waited ok => exact orderly_joined orderly running all waited ok

theorem orderly_run {start : Bench} {steps : List (Step Bench Event Shown)}
    (run : Run (Bench.step maxAlloc) start steps b) (orderly : Orderly [] start) :
    Orderly (steps.map Step.output) b :=
  run_invariant (fun steps b => Orderly (steps.map Step.output) b) orderly
    (fun steps s i t r _ held taken => by
      rw [List.map_append]
      exact orderly_step held taken) run

theorem step_same (taken : b.step maxAlloc event = some (t,out)) :
    t.workload = b.workload ∧ t.clients = b.clients := by
  cases (step_moves taken).2 with
  | joined _ _ _ => exact ⟨(next_same b _).1, (next_same b _).2.1⟩
  | spawned _ => exact ⟨rfl,rfl⟩
  | called _ _ _ => exact ⟨rfl,rfl⟩
  | worked _ _ _ => exact ⟨rfl,rfl⟩
  | failed _ _ => exact ⟨rfl,rfl⟩

theorem dialAll_length {dial : Nat → Except Text Text} {clients : List Text}
    (dialled : dialAll dial n = .ok clients) : clients.length = n := by
  induction n generalizing clients with
  | zero =>
    obtain rfl := Except.ok.inj dialled
    rfl
  | succ n ih =>
    unfold dialAll at dialled
    split at dialled
    · cases dialled
    · rename_i before first
      split at dialled
      · cases dialled
      · obtain rfl := Except.ok.inj dialled
        rw [List.length_append, ih first, List.length_singleton]

/-- The workload with its defaults filled in. -/
def prepared (w : Workload) : Workload :=
  { w with keyPrefix := if w.keyPrefix = [] then text "minikv-bench" else w.keyPrefix }

theorem checked_ok {w v : Workload} (positive : 1 ≤ w.concurrency) (ok : w.checked = .ok v) :
    v = prepared w ∧ 0 < w.runs := by
  have several : ¬ w.concurrency ≤ 0 := by omega
  unfold Workload.checked at ok
  split at ok
  · cases ok
  · rename_i runs
    split at ok
    · cases ok
    · split at ok
      · cases ok
      · have same : v = prepared w := by
          by_cases empty : w.keyPrefix = []
          · simp only [empty, if_true, if_neg several] at ok
            split at ok
            · cases ok
            · rw [← Except.ok.inj ok, prepared, if_pos empty]
          · simp only [empty, if_false, if_neg several] at ok
            split at ok
            · cases ok
            · rw [← Except.ok.inj ok, prepared, if_neg empty]
        exact ⟨same, by omega⟩

theorem orderly_fresh {w : Workload} {clients : List Text} {payload : Text}
    (positive : 1 ≤ (clients.length : Int)) (enough : (clients.length : Int) ≤ w.keys)
    (runs : 0 < w.runs) : Orderly [] ⟨w,clients,payload,0,.write,[],[],[],none⟩ := by
  refine ⟨positive, enough, Int.le_refl _, by simp, by simp, ?_, by simp [calls], by simp, ?_,
    fun _ => runs, by simp⟩
  · intro run phase v
    have none : callsOf [] run phase v = [] := rfl
    rw [none, due]
    split
    · rename_i before
      have negative : ¬ (0 ≤ run ∧ v < clients.length) := by
        cases phase <;> simp only [turn] at before <;> omega
      rw [if_neg negative]
    · split <;> rfl
  · intro run phase sign before
    cases phase <;> simp only [turn] at before <;> omega

theorem start_orderly {dial : Nat → Except Text Text} {w : Workload}
    (positive : 1 ≤ w.concurrency) (enough : w.concurrency ≤ w.keys)
    (started : Bench.start maxAlloc dial w = some (.ok b)) :
    Orderly [] b ∧ b.workload = prepared w ∧ (b.clients.length : Int) = w.concurrency ∧
      b.workers = [] ∧ b.returned = none := by
  unfold Bench.start at started
  split at started
  · cases started
  · rename_i v checked
    obtain ⟨rfl,runs⟩ := checked_ok positive checked
    split at started
    · cases started
    · split at started
      · cases started
      · rename_i clients dialled
        dsimp only at started
        split at started
        · have sign : 0 ≤ w.concurrency := by omega
          have size : (clients.length : Int) = w.concurrency := by
            rw [dialAll_length dialled]
            exact Int.toNat_of_nonneg sign
          obtain rfl := Except.ok.inj (Option.some.inj started)
          have fits : (clients.length : Int) ≤ (prepared w).keys := size.trans_le enough
          exact ⟨orderly_fresh (by omega) fits runs, rfl, size, rfl, rfl⟩
        · cases started

theorem run_same {start : Bench} {steps : List (Step Bench Event Shown)}
    (run : Run (Bench.step maxAlloc) start steps b) :
    b.workload = start.workload ∧ b.clients = start.clients :=
  run_stays (fun b => b.workload = start.workload ∧ b.clients = start.clients)
    (fun _ _ _ _ held taken =>
      ⟨(step_same taken).1.trans held.1,(step_same taken).2.trans held.2⟩) run ⟨rfl,rfl⟩

end BenchmarkSchedule
