import MiniKV.Server.Server

/- The benchmark: in every run the keys of a workload are written and then read, each by
   the worker whose slice they are in. The workers of a phase are goroutines that take
   their steps in any order; a client may answer a call in any way and after any time.
   Slices are lists, and make refuses a capacity as the runtime does. -/
namespace BenchmarkModel
open MachineWord LruModel Decimal ProtocolModel ServerModel

structure Workload where
  runs : Int
  keys : Int
  valueBytes : Int
  keyPrefix : Text
  concurrency : Int
  deriving DecidableEq, Repr

inductive Phase where
  | write
  | read
  deriving DecidableEq, Repr

/-- Division as in Go, towards zero. -/
def workerSlice (total concurrency worker : Int) : Int × Int :=
  let base := total.tdiv concurrency
  let extra := total.tmod concurrency
  let start := worker * base + min worker extra
  let width := if worker < extra then base + 1 else base
  (start, start + width)

def workloadKey (keyPrefix : Text) (run index : Int) : Text :=
  keyPrefix ++ text ":" ++ formatInt run ++ text ":" ++ formatInt index

/-- What a call of a client returns; of a Set there is the error only. -/
structure Answer where
  value : Text
  ok : Bool
  err : Option Text
  deriving DecidableEq, Repr

inductive Failure where
  | call (err : Text)
  | keyMissing
  | valueMismatch
  deriving DecidableEq, Repr

def Answer.failure (a : Answer) (payload : Text) : Phase → Option Failure
  | .write =>
    match a.err with
    | some err => some (.call err)
    | none => none
  | .read =>
    match a.err with
    | some err => some (.call err)
    | none =>
      if !a.ok then some .keyMissing
      else if a.value ≠ payload then some .valueMismatch
      else none

structure PhaseError where
  name : Text
  phase : Phase
  run : Int
  index : Int
  cause : Failure
  deriving DecidableEq, Repr

inductive RunError where
  | runs
  | keys
  | valueBytes
  | concurrency (workers total : Int)
  | dial (worker : Nat) (cause : Text)
  | phase (cause : PhaseError)
  deriving DecidableEq, Repr

/-- Where a worker stands: at the test of its loop, in a call, or behind its return with
    what it leaves in errs or perWorker. -/
inductive Stage where
  | looping
  | calling
  | returned (result : Except PhaseError (List Duration))
  deriving DecidableEq

structure Worker where
  i : Int
  stop : Int
  latencies : List Duration
  stage : Stage
  deriving DecidableEq

/-- The state of Run. Every client is known by its name. -/
structure Bench where
  workload : Workload
  clients : List Text
  payload : Text
  run : Int
  phase : Phase
  /-- Those of the phase that have been started. -/
  workers : List Worker
  writes : List Duration
  reads : List Duration
  returned : Option (Except RunError (Text × List Duration × List Duration))
  deriving DecidableEq

/-- The bounds of make, for elements of this size. -/
def makes (maxAlloc size : Nat) (capacity : Int) : Bool :=
  decide (0 ≤ capacity ∧ size * capacity ≤ maxAlloc)

def Workload.checked (w : Workload) : Except RunError Workload :=
  if w.runs ≤ 0 then .error .runs
  else if w.keys ≤ 0 then .error .keys
  else if w.valueBytes ≤ 0 then .error .valueBytes
  else
    let w := if w.keyPrefix = [] then { w with keyPrefix := text "minikv-bench" } else w
    let w := if w.concurrency ≤ 0 then { w with concurrency := 1 } else w
    if w.concurrency > w.keys then .error (.concurrency w.concurrency w.keys) else .ok w

def dialAll (dial : Nat → Except Text Text) : Nat → Except RunError (List Text)
  | 0 => .ok []
  | n + 1 =>
    match dialAll dial n with
    | .error err => .error err
    | .ok clients =>
      match dial n with
      | .error cause => .error (.dial n cause)
      | .ok client => .ok (clients ++ [client])

/-- Run up to its loop; none is a panic. -/
def Bench.start (maxAlloc : Nat) (dial : Nat → Except Text Text) (workload : Workload) :
    Option (Except RunError Bench) :=
  match workload.checked with
  | .error err => some (.error err)
  | .ok w =>
    if !makes maxAlloc 16 w.concurrency then none
    else
      match dialAll dial w.concurrency.toNat with
      | .error err => some (.error err)
      | .ok clients =>
        let totalOps := int64.wrap (w.runs * w.keys)
        if makes maxAlloc 1 w.valueBytes && makes maxAlloc 8 totalOps then
          some (.ok {
            workload := w
            clients := clients
            payload := List.replicate w.valueBytes.toNat 120
            run := 0
            phase := .write
            workers := []
            writes := []
            reads := []
            returned := none })
        else none

def Bench.put (b : Bench) (w : Nat) (x : Worker) : Bench :=
  { b with workers := b.workers.set w x }

/-- The turn of the loop over the workers that starts the next one. The two slices of the
    phase are made before the first. -/
def Bench.spawn (maxAlloc : Nat) (b : Bench) : Option Bench :=
  if b.workers.length < b.clients.length then
    let slice := workerSlice b.workload.keys b.clients.length b.workers.length
    if makes maxAlloc 24 b.clients.length && makes maxAlloc 16 b.clients.length &&
        makes maxAlloc 8 (slice.2 - slice.1) then
      some { b with workers := b.workers ++ [⟨slice.1,slice.2,[],.looping⟩] }
    else none
  else none

/-- A call for a key, as it is made. -/
structure KeyCall where
  run : Int
  phase : Phase
  worker : Nat
  index : Int
  key : Text
  deriving DecidableEq, Repr

def Bench.call (b : Bench) (w : Nat) (x : Worker) : Option (Bench × KeyCall) :=
  if x.stage = .looping ∧ x.i < x.stop then
    some (b.put w { x with stage := .calling },
      ⟨b.run,b.phase,w,x.i,workloadKey b.workload.keyPrefix b.run x.i⟩)
  else none

def Bench.answer (b : Bench) (w : Nat) (x : Worker) (a : Answer) (elapsed : Duration) :
    Option Bench :=
  if x.stage = .calling then
    match a.failure b.payload b.phase with
    | some cause =>
      some (b.put w { x with
        stage := .returned (.error ⟨b.clients.getD w [],b.phase,b.run,x.i,cause⟩) })
    | none =>
      some (b.put w { x with
        i := x.i + 1
        latencies := x.latencies ++ [elapsed]
        stage := .looping })
  else none

def Bench.leave (b : Bench) (w : Nat) (x : Worker) : Option Bench :=
  if x.stage = .looping ∧ ¬ x.i < x.stop then
    some (b.put w { x with stage := .returned (.ok x.latencies) })
  else none

/-- What the workers have left; none while Wait goes on. -/
def waitAll : List Worker → Option (List (Except PhaseError (List Duration)))
  | [] => some []
  | x :: rest =>
    match x.stage with
    | .returned result => (waitAll rest).map (result :: ·)
    | _ => none

/-- The first error in the order of the workers, or all latencies in that order. -/
def mergeResults : List (Except PhaseError (List Duration)) → Except PhaseError (List Duration)
  | [] => .ok []
  | .error err :: _ => .error err
  | .ok latencies :: rest =>
    match mergeResults rest with
    | .error err => .error err
    | .ok merged => .ok (latencies ++ merged)

/-- Run behind a phase that has not failed. -/
def Bench.next (b : Bench) (merged : List Duration) : Bench :=
  match b.phase with
  | .write => { b with phase := .read, workers := [], writes := b.writes ++ merged }
  | .read =>
    let b := { b with
      run := b.run + 1
      phase := .write
      workers := []
      reads := b.reads ++ merged }
    if b.run < b.workload.runs then b
    else { b with returned := some (.ok (b.clients.headD [],b.writes,b.reads)) }

/-- What a step shows of itself. -/
inductive Shown where
  | nothing
  | called (call : KeyCall)
  | merged (run : Int) (phase : Phase) (latencies : List Duration)
  deriving DecidableEq, Repr

/-- What follows Wait. -/
def Bench.join (maxAlloc : Nat) (b : Bench) : Option (Bench × Shown) :=
  if b.workers.length = b.clients.length then
    match waitAll b.workers with
    | none => none
    | some results =>
      match mergeResults results with
      | .error err => some ({ b with returned := some (.error (.phase err)) }, .nothing)
      | .ok merged =>
        if makes maxAlloc 8 b.workload.keys then some (b.next merged, .merged b.run b.phase merged)
        else none
  else none

inductive Event where
  | spawn
  | call (w : Nat)
  | answer (w : Nat) (answer : Answer) (elapsed : Duration)
  | leave (w : Nat)
  | join
  deriving DecidableEq, Repr

/-- A step of the main goroutine or of a worker. None is a step that cannot be taken, or a
    panic. -/
def Bench.step (maxAlloc : Nat) (b : Bench) (event : Event) : Option (Bench × Shown) :=
  if b.returned.isSome then none
  else
    match event with
    | .spawn => (b.spawn maxAlloc).map fun b => (b, .nothing)
    | .call w =>
      b.workers[w]?.bind fun x => (b.call w x).map fun done => (done.1, .called done.2)
    | .answer w a elapsed =>
      b.workers[w]?.bind fun x => (b.answer w x a elapsed).map fun b => (b, .nothing)
    | .leave w => b.workers[w]?.bind fun x => (b.leave w x).map fun b => (b, .nothing)
    | .join => b.join maxAlloc

end BenchmarkModel
