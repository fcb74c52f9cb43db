import MiniKV.Lib.StepRuns
import MiniKV.Server.Lifecycle

/- The process of cmd/minikv. Beside the calls of ServeConn there are the accept loop of run,
   which ends in the call of Shutdown, the goroutine that closes the listener after a signal,
   and the goroutine of cleanupExpired, which takes the shards one by one. They take their
   steps in any order, until run returns or a panic ends them all. -/
namespace ProcessModel
open MachineWord LruModel ShardModel StoreModel StepRuns ProtocolModel ServerModel ServerLifecycle

/-- The goroutine of cleanupExpired: not begun, in its select, in CleanupExpired before the
    shard of this number, and returned. -/
inductive Sweeper where
  | entered
  | waiting
  | sweeping (next : Nat)
  | returned
  deriving DecidableEq, Repr

/-- The accept loop of run: in Accept, left by its break, and left with an error. -/
inductive Acceptor where
  | accepting
  | broken
  | failed
  deriving DecidableEq, Repr

structure Process where
  hub : Hub
  cleanupInterval : Duration
  canceled : Bool
  listening : Bool
  acceptor : Acceptor
  sweeper : Sweeper

/-- What run has set up when it enters the accept loop. -/
def Process.start (config : ConfigModel.Config) (now : Time) : Process where
  hub := .new (.new (Store.new int64 config.store) config.authToken) config.idleTimeout
    config.maxConnections now
  cleanupInterval := config.cleanupInterval
  canceled := false
  listening := true
  acceptor := .accepting
  sweeper := .entered

inductive Happening where
  | cancel
  | closeListener
  | accept
  | acceptFails
  | serve (event : Event)
  | launch
  | tick
  | sweep (now : Time) (order : RangeOrder)
  | swept
  | stop

/-- The hub with what a sweep left of its store. -/
def Process.withStore (p : Process) (store : Store) : Process :=
  { p with hub := { p.hub with server := { p.hub.server with store := store } } }

/-- The beginning of cleanupExpired. NewTicker panics on an interval that is not positive. -/
def Process.launch (p : Process) : Process :=
  if p.cleanupInterval = 0 then { p with sweeper := .returned }
  else if p.cleanupInterval < 0 then { p with hub := { p.hub with down := true } }
  else { p with sweeper := .waiting }

/-- Accept has failed. A closed listener is one of the two reasons to leave by the break. -/
def Process.acceptFails (p : Process) : Process :=
  if p.canceled || !p.listening then { p with acceptor := .broken }
  else { p with acceptor := .failed }

/-- The steps that run leaves to the server: the calls are started by the accept loop, and
    Shutdown is called behind it. -/
def Process.allows (p : Process) : Event → Bool
  | .start => false
  | .shutdown => decide (p.acceptor = .broken)
  | _ => true

/-- Run has returned, and main with it, or a panic has ended the process. -/
def Process.ended (p : Process) : Bool :=
  p.hub.down || decide (p.acceptor = .failed) ||
    match p.hub.shutdown with
    | .returned _ => true
    | _ => false

def Process.step (env : Env) (maxAlloc : Nat) (p : Process) (what : Happening) :
    Option (Process × List Command) :=
  if p.ended then none
  else
    match what with
    | .cancel => some ({ p with canceled := true }, [])
    | .closeListener => if p.canceled then some ({ p with listening := false }, []) else none
    | .accept =>
      if p.acceptor = .accepting ∧ p.listening = true then
        (p.hub.step env maxAlloc .start).map fun done => ({ p with hub := done.1 }, done.2)
      else none
    | .acceptFails => if p.acceptor = .accepting then some (p.acceptFails, []) else none
    | .serve event =>
      if p.allows event then
        (p.hub.step env maxAlloc event).map fun done => ({ p with hub := done.1 }, done.2)
      else none
    | .launch => if p.sweeper = .entered then some (p.launch, []) else none
    | .tick => if p.sweeper = .waiting then some ({ p with sweeper := .sweeping 0 }, []) else none
    | .sweep now order =>
      match p.sweeper with
      | .sweeping i =>
        (p.hub.server.store.step ⟨.cleanupExpired,i,now,order⟩).map fun done =>
          ({ p.withStore done.1 with sweeper := .sweeping (i + 1) }, [])
      | _ => none
    | .swept =>
      if p.sweeper = .sweeping p.hub.server.store.shards.length then
        some ({ p with sweeper := .waiting }, [])
      else none
    | .stop =>
      if p.sweeper = .waiting ∧ p.canceled = true then some ({ p with sweeper := .returned }, [])
      else none

/-- The step of the server that a step of the process is. -/
def request : Happening → Option Event
  | .accept => some .start
  | .serve event => some event
  | _ => none

/-- The listener is closed and the accept loop left by its break only after a signal. -/
structure Signalled (p : Process) : Prop where
  closed : p.listening = false → p.canceled = true
  broken : p.acceptor = .broken → p.canceled = true

/-- The sweeper begins a pass when the ticker fires, and ends it behind the last shard. -/
structure Passed (what : Happening) (p q : Process) : Prop where
  ticked : what = .tick → q.sweeper = .sweeping 0
  kept : ∀ j, p.sweeper = .sweeping j →
    q.sweeper = .sweeping j ∨ j = p.hub.server.store.shards.length
  swept : what = .swept → p.sweeper = .sweeping p.hub.server.store.shards.length

/-- What a step of the process can do. -/
inductive Took (env : Env) (maxAlloc : Nat) (p : Process) :
    Happening → Process → List Command → Prop where
  | served {what : Happening} {event : Event} {hub : Hub} {out : List Command}
      (asked : request what = some event)
      (taken : p.hub.step env maxAlloc event = some (hub,out))
      (accepts : event = .start → p.acceptor = .accepting)
      (behind : event = .shutdown → p.acceptor = .broken) :
      Took env maxAlloc p what { p with hub := hub } out
  | swept {i : Nat} {now : Time} {order : RangeOrder} {store : Store} {reply : Reply}
      (here : p.sweeper = .sweeping i)
      (taken : p.hub.server.store.step ⟨.cleanupExpired,i,now,order⟩ = some (store,reply)) :
      Took env maxAlloc p (.sweep now order)
        { p.withStore store with sweeper := .sweeping (i + 1) } []
  | crashed (negative : p.cleanupInterval < 0) :
      Took env maxAlloc p .launch { p with hub := { p.hub with down := true } } []
  | aside {what : Happening} {q : Process} (own : request what = none) (hub : q.hub = p.hub)
      (interval : q.cleanupInterval = p.cleanupInterval)
      (loop : p.acceptor = .broken → q.acceptor = .broken)
      (signal : Signalled p → Signalled q)
      (pass : Passed what p q) :
      Took env maxAlloc p what q []

variable {env : Env} {maxAlloc : Nat} {p q : Process} {what : Happening} {out : List Command}

theorem same_passed (same : q.sweeper = p.sweeper) (tick : what ≠ .tick) (swept : what ≠ .swept) :
    Passed what p q :=
  ⟨fun other => absurd other tick, fun _ here => Or.inl (same.trans here),
    fun other => absurd other swept⟩

/-- A step of the sweeper outside a pass. -/
theorem idle_passed (idle : ∀ j, p.sweeper ≠ .sweeping j) (swept : what ≠ .swept)
    (ticked : what = .tick → q.sweeper = .sweeping 0) : Passed what p q :=
  ⟨ticked, fun j here => absurd here (idle j), fun other => absurd other swept⟩

theorem acceptFails_signalled (p : Process) (kept : Signalled p) : Signalled p.acceptFails := by
  unfold Process.acceptFails
  split
  · rename_i reason
    refine ⟨kept.closed, fun _ => ?_⟩
    rcases Bool.or_eq_true_iff.mp reason with canceled | shut
    · exact canceled
    · exact kept.closed (by simpa using shut)
  · exact ⟨kept.closed, fun other => by cases other⟩

theorem step_took (taken : p.step env maxAlloc what = some (q,out)) :
    Took env maxAlloc p what q out := by
  unfold Process.step at taken
  split at taken
  · cases taken
  · cases what with
    | cancel =>
      obtain ⟨rfl,rfl⟩ := Prod.mk.inj (Option.some.inj taken)
      exact Took.aside rfl rfl rfl id (fun _ => ⟨fun _ => rfl, fun _ => rfl⟩) (same_passed rfl nofun nofun)
    | closeListener =>
      dsimp only at taken
      split at taken
      · rename_i canceled
        obtain ⟨rfl,rfl⟩ := Prod.mk.inj (Option.some.inj taken)
        exact Took.aside rfl rfl rfl id (fun kept => ⟨fun _ => canceled, kept.broken⟩)
          (same_passed rfl nofun nofun)
      · cases taken
    | accept =>
      dsimp only at taken
      split at taken
      · rename_i open_loop
        obtain ⟨⟨hub,more⟩,stepped,same⟩ := Option.map_eq_some_iff.mp taken
        obtain ⟨rfl,rfl⟩ := Prod.mk.inj same
        exact Took.served rfl stepped (fun _ => open_loop.1) fun other => by cases other
      · cases taken
    | acceptFails =>
      dsimp only at taken
      split at taken
      · rename_i accepting
        obtain ⟨rfl,rfl⟩ := Prod.mk.inj (Option.some.inj taken)
        have kept : p.acceptor = .broken → p.acceptFails.acceptor = .broken := by
          rw [accepting]
          intro other
          cases other
        refine Took.aside rfl ?_ ?_ kept (acceptFails_signalled p) (same_passed ?_ nofun nofun) <;>
          · unfold Process.acceptFails
            split <;> rfl
      · cases taken
    | serve event =>
      dsimp only at taken
      split at taken
      · rename_i allowed
        obtain ⟨⟨hub,more⟩,stepped,same⟩ := Option.map_eq_some_iff.mp taken
        obtain ⟨rfl,rfl⟩ := Prod.mk.inj same
        refine Took.served rfl stepped ?_ ?_
        · rintro rfl
          cases allowed
        · rintro rfl
          exact of_decide_eq_true allowed
      · cases taken
    | launch =>
      dsimp only at taken
      split at taken
      · rename_i entered
        obtain ⟨rfl,rfl⟩ := Prod.mk.inj (Option.some.inj taken)
        have idle : ∀ j, p.sweeper ≠ .sweeping j := by simp [entered]
        unfold Process.launch
        split
        · exact Took.aside rfl rfl rfl id (fun kept => ⟨kept.closed,kept.broken⟩)
            (idle_passed idle nofun nofun)
        · split
          · rename_i negative
            exact Took.crashed negative
          · exact Took.aside rfl rfl rfl id (fun kept => ⟨kept.closed,kept.broken⟩)
              (idle_passed idle nofun nofun)
      · cases taken
    | tick =>
      dsimp only at taken
      split at taken
      · rename_i waiting
        obtain ⟨rfl,rfl⟩ := Prod.mk.inj (Option.some.inj taken)
        exact Took.aside rfl rfl rfl id (fun kept => ⟨kept.closed,kept.broken⟩)
          (idle_passed (by simp [waiting]) nofun fun _ => rfl)
      · cases taken
    | sweep now order =>
      dsimp only at taken
      split at taken
      · rename_i i here
        obtain ⟨⟨store,reply⟩,stepped,same⟩ := Option.map_eq_some_iff.mp taken
        obtain ⟨rfl,rfl⟩ := Prod.mk.inj same
        exact Took.swept here stepped
      · cases taken
    | swept =>
      dsimp only at taken
      split at taken
      · rename_i through
        obtain ⟨rfl,rfl⟩ := Prod.mk.inj (Option.some.inj taken)
        refine Took.aside rfl rfl rfl id (fun kept => ⟨kept.closed,kept.broken⟩)
          ⟨nofun, ?_, fun _ => through⟩
        intro j here
        rw [through] at here
        cases here
        exact Or.inr rfl
      · cases taken
    | stop =>
      dsimp only at taken
      split at taken
      · rename_i waiting
        obtain ⟨rfl,rfl⟩ := Prod.mk.inj (Option.some.inj taken)
        exact Took.aside rfl rfl rfl id (fun kept => ⟨kept.closed,kept.broken⟩)
          (idle_passed (by simp [waiting.1]) nofun nofun)
      · cases taken

abbrev ProcessStep := Step Process Happening (List Command)

end ProcessModel
