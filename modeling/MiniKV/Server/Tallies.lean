import MiniKV.Server.Conversation

/- The operator's counters of commands and of refusals. Each of them is raised at one place of
   the code; along a run it is the number of steps at that place, whichever connections take
   them. -/
namespace ServerTallies
open MachineWord LruModel ShardModel StoreModel ProtocolModel ServerModel ServerSession
  ServerLifecycle ServerPlaces ServerMoves ServerConversation

def commandAt (s : Hub) (i : Nat) : Option Command :=
  s.calls[i]?.bind fun h =>
    match h.pc with
    | .executing c => some c
    | _ => none

/-- The command that a call handles at a step, whether or not its answer can be sent. -/
def handles (s : Hub) : Event → Option Command
  | .advance i => commandAt s i
  | .lose i _ => commandAt s i
  | _ => none

/-- The error with which ReadCommand comes back at a step, and whether it is a timeout. -/
def fails (maxAlloc : Nat) (s : Hub) : Event → Option (Failure × Bool)
  | .advance i => s.calls[i]?.bind fun h =>
    if h.pc = .reading then
      match readCommand maxAlloc ⟨h.received,.fault⟩ with
      | (.error failure, _) => some (failure, false)
      | _ => none
    else none
  | .interrupt i cause => s.calls[i]?.bind fun h =>
    match readCommand maxAlloc ⟨h.received,if cause = .eof then .eof else .fault⟩ with
    | (.error failure, _) => some (failure, decide (cause = .timeout))
    | _ => none
  | _ => none

def isAuth (c : Command) : Bool := decide (c.op = .auth)

/-- The commands that a step counts: those it executes, and an auth command. -/
def noted (s : Hub) (event : Event) (out : List Command) : List Command :=
  out ++ (handles s event).toList.filter isAuth

/-- How many of the commands have an operation, as a counter has it. -/
def amount (op : Op) (cs : List Command) : UInt64 := UInt64.ofNat (cs.countP fun c => c.op = op)

def denied (s : Hub) (event : Event) : Bool :=
  match handles s event with
  | some c => decide (c.op = .auth ∧ c.token ≠ s.server.authToken ∧ s.server.authToken ≠ [])
  | none => false

/-- An error that is answered as a bad command. -/
def isBad : Failure → Bool → Bool
  | .protocol _, _ => true
  | .fault, timeout => !timeout
  | .eof, _ => false
  | .panic, _ => false

def malformed (maxAlloc : Nat) (s : Hub) (event : Event) : Bool :=
  (fails maxAlloc s event).any fun failed => isBad failed.1 failed.2

/-- What one step adds to the counters. -/
structure Counted (maxAlloc : Nat) (event : Event) (s : Hub) (server : Server) (out : List Command) :
    Prop where
  commands : ∀ op, server.counters.commands op = s.server.counters.commands op +
    amount op (noted s event out)
  failures : server.counters.authFailures = s.server.counters.authFailures +
    UInt64.ofNat (denied s event).toNat
  errors : server.counters.clientErrors = s.server.counters.clientErrors +
    UInt64.ofNat (malformed maxAlloc s event).toNat

variable {env : Env} {maxAlloc i : Nat} {s t : Hub} {h h' : Handler} {event : Event}
  {out : List Command} {c : Command} {server : Server}

/-- The counters of commands and refusals. -/
def tallies (n : Counters) : (Op → UInt64) × UInt64 × UInt64 :=
  (n.commands,n.authFailures,n.clientErrors)

/-- A step at none of the places. -/
theorem counted_quiet (same : tallies server.counters = tallies s.server.counters)
    (unhandled : handles s event = none) (unfailed : fails maxAlloc s event = none) :
    Counted maxAlloc event s server [] := by
  obtain ⟨commands,rest⟩ := Prod.mk.inj same
  obtain ⟨failures,errors⟩ := Prod.mk.inj rest
  constructor
  · intro op
    rw [commands, noted, unhandled]
    simp [amount]
  · rw [failures, denied, unhandled]
    simp
  · rw [errors, malformed, unfailed]
    simp

theorem commands_counted (n : Counters) (op other : Op) (plain : op ≠ .auth) :
    (n.countCommand op).commands other = n.commands other + if op = other then 1 else 0 := by
  cases op with
  | auth => exact absurd rfl plain
  | get | set | delete | incr | mget | gets | cas | stats | ping =>
    cases other <;> simp [Counters.commands, Counters.countCommand]

theorem commands_auth (n : Counters) (other : Op) :
    (countAuth n).commands other = n.commands other + if .auth = other then 1 else 0 := by
  cases other <;> simp [Counters.commands, countAuth]

theorem amount_one (op : Op) (c : Command) : amount op [c] = if c.op = op then 1 else 0 := by
  by_cases own : c.op = op <;> simp [amount, own]

theorem auth_counted (n : Counters) (auth : c.op = .auth) (op : Op) :
    (countAuth n).commands op = n.commands op + amount op ([] ++ [c].filter isAuth) := by
  have whole : [c].filter isAuth = [c] := by simp [isAuth, auth]
  rw [List.nil_append, whole, amount_one, auth]
  exact commands_auth n op

theorem countCommand_rest (n : Counters) (op : Op) :
    (n.countCommand op).authFailures = n.authFailures ∧
      (n.countCommand op).clientErrors = n.clientErrors := by
  cases op <;> exact ⟨rfl, rfl⟩

theorem handled_counted {s : Server} {admitted : Bool} {move : Move}
    (handled : Handled env s admitted c move) :
    (∀ op, move.server.counters.commands op =
      s.counters.commands op + amount op (move.executed ++ [c].filter isAuth)) ∧
    move.server.counters.authFailures = s.counters.authFailures + UInt64.ofNat
      (decide (c.op = .auth ∧ c.token ≠ s.authToken ∧ s.authToken ≠ [])).toNat ∧
    move.server.counters.clientErrors = s.counters.clientErrors := by
  cases handled with
  | refused plain => simp [plain, isAuth, amount]
  | denied auth wrong guarded =>
    refine ⟨auth_counted s.counters auth, ?_, rfl⟩
    rw [decide_eq_true ⟨auth,wrong,guarded⟩]
    rfl
  | unneeded auth unguarded =>
    refine ⟨auth_counted s.counters auth, ?_, rfl⟩
    rw [decide_eq_false fun both => both.2.2 unguarded]
    exact (UInt64.add_zero _).symm
  | admitted auth right guarded =>
    refine ⟨auth_counted s.counters auth, ?_, rfl⟩
    rw [decide_eq_false fun both => both.2.1 right]
    exact (UInt64.add_zero _).symm
  | @executed _ server _ plain done own answered left =>
    have counters : done.server.counters = s.counters.countCommand c.op := by
      rw [own]
      exact execute_counters env _ c
    obtain ⟨failures,errors⟩ := countCommand_rest s.counters c.op
    have none_auth : [c].filter isAuth = [] := by simp [isAuth, plain]
    have whole : tallies server.counters = tallies (s.counters.countCommand c.op) := by
      rw [← counters]
      rcases left with rfl | rfl <;> rfl
    obtain ⟨commands,rest⟩ := Prod.mk.inj whole
    obtain ⟨failed,erred⟩ := Prod.mk.inj rest
    refine ⟨?_, ?_, erred.trans errors⟩
    · intro op
      rw [none_auth, List.append_nil, amount_one]
      exact (congrFun commands op).trans (commands_counted s.counters c.op op plain)
    · rw [decide_eq_false fun both => plain both.1]
      exact (failed.trans failures).trans (UInt64.add_zero _).symm

/-- A call on the way to its loop or from it leaves these counters alone. -/
theorem booking_tallies (pc : Pc) (n : Counters) : tallies (booking pc n) = tallies n := by
  cases pc <;> rfl

theorem reads_fails {ending : Ending} {timeout : Bool} (here : s.calls[i]? = some h)
    (place : h.pc = .reading) (reads : Reads maxAlloc i h event ending timeout) :
    handles s event = none ∧
      fails maxAlloc s event = match readCommand maxAlloc ⟨h.received,ending⟩ with
        | (.error failure, _) => some (failure, timeout)
        | _ => none := by
  cases reads with
  | ready => exact ⟨by simp [handles, commandAt, here, place], by simp [fails, here, place]⟩
  | failed cause => exact ⟨rfl, by simp [fails, here]⟩

theorem readError_counters (timeout : Bool) (x : Session) (failure : Failure) :
    (x.handleReadError timeout failure).1.server.counters =
      if isBad failure timeout then countClientError x.server.counters else x.server.counters := by
  cases failure <;> cases timeout <;> rfl

theorem failed_counted {r : Reader} {timeout : Bool} {failure : Failure}
    (unhandled : handles s event = none) (failed : fails maxAlloc s event = some (failure,timeout)) :
    Counted maxAlloc event s ((s.session h r).handleReadError timeout failure).1.server [] := by
  have counters := readError_counters timeout (s.session h r) failure
  constructor
  · intro op
    rw [noted, unhandled, counters]
    split <;> simp [amount, Hub.session, Counters.commands, countClientError]
  · rw [denied, unhandled, counters]
    split <;> simp [Hub.session, countClientError]
  · rw [malformed, failed, counters, Option.any_some]
    split <;> simp_all [Hub.session, countClientError]

/-- A call at a command, whose answer may be lost. -/
theorem busy_counted (handled : handles s event = some c) (unfailed : fails maxAlloc s event = none)
    (commands : ∀ op, server.counters.commands op =
      s.server.counters.commands op + amount op (out ++ [c].filter isAuth))
    (failures : server.counters.authFailures = s.server.counters.authFailures + UInt64.ofNat
      (decide (c.op = .auth ∧ c.token ≠ s.server.authToken ∧ s.server.authToken ≠ [])).toNat)
    (errors : server.counters.clientErrors = s.server.counters.clientErrors) :
    Counted maxAlloc event s server out := by
  constructor
  · intro op
    rw [noted, handled]
    exact commands op
  · rw [denied, handled]
    exact failures
  · rw [malformed, unfailed]
    exact errors.trans (UInt64.add_zero _).symm

/-- The lookups that a failed write leaves out are not counted. -/
theorem trimmed_counted {move : Move} {admitted : Bool} {keys : Nat}
    (handled : Handled env server admitted { c with keys := c.keys.take keys } move)
    (ran : move.executed ≠ []) : c.op ≠ .auth ∧ ∀ op, amount op move.executed = amount op [c] := by
  cases handled with
  | refused | denied | unneeded | admitted => exact absurd rfl ran
  | executed plain =>
    refine ⟨plain, fun op => ?_⟩
    rw [amount_one, amount_one]

theorem deed_counted (here : s.calls[i]? = some h)
    (deed : Deed env maxAlloc s i h event h' server out)
    (closed : h.authenticated = false → (∃ c, h.pc = .executing c) → s.server.authToken ≠ []) :
    Counted maxAlloc event s server out := by
  cases deed with
  | @walked pc way next =>
    refine counted_quiet (booking_tallies pc s.server.counters) ?_ ?_
    · cases place : h.pc with
      | executing c => rw [place] at way; cases way
      | _ => simp [handles, commandAt, here, place]
    · have awake : h.pc ≠ .reading := by
        intro place
        rw [place] at way
        cases way
      simp [fails, here, awake]
  | received => exact counted_quiet rfl rfl rfl
  | found place reads read =>
    obtain ⟨unhandled,failed⟩ := reads_fails here place reads
    rw [read] at failed
    exact counted_quiet rfl unhandled failed
  | failed place reads read =>
    obtain ⟨unhandled,failed⟩ := reads_fails here place reads
    rw [read] at failed
    exact failed_counted unhandled failed
  | @handled c place =>
    obtain ⟨commands,failures,errors⟩ := handled_counted
      (handle_cases env s.server h.authenticated c fun shut => closed shut ⟨c,place⟩)
    exact busy_counted (by simp [handles, commandAt, here, place]) (by simp [fails, here, place])
      commands failures errors
  | @unflushed c sent place =>
    obtain ⟨commands,failures,errors⟩ := handled_counted
      (handle_cases env s.server h.authenticated c fun shut => closed shut ⟨c,place⟩)
    exact busy_counted (by simp [handles, commandAt, here, place]) rfl commands failures errors
  | @unwritten c keys sent move place tried ran answered =>
    have handled := handle_cases env s.server h.authenticated { c with keys := c.keys.take keys }
      fun shut => closed shut ⟨c,place⟩
    rw [← tried] at handled
    obtain ⟨commands,failures,errors⟩ := handled_counted handled
    obtain ⟨plain,same⟩ := trimmed_counted handled ran
    refine busy_counted (c := c) (by simp [handles, commandAt, here, place]) rfl ?_ failures errors
    intro op
    have unlisted : ∀ d : Command, d.op = c.op → [d].filter isAuth = [] := by
      intro d own
      simp [isAuth, own, plain]
    have counted := commands op
    rw [unlisted { c with keys := c.keys.take keys } rfl, List.append_nil, same op] at counted
    rw [unlisted c rfl, List.append_nil]
    exact counted

/-- One step of the whole. -/
theorem step_counted (taken : s.step env maxAlloc event = some (t,out))
    (closed : ∀ (i : Nat) (h : Handler) (c : Command), s.calls[i]? = some h →
      h.pc = .executing c → h.authenticated = false → s.server.authToken ≠ []) :
    Counted maxAlloc event s t.server out := by
  cases step_cases taken with
  | moved i h h' pc pc' here moved deed =>
    exact deed_counted here deed fun shut busy =>
      busy.elim fun c place => closed i h c here place shut
  | misused i h here own misused quiet =>
    rw [own, misused.down, quiet]
    exact counted_quiet rfl (by simp [handles, commandAt, here, misused.place])
      (by simp [fails, here, misused.place])
  | started own same quiet =>
    rw [own, same, quiet]
    exact counted_quiet rfl rfl rfl
  | passed _ own same quiet =>
    rw [own, same, quiet]
    exact counted_quiet rfl rfl rfl
  | wound wound quiet =>
    rw [quiet]
    cases wound <;> exact counted_quiet rfl rfl rfl

end ServerTallies
