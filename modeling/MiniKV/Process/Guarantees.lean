import MiniKV.Process.Process
import MiniKV.Server.Drain
import MiniKV.Server.Sections
import MiniKV.Server.Tallies
import MiniKV.Server.Transcript
import MiniKV.Store.Budget
import MiniKV.Store.SweepOrder

/- What the process guarantees in every run: to each connection its answers in order, to the
   store that nothing touches it without the token, to the operator the budget and the
   counters, and at the exit that the server is drained. -/
namespace ProcessModel
open MachineWord LruModel ShardModel StoreModel StoreFate StoreOverflow StoreBudget ShardInvariant
  StepRuns ProtocolModel ProtocolFraming ServerModel ServerLifecycle ServerPlaces ServerMoves
  ServerSlots ServerDrain ServerConversation ServerTallies ServerSections ServerTranscript

variable {env : Env} {maxAlloc : Nat} {p q : Process} {what : Happening} {out : List Command}

/-- The bytes that the steps brought to a connection. -/
def heard (i : Nat) (steps : List ProcessStep) : Text :=
  steps.flatMap fun x => (request x.input).elim [] (incoming i)

/-- The commands of a connection that the steps executed. -/
def executed (i : Nat) (steps : List ProcessStep) : List Command :=
  steps.flatMap fun x => if (request x.input).bind mover = some i then x.output else []

theorem heard_snoc (i : Nat) (steps : List ProcessStep) (x : ProcessStep) :
    heard i (steps ++ [x]) = heard i steps ++ (request x.input).elim [] (incoming i) := by
  simp [heard]

theorem executed_snoc (i : Nat) (steps : List ProcessStep) (x : ProcessStep) :
    executed i (steps ++ [x]) = executed i steps ++
      if (request x.input).bind mover = some i then x.output else [] := by
  simp [executed]

section Runs
variable {config : ConfigModel.Config} {now : Time} {steps : List ProcessStep}

/-- The state of the process that all its goroutines keep. -/
structure Sane (config : ConfigModel.Config) (maxAlloc : Nat) (steps : List ProcessStep)
    (p : Process) : Prop where
  talking : Talking maxAlloc (shardLimits config.store) config.shards.toNat config.authToken
    (fun i => heard i steps) (fun i => executed i steps) p.hub
  interval : p.cleanupInterval = config.cleanupInterval
  ordered : p.acceptor ≠ .broken → p.hub.shutdown = .uncalled

/-- The facts about a configuration that Load has returned. -/
theorem accepted_shape (accepted : config.validate = none) :
    (Store.new int64 config.store).shards.length = config.shards.toNat ∧
      0 ≤ config.cleanupInterval := by
  constructor
  · simp only [Store.new, ConfigModel.accepted_normal accepted, List.length_replicate]
    rfl
  · have passed := (ConfigModel.accepted_iff config).mp accepted
    simp only [ConfigModel.Config.checks, List.forall_mem_cons, decide_eq_false_iff_not] at passed
    exact Int.not_lt.mp passed.2.2.2.2.1

theorem step_uncalled {s t : Hub} {event : Event} (taken : s.step env maxAlloc event = some (t,out))
    (uncalled : s.shutdown = .uncalled) (other : event ≠ .shutdown) : t.shutdown = .uncalled := by
  cases step_cases taken with
  | moved i h h' pc pc' here moved => rw [(moved_shutdown moved).1, uncalled]
  | misused _ _ _ _ misused => rw [misused.down]; exact uncalled
  | started own same => rw [same]; exact uncalled
  | passed k own same => rw [same]; exact uncalled
  | wound wound =>
    cases wound with
    | shutdown => exact absurd rfl other
    | sleep _ called | drained _ called => exact absurd uncalled called
    | reused => exact uncalled
    | signal _ _ _ _ phase | close _ _ _ _ phase | signalled _ phase | expire _ phase
    | closedAll _ phase => cases uncalled.symm.trans phase
    | «return» _ expired phase => cases expired <;> cases uncalled.symm.trans phase

theorem start_sane (accepted : config.validate = none) (now : Time) :
    Sane config maxAlloc [] (.start config now) where
  talking := {
    serves := ⟨new_sound config.store, (accepted_shape accepted).1⟩
    guards := rfl
    calls := fun i h here => by cases here
    later := fun i _ => ⟨rfl,rfl⟩ }
  interval := rfl
  ordered := fun _ => rfl

/-- A step that brings nothing to a connection and executes nothing. -/
theorem silent_talking {limits : Limits} {n : Nat} {token : Text} {hub : Hub} (x : ProcessStep)
    (own : request x.input = none)
    (talking : Talking maxAlloc limits n token (fun i => heard i steps)
      (fun i => executed i steps) hub) :
    Talking maxAlloc limits n token (fun i => heard i (steps ++ [x]))
      (fun i => executed i (steps ++ [x])) hub := by
  simpa [heard_snoc, executed_snoc, own] using talking

theorem step_sane (accepted : config.validate = none) (routed : config.shards.toNat % 2 ^ 32 ≠ 0)
    (sane : Sane config maxAlloc steps p) (taken : p.step env maxAlloc what = some (q,out)) :
    Sane config maxAlloc (steps ++ [⟨p,what,out,q⟩]) q := by
  cases step_took taken with
  | @served _ event hub _ asked stepped accepts behind =>
    refine ⟨?_, sane.interval, ?_⟩
    · have next := step_talking sane.talking routed stepped
      simpa [heard_snoc, executed_snoc, asked] using next
    · intro unbroken
      exact step_uncalled stepped (sane.ordered unbroken) fun call => unbroken (behind call)
  | swept here stepped =>
    obtain ⟨sound,length⟩ := sane.talking.serves
    refine ⟨silent_talking ⟨p,_,[],_⟩ rfl ?_, sane.interval, sane.ordered⟩
    exact ⟨⟨step_sound sound stepped, (step_length stepped).trans length⟩, sane.talking.guards,
      sane.talking.calls, sane.talking.later⟩
  | crashed negative =>
    have positive := (accepted_shape accepted).2
    rw [sane.interval] at negative
    exact absurd negative (Int.not_lt.mpr positive)
  | aside own hub interval loop signal pass =>
    refine ⟨silent_talking ⟨p,what,[],q⟩ own ?_, interval.trans sane.interval, ?_⟩
    · rw [hub]
      exact sane.talking
    · intro unbroken
      rw [hub]
      exact sane.ordered fun broken => unbroken (loop broken)

theorem run_sane (accepted : config.validate = none) (routed : config.shards.toNat % 2 ^ 32 ≠ 0)
    (run : Run (Process.step env maxAlloc) (.start config now) steps p) :
    Sane config maxAlloc steps p :=
  run_invariant (fun steps p => Sane config maxAlloc steps p) (start_sane accepted now)
    (fun _ _ _ _ _ _ sane taken => step_sane accepted routed sane taken) run

/-- In every state of every run of the process, each connection has been sent one answer to
    each of the complete commands at the beginning of its own bytes that it has got through, in
    their order; what was executed for it are those commands. When the connection has ended,
    commands behind them stay unanswered, and there is one line more at most, or, after a write
    that failed, the last answer may be cut off. -/
theorem connections_answered_in_order (env : Env) (maxAlloc : Nat) (config : ConfigModel.Config)
    (now : Time) (accepted : config.validate = none) (routed : config.shards.toNat % 2 ^ 32 ≠ 0)
    (steps : List ProcessStep) (p : Process)
    (run : Run (Process.step env maxAlloc) (.start config now) steps p) (i : Nat) (h : Handler)
    (here : p.hub.calls[i]? = some h) :
    Connected maxAlloc config.authToken (heard i steps) (executed i steps) h :=
  (run_sane accepted routed run).talking.calls i h here

/-- A client that presents the token and stores a value, one that does not, and a pass of
    the sweeper between their steps; then the signal. -/
def guardedPair : ConfigModel.Config :=
  { ConfigModel.Config.default with shards := 2, authToken := [107], cleanupInterval := 1 }

def pairStep : Process → Happening → Option (Process × List Command) :=
  Process.step (fun _ => ⟨5,.asListed,0⟩) (2 ^ 48)

def enter (i : Nat) : List Happening := List.replicate 6 (.serve (.advance i))

def pairTalk : List Happening :=
  [.accept, .launch] ++ enter 0 ++ [.accept] ++ enter 1 ++
    [.serve (.receive 0 (text "auth k\r\nset a 0 ")), .serve (.receive 1 (text "get a\r\n")),
      .tick, .serve (.advance 0), .serve (.advance 1), .serve (.advance 0),
      .sweep 6 .asListed, .serve (.advance 1), .serve (.advance 0),
      .serve (.receive 0 (text "1\r\nx\r\n")), .serve (.advance 0), .serve (.advance 0),
      .sweep 7 .asListed, .swept, .cancel, .closeListener, .acceptFails]

theorem pair_answered_in_order : ∃ steps p, Run pairStep (.start guardedPair 0) steps p ∧
    steps.map Step.input = pairTalk ∧
    p.hub.calls.map Handler.output = [text "AUTHENTICATED\r\nSTORED\r\n",
      text "CLIENT_ERROR auth required\r\n"] ∧
    ∀ i h, p.hub.calls[i]? = some h →
      Connected (2 ^ 48) guardedPair.authToken (heard i steps) (executed i steps) h := by
  obtain ⟨steps,p,run,inputs,outputs⟩ := exec_shows
    (show (exec pairStep (.start guardedPair 0) pairTalk).map
      (fun run => run.2.hub.calls.map Handler.output) = some [text "AUTHENTICATED\r\nSTORED\r\n",
        text "CLIENT_ERROR auth required\r\n"] by decide)
  exact ⟨steps, p, run, inputs, outputs, connections_answered_in_order _ _ guardedPair 0 (by decide)
    (by decide) steps p run⟩

/-- In every state of every run of the process, a client that knows the operations of its
    commands can read all that it has been sent: an answer to each of the commands that have
    been answered, of a kind that fits it, and at most one line behind them, or the beginning
    of an answer where a write has failed. -/
theorem clients_read_their_answers (env : Env) (maxAlloc : Nat) (config : ConfigModel.Config)
    (now : Time) (accepted : config.validate = none) (routed : config.shards.toNat % 2 ^ 32 ≠ 0)
    (steps : List ProcessStep) (p : Process)
    (run : Run (Process.step env maxAlloc) (.start config now) steps p) (i : Nat) (h : Handler)
    (here : p.hub.calls[i]? = some h) :
    ∃ cs answers closing, Transcribed maxAlloc (heard i steps) h cs answers closing :=
  connected_transcribed ((run_sane accepted routed run).talking.calls i h here)

theorem pair_reads_answers : ∃ steps p, Run pairStep (.start guardedPair 0) steps p ∧
    steps.map Step.input = pairTalk ∧
    p.hub.calls.map (fun h => readAnswers [.auth, .set] h.output) =
      [some ([.line (text "AUTHENTICATED"), .line (text "STORED")],[]), none] ∧
    ∀ i h, p.hub.calls[i]? = some h →
      ∃ cs answers closing, Transcribed (2 ^ 48) (heard i steps) h cs answers closing := by
  obtain ⟨steps,p,run,inputs,outputs⟩ := exec_shows
    (show (exec pairStep (.start guardedPair 0) pairTalk).map
      (fun run => run.2.hub.calls.map fun h => readAnswers [.auth, .set] h.output) =
        some [some ([.line (text "AUTHENTICATED"), .line (text "STORED")],[]), none] by decide)
  exact ⟨steps, p, run, inputs, outputs, clients_read_their_answers _ _ guardedPair 0 (by decide)
    (by decide) steps p run⟩

/-- The first complete command of these bytes is auth with the token. -/
def Presented (maxAlloc : Nat) (token bytes : Text) : Prop :=
  ∃ c cs consumed rest, bytes = consumed ++ rest ∧ Commands maxAlloc consumed (c :: cs) ∧
    c.op = .auth ∧ c.token = token

theorem presented_more {token bytes : Text} (more : Text)
    (presented : Presented maxAlloc token bytes) : Presented maxAlloc token (bytes ++ more) := by
  obtain ⟨c,cs,consumed,rest,rfl,complete,right⟩ := presented
  exact ⟨c, cs, consumed, rest ++ more, List.append_assoc _ _ _, complete, right⟩

theorem answered_presented {token consumed answers rest : Text} {exchanges : List (Command × Text)}
    {done : List Command} {next : Option Bool}
    (answered : Answered maxAlloc token consumed exchanges done answers next)
    (guarded : token ≠ []) (some_done : done ≠ []) : Presented maxAlloc token (consumed ++ rest) := by
  obtain ⟨c,response,others,rfl,right⟩ := talk_admitted answered.talk guarded (Or.inl some_done)
  exact ⟨c, others.map Prod.fst, consumed, rest, rfl, answered.commands, right⟩

theorem connected_presented {token bytes : Text} {done : List Command} {h : Handler}
    (connected : Connected maxAlloc token bytes done h) (guarded : token ≠ [])
    (some_done : done ≠ []) : Presented maxAlloc token bytes := by
  cases connected with
  | fresh _ _ idle => exact absurd idle some_done
  | told _ _ idle => exact absurd idle some_done
  | waiting place answered bytes =>
    rw [bytes]
    exact answered_presented answered guarded some_done
  | busy place answered read bytes =>
    rw [bytes, List.append_assoc]
    exact answered_presented answered guarded some_done
  | ended _ answered _ _ bytes | cut _ answered _ _ _ bytes =>
    obtain ⟨rest,rfl⟩ := bytes
    exact answered_presented answered guarded some_done

theorem talking_presented {limits : Limits} {n : Nat} {token : Text} {hub : Hub}
    {bytes : Nat → Text} {done : Nat → List Command}
    (talking : Talking maxAlloc limits n token bytes done hub) (guarded : token ≠ []) (i : Nat)
    (some_done : done i ≠ []) : Presented maxAlloc token (bytes i) := by
  cases here : hub.calls[i]? with
  | none =>
    obtain ⟨_,idle⟩ := talking.later i (List.getElem?_eq_none_iff.mp here)
    exact absurd idle some_done
  | some h => exact connected_presented (talking.calls i h here) guarded some_done

theorem step_mover {s t : Hub} {event : Event} (taken : s.step env maxAlloc event = some (t,out))
    (some_out : out ≠ []) : ∃ i, mover event = some i := by
  cases step_cases taken with
  | moved i h h' pc pc' here moved => exact ⟨i, moved.mine⟩
  | misused _ _ _ _ _ quiet => exact absurd quiet some_out
  | started _ _ quiet => exact absurd quiet some_out
  | passed _ _ _ quiet => exact absurd quiet some_out
  | wound _ quiet => exact absurd quiet some_out

/-- A sweep of a store without items. -/
theorem sweep_new {store : Store} {reply : Reply} {work : Section}
    (sweep : work.call = .cleanupExpired)
    (taken : (Store.new int64 config.store).step work = some (store,reply)) :
    store = Store.new int64 config.store := by
  obtain ⟨i,sh,next,_,here,stepped,same⟩ := step_some_iff.mp taken
  obtain rfl : sh = freshShard config.store := List.eq_of_mem_replicate (List.mem_of_getElem? here)
  have idle : (freshShard config.store).cleanupExpired work.now work.order =
      (freshShard config.store,0) :=
    ShardSweepOrder.cleanupExpired_idle work.now work.order fun key p hit => by cases hit
  rw [sweep] at stepped
  simp only [Shard.step, idle, Option.some.injEq, Prod.mk.injEq] at stepped
  obtain ⟨rfl,counter,_⟩ := stepped
  cases store with
  | mk shards cas =>
    obtain rfl : (Store.new int64 config.store).cas = cas := counter
    have shape : shards = (Store.new int64 config.store).shards :=
      same.trans List.set_replicate_self
    rw [shape]

theorem run_untouched (accepted : config.validate = none)
    (routed : config.shards.toNat % 2 ^ 32 ≠ 0) (guarded : config.authToken ≠ [])
    (run : Run (Process.step env maxAlloc) (.start config now) steps p) :
    (∀ i, ¬ Presented maxAlloc config.authToken (heard i steps)) →
      p.hub.server.store = Store.new int64 config.store := by
  refine run_invariant (fun steps p => (∀ i, ¬ Presented maxAlloc config.authToken
    (heard i steps)) → p.hub.server.store = Store.new int64 config.store) (fun _ => rfl) ?_ run
  intro steps p what q out prior ih taken absent
  have sane := run_sane accepted routed prior
  have next := step_sane accepted routed sane taken
  have before : p.hub.server.store = Store.new int64 config.store := by
    apply ih
    intro i presented
    apply absent i
    rw [heard_snoc]
    exact presented_more _ presented
  cases step_took taken with
  | @served _ event hub _ asked stepped accepts behind =>
    by_cases quiet : out = []
    · exact ((step_passes sane.talking stepped).idle quiet).trans before
    · -- A command was executed, so its connection has presented the token.
      obtain ⟨i,mine⟩ := step_mover stepped quiet
      refine absurd (talking_presented next.talking guarded i ?_) (absent i)
      rw [executed_snoc]
      simp [asked, mine, quiet]
  | swept here stepped =>
    rw [before] at stepped
    exact sweep_new rfl stepped
  | crashed => exact before
  | aside own hub => rw [hub]; exact before

/-- With a token configured, a connection has a command executed only if its first command
    presented the token, and as long as no connection has done so the store is the empty one
    that New returned. -/
theorem store_opens_behind_token (env : Env) (maxAlloc : Nat) (config : ConfigModel.Config)
    (now : Time) (accepted : config.validate = none) (routed : config.shards.toNat % 2 ^ 32 ≠ 0)
    (guarded : config.authToken ≠ []) (steps : List ProcessStep) (p : Process)
    (run : Run (Process.step env maxAlloc) (.start config now) steps p) :
    (∀ i, executed i steps ≠ [] → Presented maxAlloc config.authToken (heard i steps)) ∧
      ((∀ i, ¬ Presented maxAlloc config.authToken (heard i steps)) →
        p.hub.server.store = Store.new int64 config.store) :=
  ⟨talking_presented (run_sane accepted routed run).talking guarded,
    run_untouched accepted routed guarded run⟩

theorem pair_opens_behind_token : ∃ steps p, Run pairStep (.start guardedPair 0) steps p ∧
    steps.map Step.input = pairTalk ∧
    (executed 0 steps).map Command.op = [.set] ∧ executed 1 steps = [] ∧
    Presented (2 ^ 48) guardedPair.authToken (heard 0 steps) := by
  obtain ⟨steps,p,run,inputs,shown⟩ := exec_shows
    (show (exec pairStep (.start guardedPair 0) pairTalk).map
      (fun run => ((executed 0 run.1).map Command.op, executed 1 run.1)) = some ([.set],[]) by decide)
  obtain ⟨first,second⟩ := Prod.mk.inj shown
  obtain ⟨presented,_⟩ := store_opens_behind_token _ _ guardedPair 0 (by decide) (by decide)
    (by decide) steps p run
  refine ⟨steps, p, run, inputs, first, second, presented 0 ?_⟩
  intro idle
  rw [idle] at first
  cases first

/-- The store of a process has come through critical sections for keys that the parser
    accepts. -/
theorem run_works (accepted : config.validate = none)
    (routed : config.shards.toNat % 2 ^ 32 ≠ 0)
    (run : Run (Process.step env maxAlloc) (.start config now) steps p) :
    ∃ works : List StoreStep, Run Store.step (Store.new int64 config.store) works
      p.hub.server.store ∧ ∀ x ∈ works, ∀ key, x.input.call.key = some key → key.length ≤ 250 := by
  refine run_invariant (fun _ p => ∃ works : List StoreStep,
    Run Store.step (Store.new int64 config.store) works p.hub.server.store ∧
      ∀ x ∈ works, ∀ key, x.input.call.key = some key → key.length ≤ 250)
    ⟨[], Run.nil, fun _ mem => by cases mem⟩ ?_ run
  rintro steps p what q out prior ⟨works,before,short⟩ taken
  have sane := run_sane accepted routed prior
  cases step_took taken with
  | served asked stepped =>
    obtain ⟨_,more,after,fit⟩ := (step_passes sane.talking stepped).through
    refine ⟨works ++ more, run_append before after, ?_⟩
    intro x mem
    rcases List.mem_append.mp mem with old | new
    · exact short x old
    · exact (fit x new).named
  | swept here stepped =>
    refine ⟨_, Run.snoc before stepped, ?_⟩
    intro x mem
    rcases List.mem_append.mp mem with old | new
    · exact short x old
    · rw [List.mem_singleton.mp new]
      intro key other
      cases other
  | crashed => exact ⟨works,before,short⟩
  | aside own hub => rw [hub]; exact ⟨works,before,short⟩

/-- Whatever clients, sweeper and shutdown do, every shard represents its items soundly, and
    the accounted bytes stay within the budget, or within one byte a shard where the shards
    outnumber the bytes. -/
theorem process_keeps_books (env : Env) (maxAlloc : Nat) (config : ConfigModel.Config)
    (now : Time) (accepted : config.validate = none) (routed : config.shards.toNat % 2 ^ 32 ≠ 0)
    (range : Ranged (shardLimits config.store) 250) (steps : List ProcessStep) (p : Process)
    (run : Run (Process.step env maxAlloc) (.start config now) steps p) :
    (∀ sh ∈ p.hub.server.store.shards, ∃ nodes, Representation sh nodes) ∧
      p.hub.server.store.memoryBytes int64 ≤ max config.maxMemoryBytes config.shards := by
  obtain ⟨works,through,short⟩ := run_works accepted routed run
  have books := run_ranged_books range through short
  refine ⟨books_represent (normalize_positive config.store).2.2.1 books, ?_⟩
  exact books_within accepted (run_sane accepted routed run).talking.serves.2 books

theorem pair_keeps_books : ∃ steps p, Run pairStep (.start guardedPair 0) steps p ∧
    steps.map Step.input = pairTalk ∧ Ranged (shardLimits guardedPair.store) 250 ∧
    (∀ sh ∈ p.hub.server.store.shards, ∃ nodes, Representation sh nodes) ∧
    p.hub.server.store.memoryBytes int64 ≤ max guardedPair.maxMemoryBytes guardedPair.shards := by
  obtain ⟨steps,p,run,inputs,_⟩ := exec_shows
    (show (exec pairStep (.start guardedPair 0) pairTalk).map (fun _ => ()) = some () by decide)
  exact ⟨steps, p, run, inputs, by decide, process_keeps_books _ _ guardedPair 0 (by decide)
    (by decide) (by decide) steps p run⟩

/-- The commands that a step counts. -/
def notedAt (x : ProcessStep) : List Command :=
  (request x.input).elim [] fun event => noted x.before.hub event x.output

/-- A step that refuses a token. -/
def deniedAt (x : ProcessStep) : Bool :=
  (request x.input).elim false (denied x.before.hub)

/-- A step that answers bad command. -/
def malformedAt (maxAlloc : Nat) (x : ProcessStep) : Bool :=
  (request x.input).elim false (malformed maxAlloc x.before.hub)

/-- What the counters are after these steps. -/
structure Reported (maxAlloc : Nat) (steps : List ProcessStep) (n : Counters) : Prop where
  commands : ∀ op, n.commands op = amount op (steps.flatMap notedAt)
  failures : n.authFailures = UInt64.ofNat (steps.countP deniedAt)
  errors : n.clientErrors = UInt64.ofNat (steps.countP (malformedAt maxAlloc))

theorem amount_append (op : Op) (cs ds : List Command) :
    amount op (cs ++ ds) = amount op cs + amount op ds := by
  simp [amount, List.countP_append, UInt64.ofNat_add]

theorem count_snoc (count : ProcessStep → Bool) (steps : List ProcessStep) (x : ProcessStep) :
    UInt64.ofNat ((steps ++ [x]).countP count) =
      UInt64.ofNat (steps.countP count) + UInt64.ofNat (count x).toNat := by
  rw [List.countP_append, UInt64.ofNat_add]
  cases hit : count x <;> simp [hit]

theorem reported_served {event : Event} {hub : Hub} (asked : request what = some event)
    (reported : Reported maxAlloc steps p.hub.server.counters)
    (counted : Counted maxAlloc event p.hub hub.server out) :
    Reported maxAlloc (steps ++ [⟨p,what,out,q⟩]) hub.server.counters := by
  refine ⟨?_, ?_, ?_⟩
  · intro op
    rw [counted.commands, reported.commands, List.flatMap_append, amount_append]
    simp [notedAt, asked]
  · rw [counted.failures, reported.failures, count_snoc]
    simp [deniedAt, asked]
  · rw [counted.errors, reported.errors, count_snoc]
    simp [malformedAt, asked]

theorem reported_aside (own : request what = none) {n : Counters}
    (reported : Reported maxAlloc steps n) :
    Reported maxAlloc (steps ++ [⟨p,what,out,q⟩]) n := by
  refine ⟨?_, ?_, ?_⟩
  · intro op
    rw [reported.commands, List.flatMap_append]
    simp [notedAt, own]
  · rw [reported.failures, count_snoc]
    simp [deniedAt, own]
  · rw [reported.errors, count_snoc]
    simp [malformedAt, own]

/-- The operator's counters are exact modulo 2 ^ 64 in every state of every run: each counter
    of commands is the number of commands of its kind that were executed, or presented where
    it is auth, the auth failures are the tokens refused, and the client errors are the
    requests answered as bad commands. -/
theorem counters_report_the_run (env : Env) (maxAlloc : Nat) (config : ConfigModel.Config)
    (now : Time) (accepted : config.validate = none) (routed : config.shards.toNat % 2 ^ 32 ≠ 0)
    (steps : List ProcessStep) (p : Process)
    (run : Run (Process.step env maxAlloc) (.start config now) steps p) :
    Reported maxAlloc steps p.hub.server.counters := by
  refine run_invariant (fun steps p => Reported maxAlloc steps p.hub.server.counters)
    ⟨fun op => by cases op <;> rfl, rfl, rfl⟩ ?_ run
  intro steps p what q out prior ih taken
  have talking := (run_sane accepted routed prior).talking
  cases step_took taken with
  | served asked stepped =>
    refine reported_served asked ih (step_counted stepped ?_)
    intro i h c here place flag
    obtain ⟨_,_,_,answered,_⟩ := connected_busy (talking.calls i h here) (by rw [place]; rfl)
    rw [talking.guards]
    rw [flag] at answered
    exact (talk_flag answered.talk rfl).1
  | swept here stepped => exact reported_aside rfl ih
  | crashed => exact reported_aside rfl ih
  | aside own hub =>
    rw [hub]
    exact reported_aside own ih

theorem pair_reports : ∃ steps p, Run pairStep (.start guardedPair 0) steps p ∧
    steps.map Step.input = pairTalk ∧ p.hub.server.counters.cmdAuth = 1 ∧
    p.hub.server.counters.cmdSet = 1 ∧ p.hub.server.counters.cmdGet = 0 ∧
    Reported (2 ^ 48) steps p.hub.server.counters := by
  obtain ⟨steps,p,run,inputs,shown⟩ := exec_shows
    (show (exec pairStep (.start guardedPair 0) pairTalk).map (fun run =>
      (run.2.hub.server.counters.cmdAuth, run.2.hub.server.counters.cmdSet,
        run.2.hub.server.counters.cmdGet)) = some (1,1,0) by decide)
  simp only [Prod.mk.injEq] at shown
  exact ⟨steps, p, run, inputs, shown.1, shown.2.1, shown.2.2, counters_report_the_run _ _
    guardedPair 0 (by decide) (by decide) steps p run⟩

/-- No call is on the way to the Add of the wait group when Wait comes back. -/
def NoneOnTheWay (x : ProcessStep) : Prop :=
  request x.input = some .drained → ∀ pc ∈ places x.before.hub, early pc = false

instance (x : ProcessStep) : Decidable (NoneOnTheWay x) := inferInstanceAs (Decidable (_ → _))

theorem step_signalled (signalled : Signalled p) (taken : p.step env maxAlloc what = some (q,out)) :
    Signalled q := by
  cases step_took taken with
  | served => exact ⟨signalled.closed,signalled.broken⟩
  | swept => exact ⟨signalled.closed,signalled.broken⟩
  | crashed => exact ⟨signalled.closed,signalled.broken⟩
  | aside _ _ _ _ signal => exact signal signalled

theorem start_winds_down (config : ConfigModel.Config) (now : Time) :
    Waited (Process.start config now).hub ∧ Signalled (.start config now) where
  left := {
    tallied := new_tallied _ _ _ _ _
    gone := fun done => by cases done
    called := fun done => by cases done
    returned := fun _ returned => by cases returned }
  right := {
    closed := fun shut => by cases shut
    broken := fun left_loop => by cases left_loop }

theorem run_winds_down (accepted : config.validate = none)
    (routed : config.shards.toNat % 2 ^ 32 ≠ 0)
    (run : Run (Process.step env maxAlloc) (.start config now) steps p) :
    (∀ x ∈ steps, NoneOnTheWay x) → Waited p.hub ∧ Signalled p := by
  refine run_invariant (fun steps p => (∀ x ∈ steps, NoneOnTheWay x) → Waited p.hub ∧ Signalled p)
    (fun _ => start_winds_down config now) ?_ run
  intro steps p what q out prior ih taken late
  obtain ⟨waited,signalled⟩ := ih fun x mem => late x (by simp [mem])
  have sane := run_sane accepted routed prior
  refine ⟨?_, step_signalled signalled taken⟩
  cases step_took taken with
  | served asked stepped accepts =>
    refine step_waited waited stepped ?_ ?_
    · intro start
      apply sane.ordered
      rw [accepts start]
      exact fun other => by cases other
    · rintro rfl
      exact late _ (List.mem_append_right _ (List.mem_singleton_self _)) asked
  | swept here stepped =>
    exact ⟨aside_tallied waited.tallied ⟨rfl,rfl,rfl⟩, waited.gone, waited.called, waited.returned⟩
  | crashed =>
    exact ⟨aside_tallied waited.tallied ⟨rfl,rfl,rfl⟩, waited.gone, waited.called, waited.returned⟩
  | aside own hub =>
    rw [hub]
    exact waited

/-- The connection was turned away, or all of it that was executed has been answered, to the
    end or to where a write has failed. -/
def Settled (maxAlloc : Nat) (token bytes : Text) (done : List Command) (h : Handler) : Prop :=
  outcast h.pc = true ∨
    ∃ consumed answers exchanges next, consumed <+: bytes ∧
      Answered maxAlloc token consumed exchanges done answers next ∧
      (answers <+: h.output ∨ h.result = some .unwritten ∧ h.output <+: answers)

theorem gone_settled {token bytes : Text} {done : List Command} {h : Handler}
    (connected : Connected maxAlloc token bytes done h) (past_done : gone h.pc = true) :
    Settled maxAlloc token bytes done h := by
  by_cases away : outcast h.pc = true
  · exact Or.inl away
  · have past : phase h.pc = .past := by
      revert past_done away
      cases h.pc <;> simp [gone, outcast, phase]
    cases connected with
    | fresh place | told place | waiting place | busy place => rw [past] at place; cases place
    | ended place answered output closing bytes =>
      exact Or.inr ⟨_, _, _, _, bytes, answered, Or.inl (output ▸ List.prefix_append _ _)⟩
    | cut place answered output sent unwritten bytes =>
      refine Or.inr ⟨_, _, _, _, bytes, answered, Or.inr ⟨unwritten, ?_⟩⟩
      rw [output]
      exact (List.prefix_append_right_inj _).mpr sent

/-- Run returns nil only after a signal, with the server drained and every served connection
    answered for all that was executed on it, as far as its writes have succeeded; unless a call
    had been started and was still on the way to the Add of the wait group when Wait came
    back. -/
theorem exit_is_drained (env : Env) (maxAlloc : Nat) (config : ConfigModel.Config)
    (now : Time) (accepted : config.validate = none) (routed : config.shards.toNat % 2 ^ 32 ≠ 0)
    (steps : List ProcessStep) (p : Process)
    (run : Run (Process.step env maxAlloc) (.start config now) steps p)
    (late : ∀ x ∈ steps, NoneOnTheWay x) (expired : Bool)
    (returned : p.hub.shutdown = .returned expired) :
    p.canceled = true ∧ Drained p.hub ∧ ∀ i h, p.hub.calls[i]? = some h →
      Settled maxAlloc config.authToken (heard i steps) (executed i steps) h := by
  have sane := run_sane accepted routed run
  obtain ⟨waited,signalled⟩ := run_winds_down accepted routed run late
  have drained := waited_drained waited (waited.returned expired returned)
  refine ⟨?_, drained, ?_⟩
  · apply signalled.broken
    by_contra unbroken
    rw [sane.ordered unbroken] at returned
    cases returned
  · intro i h here
    refine gone_settled (sane.talking.calls i h here) (drained.gone h.pc ?_)
    exact List.mem_map_of_mem (List.mem_of_getElem? here)

/-- The rest of the talk: Shutdown signals the connections, the one that reads gets its
    timeout, and both return. -/
def pairExit : List Happening :=
  pairTalk ++ ([.advance 0, .shutdown, .signal 0, .signal 1, .signalled, .interrupt 0 .timeout,
    .advance 1, .advance 1, .advance 1, .advance 1, .advance 1, .advance 0, .advance 0, .advance 0,
    .advance 0, .drained, .return] : List Event).map Happening.serve

theorem pair_exits : ∃ steps p, Run pairStep (.start guardedPair 0) steps p ∧
    steps.map Step.input = pairExit ∧ (∀ x ∈ steps, NoneOnTheWay x) ∧
    p.hub.shutdown = .returned false ∧ Drained p.hub ∧ ∀ i h, p.hub.calls[i]? = some h →
      Settled (2 ^ 48) guardedPair.authToken (heard i steps) (executed i steps) h := by
  obtain ⟨steps,p,run,inputs,shown⟩ := exec_shows
    (show (exec pairStep (.start guardedPair 0) pairExit).map (fun run =>
      (run.2.hub.shutdown, decide (∀ x ∈ run.1, NoneOnTheWay x))) = some (.returned false,true)
      by decide)
  obtain ⟨returned,onTheWay⟩ := Prod.mk.inj shown
  have late := of_decide_eq_true onTheWay
  obtain ⟨_,drained,settled⟩ := exit_is_drained _ _ guardedPair 0 (by decide) (by decide) steps p
    run late false returned
  exact ⟨steps, p, run, inputs, late, returned, drained, settled⟩

end Runs
end ProcessModel
