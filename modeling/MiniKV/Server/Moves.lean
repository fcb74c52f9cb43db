import MiniKV.Lib.StepRuns
import MiniKV.Protocol.Framing
import MiniKV.Server.Places

/- What a step of the whole can do. A call takes a step of its own: what the calls share is
   booked for the places that it leaves and enters, and the call walks on, receives, reads,
   handles a command or loses an answer; or a call starts, time passes, Shutdown goes on, or an
   Add finds the waiter of Shutdown asleep over a counter of zero. -/
namespace ServerMoves
open MachineWord LruModel ShardModel StoreModel ProtocolModel ProtocolFraming ServerModel
  ServerLifecycle ServerPlaces

variable {env : Env} {maxAlloc i : Nat} {s t : Hub} {h h' : Handler} {event : Event}
  {out : List Command} {c : Command} {pc pc' : Pc}

def lines (n : Counters) : UInt64 × Int × UInt64 :=
  (n.connectionsOpened,n.connectionsActive,n.connectionsRejected)

section Frames
variable {s t : Server} {c : Command}

theorem call_counters {call : Call} {reply : Reply} (done : s.call env call = some (t,reply)) :
    t.counters = s.counters := by
  obtain ⟨_,_,same⟩ := Option.map_eq_some_iff.mp done
  obtain ⟨rfl,_⟩ := Prod.mk.inj same
  rfl

theorem answerWrite_counters (named : StoreError → Option String) (call : Call) (s : Server) :
    (answerWrite named (s.call env call) s).server.counters = s.counters := by
  cases done : s.call env call with
  | none => rfl
  | some result =>
    obtain ⟨t,reply⟩ := result
    have kept := call_counters done
    unfold answerWrite
    split
    · rename_i same
      obtain ⟨rfl,_⟩ := Prod.mk.inj (Option.some.inj same)
      exact kept
    · rename_i same
      obtain ⟨rfl,_⟩ := Prod.mk.inj (Option.some.inj same)
      split <;> exact kept
    · rfl

theorem values_counters (line : Text → Item → Text) (keys : List Text) (s : Server) :
    (s.values env line keys).server.counters = s.counters := by
  induction keys generalizing s with
  | nil => rfl
  | cons key keys ih =>
    unfold Server.values
    split
    · rename_i t done
      rw [ih t, call_counters done]
    · rename_i t item done
      exact (ih t).trans (call_counters done)
    · rfl

theorem execute_counters (env : Env) (s : Server) (c : Command) :
    (s.execute env c).server.counters = s.counters := by
  -- No command touches the counters, except the one that counts it.
  unfold Server.execute
  split
  · rfl
  · rfl
  · split
    · rename_i done
      exact call_counters done
    · rename_i done
      exact call_counters done
    · rfl
  · split
    · rfl
    · exact answerWrite_counters _ _ s
  · split
    · rename_i done
      exact call_counters done
    · rename_i done
      exact call_counters done
    · rfl
  · exact values_counters _ _ s
  · exact values_counters _ _ s
  · split
    · rfl
    · exact answerWrite_counters _ _ s
  · split
    · rename_i done
      exact call_counters done
    · rename_i done
      split <;> exact call_counters done
    · rfl
  · rfl

theorem countCommand_lines (n : Counters) (op : Op) : lines (n.countCommand op) = lines n := by
  cases op <;> rfl

theorem handle_lines (env : Env) (x : Session) (c : Command) :
    lines (x.handle env c).1.server.counters = lines x.server.counters := by
  have executed : lines ((x.server.count fun n => n.countCommand c.op).execute env c).server.counters =
      lines x.server.counters := by
    rw [execute_counters]
    exact countCommand_lines x.server.counters c.op
  change lines (x.server.handle env x.authenticated c).server.counters = _
  unfold Server.handle
  split
  · dsimp only
    split <;> (unfold Server.handleAuthGate; dsimp only; split <;> [rfl; split <;> rfl])
  · split
    · dsimp only
      split
      · rfl
      · split <;> rfl
    · dsimp only
      split <;> exact executed

theorem readError_lines (timeout : Bool) (x : Session) (failure : Failure) :
    lines (x.handleReadError timeout failure).1.server.counters = lines x.server.counters := by
  cases failure <;> cases timeout <;> rfl

end Frames

/-- A step of a call from one place to the next, in what it does to what the calls share. -/
structure Moved (event : Event) (i : Nat) (h h' : Handler) (pc pc' : Pc) (s t : Hub) : Prop where
  mine : mover event = some i
  before : h.pc = pc
  after : h'.pc = pc'
  next : successor pc pc' = true
  calls : t.calls = s.calls.set i h'
  setting : setting t = setting s
  ledger : ledger t = booked s.semaphore.isSome i pc pc' (ledger s)
  slot : slotGuard s pc'
  lock : s.locked = true → enlisted pc = enlisted pc'
  waiter : t.waiter = if pc = .releasing then .released else s.waiter
  wakes : pc = .deregistered → t.waitGroup = 0 → s.waiter = .asleep → pc' = .releasing
  sleeper : pc' = .releasing → s.waiter = .asleep
  down : t.down = true → s.down = true ∨ h.result = some .panicked

/-- How the read of a call comes to its end at a step: with the bytes that are there, or by
    an end of the stream or an error, which may be a timeout. -/
inductive Reads (maxAlloc i : Nat) (h : Handler) : Event → Ending → Bool → Prop where
  | ready (full : awaits maxAlloc h.received = false) : Reads maxAlloc i h (.advance i) .fault false
  | failed (cause : Cause) (short : awaits maxAlloc h.received = true) :
      Reads maxAlloc i h (.interrupt i cause) (if cause = .eof then .eof else .fault)
        (decide (cause = .timeout))

/-- What a call does at a step: the call afterwards, the server, and what was executed. -/
inductive Deed (env : Env) (maxAlloc : Nat) (s : Hub) (i : Nat) (h : Handler) :
    Event → Handler → Server → List Command → Prop where
  | walked {pc : Pc} (way : walking h.pc = true) (next : successor h.pc pc = true) :
      Deed env maxAlloc s i h (.advance i) (walked s h pc) (s.server.count (booking pc)) []
  | received {bytes : Text} (place : h.pc = .reading) (filled : bytes ≠ [])
      (opened : h.closed = false) (early : ∀ d ∈ h.deadline, s.now < d)
      (short : awaits maxAlloc h.received = true) :
      Deed env maxAlloc s i h (.receive i bytes) { h with received := h.received ++ bytes }
        s.server []
  | found {event : Event} {ending : Ending} {timeout : Bool} {c : Command} {r : Reader}
      (place : h.pc = .reading) (reads : Reads maxAlloc i h event ending timeout)
      (read : readCommand maxAlloc ⟨h.received,ending⟩ = (.ok c,r)) :
      Deed env maxAlloc s i h event { h with pc := .executing c, received := r.bytes } s.server []
  | failed {event : Event} {ending : Ending} {timeout : Bool} {failure : Failure} {r : Reader}
      (place : h.pc = .reading) (reads : Reads maxAlloc i h event ending timeout)
      (read : readCommand maxAlloc ⟨h.received,ending⟩ = (.error failure,r)) :
      Deed env maxAlloc s i h event (h.turned ((s.session h r).handleReadError timeout failure))
        ((s.session h r).handleReadError timeout failure).1.server []
  | handled {c : Command} (place : h.pc = .executing c) :
      Deed env maxAlloc s i h (.advance i)
        (h.turned ((s.session h ⟨h.received,.fault⟩).handle env c))
        (s.server.handle env h.authenticated c).server
        (s.server.handle env h.authenticated c).executed
  | unflushed {c : Command} {sent : Nat} (place : h.pc = .executing c) :
      Deed env maxAlloc s i h (.lose i (.flush sent))
        (h.cut (s.server.handle env h.authenticated c) sent)
        (s.server.handle env h.authenticated c).server
        (s.server.handle env h.authenticated c).executed
  | unwritten {c : Command} {keys sent : Nat} {move : Move} (place : h.pc = .executing c)
      (tried : move = s.server.handle env h.authenticated { c with keys := c.keys.take keys })
      (executed : move.executed ≠ []) (answered : move.result = none) :
      Deed env maxAlloc s i h (.lose i (.write keys sent)) (h.cut move sent)
        (move.server.count countServerError) [c]

/-- A step of a call, on both sides. -/
def Acts (env : Env) (maxAlloc : Nat) (event : Event) (i : Nat) (h : Handler) (s t : Hub)
    (out : List Command) : Prop :=
  ∃ h' pc pc', Moved event i h h' pc pc' s t ∧ Deed env maxAlloc s i h event h' t.server out

section Walks

variable (pc') in
/-- A step on the own way of a call. -/
theorem walks (here : h.pc = pc) (way : walking pc = true) (next : successor pc pc' = true)
    (calls : t.calls = s.calls.set i (walked s h pc'))
    (server : t.server = s.server.count (booking pc')) (same : setting t = setting s)
    (books : ledger t = booked s.semaphore.isSome i pc pc' (ledger s)) (slot : slotGuard s pc')
    (lock : s.locked = true → enlisted pc = enlisted pc')
    (waiter : t.waiter = if pc = .releasing then .released else s.waiter)
    (wakes : pc = .deregistered → t.waitGroup = 0 → s.waiter = .asleep → pc' = .releasing)
    (sleeper : pc' = .releasing → s.waiter = .asleep)
    (down : t.down = true → s.down = true ∨ h.result = some .panicked) :
    Acts env maxAlloc (.advance i) i h s t [] := by
  refine ⟨walked s h pc', pc, pc', ?_, ?_⟩
  · exact ⟨rfl, here, walked_pc s h pc', next, calls, same, books, slot, lock, waiter, wakes,
      sleeper, down⟩
  · rw [server]
    exact .walked (here ▸ way) (here ▸ next)

variable (pc') in
/-- A step that neither needs the mutex nor meets the waiter. -/
theorem walks_free (here : h.pc = pc) (way : walking pc = true) (next : successor pc pc' = true)
    (calls : t.calls = s.calls.set i (walked s h pc'))
    (server : t.server = s.server.count (booking pc')) (same : setting t = setting s)
    (books : ledger t = booked s.semaphore.isSome i pc pc' (ledger s)) (slot : slotGuard s pc')
    (register : enlisted pc = enlisted pc') (apart : pc ≠ .releasing ∧ pc ≠ .deregistered)
    (rest : (t.waiter,t.down) = (s.waiter,s.down)) : Acts env maxAlloc (.advance i) i h s t [] := by
  obtain ⟨waiter,down⟩ := Prod.mk.inj rest
  refine walks pc' here way next calls server same books slot (fun _ => register) ?_ ?_ ?_ ?_
  · rw [if_neg apart.1, waiter]
  · intro other
    exact absurd other apart.2
  · rintro rfl
    cases pc <;> first | exact absurd rfl apart.2 | cases next
  · intro fell
    exact Or.inl (down ▸ fell)

theorem acquired_acts (here : h.pc = .opened) (free : s.acquireSlot = some t) :
    Acts env maxAlloc (.advance i) i h s (t.move i h .acquired) [] := by
  unfold Hub.acquireSlot at free
  split at free
  · rename_i unlimited
    obtain rfl := Option.some.inj free
    refine walks_free .acquired here rfl rfl rfl rfl rfl ?_ ?_ rfl (by decide) rfl
    · rw [unlimited]
      rfl
    · intro n limited
      rw [unlimited] at limited
      cases limited
  · rename_i capacity limited
    split at free
    · rename_i room
      obtain rfl := Option.some.inj free
      refine walks_free .acquired here rfl rfl rfl rfl rfl ?_ ?_ rfl (by decide) rfl
      · rw [limited]
        rfl
      · intro n same
        obtain rfl := Option.some.inj (limited.symm.trans same)
        exact room
    · cases free

theorem refused_acts (here : h.pc = .opened) (crowded : s.acquireSlot = none) :
    Acts env maxAlloc (.advance i) i h s (s.move i h .refused) [] := by
  unfold Hub.acquireSlot at crowded
  split at crowded
  · cases crowded
  · rename_i capacity limited
    split at crowded
    · cases crowded
    · rename_i full
      exact walks_free .refused here rfl rfl rfl rfl rfl rfl ⟨capacity,limited,by omega⟩ rfl
        (by decide) rfl

theorem released_acts (here : h.pc = .finished) (freed : s.releaseSlot = some t) :
    Acts env maxAlloc (.advance i) i h s
      ({ t with down := decide (h.result = some Result.panicked) }.move i h .returned) [] := by
  have fell {u : Hub} (down : u.down = decide (h.result = some Result.panicked)) :
      u.down = true → s.down = true ∨ h.result = some .panicked := by
    intro fell
    exact Or.inr (of_decide_eq_true (down ▸ fell))
  unfold Hub.releaseSlot at freed
  split at freed
  · rename_i unlimited
    obtain rfl := Option.some.inj freed
    refine walks .returned here rfl rfl rfl rfl rfl ?_ trivial (fun _ => rfl) rfl nofun
      nofun (fell rfl)
    rw [unlimited]
    rfl
  · rename_i capacity limited
    split at freed
    · cases freed
    · obtain rfl := Option.some.inj freed
      refine walks .returned here rfl rfl rfl rfl rfl ?_ trivial (fun _ => rfl) rfl nofun
        nofun (fell rfl)
      rw [limited]
      rfl

/-- The last Done finds the waiter asleep and has to wake it. -/
theorem wgDone_acts (here : h.pc = .deregistered) (released : s.wgDone = some t) :
    Acts env maxAlloc (.advance i) i h s (t.move i h
      (if t.waitGroup = 0 ∧ t.waiter = .asleep then .releasing else .finished)) [] := by
  unfold Hub.wgDone at released
  split at released
  · cases released
  · obtain rfl := Option.some.inj released
    split
    · rename_i last
      exact walks .releasing here rfl rfl rfl rfl rfl rfl trivial (fun _ => rfl) rfl
        (fun _ _ _ => rfl) (fun _ => last.2) Or.inl
    · rename_i calm
      exact walks .finished here rfl rfl rfl rfl rfl rfl trivial (fun _ => rfl) rfl
        (fun _ empty asleep => absurd ⟨empty,asleep⟩ calm) nofun Or.inl

end Walks

section Loop

/-- A step inside the loop touches the counters of the commands only. -/
theorem looping_acts {server : Server} (mine : mover event = some i)
    (before : h.pc = pc) (after : h'.pc = pc') (next : successor pc pc' = true)
    (inside : looping pc = true) (inside' : looping pc' = true)
    (same : lines server.counters = lines s.server.counters)
    (deed : Deed env maxAlloc s i h event h' server out) :
    Acts env maxAlloc event i h s ({ s with server := server }.put i h') out := by
  have books : ledger ({ s with server := server }.put i h') =
      booked s.semaphore.isSome i pc pc' (ledger s) := by
    obtain ⟨opened,rest⟩ := Prod.mk.inj same
    obtain ⟨active,rejected⟩ := Prod.mk.inj rest
    rw [booked_looping inside inside']
    simp only [ledger, Hub.put, ServerPlaces.active, opened, active, rejected]
  have register : enlisted pc = enlisted pc' := by
    rw [serving_enlisted (looping_serving inside), serving_enlisted (looping_serving inside')]
  have awake : pc ≠ .releasing := by
    rintro rfl
    cases inside
  refine ⟨h', pc, pc', ?_, deed⟩
  exact {
    mine := mine
    before := before
    after := after
    next := next
    calls := rfl
    setting := rfl
    ledger := books
    slot := by cases pc' <;> first | exact trivial | cases inside'
    lock := fun _ => register
    waiter := (if_neg awake).symm
    wakes := by
      rintro rfl
      cases inside
    sleeper := by
      rintro rfl
      cases inside'
    down := Or.inl }

theorem readError_ends (timeout : Bool) (x : Session) (failure : Failure) :
    (x.handleReadError timeout failure).2 ≠ none ∧
      (x.handleReadError timeout failure).1.reader = x.reader ∧
      (x.handleReadError timeout failure).1.executed = x.executed := by
  cases failure <;> cases timeout <;> simp [Session.handleReadError, Session.badCommand]

theorem read_acts (place : h.pc = .reading) {ending : Ending} {timeout : Bool}
    (reads : Reads maxAlloc i h event ending timeout)
    (taken : s.read maxAlloc i h ending timeout = (t,out)) :
    Acts env maxAlloc event i h s t out := by
  have mine : mover event = some i := by cases reads <;> rfl
  unfold Hub.read at taken
  split at taken
  · rename_i c r read
    obtain ⟨rfl,rfl⟩ := Prod.mk.inj taken
    have deed : Deed env maxAlloc s i h event { h with pc := .executing c, received := r.bytes }
        s.server [] := .found place reads read
    exact looping_acts mine place rfl rfl rfl rfl rfl deed
  · rename_i failure r read
    obtain ⟨ends,_,quiet⟩ := readError_ends timeout (s.session h r) failure
    have turned : (h.turned ((s.session h r).handleReadError timeout failure)).pc = .left :=
      if_neg ends
    obtain ⟨rfl,rfl⟩ := Prod.mk.inj taken
    rw [quiet]
    exact looping_acts mine place turned rfl rfl rfl (readError_lines timeout _ failure)
      (.failed place reads read)

theorem handled_acts (place : h.pc = .executing c)
    (taken : s.turned i h ((s.session h ⟨h.received,.fault⟩).handle env c) = (t,out)) :
    Acts env maxAlloc (.advance i) i h s t out := by
  obtain ⟨rfl,rfl⟩ := Prod.mk.inj taken
  refine looping_acts rfl place rfl ?_ rfl ?_ (handle_lines env _ c) (.handled place)
  · unfold Handler.turned
    split <;> rfl
  · unfold Handler.turned
    split <;> rfl

theorem lose_acts {loss : Loss} (taken : s.lose env i h loss = some (t,out)) :
    Acts env maxAlloc (.lose i loss) i h s t out := by
  have same (c : Command) := handle_lines env (s.session h ⟨[],.eof⟩) c
  unfold Hub.lose at taken
  split at taken
  · rename_i c sent place
    dsimp only at taken
    split at taken
    · obtain ⟨rfl,rfl⟩ := Prod.mk.inj (Option.some.inj taken)
      exact looping_acts rfl place rfl rfl rfl rfl (same c) (.unflushed place)
    · cases taken
  · rename_i c keys sent place
    dsimp only at taken
    split at taken
    · rename_i lost
      obtain ⟨rfl,rfl⟩ := Prod.mk.inj (Option.some.inj taken)
      exact looping_acts rfl place rfl rfl rfl rfl (same { c with keys := c.keys.take keys })
        (.unwritten place rfl lost.1 lost.2.1)
    · cases taken
  · cases taken

theorem receive_acts {bytes : Text} (taken : s.receive maxAlloc i h bytes = some t) :
    Acts env maxAlloc (.receive i bytes) i h s t [] := by
  unfold Hub.receive at taken
  split at taken
  · rename_i ready
    obtain ⟨place,short,filled,opened,early⟩ := ready
    obtain rfl := Option.some.inj taken
    have deed : Deed env maxAlloc s i h (.receive i bytes)
        { h with received := h.received ++ bytes } s.server [] :=
      .received place filled opened early short
    exact looping_acts rfl place place rfl rfl rfl rfl deed
  · cases taken

theorem interrupt_acts {cause : Cause} (taken : s.interrupt maxAlloc i h cause = some (t,out)) :
    Acts env maxAlloc (.interrupt i cause) i h s t out := by
  unfold Hub.interrupt at taken
  split at taken
  · rename_i ready
    refine read_acts ready.1 (.failed cause ready.2) ?_
    cases cause with
    | eof => exact Option.some.inj taken
    | timeout =>
      dsimp only at taken
      split at taken
      · exact Option.some.inj taken
      · cases taken
    | broken => exact Option.some.inj taken
  · cases taken

end Loop

/-- An Add that raises the counter from zero while the waiter of Shutdown sleeps. -/
structure Misused (h : Handler) (s t : Hub) : Prop where
  place : h.pc = .acquired
  empty : s.waitGroup = 0
  asleep : s.waiter = .asleep
  down : t = { s with down := true }

/-- A step of a call on its own, by the place it starts from. -/
theorem advance_acts (taken : s.advance env maxAlloc i h = some (t,out)) :
    Acts env maxAlloc (.advance i) i h s t out ∨ Misused h s t ∧ out = [] := by
  unfold Hub.advance at taken
  split at taken
  case h_1 here =>
    obtain ⟨rfl,rfl⟩ := Prod.mk.inj (Option.some.inj taken)
    exact Or.inl (walks_free .opened here rfl rfl rfl rfl rfl rfl trivial rfl (by decide) rfl)
  case h_2 here =>
    split at taken
    · rename_i free
      obtain ⟨rfl,rfl⟩ := Prod.mk.inj (Option.some.inj taken)
      exact Or.inl (acquired_acts here free)
    · rename_i crowded
      obtain ⟨rfl,rfl⟩ := Prod.mk.inj (Option.some.inj taken)
      exact Or.inl (refused_acts here crowded)
  case h_3 here =>
    obtain ⟨rfl,rfl⟩ := Prod.mk.inj (Option.some.inj taken)
    exact Or.inl (walks_free .rejected here rfl rfl rfl rfl rfl rfl trivial rfl (by decide) rfl)
  case h_4 here =>
    obtain ⟨rfl,rfl⟩ := Prod.mk.inj (Option.some.inj taken)
    exact Or.inl (walks_free .told here rfl rfl rfl rfl rfl rfl trivial rfl (by decide) rfl)
  case h_5 here =>
    obtain ⟨rfl,rfl⟩ := Prod.mk.inj (Option.some.inj taken)
    exact Or.inl (walks_free .turnedAway here rfl rfl rfl rfl rfl rfl trivial rfl (by decide) rfl)
  case h_6 => cases taken
  case h_7 here =>
    split at taken
    · rename_i misuse
      obtain ⟨rfl,rfl⟩ := Prod.mk.inj (Option.some.inj taken)
      exact Or.inr ⟨⟨here,misuse.1,misuse.2,rfl⟩, rfl⟩
    · obtain ⟨rfl,rfl⟩ := Prod.mk.inj (Option.some.inj taken)
      exact Or.inl (walks_free .joined here rfl rfl rfl rfl rfl rfl trivial rfl (by decide)
        rfl)
  case h_8 here =>
    split at taken
    · cases taken
    · rename_i unlocked
      obtain ⟨rfl,rfl⟩ := Prod.mk.inj (Option.some.inj taken)
      exact Or.inl (walks .registered here rfl rfl rfl rfl rfl rfl trivial
        (fun locked => absurd locked unlocked) rfl nofun nofun Or.inl)
  case h_9 here =>
    obtain ⟨rfl,rfl⟩ := Prod.mk.inj (Option.some.inj taken)
    exact Or.inl (walks_free .top here rfl rfl rfl rfl rfl rfl trivial rfl (by decide) rfl)
  case h_10 here =>
    obtain ⟨rfl,rfl⟩ := Prod.mk.inj (Option.some.inj taken)
    exact Or.inl (walks_free .reading here rfl rfl rfl rfl rfl
      (booked_looping rfl rfl _ _).symm trivial rfl (by decide) rfl)
  case h_11 here =>
    split at taken
    · cases taken
    · rename_i full
      exact Or.inl (read_acts here (.ready (Bool.eq_false_iff.mpr full)) (Option.some.inj taken))
  case h_12 c here =>
    dsimp only at taken
    split at taken
    · cases taken
    · exact Or.inl (handled_acts here (Option.some.inj taken))
  case h_13 here =>
    obtain ⟨rfl,rfl⟩ := Prod.mk.inj (Option.some.inj taken)
    exact Or.inl (walks_free .closed here rfl rfl rfl rfl rfl rfl trivial rfl (by decide) rfl)
  case h_14 here =>
    obtain ⟨rfl,rfl⟩ := Prod.mk.inj (Option.some.inj taken)
    exact Or.inl (walks_free .inactive here rfl rfl rfl rfl rfl rfl trivial rfl (by decide) rfl)
  case h_15 here =>
    split at taken
    · cases taken
    · rename_i unlocked
      obtain ⟨rfl,rfl⟩ := Prod.mk.inj (Option.some.inj taken)
      exact Or.inl (walks .deregistered here rfl rfl rfl rfl rfl rfl trivial
        (fun locked => absurd locked unlocked) rfl nofun nofun Or.inl)
  case h_16 here =>
    obtain ⟨u,released,same⟩ := Option.map_eq_some_iff.mp taken
    obtain ⟨rfl,rfl⟩ := Prod.mk.inj same
    exact Or.inl (wgDone_acts here released)
  case h_17 here =>
    obtain ⟨rfl,rfl⟩ := Prod.mk.inj (Option.some.inj taken)
    exact Or.inl (walks .finished here rfl rfl rfl rfl rfl rfl trivial (fun _ => rfl) rfl
      nofun nofun Or.inl)
  case h_18 here =>
    obtain ⟨u,freed,same⟩ := Option.map_eq_some_iff.mp taken
    obtain ⟨rfl,rfl⟩ := Prod.mk.inj same
    exact Or.inl (released_acts here freed)
  case h_19 => cases taken

theorem places_put (s : Hub) (i : Nat) (h : Handler) :
    places (s.put i h) = (places s).set i h.pc := List.map_set

/-- The same places, and nothing that the calls share has changed. -/
structure Aside (s t : Hub) : Prop where
  places : places t = places s
  ledger : ledger t = ledger s
  semaphore : t.semaphore = s.semaphore

theorem put_aside {u : Hub} {h' : Handler} (here : s.calls[i]? = some h) (same : h'.pc = h.pc)
    (calls : u.calls = s.calls) (kept : ledger u = ledger s) (semaphore : u.semaphore = s.semaphore) :
    Aside s (u.put i h') := by
  have stays : (places s).set i h.pc = places s := by
    obtain ⟨inside,own⟩ := List.getElem?_eq_some_iff.mp (places_at here)
    rw [← own]
    exact List.set_getElem_self inside
  refine ⟨?_, kept, semaphore⟩
  rw [places_put, same]
  have named : places u = places s := congrArg (List.map Handler.pc) calls
  rw [named, stays]

/-- The steps of Shutdown, each with what allows it. -/
inductive Wound : Event → Hub → Hub → Prop where
  | shutdown (s : Hub) (fresh : s.shutdown = .uncalled) :
      Wound .shutdown s { s with shutdown := .signalling s.conns }
  | signal (s : Hub) (i : Nat) (h : Handler) (pending : Finset Nat)
      (phase : s.shutdown = .signalling pending) (here : s.calls[i]? = some h) (mem : i ∈ pending) :
      Wound (.signal i) s ({ s with shutdown := .signalling (pending.erase i) }.put i
        { h with deadline := some s.now })
  | signalled (s : Hub) (phase : s.shutdown = .signalling ∅) :
      Wound .signalled s { s with shutdown := .waiting }
  | sleep (s : Hub) (called : s.shutdown ≠ .uncalled) (counted : s.waitGroup ≠ 0)
      (awake : s.waiter = .awake) : Wound .sleep s { s with waiter := .asleep }
  | drained (s : Hub) (called : s.shutdown ≠ .uncalled) (empty : s.waitGroup = 0)
      (undone : s.done = false) : Wound .drained s { s with done := true }
  | reused (s : Hub) (released : s.waiter = .released) : Wound .reused s { s with down := true }
  | expire (s : Hub) (phase : s.shutdown = .waiting) :
      Wound .expire s { s with shutdown := .closing s.conns }
  | close (s : Hub) (i : Nat) (h : Handler) (pending : Finset Nat)
      (phase : s.shutdown = .closing pending) (here : s.calls[i]? = some h) (mem : i ∈ pending) :
      Wound (.close i) s ({ s with shutdown := .closing (pending.erase i) }.put i
        { h with closed := true })
  | closedAll (s : Hub) (phase : s.shutdown = .closing ∅) :
      Wound .closedAll s { s with shutdown := .draining }
  | return (s : Hub) (expired : Bool)
      (phase : s.shutdown = if expired then .draining else .waiting) (done : s.done = true) :
      Wound .return s { s with shutdown := .returned expired }

theorem windDown_cases (taken : s.windDown event = some t) : Wound event s t := by
  unfold Hub.windDown at taken
  split at taken
  case h_1 =>
    split at taken
    · rename_i fresh
      obtain rfl := Option.some.inj taken
      exact .shutdown s fresh
    · cases taken
  case h_2 i =>
    split at taken
    · rename_i pending h phase here
      obtain ⟨mem,same⟩ := Option.ite_none_right_eq_some.mp taken
      obtain rfl := Option.some.inj same
      exact .signal s i h pending phase here mem
    · cases taken
  case h_3 =>
    obtain ⟨phase,same⟩ := Option.ite_none_right_eq_some.mp taken
    obtain rfl := Option.some.inj same
    exact .signalled s phase
  case h_4 =>
    split at taken
    · cases taken
    · cases taken
    · rename_i called _
      obtain ⟨ready,same⟩ := Option.ite_none_right_eq_some.mp taken
      obtain rfl := Option.some.inj same
      exact .sleep s called ready.1 ready.2.1
  case h_5 =>
    split at taken
    · cases taken
    · cases taken
    · rename_i called _
      obtain ⟨ready,same⟩ := Option.ite_none_right_eq_some.mp taken
      obtain rfl := Option.some.inj same
      exact .drained s called ready.1 ready.2.2
  case h_6 =>
    obtain ⟨ready,same⟩ := Option.ite_none_right_eq_some.mp taken
    obtain rfl := Option.some.inj same
    exact .reused s ready.2.1
  case h_7 =>
    split at taken
    · rename_i phase
      obtain rfl := Option.some.inj taken
      exact .expire s phase
    · cases taken
  case h_8 i =>
    split at taken
    · rename_i pending h phase here
      obtain ⟨mem,same⟩ := Option.ite_none_right_eq_some.mp taken
      obtain rfl := Option.some.inj same
      exact .close s i h pending phase here mem
    · cases taken
  case h_9 =>
    obtain ⟨phase,same⟩ := Option.ite_none_right_eq_some.mp taken
    obtain rfl := Option.some.inj same
    exact .closedAll s phase
  case h_10 =>
    split at taken
    · rename_i phase
      obtain ⟨done,same⟩ := Option.ite_none_right_eq_some.mp taken
      obtain rfl := Option.some.inj same
      exact .return s false phase done
    · rename_i phase
      obtain ⟨done,same⟩ := Option.ite_none_right_eq_some.mp taken
      obtain rfl := Option.some.inj same
      exact .return s true phase done
    · cases taken
  case h_11 => cases taken

theorem wound_aside (wound : Wound event s t) : Aside s t ∧ mover event = none := by
  cases wound with
  | signal _ i h pending phase here mem => exact ⟨put_aside here rfl rfl rfl rfl, rfl⟩
  | close _ i h pending phase here mem => exact ⟨put_aside here rfl rfl rfl rfl, rfl⟩
  | _ => exact ⟨⟨rfl,rfl,rfl⟩, rfl⟩

/-- What a step of the whole can do. -/
inductive Change (env : Env) (maxAlloc : Nat) (event : Event) (s t : Hub) (out : List Command) :
    Prop where
  | moved (i : Nat) (h h' : Handler) (pc pc' : Pc) (here : s.calls[i]? = some h)
      (moved : Moved event i h h' pc pc' s t)
      (deed : Deed env maxAlloc s i h event h' t.server out)
  | misused (i : Nat) (h : Handler) (here : s.calls[i]? = some h) (own : event = .advance i)
      (misused : Misused h s t) (quiet : out = [])
  | started (own : event = .start) (same : t = { s with calls := s.calls ++ [{}] }) (quiet : out = [])
  | passed (passed : Nat) (own : event = .tick passed) (same : t = { s with now := s.now + passed })
      (quiet : out = [])
  | wound (wound : Wound event s t) (quiet : out = [])

theorem acts_change (here : s.calls[i]? = some h) (acts : Acts env maxAlloc event i h s t out) :
    Change env maxAlloc event s t out := by
  obtain ⟨h',pc,pc',moved,deed⟩ := acts
  exact .moved i h h' pc pc' here moved deed

theorem step_cases (taken : s.step env maxAlloc event = some (t,out)) :
    Change env maxAlloc event s t out := by
  unfold Hub.step at taken
  split at taken
  · cases taken
  · split at taken
    case h_1 =>
      obtain ⟨rfl,rfl⟩ := Prod.mk.inj (Option.some.inj taken)
      exact .started rfl rfl rfl
    case h_2 passed =>
      obtain ⟨rfl,rfl⟩ := Prod.mk.inj (Option.some.inj taken)
      exact .passed passed rfl rfl rfl
    case h_3 i =>
      obtain ⟨h,here,advanced⟩ := Option.bind_eq_some_iff.mp taken
      rcases advance_acts advanced with acts | ⟨misused,quiet⟩
      · exact acts_change here acts
      · exact .misused i h here rfl misused quiet
    case h_4 i bytes =>
      obtain ⟨h,here,read⟩ := Option.bind_eq_some_iff.mp taken
      obtain ⟨u,received,same⟩ := Option.map_eq_some_iff.mp read
      obtain ⟨rfl,rfl⟩ := Prod.mk.inj same
      exact acts_change here (receive_acts received)
    case h_5 i cause =>
      obtain ⟨h,here,interrupted⟩ := Option.bind_eq_some_iff.mp taken
      exact acts_change here (interrupt_acts interrupted)
    case h_6 i loss =>
      obtain ⟨h,here,lost⟩ := Option.bind_eq_some_iff.mp taken
      exact acts_change here (lose_acts lost)
    case h_7 =>
      obtain ⟨u,wound,same⟩ := Option.map_eq_some_iff.mp taken
      obtain ⟨rfl,rfl⟩ := Prod.mk.inj same
      exact .wound (windDown_cases wound) rfl

theorem handle_output (env : Env) (x : Session) (c : Command) (fresh : x.executed = []) :
    (x.handle env c).1.executed = [] ∨ (x.handle env c).1.executed = [c] := by
  change x.executed ++ (x.server.handle env x.authenticated c).executed = [] ∨
    x.executed ++ (x.server.handle env x.authenticated c).executed = [c]
  rw [fresh, List.nil_append]
  unfold Server.handle
  split
  · dsimp only
    split <;> exact Or.inl rfl
  · split
    · dsimp only
      split
      · exact Or.inl rfl
      · split <;> exact Or.inl rfl
    · dsimp only
      split <;> exact Or.inr rfl

section Places

theorem deed_output {server : Server} (deed : Deed env maxAlloc s i h event h' server out) :
    out = [] ∨ ∃ c, h.pc = .executing c ∧ out = [c] := by
  cases deed with
  | walked | received | found | failed => exact Or.inl rfl
  | @handled c place | @unflushed c sent place =>
    have output := handle_output env (s.session h ⟨h.received,.fault⟩) c rfl
    exact output.imp_right fun one => ⟨c,place,one⟩
  | @unwritten c _ _ _ place => exact Or.inr ⟨c,place,rfl⟩

theorem moved_places (moved : Moved event i h h' pc pc' s t) :
    places t = (places s).set i pc' := by
  rw [places, moved.calls, List.map_set, moved.after]
  rfl

theorem moved_now (moved : Moved event i h h' pc pc' s t) : t.now = s.now :=
  congrArg (fun fixed => fixed.1) moved.setting

theorem moved_semaphore (moved : Moved event i h h' pc pc' s t) : t.semaphore = s.semaphore :=
  congrArg (fun fixed => fixed.2.2.1) moved.setting

theorem moved_shutdown (moved : Moved event i h h' pc pc' s t) :
    t.shutdown = s.shutdown ∧ t.done = s.done :=
  ⟨congrArg (fun fixed => fixed.2.2.2.1) moved.setting,
    congrArg (fun fixed => fixed.2.2.2.2) moved.setting⟩

theorem moved_at (moved : Moved event i h h' pc pc' s t) (here : s.calls[i]? = some h) :
    (places s)[i]? = some pc := by
  rw [← moved.before]
  exact places_at here

theorem moved_call (moved : Moved event i h h' pc pc' s t) (here : s.calls[i]? = some h) :
    t.calls[i]? = some h' := by
  rw [moved.calls, List.getElem?_set_self (List.getElem?_eq_some_iff.mp here).1]

theorem moved_place (moved : Moved event i h h' pc pc' s t) (here : s.calls[i]? = some h) :
    (places t)[i]? = some pc' := by
  rw [← moved.after]
  exact places_at (moved_call moved here)

theorem moved_other {j : Nat} (moved : Moved event i h h' pc pc' s t) (other : i ≠ j) :
    t.calls[j]? = s.calls[j]? := by
  rw [moved.calls, List.getElem?_set_ne other]

theorem started_places (s : Hub) :
    places { s with calls := s.calls ++ [{}] } = places s ++ [Pc.entered] := by
  simp [places]

theorem misused_aside (misused : Misused h s t) : Aside s t := by
  rw [misused.down]
  exact ⟨rfl,rfl,rfl⟩

/-- A step that is none of this call, as the call sees it: Shutdown may set its deadline or
    close its connection, and an Add that fails leaves it where it is. -/
structure Spared (event : Event) (i : Nat) (h h' : Handler) (s t : Hub) (out : List Command) :
    Prop where
  call : t.calls[i]? = some h'
  same : h' = { h with deadline := h'.deadline, closed := h'.closed }
  deadline : h'.deadline = h.deadline ∨ h'.deadline = some s.now
  closed : h.closed = true → h'.closed = true
  later : s.now ≤ t.now
  joining : mover event = some i → event = .advance i ∧ h.pc = .acquired ∧ out = []

theorem spared_kept (here : t.calls[i]? = some h) (later : s.now ≤ t.now)
    (joining : mover event = some i → event = .advance i ∧ h.pc = .acquired ∧ out = []) :
    Spared event i h h s t out :=
  ⟨here, rfl, Or.inl rfl, id, later, joining⟩

theorem wound_spared (wound : Wound event s t) (here : s.calls[i]? = some h) :
    ∃ h', Spared event i h h' s t out := by
  have inside := (List.getElem?_eq_some_iff.mp here).1
  have still {u : Hub} (calls : u.calls[i]? = s.calls[i]?) (now : s.now = u.now) :
      ∃ h', Spared event i h h' s u out := by
    refine ⟨h, spared_kept (calls.trans here) (le_of_eq now) ?_⟩
    rw [(wound_aside wound).2]
    nofun
  cases wound with
  | signal _ j k pending phase there mem =>
    by_cases own : j = i
    · subst own
      obtain rfl : h = k := Option.some.inj (here.symm.trans there)
      exact ⟨_, List.getElem?_set_self inside, rfl, Or.inr rfl, id, le_refl _, nofun⟩
    · exact still (List.getElem?_set_ne own) rfl
  | close _ j k pending phase there mem =>
    by_cases own : j = i
    · subst own
      obtain rfl : h = k := Option.some.inj (here.symm.trans there)
      exact ⟨_, List.getElem?_set_self inside, rfl, Or.inl rfl, fun _ => rfl, le_refl _, nofun⟩
    · exact still (List.getElem?_set_ne own) rfl
  | _ => exact still rfl rfl

/-- A step of the whole, as one call sees it. -/
theorem step_call (taken : s.step env maxAlloc event = some (t,out)) (here : s.calls[i]? = some h) :
    (∃ h', Spared event i h h' s t out) ∨ ∃ h' pc', Moved event i h h' h.pc pc' s t ∧
      Deed env maxAlloc s i h event h' t.server out := by
  have inside := (List.getElem?_eq_some_iff.mp here).1
  cases step_cases taken with
  | moved j k h' pc pc' there moved deed =>
    by_cases own : j = i
    · subst own
      obtain rfl : h = k := Option.some.inj (here.symm.trans there)
      obtain rfl := moved.before
      exact Or.inr ⟨h',pc',moved,deed⟩
    · refine Or.inl ⟨h, spared_kept ((moved_other moved own).trans here)
        (le_of_eq (moved_now moved).symm) ?_⟩
      intro mine
      exact absurd (Option.some.inj (moved.mine.symm.trans mine)) own
  | misused j k there own misused quiet =>
    refine Or.inl ⟨h, spared_kept (by rw [misused.down]; exact here) (by rw [misused.down]) ?_⟩
    intro mine
    rw [own] at mine
    obtain rfl : j = i := Option.some.inj mine
    obtain rfl : h = k := Option.some.inj (here.symm.trans there)
    exact ⟨own,misused.place,quiet⟩
  | started own same =>
    refine Or.inl ⟨h, spared_kept ?_ (by rw [same]) (by simp [own, mover])⟩
    rw [same]
    exact (List.getElem?_append_left inside).trans here
  | passed k own same =>
    exact Or.inl ⟨h, spared_kept (by rw [same]; exact here) (by simp [same]) (by simp [own, mover])⟩
  | wound wound => exact Or.inl (wound_spared wound here)

theorem step_caller (taken : s.step env maxAlloc event = some (t,out)) (mine : mover event = some i) :
    ∃ h, s.calls[i]? = some h := by
  cases step_cases taken with
  | moved j h h' pc pc' here moved =>
    obtain rfl : j = i := Option.some.inj (moved.mine.symm.trans mine)
    exact ⟨h,here⟩
  | misused j h here own =>
    rw [own] at mine
    obtain rfl : j = i := Option.some.inj mine
    exact ⟨h,here⟩
  | started own | passed _ own =>
    rw [own] at mine
    cases mine
  | wound wound =>
    rw [(wound_aside wound).2] at mine
    cases mine

/-- The calls after a step are those before it, and a new one if it starts one. -/
theorem step_calls {j : Nat} (taken : s.step env maxAlloc event = some (t,out))
    (there : t.calls[j]? = some h') :
    (∃ h, s.calls[j]? = some h) ∨ event = .start ∧ s.calls.length ≤ j ∧ h' = {} := by
  have old (length : t.calls.length = s.calls.length) : ∃ h, s.calls[j]? = some h := by
    have inside := (List.getElem?_eq_some_iff.mp there).1
    exact ⟨_, List.getElem?_eq_getElem (length ▸ inside)⟩
  cases step_cases taken with
  | moved i h k pc pc' here moved => exact Or.inl (old (by rw [moved.calls, List.length_set]))
  | misused _ _ _ _ misused => exact Or.inl (old (by rw [misused.down]))
  | started own same =>
    rw [same] at there
    rcases Nat.lt_or_ge j s.calls.length with less | new
    · exact Or.inl ⟨_, List.getElem?_eq_getElem less⟩
    · rw [List.getElem?_append_right new] at there
      exact Or.inr ⟨own, new, List.mem_singleton.mp (List.mem_of_getElem? there)⟩
  | passed _ _ same => exact Or.inl (old (by rw [same]))
  | wound wound =>
    have length := congrArg List.length (wound_aside wound).1.places
    exact Or.inl (old (by simpa [places] using length))

end Places
end ServerMoves
