import MiniKV.Lib.Partition
import MiniKV.Server.Conversation
import MiniKV.Server.Drain

/- The server does not spin. Every step of a call brings it nearer to its return or uses up
   bytes that have come in, and every step of Shutdown brings it nearer to its own, so the
   number of steps is bounded by what the network has sent. -/
namespace ServerProgress
open MachineWord LruModel ShardModel StoreModel StepRuns Partition ProtocolModel ProtocolFraming
  ServerModel ServerLifecycle ServerPlaces ServerMoves ServerSlots ServerDrain ServerConversation

/-- The steps that a call has ahead of it without another command. -/
def placeRank : Pc → Nat
  | .entered => 19
  | .opened => 18
  | .acquired => 17
  | .joined => 16
  | .registered => 15
  | .executing _ => 13
  | .top => 12
  | .reading => 11
  | .left => 8
  | .closed => 7
  | .inactive => 6
  | .deregistered => 5
  | .releasing => 4
  | .finished => 3
  | .refused => 3
  | .rejected => 2
  | .told => 1
  | .turnedAway => 0
  | .returned => 0

/-- A command takes three steps and a byte or more. -/
def callRank (h : Handler) : Nat := placeRank h.pc + 3 * h.received.length

def waiterRank : Waiter → Nat
  | .awake => 1
  | .asleep => 0
  | .released => 0

/-- The steps that Shutdown has ahead of it, with those of the goroutine that waits and the
    one that ends the process. -/
def shutdownRank (s : Hub) : Nat :=
  (match s.shutdown with
    | .uncalled => 2 * s.calls.length + 7
    | .signalling pending => s.calls.length + 5 + pending.card
    | .waiting => s.calls.length + 4
    | .closing pending => 3 + pending.card
    | .draining => 2
    | .returned _ => 0) +
    ((!s.done).toNat + waiterRank s.waiter + (!s.down).toNat)

def rank (s : Hub) : Nat := (s.calls.map callRank).sum + shutdownRank s

/-- What an event brings into the server: a call, or bytes. -/
def grant : Event → Nat
  | .start => 22
  | .receive _ bytes => 4 * bytes.length
  | _ => 0

/-- Everything but the passing of time. -/
def busy : Event → Bool
  | .tick _ => false
  | _ => true

variable {env : Env} {maxAlloc i : Nat} {s t : Hub} {h h' : Handler} {event : Event}
  {out : List Command} {c : Command} {pc pc' : Pc} {server : Server}

/-- What a call has become by a step of its own. -/
structure Onward (event : Event) (h h' : Handler) : Prop where
  rank : callRank h' + 1 ≤ callRank h + grant event
  closed : h.closed = true → h'.closed = true
  network : h.closed = false ∧ h.pc = .reading ∨ grant event = 0

theorem walks_rank (way : walking pc = true) (next : successor pc pc' = true) :
    placeRank pc' < placeRank pc := by
  cases pc <;> cases pc' <;>
    first
    | exact absurd next Bool.false_ne_true
    | exact absurd way Bool.false_ne_true
    | decide

theorem deed_onward (deed : Deed env maxAlloc s i h event h' server out) : Onward event h h' := by
  cases deed with
  | @walked pc' way next =>
    have less := walks_rank way next
    obtain ⟨received,_,closed⟩ := walked_keeps s h pc'
    refine ⟨?_, closed, Or.inr rfl⟩
    rw [callRank, callRank, walked_pc, received]
    omega
  | received place filled opened =>
    have some_bytes := List.length_pos_iff.mpr filled
    refine ⟨?_, id, Or.inl ⟨opened,place⟩⟩
    simp only [callRank, grant, List.length_append]
    omega
  | @found event ending timeout c r place reads read =>
    have shorter := (readCommand_shorter read).1
    dsimp only at shorter
    refine ⟨?_, id, by cases reads <;> exact Or.inr rfl⟩
    simp only [callRank, placeRank, place]
    omega
  | @failed event ending timeout failure r place reads read =>
    have rest := (readCommand_suffix maxAlloc ⟨h.received,ending⟩).length_le
    obtain ⟨ends,left,_⟩ := readError_ends timeout (s.session h r) failure
    rw [read] at rest
    dsimp only at rest
    refine ⟨?_, id, by cases reads <;> exact Or.inr rfl⟩
    rw [callRank, Handler.turned, if_neg ends, left, callRank, place]
    simp only [placeRank, Hub.session]
    omega
  | @handled c place =>
    refine ⟨?_, id, Or.inr rfl⟩
    have kept : (h.turned ((s.session h ⟨h.received,.fault⟩).handle env c)).received =
        h.received := rfl
    have less : placeRank (h.turned ((s.session h ⟨h.received,.fault⟩).handle env c)).pc <
        placeRank (.executing c) := by
      unfold Handler.turned
      dsimp only
      split <;> simp [placeRank]
    rw [callRank, callRank, kept, place]
    omega
  | unflushed place | unwritten place =>
    refine ⟨?_, id, Or.inr rfl⟩
    simp only [callRank, Handler.cut, place, placeRank]
    omega

theorem step_up (taken : s.step env maxAlloc event = some (t,out)) : s.down = false := by
  cases down : s.down with
  | false => rfl
  | true => simp [Hub.step, down] at taken

theorem moved_shutdownRank (up : s.down = false) (moved : Moved event i h h' pc pc' s t) :
    shutdownRank t ≤ shutdownRank s := by
  obtain ⟨phase,done⟩ := moved_shutdown moved
  have waiter : waiterRank t.waiter ≤ waiterRank s.waiter := by
    rw [moved.waiter]
    split
    · exact Nat.zero_le _
    · exact Nat.le_refl _
  have down : (!t.down).toNat ≤ (!s.down).toNat := by
    rw [up]
    exact Bool.toNat_le _
  rw [shutdownRank, shutdownRank, phase, done, moved.calls, List.length_set]
  omega

theorem moved_rank (up : s.down = false) (here : s.calls[i]? = some h)
    (moved : Moved event i h h' pc pc' s t) : rank t + callRank h ≤ rank s + callRank h' := by
  obtain ⟨rest,before,after⟩ := sum_at (f := callRank) here
  have sum := after h'
  have less := moved_shutdownRank up moved
  rw [rank, rank, moved.calls, before, sum]
  omega

theorem ranks_same (h' : Handler) (here : s.calls[i]? = some h)
    (same : callRank h' = callRank h) :
    ((s.calls.set i h').map callRank).sum = (s.calls.map callRank).sum := by
  obtain ⟨rest,before,after⟩ := sum_at (f := callRank) here
  rw [before, after h', same]

/-- A step of Shutdown, or of the goroutine that waits for it. -/
theorem wound_rank (few : s.conns.card ≤ s.calls.length) (up : s.down = false)
    (wound : Wound event s t) : rank t < rank s := by
  cases wound with
  | shutdown _ fresh =>
    simp only [rank, shutdownRank, fresh]
    omega
  | signal _ i h pending phase here mem =>
    have less := Finset.card_erase_lt_of_mem mem
    have same := ranks_same { h with deadline := some s.now } here rfl
    simp only [rank, shutdownRank, Hub.put, phase, same, List.length_set]
    omega
  | close _ i h pending phase here mem =>
    have less := Finset.card_erase_lt_of_mem mem
    have same := ranks_same { h with closed := true } here rfl
    simp only [rank, shutdownRank, Hub.put, phase, same]
    omega
  | sleep _ _ _ awake => simp [rank, shutdownRank, waiterRank, awake]
  | drained _ _ _ undone => simp [rank, shutdownRank, undone]
  | reused => simp [rank, shutdownRank, up]
  | signalled _ phase | expire _ phase | closedAll _ phase =>
    simp only [rank, shutdownRank, phase]
    omega
  | «return» _ expired phase =>
    cases expired with
    | false =>
      have before : s.shutdown = .waiting := phase
      simp only [rank, shutdownRank, before]
      omega
    | true =>
      have before : s.shutdown = .draining := phase
      simp only [rank, shutdownRank, before]
      omega

theorem started_rank (s : Hub) : rank { s with calls := s.calls ++ [{}] } + 1 ≤ rank s + 22 := by
  simp only [rank, shutdownRank, List.map_append, List.sum_append, List.map_cons, List.map_nil,
    List.sum_cons, List.sum_nil, List.length_append, List.length_singleton, callRank, placeRank,
    List.length_nil]
  cases s.shutdown <;> dsimp only <;> omega

theorem conns_few (tallied : Tallied s) : s.conns.card ≤ s.calls.length := by
  rw [Census.registered_card tallied.conns, ← List.length_map (f := Handler.pc)]
  exact List.countP_le_length

/-- Every step but the passing of time is paid for. -/
theorem step_rank (tallied : Tallied s) (taken : s.step env maxAlloc event = some (t,out)) :
    rank t + (busy event).toNat ≤ rank s + grant event := by
  have up := step_up taken
  have most : (busy event).toNat ≤ 1 := Bool.toNat_le _
  cases step_cases taken with
  | moved i h h' pc pc' here moved deed =>
    have bound := moved_rank up here moved
    have paid := (deed_onward deed).rank
    omega
  | misused _ _ _ _ misused =>
    have less : rank t + 1 = rank s := by
      rw [misused.down]
      simp [rank, shutdownRank, up]
      omega
    omega
  | started own same _ =>
    rw [own, same]
    exact started_rank s
  | passed _ own same _ =>
    rw [own, same]
    exact Nat.le_refl _
  | wound wound _ =>
    have less := wound_rank (conns_few tallied) up wound
    omega

theorem run_rank {start : Hub} {steps : List (Step Hub Event (List Command))}
    (tallied : Tallied start) (run : Run (Hub.step env maxAlloc) start steps s) :
    Tallied s ∧ rank s + steps.countP (fun x => busy x.input) ≤
      rank start + (steps.map fun x => grant x.input).sum := by
  induction run with
  | nil => exact ⟨tallied, by simp⟩
  | @snoc steps s t event out prior taken ih =>
    obtain ⟨before,bound⟩ := ih
    refine ⟨step_tallied before taken, ?_⟩
    have step := step_rank before taken
    simp only [List.countP_append, List.countP_singleton, List.map_append, List.map_cons,
      List.map_nil, List.sum_append, List.sum_cons, List.sum_nil]
    cases active : busy event
    · rw [active] at step
      simp only [Bool.toNat_false, Bool.false_eq_true, if_false] at step ⊢
      omega
    · rw [active] at step
      simp only [Bool.toNat_true, if_true] at step ⊢
      omega

def sent : Event → Nat
  | .receive _ bytes => bytes.length
  | _ => 0

theorem granted_sum (events : List Event) :
    (events.map grant).sum =
      22 * events.countP (fun event => decide (event = .start)) + 4 * (events.map sent).sum := by
  induction events with
  | nil => rfl
  | cons event rest ih =>
    simp only [List.map_cons, List.sum_cons, List.countP_cons, ih]
    cases event <;> simp [grant, sent] <;> omega

/-- In every run, of any number of connections and with any schedule, the steps other than the
    passing of time are bounded by the connections that were accepted and the bytes that they
    have sent: no goroutine of the server goes round without input. -/
theorem server_never_spins (env : Env) (maxAlloc : Nat) (kv : Store) (token : Text)
    (idle n : Int) (now : Time) (steps : List (Step Hub Event (List Command))) (s : Hub)
    (run : Run (Hub.step env maxAlloc) (.new (.new kv token) idle n now) steps s) :
    (steps.countP fun x => busy x.input) ≤
      10 + 22 * (steps.countP fun x => decide (x.input = .start)) +
        4 * (steps.map fun x => sent x.input).sum := by
  have bound := (run_rank (new_tallied kv token idle n now) run).2
  have granted := granted_sum (steps.map Step.input)
  have first : rank (.new (.new kv token) idle n now) = 10 := rfl
  simp only [List.map_map, List.countP_map, Function.comp_def] at granted
  omega

/-- The idle connection of one Shutdown: one call and no byte. -/
theorem idle_drain_bounded :
    ∃ steps s, Run oneSlotStep oneSlot steps s ∧ steps.map Step.input = idleDrain ∧
      (steps.countP fun x => busy x.input) ≤
        10 + 22 * (steps.countP fun x => decide (x.input = .start)) +
          4 * (steps.map fun x => sent x.input).sum := by
  obtain ⟨steps,s,run,inputs,_⟩ := exec_shows
    (show (exec oneSlotStep oneSlot idleDrain).map (fun run => places run.2) = some [.returned] by
      decide)
  exact ⟨steps, s, run, inputs, server_never_spins _ _ _ _ _ _ _ steps s run⟩

/-- On the way to the Add of the wait group or to the register. -/
def unregistered : Pc → Bool
  | .joined => true
  | pc => early pc

/-- While Shutdown goes over the connections, those that it has passed are closed. -/
def Passed (s : Hub) : Prop :=
  ∀ pending, s.shutdown = .closing pending → ∀ i ∈ s.conns, i ∉ pending →
    ∃ h, s.calls[i]? = some h ∧ h.closed = true

theorem closed_later (here : s.calls[i]? = some h) (closed : h.closed = true)
    (taken : s.step env maxAlloc event = some (t,out)) :
    ∃ h', t.calls[i]? = some h' ∧ h'.closed = true := by
  rcases step_call taken here with ⟨h',spared⟩ | ⟨h',pc',moved,deed⟩
  · exact ⟨h', spared.call, spared.closed closed⟩
  · exact ⟨h', moved_call moved here, (deed_onward deed).closed closed⟩

/-- A call enters and leaves the register only under the mutex. -/
theorem locked_conns (locked : s.locked = true) (moved : Moved event i h h' pc pc' s t) :
    t.conns = s.conns := by
  rw [(moved_entries moved).conns, Census.follow, moved.lock locked]
  cases enlisted pc' <;> rfl

theorem step_passed (passed : Passed s) (taken : s.step env maxAlloc event = some (t,out)) :
    Passed t := by
  intro pending phase i registered behind
  have kept (before : s.shutdown = .closing pending) (same : t.conns = s.conns) :
      ∃ h, t.calls[i]? = some h ∧ h.closed = true := by
    rw [same] at registered
    obtain ⟨h,here,closed⟩ := passed pending before i registered behind
    exact closed_later here closed taken
  cases step_cases taken with
  | moved j _ _ _ _ _ moved =>
    have before := (moved_shutdown moved).1.symm.trans phase
    exact kept before (locked_conns (by rw [Hub.locked, before]) moved)
  | misused _ _ _ _ misused =>
    have same := misused.down
    exact kept (by rw [same] at phase; exact phase) (by rw [same])
  | started _ same _ =>
    subst same
    exact kept phase rfl
  | passed _ _ same _ =>
    subst same
    exact kept phase rfl
  | wound wound _ =>
    cases wound with
    | sleep | drained | reused => exact kept phase rfl
    | expire =>
      obtain rfl := Shutdown.closing.inj phase
      exact absurd registered behind
    | close _ j x ahead before there =>
      obtain rfl := Shutdown.closing.inj phase
      by_cases own : j = i
      · subst own
        exact ⟨_, List.getElem?_set_self (List.getElem?_eq_some_iff.mp there).1, rfl⟩
      · have earlier : i ∉ ahead := fun mem => behind (Finset.mem_erase.mpr ⟨Ne.symm own, mem⟩)
        obtain ⟨h,here,closed⟩ := passed ahead before i registered earlier
        exact closed_later here closed taken
    | _ => cases phase

/-- Where the waiter of Shutdown sleeps over a counter of zero, a call is about to wake it. -/
def Waking (s : Hub) : Prop :=
  s.waiter = .asleep → s.waitGroup = 0 → ∃ (i : Nat) (h : Handler), s.calls[i]? = some h ∧
    h.pc = .releasing

theorem awaited_crossed (next : successor pc pc' = true) :
    awaited pc = awaited pc' ∨ pc = .acquired ∧ pc' = .joined ∨ pc = .deregistered := by
  cases pc <;> cases pc' <;>
    first
    | exact absurd next Bool.false_ne_true
    | exact Or.inl rfl
    | exact Or.inr (Or.inl ⟨rfl,rfl⟩)
    | exact Or.inr (Or.inr rfl)

theorem moved_waking (waking : Waking s) (here : s.calls[i]? = some h)
    (moved : Moved event i h h' pc pc' s t) : Waking t := by
  intro asleep empty
  have waiter := moved.waiter
  rw [asleep] at waiter
  split at waiter
  · cases waiter
  · rename_i awake
    rcases awaited_crossed moved.next with same | ⟨rfl,rfl⟩ | rfl
    · have still : s.waitGroup = 0 := by
        rw [(moved_entries moved).waitGroup, Census.follow, same] at empty
        cases inside : awaited pc' <;> simpa [inside] using empty
      obtain ⟨j,k,there,place⟩ := waking waiter.symm still
      have other : i ≠ j := by
        rintro rfl
        obtain rfl : h = k := Option.some.inj (here.symm.trans there)
        exact awake (moved.before.symm.trans place)
      exact ⟨j, k, (moved_other moved other).trans there, place⟩
    · rw [(moved_entries moved).waitGroup] at empty
      exact absurd empty (Nat.succ_ne_zero _)
    · exact ⟨i, h', moved_call moved here,
        moved.after.trans (moved.wakes rfl empty waiter.symm)⟩

theorem step_waking (waking : Waking s) (taken : s.step env maxAlloc event = some (t,out)) :
    Waking t := by
  -- A step of another leaves the call that is about to wake the waiter where it is.
  have kept (unmoved : mover event = none) (waiter : s.waiter = .asleep) (empty : s.waitGroup = 0) :
      ∃ (i : Nat) (h : Handler), t.calls[i]? = some h ∧ h.pc = .releasing := by
    obtain ⟨i,h,here,place⟩ := waking waiter empty
    rcases step_call taken here with ⟨h',spared⟩ | ⟨h',pc',moved,_⟩
    · exact ⟨i, h', spared.call, by rw [spared.same]; exact place⟩
    · cases unmoved.symm.trans moved.mine
  cases step_cases taken with
  | moved i h h' pc pc' here moved => exact moved_waking waking here moved
  | misused _ _ _ _ misused =>
    rw [misused.down]
    exact waking
  | started own same =>
    rw [same] at kept ⊢
    exact kept (by rw [own]; rfl)
  | passed _ _ same =>
    rw [same]
    exact waking
  | wound wound =>
    have unmoved := (wound_aside wound).2
    cases wound with
    | sleep _ _ counted => exact fun _ empty => absurd empty counted
    | _ => exact kept unmoved

/-- Shutdown has closed the connections, and no other call is on its way to one. -/
structure Severed (s : Hub) : Prop where
  phase : s.shutdown = .draining ∨ s.shutdown = .returned true
  late : ∀ (i : Nat) h, s.calls[i]? = some h → unregistered h.pc = false
  closed : ∀ (i : Nat) h, s.calls[i]? = some h → enlisted h.pc = true → h.closed = true

theorem closedAll_severed (tallied : Tallied s) (passed : Passed s)
    (settled : ∀ pc ∈ places s, unregistered pc = false)
    (taken : s.step env maxAlloc .closedAll = some (t,out)) : Severed t := by
  cases step_cases taken with
  | wound wound _ =>
    cases wound with
    | closedAll _ phase =>
      refine ⟨Or.inl rfl, ?_, ?_⟩
      · intro i h here
        exact settled h.pc (List.mem_map_of_mem (List.mem_of_getElem? here))
      · intro i h here place
        have registered : i ∈ s.conns := (tallied.conns i).mpr ⟨h.pc, places_at here, place⟩
        obtain ⟨x,there,closed⟩ := passed ∅ phase i registered (Finset.notMem_empty i)
        obtain rfl : h = x := Option.some.inj (here.symm.trans there)
        exact closed
  | moved _ _ _ _ _ _ moved => cases moved.mine
  | misused _ _ _ own | started own | passed _ own => cases own

theorem registered_next (next : successor pc pc' = true) (late : unregistered pc = false) :
    unregistered pc' = false ∧ (enlisted pc' = true → enlisted pc = true) := by
  cases pc <;> cases pc' <;>
    first
    | exact absurd next Bool.false_ne_true
    | exact absurd late.symm Bool.false_ne_true
    | exact ⟨rfl, id⟩
    | exact ⟨rfl, fun other => absurd other Bool.false_ne_true⟩

/-- Behind the closing, Shutdown only waits and returns. -/
theorem wound_draining (phase : s.shutdown = .draining ∨ s.shutdown = .returned true)
    (wound : Wound event s t) :
    (t.shutdown = .draining ∨ t.shutdown = .returned true) ∧ grant event = 0 := by
  cases wound with
  | sleep | drained | reused => exact ⟨phase, rfl⟩
  | «return» _ expired before =>
    cases expired with
    | true => exact ⟨Or.inr rfl, rfl⟩
    | false => rcases phase with other | other <;> cases other.symm.trans before
  | shutdown _ before | signalled _ before | expire _ before | closedAll _ before
  | signal _ _ _ _ before | close _ _ _ _ before =>
    rcases phase with other | other <;> cases other.symm.trans before

theorem step_draining (severed : Severed s) (still : event ≠ .start)
    (taken : s.step env maxAlloc event = some (t,out)) :
    (t.shutdown = .draining ∨ t.shutdown = .returned true) ∧ grant event = 0 := by
  cases step_cases taken with
  | moved i h h' pc pc' here moved deed =>
    refine ⟨by rw [(moved_shutdown moved).1]; exact severed.phase, ?_⟩
    refine (deed_onward deed).network.resolve_left ?_
    rintro ⟨opened,place⟩
    rw [severed.closed i h here (by rw [place]; rfl)] at opened
    cases opened
  | misused _ _ _ own misused =>
    rw [own, misused.down]
    exact ⟨severed.phase, rfl⟩
  | started own => exact absurd own still
  | passed _ own same =>
    rw [own, same]
    exact ⟨severed.phase, rfl⟩
  | wound wound => exact wound_draining severed.phase wound

/-- Nobody comes to the register any more, and nothing is read any more. -/
theorem step_severed (severed : Severed s) (still : event ≠ .start)
    (taken : s.step env maxAlloc event = some (t,out)) : Severed t ∧ grant event = 0 := by
  obtain ⟨phase,free⟩ := step_draining severed still taken
  have each (j : Nat) (k : Handler) (there : t.calls[j]? = some k) :
      unregistered k.pc = false ∧ (enlisted k.pc = true → k.closed = true) := by
    rcases step_calls taken there with ⟨h,here⟩ | ⟨start,_⟩
    · have late := severed.late j h here
      have closed := severed.closed j h here
      rcases step_call taken here with ⟨h',spared⟩ | ⟨h',pc',moved,deed⟩
      · obtain rfl : h' = k := Option.some.inj (spared.call.symm.trans there)
        have place : h'.pc = h.pc := by rw [spared.same]
        rw [place]
        exact ⟨late, fun inside => spared.closed (closed inside)⟩
      · obtain rfl : h' = k := Option.some.inj ((moved_call moved here).symm.trans there)
        obtain ⟨outside,register⟩ := registered_next moved.next late
        rw [moved.after]
        exact ⟨outside, fun inside => (deed_onward deed).closed (closed (register inside))⟩
    · exact absurd start still
  exact ⟨⟨phase, fun j k there => (each j k there).1, fun j k there => (each j k there).2⟩, free⟩

/-- Some step can be taken, other than the passing of time or a new call. -/
def GoesOn (env : Env) (maxAlloc : Nat) (s : Hub) : Prop :=
  ∃ event, busy event = true ∧ event ≠ .start ∧ (s.step env maxAlloc event).isSome = true

theorem advance_goes (up : s.down = false) (here : s.calls[i]? = some h)
    (moves : (s.advance env maxAlloc i h).isSome = true) : GoesOn env maxAlloc s :=
  ⟨.advance i, rfl, nofun, by simpa [Hub.step, up, here] using moves⟩

/-- A call that the wait group counts can go on, once it is registered. -/
theorem awaited_goes (up : s.down = false) (unlocked : s.locked = false)
    (counted : s.waitGroup ≠ 0) (here : s.calls[i]? = some h) (inside : awaited h.pc = true)
    (late : unregistered h.pc = false) : GoesOn env maxAlloc s := by
  cases place : h.pc with
  | reading =>
    by_cases waits : awaits maxAlloc h.received = true
    · -- A read that waits can always fail.
      exact ⟨.interrupt i .broken, rfl, nofun, by
        simp [Hub.step, up, here, Hub.interrupt, place, waits]⟩
    · exact advance_goes up here (by simp [Hub.advance, place, waits])
  | inactive => exact advance_goes up here (by simp [Hub.advance, place, unlocked])
  | deregistered => exact advance_goes up here (by simp [Hub.advance, place, Hub.wgDone, counted])
  | registered => exact advance_goes up here (by simp [Hub.advance, place])
  | top => exact advance_goes up here (by simp [Hub.advance, place])
  | executing c =>
    by_cases cut : (h.closed && flushes (s.server.handle env h.authenticated c).result) = true
    · -- The answer cannot be sent on a closed connection.
      exact ⟨.lose i (.flush 0), rfl, nofun, by
        simp [Hub.step, up, here, Hub.lose, place, (Bool.and_eq_true_iff.mp cut).2]⟩
    · have runs : (h.closed && flushes ((s.session h ⟨h.received,.fault⟩).handle env c).2) = false :=
        Bool.eq_false_iff.mpr cut
      exact advance_goes up here (by simp [Hub.advance, place, runs])
  | left => exact advance_goes up here (by simp [Hub.advance, place])
  | closed => exact advance_goes up here (by simp [Hub.advance, place])
  | _ =>
    rw [place] at inside late
    first
    | exact absurd inside Bool.false_ne_true
    | exact absurd late.symm Bool.false_ne_true

theorem severed_goes (tallied : Tallied s) (waking : Waking s) (severed : Severed s)
    (up : s.down = false) (waits : s.shutdown = .draining) : GoesOn env maxAlloc s := by
  by_cases done : s.done = true
  · exact ⟨.return, rfl, nofun, by simp [Hub.step, up, Hub.windDown, waits, done]⟩
  · by_cases empty : s.waitGroup = 0
    · by_cases asleep : s.waiter = .asleep
      · obtain ⟨i,h,here,place⟩ := waking asleep empty
        exact advance_goes up here (by simp [Hub.advance, place])
      · exact ⟨.drained, rfl, nofun, by simp [Hub.step, up, Hub.windDown, waits, done, empty, asleep]⟩
    · have some_call : 0 < (places s).countP awaited := by
        rw [← tallied.waitGroup]
        omega
      obtain ⟨pc,mem,inside⟩ := List.countP_pos_iff.mp some_call
      obtain ⟨h,present,rfl⟩ := List.mem_map.mp mem
      obtain ⟨i,here⟩ := List.getElem?_of_mem present
      exact awaited_goes up (by rw [Hub.locked, waits]) empty here inside (severed.late i h here)

/-- What every schedule behind the closing comes to. -/
structure Ends (env : Env) (maxAlloc limit : Nat) (more : List (Step Hub Event (List Command)))
    (t : Hub) : Prop where
  bounded : (more.countP fun x => busy x.input) ≤ limit
  goesOn : t.down = false → t.shutdown = .draining → GoesOn env maxAlloc t
  drained : t.shutdown = .draining ∨ t.shutdown = .returned true ∧ Drained t

theorem severed_late (severed : Severed s) : ∀ pc ∈ places s, early pc = false := by
  intro pc mem
  obtain ⟨h,present,rfl⟩ := List.mem_map.mp mem
  obtain ⟨i,here⟩ := List.getElem?_of_mem present
  have late := severed.late i h here
  cases place : h.pc <;> rw [place] at late <;> first | rfl | exact late

theorem run_severed {more : List (Step Hub Event (List Command))} (waited : Waited s)
    (severed : Severed s) (run : Run (Hub.step env maxAlloc) s more t)
    (first : ∀ x ∈ more, StartedBefore x) :
    Waited t ∧ Severed t ∧ (more.map fun x => grant x.input).sum = 0 := by
  induction run with
  | nil => exact ⟨waited, severed, rfl⟩
  | @snoc more u v event out prior taken ih =>
    obtain ⟨waited,severed,free⟩ := ih fun x mem => first x (by simp [mem])
    have calm : event ≠ .start := by
      intro start
      have fresh : u.shutdown = .uncalled := first ⟨u,event,out,v⟩ (by simp) start
      rcases severed.phase with other | other <;> cases other.symm.trans fresh
    obtain ⟨after,unpaid⟩ := step_severed severed calm taken
    exact ⟨step_waited waited taken (fun start => absurd start calm) fun _ => severed_late severed,
      after, by simp [free, unpaid]⟩

/-- A Shutdown whose context has expired comes to its end. No call may have been started since
    it was called, none may have been on its way to the Add of the wait group if Wait has come
    back, and none on its way to the register when the connections have been closed. Then every
    schedule is bounded, goes on until Shutdown returns or a panic ends the process, and leaves
    nothing behind. -/
theorem forced_shutdown_returns (env : Env) (maxAlloc : Nat) (kv : Store) (token : Text)
    (idle n : Int) (now : Time) (steps : List (Step Hub Event (List Command))) (s t : Hub)
    (out : List Command)
    (run : Run (Hub.step env maxAlloc) (.new (.new kv token) idle n now) steps s)
    (first : ∀ x ∈ steps, StartedBefore x) (late : ∀ x ∈ steps, NoneEarly x)
    (settled : ∀ pc ∈ places s, unregistered pc = false)
    (taken : s.step env maxAlloc .closedAll = some (t,out)) :
    ∃ limit, ∀ more u, Run (Hub.step env maxAlloc) t more u → (∀ x ∈ more, StartedBefore x) →
      Ends env maxAlloc limit more u := by
  have before := (run_waited run first late).1
  have passed : Passed s := run_stays Passed (fun _ _ _ _ => step_passed) run nofun
  have waking : Waking t := step_waking (run_stays Waking (fun _ _ _ _ => step_waking) run nofun) taken
  have severed := closedAll_severed before.tallied passed settled taken
  have waited : Waited t := step_waited before taken nofun nofun
  refine ⟨rank t, ?_⟩
  intro more u continued later
  obtain ⟨after,cut,free⟩ := run_severed waited severed continued later
  have bound := (run_rank waited.tallied continued).2
  have wakes : Waking u := run_stays Waking (fun _ _ _ _ => step_waking) continued waking
  refine ⟨by omega, fun up waits => severed_goes after.tallied wakes cut up waits, ?_⟩
  rcases cut.phase with draining | returned
  · exact Or.inl draining
  · exact Or.inr ⟨returned, waited_drained after (after.returned true returned)⟩

/-- The context of Shutdown expires while a connection waits for a command. -/
def idleExpiry : List Event :=
  [.start, .advance 0, .advance 0, .advance 0, .advance 0, .advance 0, .advance 0, .shutdown,
    .signal 0, .signalled, .expire, .close 0]

theorem idle_expiry_ends :
    ∃ steps s t out, Run oneSlotStep oneSlot steps s ∧ steps.map Step.input = idleExpiry ∧
      oneSlotStep s .closedAll = some (t,out) ∧
      ∃ limit, ∀ more u, Run oneSlotStep t more u → (∀ x ∈ more, StartedBefore x) →
        Ends (fun _ => ⟨0,.asListed,0⟩) (2 ^ 48) limit more u := by
  have ends : (exec oneSlotStep oneSlot idleExpiry).map
      (fun run : List (Step Hub Event (List Command)) × Hub =>
      decide ((∀ x ∈ run.1, StartedBefore x) ∧ (∀ x ∈ run.1, NoneEarly x) ∧
        (∀ pc ∈ places run.2, unregistered pc = false) ∧
        (oneSlotStep run.2 .closedAll).isSome = true)) = some true := by decide
  obtain ⟨steps,s,run,inputs,checked⟩ := exec_shows ends
  obtain ⟨first,late,settled,closes⟩ := of_decide_eq_true checked
  obtain ⟨⟨t,out⟩,taken⟩ := Option.isSome_iff_exists.mp closes
  exact ⟨steps, s, t, out, run, inputs, taken,
    forced_shutdown_returns _ _ _ _ _ _ _ steps s t out run first late settled taken⟩

end ServerProgress
