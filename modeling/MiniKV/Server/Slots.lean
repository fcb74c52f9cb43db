import MiniKV.Server.Moves

/- The slots of the connections. Along every run each shared quantity is the number of
   calls between the steps that raise and lower it, so the quantities are ordered as the
   places are, and nothing is left when all calls have returned. -/
namespace ServerSlots
open MachineWord LruModel ShardModel StoreModel StepRuns ProtocolModel ServerModel ServerLifecycle
  ServerPlaces ServerMoves

variable {env : Env} {maxAlloc i : Nat} {s t : Hub} {event : Event} {out : List Command}

structure Tallied (s : Hub) : Prop where
  opened : s.server.counters.connectionsOpened = UInt64.ofNat ((places s).countP counted)
  rejected : s.server.counters.connectionsRejected = UInt64.ofNat ((places s).countP dismissed)
  active : active s = int64.wrap ((places s).countP serving)
  waitGroup : s.waitGroup = (places s).countP awaited
  conns : Census.Registered enlisted (places s) s.conns
  held : s.semaphore ≠ none → s.held = (places s).countP holding
  within : ∀ n, s.semaphore = some n → s.held ≤ n

theorem new_tallied (kv : Store) (token : Text) (idle n : Int) (now : Time) :
    Tallied (.new (.new kv token) idle n now) where
  opened := rfl
  rejected := rfl
  active := (int64_exact (x := 0) (by decide)).symm
  waitGroup := rfl
  conns := by
    intro i
    simp [Hub.new, places]
  held := fun _ => rfl
  within := fun _ _ => Nat.zero_le _

structure Entries (i : Nat) (pc pc' : Pc) (s t : Hub) : Prop where
  opened : t.server.counters.connectionsOpened =
    Census.follow (· + 1) (· - 1) counted pc pc' s.server.counters.connectionsOpened
  rejected : t.server.counters.connectionsRejected =
    Census.follow (· + 1) (· - 1) dismissed pc pc' s.server.counters.connectionsRejected
  active : active t = Census.follow (fun a => int64.wrap (a + 1)) (fun a => int64.wrap (a + -1))
    serving pc pc' (active s)
  waitGroup : t.waitGroup = Census.follow (· + 1) (· - 1) awaited pc pc' s.waitGroup
  conns : t.conns = Census.follow (insert i) (Finset.erase · i) enlisted pc pc' s.conns
  held : t.held = Census.follow (fun k => if s.semaphore.isSome then k + 1 else k)
    (fun k => if s.semaphore.isSome then k - 1 else k) holding pc pc' s.held

theorem moved_entries {h h' : Handler} {pc pc' : Pc}
    (moved : Moved event i h h' pc pc' s t) : Entries i pc pc' s t where
  opened := congrArg Ledger.opened moved.ledger
  rejected := congrArg Ledger.rejected moved.ledger
  active := congrArg Ledger.active moved.ledger
  waitGroup := congrArg Ledger.waitGroup moved.ledger
  conns := congrArg Ledger.conns moved.ledger
  held := congrArg Ledger.held moved.ledger

theorem slot_acquired {pc pc' : Pc} (next : successor pc pc' = true) (outside : holding pc = false)
    (inside : holding pc' = true) : pc' = .acquired := by
  -- The only way to a slot is to acquire it.
  cases pc' with
  | acquired => rfl
  | _ => cases pc <;> simp_all [successor, holding, awaited, enlisted, serving]

theorem moved_within {h h' : Handler} {pc pc' : Pc} {n : Nat} (fits : s.held ≤ n)
    (limited : s.semaphore = some n) (moved : Moved event i h h' pc pc' s t) :
    t.held ≤ n := by
  rw [(moved_entries moved).held, limited, Census.follow]
  cases outside : holding pc with
  | false =>
    cases inside : holding pc' with
    | false => exact fits
    | true =>
      have slot := moved.slot
      rw [slot_acquired moved.next outside inside] at slot
      exact slot n limited
  | true =>
    cases holding pc' with
    | false => exact le_trans (Nat.sub_le _ _) fits
    | true => exact fits

theorem moved_tallied {h h' : Handler} {pc pc' : Pc} (tallied : Tallied s)
    (here : s.calls[i]? = some h) (moved : Moved event i h h' pc pc' s t) :
    Tallied t := by
  have place := moved_at moved here
  have names := moved_places moved
  have entries := moved_entries moved
  have up (k : Nat) : UInt64.ofNat k + 1 = UInt64.ofNat (k + 1) := (UInt64.ofNat_add k 1).symm
  have down (k : Nat) : UInt64.ofNat (k + 1) - 1 = UInt64.ofNat k := by
    rw [← up, UInt64.add_sub_cancel]
  exact {
    opened := by
      rw [names, entries.opened]
      exact Census.follow_count UInt64.ofNat up down pc' place tallied.opened
    rejected := by
      rw [names, entries.rejected]
      exact Census.follow_count UInt64.ofNat up down pc' place tallied.rejected
    active := by
      rw [names, entries.active]
      refine Census.follow_count (fun k : Nat => int64.wrap k) ?_ ?_ pc' place tallied.active
      · intro k
        rw [Nat.cast_add]
        exact int64.absorb k 1
      · intro k
        rw [int64.absorb]
        congr 1
        omega
    waitGroup := by
      rw [names, entries.waitGroup]
      exact Census.follow_count id (fun _ => rfl) (fun _ => rfl) pc' place tallied.waitGroup
    conns := by
      rw [names, entries.conns]
      exact Census.registered_follow tallied.conns pc' place
    held := by
      intro limited
      rw [moved_semaphore moved] at limited
      have present : s.semaphore.isSome = true := Option.isSome_iff_ne_none.mpr limited
      rw [names, entries.held, present]
      exact Census.follow_count id (fun _ => rfl) (fun _ => rfl) pc' place (tallied.held limited)
    within := by
      intro n limited
      rw [moved_semaphore moved] at limited
      exact moved_within (tallied.within n limited) limited moved }

theorem aside_tallied (tallied : Tallied s) (aside : Aside s t) : Tallied t := by
  have same {β : Type} (entry : Ledger → β) : entry (ledger t) = entry (ledger s) :=
    congrArg entry aside.ledger
  exact {
    opened := by rw [aside.places]; exact (same Ledger.opened).trans tallied.opened
    rejected := by rw [aside.places]; exact (same Ledger.rejected).trans tallied.rejected
    active := by rw [aside.places]; exact (same Ledger.active).trans tallied.active
    waitGroup := by rw [aside.places]; exact (same Ledger.waitGroup).trans tallied.waitGroup
    conns := by
      rw [aside.places, show t.conns = s.conns from same Ledger.conns]
      exact tallied.conns
    held := by
      rw [aside.places, aside.semaphore, show t.held = s.held from same Ledger.held]
      exact tallied.held
    within := by
      rw [aside.semaphore, show t.held = s.held from same Ledger.held]
      exact tallied.within }

theorem started_tallied (tallied : Tallied s) :
    Tallied { s with calls := s.calls ++ [{}] } := by
  have grown := started_places s
  have unmoved (stands : Pc → Bool) (outside : stands .entered = false) :
      (places s ++ [Pc.entered]).countP stands = (places s).countP stands := by
    rw [Census.count_join, outside]
    rfl
  exact {
    opened := by rw [grown, unmoved counted rfl]; exact tallied.opened
    rejected := by rw [grown, unmoved dismissed rfl]; exact tallied.rejected
    active := by rw [grown, unmoved serving rfl]; exact tallied.active
    waitGroup := by rw [grown, unmoved awaited rfl]; exact tallied.waitGroup
    conns := by rw [grown]; exact Census.registered_join tallied.conns rfl
    held := by rw [grown, unmoved holding rfl]; exact tallied.held
    within := tallied.within }

theorem step_tallied (tallied : Tallied s) (taken : s.step env maxAlloc event = some (t,out)) :
    Tallied t := by
  cases step_cases taken with
  | moved i h h' pc pc' here moved => exact moved_tallied tallied here moved
  | misused _ _ _ _ misused => exact aside_tallied tallied (misused_aside misused)
  | started _ same => exact same ▸ started_tallied tallied
  | passed _ _ same => exact same ▸ aside_tallied tallied ⟨rfl,rfl,rfl⟩
  | wound wound => exact aside_tallied tallied (wound_aside wound).1

theorem run_tallied {kv : Store} {token : Text} {idle n : Int} {now : Time}
    {steps : List (Step Hub Event (List Command))}
    (run : Run (Hub.step env maxAlloc) (.new (.new kv token) idle n now) steps s) : Tallied s :=
  run_stays Tallied (fun _ _ _ _ => step_tallied) run (new_tallied kv token idle n now)

/-- The four quantities with their places, in the order of the claims on a slot. -/
structure Conserved (n : Int) (s : Hub) : Prop where
  active_eq : active s = (places s).countP serving
  conns_eq : s.conns.card = (places s).countP enlisted
  waitGroup_eq : s.waitGroup = (places s).countP awaited
  held_eq : s.held = (places s).countP holding
  active_le : active s ≤ s.conns.card
  conns_le : s.conns.card ≤ s.held
  held_le : s.held ≤ n

theorem tallied_conserved {n : Int} (tallied : Tallied s) (int : n < 2 ^ 63) (positive : 0 < n)
    (limited : s.semaphore = some n.toNat) : Conserved n s := by
  have conns := Census.registered_card tallied.conns
  have held := tallied.held (by simp [limited])
  have within := tallied.within n.toNat limited
  have upper : (places s).countP serving ≤ (places s).countP enlisted :=
    List.countP_mono_left fun _ _ => serving_enlisted
  have middle : (places s).countP enlisted ≤ (places s).countP awaited :=
    List.countP_mono_left fun _ _ => enlisted_awaited
  have lower : (places s).countP awaited ≤ (places s).countP holding :=
    List.countP_mono_left fun _ _ => awaited_holding
  have active : active s = (places s).countP serving := by
    rw [tallied.active]
    exact int64_exact ⟨by omega, by omega⟩
  exact ⟨active, conns, tallied.waitGroup, held, by omega, by omega, by omega⟩

theorem step_semaphore (taken : s.step env maxAlloc event = some (t,out)) :
    t.semaphore = s.semaphore := by
  cases step_cases taken with
  | moved i h h' pc pc' here moved => exact moved_semaphore moved
  | misused _ _ _ _ misused => exact (misused_aside misused).semaphore
  | started _ same => rw [same]
  | passed _ _ same => rw [same]
  | wound wound => exact (wound_aside wound).1.semaphore

/-- In the branch of a call without a slot. -/
def outcast : Pc → Bool
  | .refused | .rejected | .told | .turnedAway => true
  | _ => false

/-- What only a call with a slot may touch. -/
def shared (s : Hub) : Nat × Finset Nat × Nat × Int := (s.held,s.conns,s.waitGroup,active s)

theorem outcast_next {pc pc' : Pc} (next : successor pc pc' = true) (out : outcast pc = true) :
    outcast pc' = true := by
  cases pc <;> cases pc' <;> simp_all [successor, outcast]

theorem moved_apart {h h' : Handler} {pc pc' : Pc} (apart : holding pc = false)
    (apart' : holding pc' = false) (moved : Moved event i h h' pc pc' s t) :
    shared t = shared s := by
  have below : ∀ pc, holding pc = false → awaited pc = false ∧ enlisted pc = false ∧
      serving pc = false := by
    intro pc
    cases pc <;> simp [holding, awaited, enlisted, serving]
  obtain ⟨unawaited,unlisted,idle⟩ := below pc apart
  obtain ⟨unawaited',unlisted',idle'⟩ := below pc' apart'
  have stays {β : Type} (up down : β → β) (stands : Pc → Bool) (q : β) (off : stands pc = false)
      (off' : stands pc' = false) : Census.follow up down stands pc pc' q = q := by
    rw [Census.follow, off, off']
  have entries := moved_entries moved
  have held := entries.held.trans (stays _ _ holding _ apart apart')
  have conns := entries.conns.trans (stays _ _ enlisted _ unlisted unlisted')
  have waitGroup := entries.waitGroup.trans (stays _ _ awaited _ unawaited unawaited')
  have active := entries.active.trans (stays _ _ serving _ idle idle')
  exact Prod.ext held (Prod.ext conns (Prod.ext waitGroup active))

def Rejects (i : Nat) (x : Step Hub Event (List Command)) : Prop :=
  mover x.input = some i ∧ (places x.after)[i]? = some .refused

/-- All slots are taken when a call is turned away, and from then on it touches nothing that
    belongs to the calls with a slot. -/
def RejectedApart (n : Int) (steps : List (Step Hub Event (List Command))) : Prop :=
  ∀ first x second i, steps = first ++ x :: second → Rejects i x →
    x.before.held = n ∧ ∀ y ∈ x :: second, mover y.input = some i → shared y.after = shared y.before

theorem outcast_apart {pc : Pc} (out : outcast pc = true) : holding pc = false := by
  cases pc <;> simp_all [outcast, holding, awaited, enlisted, serving]

def Apart (i : Nat) (s : Hub) : Prop := ∃ h, s.calls[i]? = some h ∧ outcast h.pc = true

theorem step_apart (apart : Apart i s) (taken : s.step env maxAlloc event = some (t,out)) :
    Apart i t ∧ (mover event = some i → shared t = shared s) := by
  -- The call goes on in its branch, whoever takes the step.
  obtain ⟨h,here,out⟩ := apart
  rcases step_call taken here with ⟨h',spared⟩ | ⟨h',pc',moved,_⟩
  · refine ⟨⟨h',spared.call,by rw [spared.same]; exact out⟩, ?_⟩
    intro own
    rw [(spared.joining own).2.1] at out
    cases out
  · have out' := outcast_next moved.next out
    refine ⟨⟨h',moved_call moved here,by rw [moved.after]; exact out'⟩, ?_⟩
    intro _
    exact moved_apart (outcast_apart out) (outcast_apart out') moved

theorem refused_from {pc : Pc} (next : successor pc .refused = true) : holding pc = false := by
  cases pc <;> first | rfl | cases next

theorem rejecting_step {n : Int} (tallied : Tallied s) (positive : 0 < n)
    (limited : s.semaphore = some n.toNat) (taken : s.step env maxAlloc event = some (t,out))
    (rejects : Rejects i ⟨s,event,out,t⟩) :
    s.held = n ∧ shared t = shared s ∧ Apart i t := by
  obtain ⟨mine,refused⟩ := rejects
  cases step_cases taken with
  | moved j h h' pc pc' here moved =>
    obtain rfl : j = i := Option.some.inj (moved.mine.symm.trans mine)
    obtain rfl : pc' = .refused := Option.some.inj ((moved_place moved here).symm.trans refused)
    obtain ⟨capacity,exact,crowded⟩ := moved.slot
    obtain rfl := Option.some.inj (exact.symm.trans limited)
    have within := tallied.within _ limited
    exact ⟨by omega, moved_apart (refused_from moved.next) rfl moved, h', moved_call moved here,
      by rw [moved.after]; rfl⟩
  | misused j h here own misused =>
    rw [own] at mine
    obtain rfl : j = i := Option.some.inj mine
    rw [(misused_aside misused).places, places_at here, misused.place] at refused
    cases refused
  | started own same => rw [own] at mine; cases mine
  | passed _ own same => rw [own] at mine; cases mine
  | wound wound =>
    rw [(wound_aside wound).2] at mine
    cases mine

theorem run_semaphore {steps : List (Step Hub Event (List Command))}
    (run : Run (Hub.step env maxAlloc) s steps t) : t.semaphore = s.semaphore :=
  run_stays (fun u => u.semaphore = s.semaphore)
    (fun _ _ _ _ same taken => (step_semaphore taken).trans same) run rfl

theorem run_rejected_apart {kv : Store} {token : Text} {idle n : Int} {now : Time}
    (positive : 0 < n) {steps : List (Step Hub Event (List Command))}
    (run : Run (Hub.step env maxAlloc) (.new (.new kv token) idle n now) steps s) :
    RejectedApart n steps := by
  intro first x second i split rejects
  obtain ⟨before,taken,after⟩ := run_cut run first x second split
  have limited : x.before.semaphore = some n.toNat := by
    rw [run_semaphore before]
    simp [Hub.new, withMaxConnections, positive]
  obtain ⟨full,untouched,apart⟩ := rejecting_step (run_tallied before) positive limited taken rejects
  have later := (run_keeps (Apart i) (fun _ => True)
    (fun y => mover y.input = some i → shared y.after = shared y.before)
    (fun _ apart taken _ => step_apart apart taken) after apart fun _ _ => trivial).2
  refine ⟨full, ?_⟩
  intro y mem
  rcases List.mem_cons.mp mem with rfl | mem
  · intro _
    exact untouched
  · exact later y mem

/-- Nothing is left, and every connection was turned away or served. -/
structure Vacant (s : Hub) : Prop where
  held : s.held = 0
  conns : s.conns = ∅
  waitGroup : s.waitGroup = 0
  active : active s = 0
  opened : s.server.counters.connectionsOpened = s.server.counters.connectionsRejected +
    UInt64.ofNat ((places s).countP (· == .returned))

theorem ended_count {pcs : List Pc} (ended : ∀ pc ∈ pcs, pc = .returned ∨ pc = .turnedAway) :
    pcs.countP counted = pcs.countP dismissed + pcs.countP (· == .returned) := by
  induction pcs with
  | nil => rfl
  | cons pc pcs ih =>
    have rest := ih fun other mem => ended other (by simp [mem])
    rcases ended pc (by simp) with rfl | rfl <;>
      simp [List.countP_cons, counted, dismissed, rest] <;> omega

theorem ended_vacant (tallied : Tallied s) (limited : s.semaphore ≠ none)
    (ended : ∀ pc ∈ places s, pc = .returned ∨ pc = .turnedAway) : Vacant s := by
  have empty (stands : Pc → Bool) (served : stands .returned = false)
      (away : stands .turnedAway = false) : (places s).countP stands = 0 := by
    rw [List.countP_eq_zero]
    intro pc mem
    rcases ended pc mem with rfl | rfl
    · simp [served]
    · simp [away]
  exact {
    held := by rw [tallied.held limited, empty holding rfl rfl]
    conns := by
      rw [← Finset.card_eq_zero, Census.registered_card tallied.conns, empty enlisted rfl rfl]
    waitGroup := by rw [tallied.waitGroup, empty awaited rfl rfl]
    active := by
      rw [tallied.active, empty serving rfl rfl]
      exact int64_exact (x := 0) (by decide)
    opened := by rw [tallied.opened, tallied.rejected, ended_count ended, UInt64.ofNat_add] }

/-- Slots are conserved and the cap holds in every state of every run; a call is turned away
    only when all slots are taken, and it touches none; and all is vacant in the end. -/
theorem slots_conserved (env : Env) (maxAlloc : Nat) (kv : Store) (token : Text) (idle n : Int)
    (positive : 0 < n) (int : n < 2 ^ 63) (now : Time)
    (steps : List (Step Hub Event (List Command))) (s : Hub)
    (run : Run (Hub.step env maxAlloc) (.new (.new kv token) idle n now) steps s) :
    Conserved n s ∧ RejectedApart n steps ∧
      ((∀ pc ∈ places s, pc = .returned ∨ pc = .turnedAway) → Vacant s) := by
  have tallied := run_tallied run
  have limited : s.semaphore = some n.toNat := by
    rw [run_semaphore run]
    simp [Hub.new, withMaxConnections, positive]
  refine ⟨tallied_conserved tallied int positive limited, run_rejected_apart positive run, ?_⟩
  intro ended
  exact ended_vacant tallied (by simp [limited]) ended

/-- A server with one slot, and nothing that moves but its calls. -/
def oneSlot : Hub :=
  .new (.new (Store.new int64 ConfigModel.Config.default.store) []) 0 1 0

def oneSlotStep : Hub → Event → Option (Hub × List Command) :=
  Hub.step (fun _ => ⟨0,.asListed,0⟩) (2 ^ 48)

/-- Of two calls the second is turned away, the first serves a command and returns. -/
def twoCalls : List Event :=
  [.start, .start, .advance 0, .advance 0, .advance 1, .advance 1, .advance 1, .advance 1,
    .advance 1, .advance 0, .advance 0, .advance 0, .advance 0,
    .receive 0 (ascii ['p','i','n','g','\r','\n']), .advance 0, .advance 0, .advance 0,
    .interrupt 0 .eof, .advance 0, .advance 0, .advance 0, .advance 0, .advance 0]

theorem two_calls_conserve :
    ∃ steps s, Run oneSlotStep oneSlot steps s ∧ steps.map Step.input = twoCalls ∧
      Conserved 1 s ∧ RejectedApart 1 steps ∧ Vacant s := by
  have ends : (exec oneSlotStep oneSlot twoCalls).map (fun run => places run.2) =
      some [.returned,.turnedAway] := by decide
  obtain ⟨⟨steps,s⟩,done,last⟩ := Option.map_eq_some_iff.mp ends
  obtain ⟨run,inputs⟩ := exec_run done
  obtain ⟨conserved,apart,vacant⟩ :=
    slots_conserved _ _ _ _ _ _ (by decide) (by decide) _ steps s run
  refine ⟨steps, s, run, inputs, conserved, apart, vacant ?_⟩
  rw [show places s = _ from last]
  decide

end ServerSlots
