import MiniKV.Server.Slots

/- What a returned Shutdown means. The wait group counts the calls behind its Add; a call
   that has been started and has not come to it is not waited for. -/
namespace ServerDrain
open MachineWord LruModel ShardModel StoreModel StepRuns ProtocolModel ServerModel ServerLifecycle
  ServerPlaces ServerMoves ServerSlots

variable {env : Env} {maxAlloc i : Nat} {s t : Hub} {event : Event} {out : List Command}
  {steps : List (Step Hub Event (List Command))}

/-- Started, and still on the way to the Add of the wait group. -/
def early : Pc → Bool
  | .entered | .opened | .acquired => true
  | _ => false

/-- Turned away, or behind the Done of the wait group. -/
def gone : Pc → Bool
  | .releasing | .finished | .returned => true
  | pc => outcast pc

theorem gone_next {pc pc' : Pc} (next : successor pc pc' = true) (ended : gone pc = true) :
    gone pc' = true := by
  cases pc <;> cases pc' <;> simp_all [successor, gone, outcast]

theorem gone_of {pc : Pc} (late : early pc = false) (unawaited : awaited pc = false) :
    gone pc = true := by
  cases pc <;> simp_all [early, awaited, enlisted, serving, gone, outcast]

theorem wound_phase (wound : Wound event s t) :
    (t.done = true → s.done = true ∨ (event = .drained ∧ s.waitGroup = 0)) ∧
      (s.done = true → t.done = true) ∧
      ((s.done = true → s.shutdown ≠ .uncalled) → t.done = true → t.shutdown ≠ .uncalled) ∧
      ∀ e, t.shutdown = .returned e → s.done = true ∨ s.shutdown = .returned e := by
  -- How far Shutdown is: the channel is closed by its waiting goroutine only, and Shutdown
  -- returns only then.
  cases wound <;> simp_all [Hub.put]

/-- Behind the Wait every call is gone, and no call has been started since. -/
structure Waited (s : Hub) : Prop where
  tallied : Tallied s
  gone : s.done = true → ∀ pc ∈ places s, gone pc = true
  called : s.done = true → s.shutdown ≠ .uncalled
  returned : ∀ e, s.shutdown = .returned e → s.done = true

theorem moved_waited {h h' : Handler} {pc pc' : Pc} (waited : Waited s)
    (here : s.calls[i]? = some h) (moved : Moved event i h h' pc pc' s t) :
    Waited t where
  tallied := moved_tallied waited.tallied here moved
  gone := by
    intro done place mem
    rw [(moved_shutdown moved).2] at done
    rw [moved_places moved] at mem
    rcases List.mem_or_eq_of_mem_set mem with old | rfl
    · exact waited.gone done place old
    · exact gone_next moved.next (waited.gone done pc (List.mem_of_getElem? (moved_at moved here)))
  called := by
    rw [(moved_shutdown moved).1, (moved_shutdown moved).2]
    exact waited.called
  returned := by
    rw [(moved_shutdown moved).1, (moved_shutdown moved).2]
    exact waited.returned

theorem empty_gone (tallied : Tallied s) (empty : s.waitGroup = 0)
    (late : ∀ pc ∈ places s, early pc = false) : ∀ pc ∈ places s, gone pc = true := by
  -- The Wait comes back with the counter at zero, and no call is on the way to it.
  rw [tallied.waitGroup, List.countP_eq_zero] at empty
  intro pc mem
  exact gone_of (late pc mem) (by simpa using empty pc mem)

theorem wound_waited (waited : Waited s) (wound : Wound event s t)
    (late : event = .drained → ∀ pc ∈ places s, early pc = false) : Waited t := by
  obtain ⟨closes,stays,called,returns⟩ := wound_phase wound
  have aside := (wound_aside wound).1
  refine ⟨aside_tallied waited.tallied aside, ?_, called waited.called, ?_⟩
  · intro done
    rw [aside.places]
    rcases closes done with before | ⟨drained,empty⟩
    · exact waited.gone before
    · exact empty_gone waited.tallied empty (late drained)
  · intro e returned
    rcases returns e returned with done | before
    · exact stays done
    · exact stays (waited.returned e before)

theorem step_waited (waited : Waited s) (taken : s.step env maxAlloc event = some (t,out))
    (first : event = .start → s.shutdown = .uncalled)
    (late : event = .drained → ∀ pc ∈ places s, early pc = false) : Waited t := by
  cases step_cases taken with
  | moved i h h' pc pc' here moved => exact moved_waited waited here moved
  | misused _ _ _ _ misused =>
    rw [misused.down]
    exact ⟨aside_tallied waited.tallied ⟨rfl,rfl,rfl⟩, waited.gone, waited.called, waited.returned⟩
  | started own same =>
    have undone : s.done ≠ true := fun done => waited.called done (first own)
    subst same
    exact ⟨started_tallied waited.tallied, fun done => absurd done undone, waited.called,
      waited.returned⟩
  | passed _ _ same =>
    subst same
    exact ⟨aside_tallied waited.tallied ⟨rfl,rfl,rfl⟩, waited.gone, waited.called,
      waited.returned⟩
  | wound wound => exact wound_waited waited wound late

def StartedBefore (x : Step Hub Event (List Command)) : Prop :=
  x.input = .start → x.before.shutdown = .uncalled

/-- No call is on the way to the Add of the wait group when Wait comes back. -/
def NoneEarly (x : Step Hub Event (List Command)) : Prop :=
  x.input = .drained → ∀ pc ∈ places x.before, early pc = false

instance (x : Step Hub Event (List Command)) : Decidable (StartedBefore x) :=
  inferInstanceAs (Decidable (_ → _))

instance (x : Step Hub Event (List Command)) : Decidable (NoneEarly x) :=
  inferInstanceAs (Decidable (_ → _))

theorem gone_executes_nothing (waited : Waited s) (done : s.done = true)
    (taken : s.step env maxAlloc event = some (t,out)) : out = [] := by
  cases step_cases taken with
  | moved i h h' pc pc' here moved deed =>
    rcases deed_output deed with none | ⟨c,place,_⟩
    · exact none
    · have ended := waited.gone done _ (List.mem_of_getElem? (places_at here))
      rw [place] at ended
      cases ended
  | misused _ _ _ _ _ quiet => exact quiet
  | started _ _ quiet => exact quiet
  | passed _ _ _ quiet => exact quiet
  | wound _ quiet => exact quiet

/-- What a returned Shutdown promises. -/
structure Drained (s : Hub) : Prop where
  gone : ∀ pc ∈ places s, gone pc = true
  conns : s.conns = ∅
  active : active s = 0

theorem waited_drained (waited : Waited s) (done : s.done = true) : Drained s := by
  have ended := waited.gone done
  have empty (stands : Pc → Bool) (outside : ∀ pc, gone pc = true → stands pc = false) :
      (places s).countP stands = 0 := by
    rw [List.countP_eq_zero]
    intro pc mem
    simp [outside pc (ended pc mem)]
  have unlisted : ∀ pc, gone pc = true → enlisted pc = false ∧ serving pc = false := by
    intro pc
    cases pc <;> simp [gone, outcast, enlisted, serving]
  refine ⟨ended, ?_, ?_⟩
  · rw [← Finset.card_eq_zero, Census.registered_card waited.tallied.conns,
      empty enlisted fun pc h => (unlisted pc h).1]
  · rw [waited.tallied.active, empty serving fun pc h => (unlisted pc h).2]
    exact int64_exact (x := 0) (by decide)

theorem run_waited {kv : Store} {token : Text} {idle n : Int} {now : Time}
    (run : Run (Hub.step env maxAlloc) (.new (.new kv token) idle n now) steps s)
    (first : ∀ x ∈ steps, StartedBefore x) (late : ∀ x ∈ steps, NoneEarly x) :
    Waited s ∧ ∀ x ∈ steps, ∀ e, x.before.shutdown = .returned e → x.output = [] :=
  run_keeps Waited (fun x => StartedBefore x ∧ NoneEarly x)
    (fun x => ∀ e, x.before.shutdown = .returned e → x.output = [])
    (fun _ waited taken fit => ⟨step_waited waited taken fit.1 fit.2,
      fun e returned => gone_executes_nothing waited (waited.returned e returned) taken⟩)
    run ⟨new_tallied kv token idle n now, nofun, nofun, nofun⟩
    fun x mem => ⟨first x mem,late x mem⟩

/-- A returned Shutdown means drained, in every run in which no started call is on the way
    to the Add of the wait group when Wait comes back: all calls are turned away or past
    the Done, no connection is registered or active, and no later step executes a
    command. -/
theorem returned_shutdown_drained (env : Env) (maxAlloc : Nat) (kv : Store) (token : Text)
    (idle n : Int) (now : Time) (steps : List (Step Hub Event (List Command))) (s : Hub)
    (run : Run (Hub.step env maxAlloc) (.new (.new kv token) idle n now) steps s)
    (first : ∀ x ∈ steps, StartedBefore x) (late : ∀ x ∈ steps, NoneEarly x) :
    (∀ e, s.shutdown = .returned e → Drained s) ∧
      ∀ x ∈ steps, ∀ e, x.before.shutdown = .returned e → x.output = [] := by
  obtain ⟨waited,quiet⟩ := run_waited run first late
  refine ⟨?_, quiet⟩
  intro e returned
  exact waited_drained waited (waited.returned e returned)

def idleDrain : List Event :=
  [.start, .advance 0, .advance 0, .advance 0, .advance 0, .advance 0, .advance 0, .shutdown,
    .signal 0, .signalled, .interrupt 0 .timeout, .advance 0, .advance 0, .advance 0, .advance 0,
    .drained, .return, .advance 0]

theorem idle_connection_drained :
    ∃ steps s, Run oneSlotStep oneSlot steps s ∧ steps.map Step.input = idleDrain ∧
      (∀ x ∈ steps, StartedBefore x) ∧ (∀ x ∈ steps, NoneEarly x) ∧
      s.shutdown = .returned false ∧ Drained s ∧
      ∀ x ∈ steps, ∀ e, x.before.shutdown = .returned e → x.output = [] := by
  have ends : (exec oneSlotStep oneSlot idleDrain).map (fun run =>
      decide ((∀ x ∈ run.1, StartedBefore x) ∧ (∀ x ∈ run.1, NoneEarly x) ∧
        run.2.shutdown = .returned false)) = some true := by decide
  obtain ⟨⟨steps,s⟩,done,checked⟩ := Option.map_eq_some_iff.mp ends
  obtain ⟨first,late,returned⟩ := of_decide_eq_true checked
  obtain ⟨run,inputs⟩ := exec_run done
  obtain ⟨drained,quiet⟩ := returned_shutdown_drained _ _ _ _ _ _ _ steps s run first late
  exact ⟨steps, s, run, inputs, first, late, returned, drained false returned, quiet⟩

/-- Shutdown returns while a started call has not come to the wait group; the call goes on
    to serve a command. -/
def lateCall : List Event :=
  [.start, .advance 0, .shutdown, .signalled, .drained, .return, .advance 0, .advance 0,
    .advance 0, .advance 0, .advance 0, .receive 0 (ascii ['p','i','n','g','\r','\n']), .advance 0,
    .advance 0]

theorem late_call_executes :
    ∃ steps s, Run oneSlotStep oneSlot steps s ∧ steps.map Step.input = lateCall ∧
      (∀ x ∈ steps, StartedBefore x) ∧ s.shutdown = .returned false ∧ active s = 1 ∧
      s.conns = {0} ∧ ∃ x ∈ steps, x.before.shutdown = .returned false ∧
        x.output = [{ op := .ping }] := by
  have ends : (exec oneSlotStep oneSlot lateCall).map (fun run =>
      decide ((∀ x ∈ run.1, StartedBefore x) ∧ run.2.shutdown = .returned false ∧
        active run.2 = 1 ∧ run.2.conns = {0} ∧
        ∃ x ∈ run.1, x.before.shutdown = .returned false ∧ x.output = [{ op := .ping }])) =
      some true := by decide
  obtain ⟨⟨steps,s⟩,done,checked⟩ := Option.map_eq_some_iff.mp ends
  obtain ⟨run,inputs⟩ := exec_run done
  exact ⟨steps, s, run, inputs, of_decide_eq_true checked⟩

end ServerDrain
