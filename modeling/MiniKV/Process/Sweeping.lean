import MiniKV.Process.Guarantees
import MiniKV.Store.Freshness

/- What a pass of the sweeper is worth. It takes the shards one by one while the connections
   go on writing; still, when it is through, no shard holds an item that had expired when the
   ticker fired. -/
namespace ProcessModel
open MachineWord LruModel ShardModel StoreModel StoreFate StoreFreshness ShardInvariant StepRuns
  ProtocolModel ServerModel ServerLifecycle ServerSections

variable {env : Env} {maxAlloc : Nat} {config : ConfigModel.Config} {time : Time}
  {p q : Process} {what : Happening} {out : List Command} {steps more : List ProcessStep}

/-- The shards that are behind the sweeper are fresh, and all of them once a pass is over. -/
structure Passing (time : Time) (first : Nat) (more : List ProcessStep) (p : Process) : Prop where
  later : first ≤ p.hub.server.calls
  behind : (∃ j, p.sweeper = .sweeping j ∧ ∀ i < j, FreshAt time i p.hub.server.store) ∨
    ∀ i, FreshAt time i p.hub.server.store
  through : (∃ y ∈ more, y.input = .swept) → ∀ i, FreshAt time i p.hub.server.store

/-- No sweep of the steps reads an earlier time. -/
def OnTime (time : Time) (x : ProcessStep) : Prop :=
  ∀ now order, x.input = .sweep now order → time ≤ now

/-- Behind the last shard there is none that could be stale. -/
theorem all_fresh {s : Store} (passed : ∀ i < s.shards.length, FreshAt time i s) :
    ∀ i, FreshAt time i s := by
  intro i sh here
  exact passed i (List.getElem?_eq_some_iff.mp here).1 sh here

/-- A step of the store that keeps every shard as fresh as it was. -/
theorem passing_kept {first : Nat} (passing : Passing time first more p)
    (sweeper : q.sweeper = p.sweeper) (later : p.hub.server.calls ≤ q.hub.server.calls)
    (kept : ∀ i, FreshAt time i p.hub.server.store → FreshAt time i q.hub.server.store)
    (other : what ≠ .swept) : Passing time first (more ++ [⟨p,what,out,q⟩]) q := by
  refine ⟨Nat.le_trans passing.later later, ?_, ?_⟩
  · rcases passing.behind with ⟨j,here,fresh⟩ | fresh
    · exact Or.inl ⟨j, sweeper.trans here, fun i below => kept i (fresh i below)⟩
    · exact Or.inr fun i => kept i (fresh i)
  · rintro ⟨y,mem,swept⟩ i
    rcases List.mem_append.mp mem with old | new
    · exact kept i (passing.through ⟨y,old,swept⟩ i)
    · rw [List.mem_singleton.mp new] at swept
      exact absurd swept other

theorem step_passing {first : Nat} (accepted : config.validate = none)
    (sane : Sane config maxAlloc steps p) (clock : ∀ k, first ≤ k → time ≤ (env k).now)
    (onTime : OnTime time ⟨p,what,out,q⟩) (passing : Passing time first more p)
    (taken : p.step env maxAlloc what = some (q,out)) :
    Passing time first (more ++ [⟨p,what,out,q⟩]) q := by
  obtain ⟨sound,_⟩ := sane.talking.serves
  cases step_took taken with
  | served asked stepped =>
    obtain ⟨later,works,run,fit⟩ := (step_passes sane.talking stepped).through
    have late : ∀ x ∈ works, time ≤ x.input.now := by
      intro x mem
      obtain ⟨k,from_here,now⟩ := (fit x mem).met
      rw [now]
      exact clock k (Nat.le_trans passing.later from_here)
    refine passing_kept passing rfl later (fun i fresh => run_fresh sound run late fresh) ?_
    rintro rfl
    cases asked
  | @swept j now order store reply here stepped =>
    have earlier : time ≤ now := onTime now order rfl
    have kept : ∀ i, FreshAt time i p.hub.server.store → FreshAt time i store :=
      fun i fresh => step_fresh sound stepped earlier fresh
    refine ⟨passing.later, ?_, ?_⟩
    · rcases passing.behind with ⟨k,there,fresh⟩ | fresh
      · obtain rfl : j = k := Sweeper.sweeping.inj (here.symm.trans there)
        refine Or.inl ⟨j + 1, rfl, ?_⟩
        intro i below
        rcases Nat.lt_succ_iff_lt_or_eq.mp below with behind | rfl
        · exact kept i (fresh i behind)
        · exact StoreFreshness.swept_fresh sound stepped earlier
      · exact Or.inr fun i => kept i (fresh i)
    · rintro ⟨y,mem,ended⟩ i
      rcases List.mem_append.mp mem with old | new
      · exact kept i (passing.through ⟨y,old,ended⟩ i)
      · rw [List.mem_singleton.mp new] at ended
        cases ended
  | crashed negative =>
    rw [sane.interval] at negative
    exact absurd negative (Int.not_lt.mpr (accepted_shape accepted).2)
  | aside own hub interval loop signal pass =>
    have same : q.hub.server.store = p.hub.server.store := by rw [hub]
    have ended : what = .swept → ∀ i, FreshAt time i q.hub.server.store := by
      intro swept
      rw [same]
      rcases passing.behind with ⟨j,here,fresh⟩ | fresh
      · obtain rfl := Sweeper.sweeping.inj (here.symm.trans (pass.swept swept))
        exact all_fresh fresh
      · exact fresh
    refine ⟨by rw [hub]; exact passing.later, ?_, ?_⟩
    · rw [same]
      rcases passing.behind with ⟨j,here,fresh⟩ | fresh
      · rcases pass.kept j here with still | rfl
        · exact Or.inl ⟨j,still,fresh⟩
        · exact Or.inr (all_fresh fresh)
      · exact Or.inr fresh
    · rintro ⟨y,mem,swept⟩
      rcases List.mem_append.mp mem with old | new
      · rw [same]
        exact passing.through ⟨y,old,swept⟩
      · rw [List.mem_singleton.mp new] at swept
        exact ended swept

theorem tick_passing (time : Time) (taken : p.step env maxAlloc .tick = some (q,out)) :
    Passing time p.hub.server.calls [] q := by
  cases step_took taken with
  | served asked => cases asked
  | aside own hub interval loop signal pass =>
    refine ⟨by rw [hub], Or.inl ⟨0, pass.ticked rfl, ?_⟩, ?_⟩
    · intro i below
      exact absurd below (Nat.not_lt_zero i)
    · rintro ⟨y,mem,_⟩
      cases mem

/-- Once a pass of the sweeper has come to its end, no shard holds an item that had expired
    when the ticker fired, whatever the connections have written meanwhile and since; the
    clock must not go back behind that time. -/
theorem pass_leaves_nothing_stale (env : Env) (maxAlloc : Nat) (config : ConfigModel.Config)
    (now time : Time) (accepted : config.validate = none)
    (routed : config.shards.toNat % 2 ^ 32 ≠ 0) (before more : List ProcessStep) (x : ProcessStep)
    (p : Process)
    (run : Run (Process.step env maxAlloc) (.start config now) (before ++ x :: more) p)
    (fired : x.input = .tick) (clock : ∀ k, x.before.hub.server.calls ≤ k → time ≤ (env k).now)
    (onTime : ∀ y ∈ more, OnTime time y) (through : ∃ y ∈ more, y.input = .swept) :
    ∀ sh ∈ p.hub.server.store.shards, Fresh time sh := by
  obtain ⟨prior,taken,rest⟩ := run_cut run before x more rfl
  have begun : Sane config maxAlloc (before ++ [x]) x.after :=
    step_sane accepted routed (run_sane accepted routed prior) taken
  rw [fired] at taken
  -- The invariant is carried along the steps behind the tick, with the history before them.
  have passing : (∀ y ∈ more, OnTime time y) → Sane config maxAlloc (before ++ [x] ++ more) p ∧
      Passing time x.before.hub.server.calls more p := by
    refine run_invariant (fun more p => (∀ y ∈ more, OnTime time y) →
      Sane config maxAlloc (before ++ [x] ++ more) p ∧
        Passing time x.before.hub.server.calls more p) ?_ ?_ rest
    · intro _
      exact ⟨by simpa using begun, tick_passing time taken⟩
    · intro more p what q out _ ih stepped onTime
      obtain ⟨sane,passing⟩ := ih fun y mem => onTime y (by simp [mem])
      have next := step_sane accepted routed sane stepped
      rw [List.append_assoc] at next
      exact ⟨next, step_passing accepted sane clock (onTime _ (by simp)) passing stepped⟩
  intro sh mem
  obtain ⟨i,here⟩ := List.getElem?_of_mem mem
  exact (passing onTime).2.through through i sh here

/-- An item with a second to live, and a pass of the sweeper two seconds later. -/
def briefItem : List Happening :=
  [.accept, .launch] ++ enter 0 ++ [.serve (.receive 0 (text "set a 1 1\r\nx\r\n")),
    .serve (.advance 0), .serve (.advance 0)]

def latePass : List Happening :=
  [.sweep 2000000000 .asListed, .sweep 2000000000 .asListed, .swept]

def twoSecondsLater : Env := fun k => ⟨2000000000 * k,.asListed,0⟩

def openPair : ConfigModel.Config := { guardedPair with authToken := [] }

def items (p : Process) : Nat := (p.hub.server.store.stats int64).items

/-- At the tick one call has met the clock, and one item is held. -/
def tickMeets (x : ProcessStep) : Bool :=
  match x.input with
  | .tick => decide (x.before.hub.server.calls = 1 ∧ items x.before = 1)
  | _ => true

theorem late_pass_leaves_nothing : ∃ before x more p,
    Run (Process.step twoSecondsLater (2 ^ 48)) (.start openPair 0) (before ++ x :: more) p ∧
      before.map Step.input = briefItem ∧ x.input = .tick ∧ more.map Step.input = latePass ∧
      items x.before = 1 ∧ items p = 0 ∧
      ∀ sh ∈ p.hub.server.store.shards, Fresh 2000000000 sh := by
  obtain ⟨steps,p,run,inputs,shown⟩ := exec_shows
    (show (exec (Process.step twoSecondsLater (2 ^ 48)) (.start openPair 0)
      (briefItem ++ .tick :: latePass)).map (fun run => (run.1.all tickMeets, items run.2)) =
      some (true,0) by decide)
  obtain ⟨meets,empty⟩ := Prod.mk.inj shown
  obtain ⟨before,rest,rfl,first,second⟩ := List.map_eq_append_iff.mp inputs
  obtain ⟨x,more,rfl,fired,last⟩ := List.map_eq_cons_iff.mp second
  have met := List.all_eq_true.mp meets x (by simp)
  rw [tickMeets, fired] at met
  obtain ⟨calls,held⟩ := of_decide_eq_true met
  have known : ∀ y ∈ more, y.input ∈ latePass := by
    intro y mem
    rw [← last]
    exact List.mem_map_of_mem mem
  refine ⟨before, x, more, p, run, first, fired, last, held, empty,
    pass_leaves_nothing_stale _ _ openPair 0 2000000000 (by decide) (by decide) before more x p run
      fired ?_ ?_ ?_⟩
  · intro k from_here
    rw [calls] at from_here
    change (2000000000 : Int) ≤ 2000000000 * k
    omega
  · intro y mem now order own
    have listed := known y mem
    simp only [latePass, own, List.mem_cons, List.not_mem_nil, or_false, Happening.sweep.injEq,
      reduceCtorEq] at listed
    rcases listed with ⟨rfl,_⟩ | ⟨rfl,_⟩ <;> exact Int.le_refl _
  · have there : Happening.swept ∈ more.map Step.input := by rw [last]; simp [latePass]
    obtain ⟨y,mem,own⟩ := List.mem_map.mp there
    exact ⟨y,mem,own⟩

end ProcessModel
