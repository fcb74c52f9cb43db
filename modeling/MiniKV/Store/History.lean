import MiniKV.Store.Tokens

/- Get against the history. Only the steps of the run are consulted: what the last
   write of the key wrote, what came after it, and the expiry that the last Set or Cas
   fixed. The state serves to prove that this is all a Get can see. -/
namespace StoreHistory
open MachineWord KeyedList LruModel Decimal ShardModel CacheModel CacheEffects ShardInvariant
  StoreModel StoreFate StoreTokens StepRuns

def lastWrite (key : Bytes) (steps : List StoreStep) : Option StoreStep :=
  steps.reverse.find? (writesKey key)

/-- The steps after the last write of the key, the latest first. -/
def sinceWrite (key : Bytes) (steps : List StoreStep) : List StoreStep :=
  steps.reverse.takeWhile fun x => !writesKey key x

/-- A successful Set or Cas fixes the expiry; Incr leaves it. -/
def fixesExpiry (key : Bytes) (x : StoreStep) : Bool :=
  writesKey key x && (match x.input.call with
    | .set .. | .cas .. => true
    | _ => false)

def lastFix (key : Bytes) (steps : List StoreStep) : Option StoreStep :=
  steps.reverse.find? (fixesExpiry key)

def written (x : StoreStep) : Option Bytes :=
  match x.input.call, x.output with
  | .set _ value _, _ => some value
  | .cas _ value _ _, _ => some value
  | .incr _ _, .counted (.ok next) => some (formatUint next)
  | _, _ => none

def expiry (x : StoreStep) : Time :=
  match x.input.call with
  | .set _ _ ttl => expiresAt x.input.now ttl
  | .cas _ _ ttl _ => expiresAt x.input.now ttl
  | _ => 0

/-- An over-budget write of another key of the same shard removes the live entry. -/
def Evicts (key : Bytes) (x : StoreStep) : Prop :=
  ∃ e w, x.before.peek key = some e ∧ e.expired x.input.now = false ∧
    x.after.peek key = none ∧ w.key ≠ key ∧
    shardFor w.key x.before.shards.length = shardFor key x.before.shards.length ∧
    writesKey w.key x = true ∧ x.after.peek w.key = some w ∧ OverBudget x.before w

variable {limits : Limits} {x : StoreStep} {s : Store} {key : Bytes} {steps : List StoreStep}
  {e : Entry}

theorem lastWrite_snoc (key : Bytes) (steps : List StoreStep) (x : StoreStep) :
    lastWrite key (steps ++ [x]) = if writesKey key x then some x else lastWrite key steps := by
  cases own : writesKey key x <;> simp [lastWrite, own]

theorem lastFix_snoc (key : Bytes) (steps : List StoreStep) (x : StoreStep) :
    lastFix key (steps ++ [x]) = if fixesExpiry key x then some x else lastFix key steps := by
  cases own : fixesExpiry key x <;> simp [lastFix, own]

theorem sinceWrite_snoc (key : Bytes) (steps : List StoreStep) (x : StoreStep) :
    sinceWrite key (steps ++ [x]) =
      if writesKey key x then [] else x :: sinceWrite key steps := by
  cases own : writesKey key x <;> simp [sinceWrite, own]

/-- What the history knows about an entry that is held. -/
structure Explained (key : Bytes) (steps : List StoreStep) (e : Entry) : Prop where
  wrote : ∃ w, lastWrite key steps = some w ∧ written w = some e.value ∧ stamp w = some e.cas
  undeleted : ∀ x ∈ sinceWrite key steps, deletesKey key x = false
  fixed : ∃ u, lastFix key steps = some u ∧ expiry u = e.expiresAt

/-- Why the history expects no entry; the expiry had passed by some reading of the clock. -/
def Vanished (key : Bytes) (steps : List StoreStep) : Prop :=
  lastWrite key steps = none ∨
    (∃ x ∈ sinceWrite key steps, deletesKey key x = true) ∨
    (∃ u, lastFix key steps = some u ∧ expiry u ≠ 0 ∧
      ∃ x ∈ steps, expiry u ≤ x.input.now) ∨
    ∃ x ∈ sinceWrite key steps, Evicts key x

theorem unfixed_of_unwritten (unwritten : writesKey key x = false) :
    fixesExpiry key x = false := by
  simp [fixesExpiry, unwritten]

theorem explained_kept (unwritten : writesKey key x = false)
    (undeleted : deletesKey key x = false) (old : Explained key steps e) :
    Explained key (steps ++ [x]) e := by
  have unfixed := unfixed_of_unwritten unwritten
  constructor
  · rw [lastWrite_snoc, unwritten]
    exact old.wrote
  · rw [sinceWrite_snoc, unwritten]
    intro y mem
    rcases List.mem_cons.mp mem with rfl | mem
    · exact undeleted
    · exact old.undeleted y mem
  · rw [lastFix_snoc, unfixed]
    exact old.fixed

theorem vanished_kept (unwritten : writesKey key x = false) (old : Vanished key steps) :
    Vanished key (steps ++ [x]) := by
  have unfixed := unfixed_of_unwritten unwritten
  unfold Vanished
  rw [lastWrite_snoc, lastFix_snoc, sinceWrite_snoc, unwritten, unfixed]
  rcases old with never | ⟨y,mem,gone⟩ | ⟨u,fixed,timed,y,mem,late⟩ | ⟨y,mem,out⟩
  · exact Or.inl never
  · exact Or.inr (Or.inl ⟨y,List.mem_cons_of_mem x mem,gone⟩)
  · exact Or.inr (Or.inr (Or.inl ⟨u,fixed,timed,y,List.mem_append_left _ mem,late⟩))
  · exact Or.inr (Or.inr (Or.inr ⟨y,List.mem_cons_of_mem x mem,out⟩))

theorem explained_write (sound : Sound limits x.before) (taken : Taken x)
    (stores : Stores limits (x.before.peek key) x.before.cas x.input.now x.input.call e x.output)
    (named : e.key = key)
    (old : ∀ f, x.before.peek key = some f → Explained key steps f) :
    Explained key (steps ++ [x]) e := by
  obtain ⟨keyed,writes,success,token,_⟩ := stores_facts stores
  rw [named] at keyed
  have mutation : mutates x = true := by simp [mutates, writes, success]
  have own : writesKey key x = true := (writesKey_iff key x).mpr ⟨mutation,keyed⟩
  have mark := mutation_stamps sound taken mutation
  rw [← token] at mark
  obtain ⟨s,⟨call,shard,now,order⟩,reply,t⟩ := x
  dsimp only at *
  constructor
  · rw [lastWrite_snoc, own]
    refine ⟨_, rfl, ?_, mark⟩
    cases stores <;> rfl
  · rw [sinceWrite_snoc, own]
    simp
  · rw [lastFix_snoc]
    cases stores with
    | set => exact ⟨_, if_pos (by simp [fixesExpiry, own]), rfl⟩
    | cas => exact ⟨_, if_pos (by simp [fixesExpiry, own]), rfl⟩
    | incr _ hit =>
      rw [if_neg (by simp [fixesExpiry])]
      exact (old _ hit).fixed

theorem expired_iff (e : Entry) (now : Time) :
    e.expired now = true ↔ e.expiresAt ≠ 0 ∧ e.expiresAt ≤ now := by
  simp [Entry.expired]

theorem history_step (sound : Sound limits x.before) (taken : Taken x)
    (held : ∀ e, x.before.peek key = some e → Explained key steps e)
    (gone : x.before.peek key = none → Vanished key steps) :
    (∀ e, x.after.peek key = some e → Explained key (steps ++ [x]) e) ∧
      (x.after.peek key = none → Vanished key (steps ++ [x])) := by
  -- One step keeps the explanation of what is held and the reason of what is not.
  cases step_fate sound taken key with
  | kept same unwritten undeleted =>
    rw [same]
    exact ⟨fun e here => explained_kept unwritten undeleted (held e here),
      fun miss => vanished_kept unwritten (gone miss)⟩
  | @wrote w named stores after =>
    rw [after]
    constructor
    · intro e here
      obtain rfl := Option.some.inj here
      exact explained_write sound taken stores named held
    · intro miss
      cases miss
  | deleted call reply before after =>
    rw [after]
    have unwritten : writesKey key x = false := by
      simp [writesKey, mutates, call, Call.writes]
    have deletion : deletesKey key x = true := by
      simp [deletesKey, call, reply, Reply.success]
    refine ⟨by simp, fun _ => Or.inr (Or.inl ⟨x, ?_, deletion⟩)⟩
    rw [sinceWrite_snoc, unwritten]
    exact List.mem_cons_self
  | @expired e before dead after unwritten undeleted =>
    rw [after]
    obtain ⟨u,fixed,same⟩ := (held e before).fixed
    obtain ⟨timed,late⟩ := (expired_iff e x.input.now).mp dead
    refine ⟨by simp, fun _ => Or.inr (Or.inr (Or.inl ⟨u, ?_, by rwa [same], x, by simp, ?_⟩))⟩
    · rw [lastFix_snoc, unfixed_of_unwritten unwritten]
      exact fixed
    · rw [same]
      exact late
  | @evicted e w before live after other together mutation stored budget =>
    rw [after]
    have unwritten : writesKey key x = false := by
      have named := ((writesKey_iff w.key x).mp mutation).2
      simp [writesKey, named, other]
    refine ⟨by simp, fun _ => Or.inr (Or.inr (Or.inr ⟨x, ?_, e, w, before, live, after, other,
      together, mutation, stored, budget⟩))⟩
    rw [sinceWrite_snoc, unwritten]
    exact List.mem_cons_self

theorem run_history {config : Config} (key : Bytes)
    (run : Run Store.step (Store.new int64 config) steps s) :
    (∀ e, s.peek key = some e → Explained key steps e) ∧
      (s.peek key = none → Vanished key steps) := by
  refine run_invariant (fun steps s => (∀ e, s.peek key = some e → Explained key steps e) ∧
    (s.peek key = none → Vanished key steps)) ?_ ?_ run
  · rw [new_peek]
    exact ⟨by simp, fun _ => Or.inl rfl⟩
  · intro steps s work t reply prior both taken
    obtain ⟨held,gone⟩ := both
    exact history_step (x := ⟨s,work,reply,t⟩) (run_sound prior) taken held gone

/-- Get is exact: a hit is the last write, not deleted since and not yet expired, and a
    miss has one of the four reasons. -/
theorem get_reads_history (config : Config) {before after : List StoreStep} {get : StoreStep}
    {last : Store} {key : Bytes}
    (run : Run Store.step (Store.new int64 config) (before ++ get :: after) last)
    (clock : ((before ++ get :: after).map fun x => x.input.now).Pairwise (· ≤ ·))
    (call : get.input.call = .get key) :
    (∀ item, get.output = .found (some item) →
        (∃ w, lastWrite key before = some w ∧ written w = some item.value ∧
          stamp w = some item.cas) ∧
        (∀ x ∈ sinceWrite key before, deletesKey key x = false) ∧
        ∃ u, lastFix key before = some u ∧ (expiry u ≠ 0 → get.input.now < expiry u)) ∧
      (get.output = .found none →
        lastWrite key before = none ∨
          (∃ x ∈ sinceWrite key before, deletesKey key x = true) ∨
          (∃ u, lastFix key before = some u ∧ expiry u ≠ 0 ∧ expiry u ≤ get.input.now) ∨
          ∃ x ∈ sinceWrite key before, Evicts key x) := by
  obtain ⟨prior,taken,_⟩ := run_cut run before get after rfl
  obtain ⟨held,gone⟩ := run_history key prior
  have earlier : ∀ x ∈ before, x.input.now ≤ get.input.now := by
    intro x mem
    rw [List.map_append, List.pairwise_append] at clock
    exact clock.2.2 _ (List.mem_map_of_mem mem) _ (by simp)
  rcases get_inverted (run_sound prior) call taken with ⟨e,here,live,reply,_⟩ | ⟨reply,dead⟩
  · rw [reply]
    constructor
    · intro item same
      simp only [Reply.found.injEq, Option.some.injEq] at same
      subst same
      obtain ⟨wrote,undeleted,u,fixed,same⟩ := held e here
      refine ⟨wrote, undeleted, u, fixed, ?_⟩
      rw [same]
      intro timed
      have fresh := mt (expired_iff e get.input.now).mpr (by simp [live])
      exact Int.not_le.mp fun late => fresh ⟨timed,late⟩
    · intro miss
      cases miss
  · rw [reply]
    refine ⟨by simp, fun _ => ?_⟩
    cases here : get.before.peek key with
    | none =>
      rcases gone here with never | deleted | ⟨u,fixed,timed,x,mem,late⟩ | out
      · exact Or.inl never
      · exact Or.inr (Or.inl deleted)
      · exact Or.inr (Or.inr (Or.inl ⟨u,fixed,timed,late.trans (earlier x mem)⟩))
      · exact Or.inr (Or.inr (Or.inr out))
    | some e =>
      obtain ⟨u,fixed,same⟩ := (held e here).fixed
      obtain ⟨timed,late⟩ := (expired_iff e get.input.now).mp (dead e here)
      rw [← same] at timed late
      exact Or.inr (Or.inr (Or.inl ⟨u,fixed,timed,late⟩))

def timedSections : List Section :=
  [⟨.set [97] [49] 5,0,1,.asListed⟩, ⟨.get [97],0,3,.asListed⟩, ⟨.get [97],0,6,.asListed⟩]

theorem timed_reads_follow_history : ∃ write hit miss last,
    Run Store.step (Store.new int64 ⟨10,100,5,2⟩) [write,hit,miss] last ∧
      [write,hit,miss].map Step.input = timedSections ∧
      hit.output = .found (some ⟨[49],1⟩) ∧ miss.output = .found none ∧
      (∃ w, lastWrite [97] [write] = some w ∧ written w = some [49] ∧ stamp w = some 1) ∧
      (lastWrite [97] [write,hit] = none ∨
        (∃ x ∈ sinceWrite [97] [write,hit], deletesKey [97] x = true) ∨
        (∃ u, lastFix [97] [write,hit] = some u ∧ expiry u ≠ 0 ∧ expiry u ≤ 6) ∨
        ∃ x ∈ sinceWrite [97] [write,hit], Evicts [97] x) := by
  have done : (exec Store.step (Store.new int64 ⟨10,100,5,2⟩) timedSections).map
      (fun done => done.1.map Step.output) =
        some [.wrote none, .found (some ⟨[49],1⟩), .found none] := by decide
  obtain ⟨steps,last,run,inputs,outputs⟩ := exec_shows done
  obtain ⟨write,hit,miss,rfl,first,second,third⟩ : ∃ a b c, steps = [a,b,c] ∧
      a.input = ⟨.set [97] [49] 5,0,1,.asListed⟩ ∧ b.input = ⟨.get [97],0,3,.asListed⟩ ∧
      c.input = ⟨.get [97],0,6,.asListed⟩ := by
    simpa [timedSections, List.map_eq_cons_iff] using inputs
  simp only [List.map_cons, List.map_nil, List.cons.injEq, and_true] at outputs
  obtain ⟨_,found,lost⟩ := outputs
  have clock : (([write] ++ hit :: [miss]).map fun x => x.input.now).Pairwise (· ≤ ·) := by
    simp [first, second, third]
  have late : (([write,hit] ++ miss :: []).map fun x => x.input.now).Pairwise (· ≤ ·) := clock
  have read := (get_reads_history ⟨10,100,5,2⟩ run clock (by rw [second])).1 _ found
  have reason := (get_reads_history ⟨10,100,5,2⟩ run late (by rw [third])).2 lost
  rw [third] at reason
  exact ⟨write,hit,miss,last,run,inputs,found,lost,read.1,reason⟩

end StoreHistory
