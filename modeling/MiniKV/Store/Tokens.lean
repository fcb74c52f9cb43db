import MiniKV.Store.Fate

/- Optimistic concurrency over all shards and clients. The shared counter bounds every
   token ever stamped, so a token never comes back: an entry that still carries the
   token of a read is the entry that was read. -/
namespace StoreTokens
open MachineWord KeyedList LruModel ShardModel CacheModel CacheEffects ShardInvariant
  StoreModel StoreFate StepRuns

def stamp (x : StoreStep) : Option UInt64 :=
  if mutates x then (x.input.call.key.bind x.after.peek).map Entry.cas else none

variable {limits : Limits} {x : StoreStep} {s : Store} {key : Bytes} {steps : List StoreStep}
  {e : Entry} {token : UInt64}

theorem new_peek (config : Config) (key : Bytes) :
    (Store.new int64 config).peek key = none := by
  unfold Store.peek Store.shardOf
  cases home : shardFor key (Store.new int64 config).shards.length with
  | none => rfl
  | some i =>
    have inside := shardFor_lt home
    simp only [Store.new, List.length_replicate] at inside
    simp [Store.new, inside, newShard, Shard.peek]

theorem after_entry (sound : Sound limits x.before) (taken : Taken x)
    (held : x.after.peek key = some e) :
    x.before.peek key = some e ∨ (writesKey key x = true ∧ e.cas = x.before.cas + 1) := by
  -- An entry met after a step was there before, or the step stamped it.
  cases step_fate sound taken key with
  | kept same => exact Or.inl (same.symm.trans held)
  | @wrote w named stores after =>
    obtain rfl := Option.some.inj (held.symm.trans after)
    obtain ⟨keyed,writes,success,token,_⟩ := stores_facts stores
    rw [named] at keyed
    exact Or.inr ⟨(writesKey_iff key x).mpr ⟨by simp [mutates, writes, success], keyed⟩, token⟩
  | deleted _ _ _ after => rw [after] at held; cases held
  | expired _ _ after => rw [after] at held; cases held
  | evicted _ _ after => rw [after] at held; cases held

theorem mutation_stamps (sound : Sound limits x.before) (taken : Taken x)
    (mutation : mutates x = true) : stamp x = some (x.before.cas + 1) := by
  have writes : x.input.call.writes = true := by
    simp only [mutates, Bool.and_eq_true] at mutation
    exact mutation.1
  obtain ⟨key,named⟩ : ∃ key, x.input.call.key = some key := by
    cases call : x.input.call <;> simp [call, Call.writes, Call.key] at writes ⊢
  obtain ⟨e,_,after,stores⟩ :=
    written_fate sound taken ((writesKey_iff key x).mpr ⟨mutation,named⟩)
  obtain ⟨_,_,_,token,_⟩ := stores_facts stores
  simp [stamp, mutation, named, after, token]

theorem successor_toNat {n : UInt64} (room : n.toNat + 1 < 2 ^ 64) :
    (n + 1).toNat = n.toNat + 1 := by
  rw [UInt64.toNat_add]
  exact Nat.mod_eq_of_lt room

theorem counter_next (sound : Sound limits x.before) (taken : Taken x)
    (room : mutates x = true → x.before.cas.toNat + 1 < 2 ^ 64) :
    x.after.cas.toNat = x.before.cas.toNat + (if mutates x then 1 else 0) := by
  have moved : x.after.cas = if mutates x then x.before.cas + 1 else x.before.cas :=
    step_counter sound taken
  rw [moved]
  split
  · rename_i mutation
    exact successor_toNat (room mutation)
  · rfl

/-- What the counter knows about the tokens of a run. -/
structure Stamped (steps : List StoreStep) (s : Store) : Prop where
  counter : s.cas.toNat = steps.countP mutates
  bounded : ∀ key e, s.peek key = some e → 0 < e.cas.toNat ∧ e.cas.toNat ≤ s.cas.toNat
  owned : ∀ key other e f, s.peek key = some e → s.peek other = some f → e.cas = f.cas →
    key = other
  stamped : ∀ x ∈ steps, mutates x = true → ∃ token, stamp x = some token
  sorted : (steps.filterMap stamp).Pairwise (· < ·)
  issued : ∀ token ∈ steps.filterMap stamp, 0 < token.toNat ∧ token.toNat ≤ s.cas.toNat

theorem stamped_new (config : Config) : Stamped [] (Store.new int64 config) where
  counter := rfl
  bounded := by intro key e held; rw [new_peek] at held; cases held
  owned := by intro key other e f held; rw [new_peek] at held; cases held
  stamped := by simp
  sorted := List.Pairwise.nil
  issued := by simp

theorem stamps_snoc (sound : Sound limits x.before) (taken : Taken x)
    (steps : List StoreStep) : (steps ++ [x]).filterMap stamp =
      steps.filterMap stamp ++ (if mutates x then [x.before.cas + 1] else []) := by
  rw [List.filterMap_append]
  congr 1
  split
  · rename_i mutation
    simp [mutation_stamps sound taken mutation]
  · rename_i idle
    simp [stamp, idle]

theorem bounded_step (sound : Sound limits x.before) (taken : Taken x)
    (room : mutates x = true → x.before.cas.toNat + 1 < 2 ^ 64) (old : Stamped steps x.before)
    (held : x.after.peek key = some e) :
    0 < e.cas.toNat ∧ e.cas.toNat ≤ x.after.cas.toNat := by
  have next := counter_next sound taken room
  rcases after_entry sound taken held with same | ⟨own,token⟩
  · have bound := old.bounded key e same
    omega
  · have mutation := ((writesKey_iff key x).mp own).1
    rw [if_pos mutation] at next
    rw [token, successor_toNat (room mutation)]
    omega

theorem owned_step {other : Bytes} {f : Entry} (sound : Sound limits x.before) (taken : Taken x)
    (room : mutates x = true → x.before.cas.toNat + 1 < 2 ^ 64) (old : Stamped steps x.before)
    (first : x.after.peek key = some e) (second : x.after.peek other = some f)
    (same : e.cas = f.cas) : key = other := by
  rcases after_entry sound taken first with oldE | ⟨ownE,tokenE⟩ <;>
    rcases after_entry sound taken second with oldF | ⟨ownF,tokenF⟩
  · exact old.owned key other e f oldE oldF same
  · have bound := (old.bounded key e oldE).2
    rw [same, tokenF, successor_toNat (room ((writesKey_iff other x).mp ownF).1)] at bound
    omega
  · have bound := (old.bounded other f oldF).2
    rw [← same, tokenE, successor_toNat (room ((writesKey_iff key x).mp ownE).1)] at bound
    omega
  · have namedE := ((writesKey_iff key x).mp ownE).2
    have namedF := ((writesKey_iff other x).mp ownF).2
    exact Option.some.inj (namedE.symm.trans namedF)

theorem stamped_step (sound : Sound limits x.before) (taken : Taken x)
    (room : mutates x = true → x.before.cas.toNat + 1 < 2 ^ 64)
    (old : Stamped steps x.before) : Stamped (steps ++ [x]) x.after := by
  have next := counter_next sound taken room
  have stamps := stamps_snoc sound taken steps
  constructor
  · rw [next, old.counter, List.countP_append, List.countP_singleton]
  · intro key e held
    exact bounded_step sound taken room old held
  · intro key other e f first second same
    exact owned_step sound taken room old first second same
  · intro y mem mutation
    rcases List.mem_append.mp mem with prior | last
    · exact old.stamped y prior mutation
    · obtain rfl := List.mem_singleton.mp last
      exact ⟨_, mutation_stamps sound taken mutation⟩
  · rw [stamps, List.pairwise_append]
    refine ⟨old.sorted, ?_, ?_⟩
    · split
      · exact List.pairwise_singleton _ _
      · exact List.Pairwise.nil
    · intro a ma b mb
      split at mb
      · rename_i mutation
        obtain rfl := List.mem_singleton.mp mb
        have bound := (old.issued a ma).2
        rw [UInt64.lt_iff_toNat_lt, successor_toNat (room mutation)]
        omega
      · cases mb
  · intro token mem
    rw [stamps] at mem
    rcases List.mem_append.mp mem with prior | last
    · have bound := old.issued token prior
      omega
    · split at last
      · rename_i mutation
        obtain rfl := List.mem_singleton.mp last
        rw [if_pos mutation] at next
        rw [successor_toNat (room mutation)]
        omega
      · cases last

theorem run_stamped {config : Config} (run : Run Store.step (Store.new int64 config) steps s)
    (few : steps.countP mutates < 2 ^ 64) : Stamped steps s := by
  refine run_invariant (fun steps s => steps.countP mutates < 2 ^ 64 → Stamped steps s)
    (fun _ => stamped_new config) ?_ run few
  intro steps s work t reply prior ih taken few
  rw [List.countP_append, List.countP_singleton] at few
  have old := ih (by omega)
  refine stamped_step (x := ⟨s,work,reply,t⟩) (run_sound prior) taken ?_ old
  intro mutation
  rw [if_pos mutation] at few
  rw [old.counter]
  exact few

section Segments
variable {u : Store} {middle : List StoreStep}

theorem segment_counter (sound : Sound limits s) (run : Run Store.step s middle u)
    (few : s.cas.toNat + middle.countP mutates < 2 ^ 64) :
    Sound limits u ∧ u.cas.toNat = s.cas.toNat + middle.countP mutates := by
  refine run_invariant (fun middle u => s.cas.toNat + middle.countP mutates < 2 ^ 64 →
    Sound limits u ∧ u.cas.toNat = s.cas.toNat + middle.countP mutates) ?_ ?_ run few
  · intro _
    exact ⟨sound,rfl⟩
  · intro middle m work t reply _ ih taken few
    rw [List.countP_append, List.countP_singleton] at few ⊢
    obtain ⟨soundM,counter⟩ := ih (by omega)
    have next := counter_next (x := ⟨m,work,reply,t⟩) soundM taken (by
      intro mutation
      rw [if_pos mutation] at few
      dsimp only
      omega)
    exact ⟨step_sound soundM taken, by dsimp only at next; omega⟩

theorem lost_step (sound : Sound limits x.before) (taken : Taken x)
    (room : mutates x = true → x.before.cas.toNat + 1 < 2 ^ 64)
    (bound : token.toNat ≤ x.before.cas.toNat)
    (lost : ∀ f, x.before.peek key = some f → f.cas ≠ token) :
    ∀ f, x.after.peek key = some f → f.cas ≠ token := by
  -- New tokens are above the counter, so a token at most the counter stays lost.
  intro f held
  rcases after_entry sound taken held with same | ⟨own,fresh⟩
  · exact lost f same
  · intro again
    have value := successor_toNat (room ((writesKey_iff key x).mp own).1)
    rw [← fresh, again] at value
    omega

/-- The entry of a key either stays as it is through every step of a segment, or its
    token is lost for good. -/
theorem segment_window (sound : Sound limits s) (run : Run Store.step s middle u)
    (few : s.cas.toNat + middle.countP mutates < 2 ^ 64)
    (held : s.peek key = some e) (bound : e.cas.toNat ≤ s.cas.toNat) :
    (u.peek key = some e ∧ ∀ x ∈ middle, writesKey key x = false ∧ deletesKey key x = false ∧
        x.after.peek key = some e) ∨
      ∀ f, u.peek key = some f → f.cas ≠ e.cas := by
  refine run_invariant (fun middle u => s.cas.toNat + middle.countP mutates < 2 ^ 64 →
    (u.peek key = some e ∧ ∀ x ∈ middle, writesKey key x = false ∧ deletesKey key x = false ∧
        x.after.peek key = some e) ∨
      ∀ f, u.peek key = some f → f.cas ≠ e.cas) ?_ ?_ run few
  · intro _
    exact Or.inl ⟨held, by simp⟩
  · intro middle m work t reply prior ih taken few
    rw [List.countP_append, List.countP_singleton] at few
    have small : s.cas.toNat + middle.countP mutates < 2 ^ 64 := by omega
    obtain ⟨soundM,counter⟩ := segment_counter sound prior small
    have room : mutates ⟨m,work,reply,t⟩ = true → m.cas.toNat + 1 < 2 ^ 64 := by
      intro mutation
      rw [if_pos mutation] at few
      omega
    have within : e.cas.toNat ≤ m.cas.toNat := by omega
    rcases ih small with ⟨stays,quiet⟩ | lost
    · cases step_fate (x := ⟨m,work,reply,t⟩) soundM taken key with
      | kept same unwritten undeleted =>
        refine Or.inl ⟨same.trans stays, ?_⟩
        intro x mem
        rcases List.mem_append.mp mem with old | new
        · exact quiet x old
        · obtain rfl := List.mem_singleton.mp new
          exact ⟨unwritten, undeleted, same.trans stays⟩
      | @wrote w named stores after =>
        right
        intro f now again
        obtain rfl := Option.some.inj (now.symm.trans after)
        obtain ⟨keyed,writes,success,fresh,_⟩ := stores_facts stores
        have value := successor_toNat (room (by simp [mutates, writes, success]))
        rw [← fresh, again] at value
        omega
      | deleted _ _ _ after => exact Or.inr fun f now => by rw [after] at now; cases now
      | expired _ _ after => exact Or.inr fun f now => by rw [after] at now; cases now
      | evicted _ _ after => exact Or.inr fun f now => by rw [after] at now; cases now
    · exact Or.inr (lost_step (x := ⟨m,work,reply,t⟩) soundM taken room within lost)

theorem segment_lost (sound : Sound limits s) (run : Run Store.step s middle u)
    (few : s.cas.toNat + middle.countP mutates < 2 ^ 64) (bound : token.toNat ≤ s.cas.toNat)
    (lost : ∀ f, s.peek key = some f → f.cas ≠ token) :
    ∀ f, u.peek key = some f → f.cas ≠ token := by
  refine run_invariant (fun middle u => s.cas.toNat + middle.countP mutates < 2 ^ 64 →
    ∀ f, u.peek key = some f → f.cas ≠ token) (fun _ => lost) ?_ run few
  intro middle m work t reply prior ih taken few
  rw [List.countP_append, List.countP_singleton] at few
  have small : s.cas.toNat + middle.countP mutates < 2 ^ 64 := by omega
  obtain ⟨soundM,counter⟩ := segment_counter sound prior small
  refine lost_step (x := ⟨m,work,reply,t⟩) soundM taken ?_ (by dsimp only; omega) (ih small)
  intro mutation
  rw [if_pos mutation] at few
  dsimp only
  omega

end Segments

theorem cas_inverted {value : Bytes} {ttl : Duration} (sound : Sound limits x.before)
    (taken : Taken x) (call : x.input.call = .cas key value ttl token)
    (reply : x.output = .wrote none) :
    ∃ e, x.before.peek key = some e ∧ e.cas = token := by
  have own : writesKey key x = true := by
    simp [writesKey, mutates, call, reply, Call.writes, Call.key, Reply.success]
  obtain ⟨w,_,_,stores⟩ := written_fate sound taken own
  rw [call, reply] at stores
  cases stores with
  | cas _ _ _ hit => exact ⟨_,hit,rfl⟩

theorem run_at {config : Config} {last : Store} {before after : List StoreStep}
    (run : Run Store.step (Store.new int64 config) (before ++ x :: after) last)
    (few : (before ++ x :: after).countP mutates < 2 ^ 64) :
    Sound (shardLimits config) x.before ∧ Taken x ∧ Stamped before x.before ∧
      Stamped (before ++ [x]) x.after ∧ Sound (shardLimits config) x.after ∧
      Run Store.step x.after after last ∧ x.after.cas.toNat + after.countP mutates < 2 ^ 64 := by
  obtain ⟨prior,taken,rest⟩ := run_cut run before x after rfl
  have upTo : Run Store.step (Store.new int64 config) (before ++ [x]) x.after :=
    Run.snoc prior taken
  rw [List.countP_append, List.countP_cons] at few
  have soundB := run_sound prior
  have stampedA := run_stamped upTo (by rw [List.countP_append, List.countP_singleton]; omega)
  have total := stampedA.counter
  rw [List.countP_append, List.countP_singleton] at total
  exact ⟨soundB, taken, run_stamped prior (by omega), stampedA, step_sound soundB taken, rest,
    by omega⟩

variable {config : Config} {last : Store} {before middle after : List StoreStep}
  {read swap : StoreStep} {item : Item} {value : Bytes} {ttl : Duration}

/-- Between a read and the Cas that its token lets through, the entry never changed. -/
theorem read_then_cas
    (run : Run Store.step (Store.new int64 config) (before ++ read :: (middle ++ swap :: after)) last)
    (few : (before ++ read :: (middle ++ swap :: after)).countP mutates < 2 ^ 64)
    (get : read.input.call = .get key) (found : read.output = .found (some item))
    (cas : swap.input.call = .cas key value ttl item.cas) (done : swap.output = .wrote none) :
    ∃ e, e.value = item.value ∧ e.cas = item.cas ∧ swap.before.peek key = some e ∧
      ∀ x ∈ middle, writesKey key x = false ∧ deletesKey key x = false ∧
        x.after.peek key = some e := by
  obtain ⟨soundR,takenR,_,stamped,soundA,rest,room⟩ := run_at run few
  obtain ⟨between,takenS,_⟩ := run_cut rest middle swap after rfl
  rw [List.countP_append] at room
  have small : read.after.cas.toNat + middle.countP mutates < 2 ^ 64 := by omega
  obtain ⟨soundS,_⟩ := segment_counter soundA between small
  obtain ⟨f,held,token⟩ := cas_inverted soundS takenS cas done
  rcases get_inverted soundR get takenR with ⟨e,_,_,reply,here⟩ | ⟨reply,_⟩
  · rw [found] at reply
    simp only [Reply.found.injEq, Option.some.injEq] at reply
    have bound := (stamped.bounded key e here).2
    rcases segment_window soundA between small here bound with ⟨stays,quiet⟩ | lost
    · exact ⟨e, by rw [reply], by rw [reply], stays, quiet⟩
    · exact absurd (by rw [token, reply]) (lost f held)
  · rw [found] at reply
    cases reply

variable {first second : StoreStep} {other value' : Bytes} {ttl' : Duration}

/-- A token lets one Cas through, whatever the keys. -/
theorem token_spent
    (run : Run Store.step (Store.new int64 config)
      (before ++ first :: (middle ++ second :: after)) last)
    (few : (before ++ first :: (middle ++ second :: after)).countP mutates < 2 ^ 64)
    (cas : first.input.call = .cas key value ttl token) (done : first.output = .wrote none)
    (again : second.input.call = .cas other value' ttl' token) :
    second.output ≠ .wrote none := by
  intro reply
  obtain ⟨soundF,takenF,old,stamped,soundA,rest,room⟩ := run_at run few
  obtain ⟨between,takenS,_⟩ := run_cut rest middle second after rfl
  rw [List.countP_append] at room
  have small : first.after.cas.toNat + middle.countP mutates < 2 ^ 64 := by omega
  obtain ⟨soundS,_⟩ := segment_counter soundA between small
  obtain ⟨e,held,same⟩ := cas_inverted soundF takenF cas done
  obtain ⟨f,late,token'⟩ := cas_inverted soundS takenS again reply
  have own : writesKey key first = true := by
    simp [writesKey, mutates, cas, done, Call.writes, Call.key, Reply.success]
  have below := (old.bounded key e held).2
  have counter := counter_next soundF takenF (by
    intro mutation
    have total := stamped.counter
    have prior := old.counter
    rw [List.countP_append, List.countP_singleton, if_pos mutation] at total
    omega)
  rw [if_pos ((writesKey_iff key first).mp own).1] at counter
  have fresh_value := successor_toNat (n := first.before.cas) (by omega)
  have gone : ∀ g, first.after.peek other = some g → g.cas ≠ token := by
    intro g now equal
    have fresh : g.cas = first.before.cas + 1 := by
      rcases after_entry soundF takenF now with kept | ⟨_,fresh⟩
      · obtain rfl := old.owned key other e g held kept (same.trans equal.symm)
        obtain ⟨w,_,after,stores⟩ := written_fate soundF takenF own
        obtain rfl := Option.some.inj (now.symm.trans after)
        exact (stores_facts stores).2.2.2.1
      · exact fresh
    rw [← fresh, equal, ← same] at fresh_value
    omega
  refine segment_lost soundA between small ?_ gone f late token'
  rw [← same]
  omega

/-- No lost update and no ABA, in every interleaving of the critical sections of any
    number of clients. -/
theorem optimistic_concurrency_safe (config : Config) {steps : List StoreStep} {last : Store}
    (run : Run Store.step (Store.new int64 config) steps last)
    (few : steps.countP mutates < 2 ^ 64) :
    (∀ x ∈ steps, mutates x = true → ∃ token, stamp x = some token ∧ token ≠ 0) ∧
      (steps.filterMap stamp).Pairwise (· < ·) ∧
      (∀ (before middle after : List StoreStep) (read swap : StoreStep) (key value : Bytes)
          (item : Item) (ttl : Duration),
        steps = before ++ read :: (middle ++ swap :: after) →
        read.input.call = .get key → read.output = .found (some item) →
        swap.input.call = .cas key value ttl item.cas → swap.output = .wrote none →
        ∃ e, e.value = item.value ∧ e.cas = item.cas ∧ swap.before.peek key = some e ∧
          ∀ x ∈ middle, writesKey key x = false ∧ deletesKey key x = false ∧
            x.after.peek key = some e) ∧
      ∀ (before middle after : List StoreStep) (first second : StoreStep)
          (key other value value' : Bytes) (ttl ttl' : Duration) (token : UInt64),
        steps = before ++ first :: (middle ++ second :: after) →
        first.input.call = .cas key value ttl token → first.output = .wrote none →
        second.input.call = .cas other value' ttl' token → second.output ≠ .wrote none := by
  have stamped := run_stamped run few
  refine ⟨?_, stamped.sorted, ?_, ?_⟩
  · intro x mem mutation
    obtain ⟨token,mark⟩ := stamped.stamped x mem mutation
    refine ⟨token, mark, ?_⟩
    rintro rfl
    exact absurd (stamped.issued 0 (List.mem_filterMap.mpr ⟨x,mem,mark⟩)).1 (by decide)
  · intro before middle after read swap key value item ttl shape get found cas done
    subst shape
    exact read_then_cas run few get found cas done
  · intro before middle after first second key other value value' ttl ttl' token shape
      cas done again
    subst shape
    exact token_spent run few cas done again

def raceSections : List Section :=
  [⟨.set [97] [49] 0,0,1,.asListed⟩, ⟨.get [97],0,2,.asListed⟩, ⟨.get [97],0,3,.asListed⟩,
    ⟨.set [98] [50] 0,0,4,.asListed⟩, ⟨.cas [97] [51] 0 1,0,5,.asListed⟩,
    ⟨.cas [97] [52] 0 1,0,6,.asListed⟩, ⟨.cleanupExpired,1,7,.asListed⟩]

theorem race_has_one_winner : ∃ steps last,
    Run Store.step (Store.new int64 ⟨10,100,5,2⟩) steps last ∧
      steps.map Step.output = [.wrote none, .found (some ⟨[49],1⟩), .found (some ⟨[49],1⟩),
        .wrote none, .wrote none, .wrote (some .casMismatch), .swept 0] ∧
      (∀ x ∈ steps, mutates x = true → ∃ token, stamp x = some token ∧ token ≠ 0) ∧
      (steps.filterMap stamp).Pairwise (· < ·) := by
  have done : (exec Store.step (Store.new int64 ⟨10,100,5,2⟩) raceSections).map
      (fun done => done.1.map Step.output) = some [.wrote none, .found (some ⟨[49],1⟩),
        .found (some ⟨[49],1⟩), .wrote none, .wrote none, .wrote (some .casMismatch), .swept 0] := by
    decide
  obtain ⟨steps,last,run,inputs,outputs⟩ := exec_shows done
  have short : steps.length = 7 := by
    rw [← List.length_map (f := Step.input), inputs]
    rfl
  have bound : steps.countP mutates ≤ steps.length := List.countP_le_length
  have safe := optimistic_concurrency_safe ⟨10,100,5,2⟩ run (by omega)
  exact ⟨steps,last,run,outputs,safe.1,safe.2.1⟩

end StoreTokens
