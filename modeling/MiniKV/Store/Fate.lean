import MiniKV.Store.Invariant

/- What one step of the store can mean for one key. The key may live in the shard of
   the step or elsewhere; its entry is kept, written, deleted, found expired, or
   evicted by a write of another key that did not fit. -/
namespace StoreFate
open MachineWord KeyedList LruModel ShardModel CacheModel CacheEffects ShardRefinement
  ShardSimulation ShardInvariant StoreModel StepRuns

def mutates (x : StoreStep) : Bool := x.input.call.writes && x.output.success

def writesKey (key : Bytes) (x : StoreStep) : Bool :=
  mutates x && decide (x.input.call.key = some key)

def deletesKey (key : Bytes) (x : StoreStep) : Bool :=
  x.output.success && decide (x.input.call = .delete key)

def OverBudget (s : Store) (w : Entry) : Prop :=
  ∃ sh, s.shardOf w.key = some sh ∧
    sh.projected (oldSizeOf sh w.key) w.size > sh.limits.maxMemoryBytes

inductive Fate (limits : Limits) (x : StoreStep) (key : Bytes) : Prop where
  | kept (same : x.after.peek key = x.before.peek key) (unwritten : writesKey key x = false)
      (undeleted : deletesKey key x = false)
  | wrote {e : Entry} (named : e.key = key)
      (stores : Stores limits (x.before.peek key) x.before.cas x.input.now x.input.call e x.output)
      (after : x.after.peek key = some e)
  | deleted {e : Entry} (call : x.input.call = .delete key) (reply : x.output = .deleted true)
      (before : x.before.peek key = some e) (after : x.after.peek key = none)
  | expired {e : Entry} (before : x.before.peek key = some e)
      (dead : e.expired x.input.now = true) (after : x.after.peek key = none)
      (unwritten : writesKey key x = false) (undeleted : deletesKey key x = false)
  | evicted {e w : Entry} (before : x.before.peek key = some e)
      (live : e.expired x.input.now = false) (after : x.after.peek key = none)
      (other : w.key ≠ key)
      (together : shardFor w.key x.before.shards.length = shardFor key x.before.shards.length)
      (mutation : writesKey w.key x = true) (written : x.after.peek w.key = some w)
      (budget : OverBudget x.before w)

def Taken (x : StoreStep) : Prop := x.before.step x.input = some (x.after,x.output)

/-- Every shard refines some cache under the same limits. -/
def Sound (limits : Limits) (s : Store) : Prop :=
  ∀ sh ∈ s.shards, sh.limits = limits ∧ ∃ c xs, Refines sh c xs

variable {limits : Limits} {s t : Store} {work : Section} {reply : Reply} {key : Bytes}
  {i : Nat} {sh next : Shard} {c d : Cache}

theorem new_sound (config : Config) : Sound (shardLimits config) (Store.new int64 config) := by
  intro sh mem
  obtain rfl := List.eq_of_mem_replicate mem
  exact ⟨rfl, CacheModel.empty, [], newShard_refines int64 (by decide) _ _⟩

theorem step_inverted (sound : Sound limits s) (taken : s.step work = some (t,reply)) :
    ∃ i sh next c d xs ys, work.target s.shards.length = some i ∧ s.shards[i]? = some sh ∧
      t.shards = s.shards.set i next ∧ Refines sh c xs ∧ Refines next d ys ∧
      sh.limits = limits ∧ next.limits = limits ∧
      c.step limits s.cas work.now work.call = (d,t.cas,reply) := by
  -- The shard that took the step, with what it did to the cache it refines.
  obtain ⟨i,sh,next,target,here,stepped,shards⟩ := step_some_iff.mp taken
  obtain ⟨same,c,xs,ref⟩ := sound sh (List.mem_of_getElem? here)
  obtain ⟨d,ys,refined,kept,done⟩ := step_refined ref stepped
  rw [same] at kept done
  exact ⟨i,sh,next,c,d,xs,ys,target,here,shards,ref,refined,same,kept,done⟩

theorem step_sound (sound : Sound limits s) (taken : s.step work = some (t,reply)) :
    Sound limits t := by
  obtain ⟨i,sh,next,c,d,xs,ys,_,_,shards,_,refined,_,same,_⟩ := step_inverted sound taken
  intro other mem
  rw [shards] at mem
  rcases List.mem_or_eq_of_mem_set mem with old | new
  · exact sound other old
  · subst new
    exact ⟨same,d,ys,refined⟩

theorem run_keeps_sound {steps : List StoreStep} (sound : Sound limits s)
    (run : Run Store.step s steps t) : Sound limits t :=
  run_invariant (fun _ t => Sound limits t) sound
    (fun _ _ _ _ _ _ sound taken => step_sound sound taken) run

theorem run_sound {config : Config} {steps : List StoreStep}
    (run : Run Store.step (Store.new int64 config) steps s) : Sound (shardLimits config) s :=
  run_keeps_sound (new_sound config) run

def Reaches (n : Nat) (work : Section) : Prop := ∃ i < n, work.target n = some i

theorem keyed_reaches {n : Nat} {key : Bytes} (routed : n % 2 ^ 32 ≠ 0)
    (named : work.call.key = some key) : Reaches n work := by
  cases found : shardFor key n with
  | none => exact absurd ((shardFor_none_iff key n).mp found) routed
  | some i => exact ⟨i, shardFor_lt found, by simp [Section.target, named, found]⟩

def Serves (limits : Limits) (n : Nat) (s : Store) : Prop :=
  Sound limits s ∧ s.shards.length = n

theorem section_returns {n : Nat} (serves : Serves limits n s) (fit : Reaches n work) :
    ∃ t reply, s.step work = some (t,reply) ∧ Serves limits n t := by
  obtain ⟨sound,rfl⟩ := serves
  obtain ⟨i,inside,target⟩ := fit
  obtain ⟨_,c,xs,ref⟩ := sound s.shards[i] (List.getElem_mem inside)
  obtain ⟨next,counter,reply,stepped⟩ := step_returns s.cas work.now work.order work.call ref
  have taken : s.step work = some (⟨s.shards.set i next,counter⟩,reply) :=
    step_some_iff.mpr ⟨i,_,next,target,List.getElem?_eq_getElem inside,stepped,rfl⟩
  exact ⟨_,reply,taken,step_sound sound taken,step_length taken⟩

theorem run_targets {steps : List StoreStep} (run : Run Store.step s steps t) :
    ∀ x ∈ steps, Reaches s.shards.length x.input := by
  intro x mem
  obtain ⟨before,after,rfl⟩ := List.append_of_mem mem
  obtain ⟨prior,taken,_⟩ := run_cut run before x after rfl
  obtain ⟨i,sh,_,target,here,_⟩ := step_some_iff.mp taken
  obtain ⟨inside,_⟩ := List.getElem?_eq_some_iff.mp here
  rw [run_length prior] at target inside
  exact ⟨i,inside,target⟩

theorem cleanupExpired_serves {n : Nat} (now : Nat → Time) (order : Nat → RangeOrder)
    (serves : Serves limits n s) : Serves limits n (s.cleanupExpired now order).1 := by
  obtain ⟨steps,_,run,_⟩ := cleanupExpired_run s now order
  exact ⟨run_keeps_sound serves.1 run, (run_length run).trans serves.2⟩

theorem effect_counter {cas counter : UInt64} {now : Time} {call : Call}
    (effect : Effect limits c cas now call d counter reply) :
    counter = if call.writes && reply.success then cas + 1 else cas := by
  cases effect with
  | refused _ failed => simp [failed]
  | lapsed _ _ _ failed => simp [failed]
  | touched => rfl
  | removed => rfl
  | written stores =>
    obtain ⟨_,writes,success,_,_⟩ := stores_facts stores
    simp [writes, success]
  | swept => rfl

theorem step_counter (sound : Sound limits s) (taken : s.step work = some (t,reply)) :
    t.cas = if work.call.writes && reply.success then s.cas + 1 else s.cas := by
  obtain ⟨_,_,_,_,_,_,_,_,_,_,_,_,_,_,done⟩ := step_inverted sound taken
  exact effect_counter (effect_of_step done)

theorem shardOf_here (home : shardFor key s.shards.length = some i)
    (here : s.shards[i]? = some sh) : s.shardOf key = some sh := by
  simp [Store.shardOf, home, here]

theorem peek_here (home : shardFor key s.shards.length = some i)
    (here : s.shards[i]? = some sh) : s.peek key = sh.peek key := by
  simp [Store.peek, shardOf_here home here]

theorem peek_stepped (home : shardFor key s.shards.length = some i)
    (here : s.shards[i]? = some sh) (shards : t.shards = s.shards.set i next) :
    t.peek key = next.peek key := by
  have length : t.shards.length = s.shards.length := by rw [shards, List.length_set]
  have inside := (List.getElem?_eq_some_iff.mp here).1
  apply peek_here (i := i)
  · rw [length]
    exact home
  · rw [shards, List.getElem?_set_self inside]

theorem peek_elsewhere (away : shardFor key s.shards.length ≠ some i)
    (shards : t.shards = s.shards.set i next) : t.peek key = s.peek key := by
  have length : t.shards.length = s.shards.length := by rw [shards, List.length_set]
  unfold Store.peek Store.shardOf
  rw [length, shards]
  cases home : shardFor key s.shards.length with
  | none => rfl
  | some j =>
    have other : i ≠ j := by
      intro same
      exact away (home.trans (congrArg some same.symm))
    simp [List.getElem?_set_ne other]

theorem keyed_target (named : work.call.key = some key)
    (target : work.target s.shards.length = some i) : shardFor key s.shards.length = some i := by
  simpa [Section.target, named] using target

theorem not_about (key : Bytes) (x : StoreStep) (off : x.input.call.key ≠ some key) :
    writesKey key x = false ∧ deletesKey key x = false := by
  -- A step that is not about the key can only keep it, in the eyes of the history.
  constructor
  · simp [writesKey, off]
  · have other : x.input.call ≠ .delete key := by
      intro same
      exact off (by rw [same]; rfl)
    simp [deletesKey, other]

theorem not_successful (key : Bytes) (x : StoreStep) (failed : x.output.success = false) :
    writesKey key x = false ∧ deletesKey key x = false := by
  simp [writesKey, deletesKey, mutates, failed]

theorem writesKey_iff (key : Bytes) (x : StoreStep) :
    writesKey key x = true ↔ mutates x = true ∧ x.input.call.key = some key := by
  simp [writesKey]

theorem displaced_fate {xs : List Ptr} {w : Entry} (x : StoreStep) (own : w.key ≠ key)
    (mutation : writesKey w.key x = true) (before : x.before.peek key = lookup key c.entries)
    (after : x.after.peek key = lookup key (c.write limits x.input.now w).entries)
    (stored : x.after.peek w.key = some w) (ref : Refines sh c xs) (same : sh.limits = limits)
    (owner : x.before.shardOf w.key = some sh)
    (together : shardFor w.key x.before.shards.length = shardFor key x.before.shards.length) :
    Fate limits x key := by
  -- A write of another key of the shard keeps the key, or finds it expired, or evicts it.
  have named := ((writesKey_iff w.key x).mp mutation).2
  obtain ⟨unwritten,undeleted⟩ := not_about key x (by simp [named, own])
  rcases write_lookup_other limits x.input.now (refines_distinct ref) own with kept | ⟨gone,tight⟩
  · exact Fate.kept ((after.trans kept).trans before.symm) unwritten undeleted
  · have vanished := after.trans gone
    cases hit : lookup key c.entries with
    | none => exact Fate.kept (vanished.trans (before.trans hit).symm) unwritten undeleted
    | some e =>
      have present := before.trans hit
      cases dead : e.expired x.input.now with
      | true => exact Fate.expired present dead vanished unwritten undeleted
      | false =>
        have budget : OverBudget x.before w := by
          refine ⟨sh, owner, ?_⟩
          rw [over_iff ref, same]
          exact tight
        exact Fate.evicted present dead vanished own together mutation stored budget

theorem home_fate {xs ys : List Ptr} (x : StoreStep) {i : Nat}
    (home : shardFor key x.before.shards.length = some i)
    (target : x.input.target x.before.shards.length = some i)
    (here : x.before.shards[i]? = some sh) (shards : x.after.shards = x.before.shards.set i next)
    (ref : Refines sh c xs) (refined : Refines next d ys) (same : sh.limits = limits)
    (effect : Effect limits c x.before.cas x.input.now x.input.call d x.after.cas x.output) :
    Fate limits x key := by
  have distinct := refines_distinct ref
  have before : ∀ k, shardFor k x.before.shards.length = some i →
      x.before.peek k = lookup k c.entries := by
    intro k hk
    rw [peek_here hk here, peek_refined ref]
  have after : ∀ k, shardFor k x.before.shards.length = some i →
      x.after.peek k = lookup k d.entries := by
    intro k hk
    rw [peek_stepped hk here shards, peek_refined refined]
  obtain ⟨s,⟨call,shard,now,order⟩,reply,⟨parts,cas⟩⟩ := x
  dsimp only at *
  cases effect with
  | refused _ failed =>
    obtain ⟨unwritten,undeleted⟩ := not_successful key
      ⟨s,⟨call,shard,now,order⟩,reply,⟨parts,s.cas⟩⟩ failed
    exact Fate.kept ((after key home).trans (before key home).symm) unwritten undeleted
  | @lapsed _ _ name e named hit dead failed =>
    obtain ⟨unwritten,undeleted⟩ := not_successful key
      ⟨s,⟨call,shard,now,order⟩,reply,⟨parts,s.cas⟩⟩ failed
    by_cases own : key = name
    · subst own
      exact Fate.expired ((before key home).trans hit) dead
        ((after key home).trans (drop_lookup_self c key)) unwritten undeleted
    · have same := (after key home).trans (drop_lookup_other own)
      exact Fate.kept (same.trans (before key home).symm) unwritten undeleted
  | @touched name e hit live =>
    have owner := (find_some hit).2
    subst owner
    have same := (after key home).trans (touch_lookup hit key)
    exact Fate.kept (same.trans (before key home).symm) rfl rfl
  | @removed name e hit live =>
    by_cases own : key = name
    · subst own
      exact Fate.deleted rfl rfl ((before key home).trans hit)
        ((after key home).trans (drop_lookup_self c key))
    · have same := (after key home).trans (drop_lookup_other own)
      exact Fate.kept (same.trans (before key home).symm) rfl (by simp [deletesKey, Ne.symm own])
  | @written _ _ w stores short small =>
    obtain ⟨named,writes,success,_,_⟩ := stores_facts stores
    have owner := keyed_target named target
    have stored := (after w.key owner).trans (write_lookup_self limits c now w)
    by_cases own : w.key = key
    · subst own
      rw [← before w.key owner] at stores
      exact Fate.wrote rfl stores stored
    · have mutation : writesKey w.key ⟨s,⟨call,shard,now,order⟩,reply,⟨parts,s.cas + 1⟩⟩ = true := by
        simp [writesKey, mutates, writes, success, named]
      exact displaced_fate _ own mutation (before key home) (after key home) stored ref same
        (shardOf_here owner here) (owner.trans home.symm)
  | swept =>
    have mine := after key home
    rcases alive_lookup now distinct key with kept | ⟨e,hit,dead,gone⟩
    · exact Fate.kept (by rw [mine, before key home]; exact kept) rfl rfl
    · exact Fate.expired ((before key home).trans hit) dead (mine.trans gone) rfl rfl

theorem step_fate {x : StoreStep} (sound : Sound limits x.before) (taken : Taken x)
    (key : Bytes) : Fate limits x key := by
  obtain ⟨i,sh,next,c,d,xs,ys,target,here,shards,ref,refined,same,_,done⟩ :=
    step_inverted sound taken
  by_cases home : shardFor key x.before.shards.length = some i
  · exact home_fate x home target here shards ref refined same (effect_of_step done)
  · have off : x.input.call.key ≠ some key := by
      intro named
      exact home (keyed_target named target)
    obtain ⟨unwritten,undeleted⟩ := not_about key x off
    exact Fate.kept (peek_elsewhere home shards) unwritten undeleted

theorem written_fate {x : StoreStep} (sound : Sound limits x.before) (taken : Taken x)
    (own : writesKey key x = true) : ∃ e, e.key = key ∧ x.after.peek key = some e ∧
      Stores limits (x.before.peek key) x.before.cas x.input.now x.input.call e x.output := by
  obtain ⟨mutation,named⟩ := (writesKey_iff key x).mp own
  cases step_fate sound taken key with
  | kept _ unwritten => rw [own] at unwritten; cases unwritten
  | wrote owner stores after => exact ⟨_,owner,after,stores⟩
  | deleted call =>
    simp only [mutates, call, Call.writes, Bool.false_and] at mutation
    cases mutation
  | expired _ _ _ unwritten => rw [own] at unwritten; cases unwritten
  | @evicted _ w _ _ _ other _ written =>
    have same := ((writesKey_iff w.key x).mp written).2
    exact absurd (Option.some.inj (same.symm.trans named)) other

/-- A Get reads the entry that its key has, and reports only a live one. -/
theorem get_inverted (sound : Sound limits s) (get : work.call = .get key)
    (taken : s.step work = some (t,reply)) :
    (∃ e, s.peek key = some e ∧ e.expired work.now = false ∧
        reply = .found (some ⟨e.value,e.cas⟩) ∧ t.peek key = some e) ∨
      (reply = .found none ∧ ∀ e, s.peek key = some e → e.expired work.now = true) := by
  obtain ⟨i,sh,next,c,d,xs,ys,target,here,shards,ref,refined,_,_,done⟩ :=
    step_inverted sound taken
  have home : shardFor key s.shards.length = some i :=
    keyed_target (by rw [get]; rfl) target
  have before : s.peek key = lookup key c.entries := by rw [peek_here home here, peek_refined ref]
  have after : t.peek key = lookup key d.entries := by
    rw [peek_stepped home here shards, peek_refined refined]
  rw [get] at done
  simp only [Cache.step, Prod.mk.injEq] at done
  obtain ⟨rfl,_,rfl⟩ := done
  rw [before, after]
  unfold Cache.get
  cases hit : lookup key c.entries with
  | none =>
    right
    exact ⟨rfl, by simp⟩
  | some e =>
    cases dead : e.expired work.now with
    | true =>
      right
      simp [dead]
    | false =>
      left
      refine ⟨e, rfl, dead, by simp [dead], ?_⟩
      have owner := (find_some hit).2
      subst owner
      simpa [dead] using (touch_lookup hit e.key).trans hit

end StoreFate
