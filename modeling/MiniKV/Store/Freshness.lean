import MiniKV.Store.Fate

/- How long an item may outlive its deadline. A sweep of a shard removes what has expired at
   its reading of the clock, and no later call puts an item in that had expired then: a write
   gives a deadline after its own reading, and an increment keeps that of a live item. -/
namespace StoreFreshness
open MachineWord KeyedList LruModel ShardModel CacheModel CacheEffects ShardRefinement
  ShardSimulation StoreModel StoreFate StepRuns

/-- No item of the shard had expired at this time. -/
def Fresh (time : Time) (sh : Shard) : Prop :=
  ∀ key e, sh.peek key = some e → e.expired time = false

/-- The same of the shard with this number. -/
def FreshAt (time : Time) (i : Nat) (s : Store) : Prop :=
  ∀ sh, s.shards[i]? = some sh → Fresh time sh

variable {limits : Limits} {time now : Time} {e : Entry} {c d : Cache} {cas counter : UInt64}
  {call : Call} {reply : Reply} {sh : Shard} {xs : List Ptr} {s t : Store} {work : Section} {i : Nat}

theorem live_iff (e : Entry) (now : Time) :
    e.expired now = false ↔ e.expiresAt = 0 ∨ now < e.expiresAt := by
  simp only [Entry.expired, Bool.and_eq_false_iff, decide_eq_false_iff_not, Bool.not_eq_false',
    decide_eq_true_eq, Decidable.not_not]

theorem live_earlier (earlier : time ≤ now) (live : e.expired now = false) :
    e.expired time = false := by
  rw [live_iff] at live ⊢
  rcases live with untimed | later
  · exact Or.inl untimed
  · exact Or.inr (Int.lt_of_le_of_lt earlier later)

/-- A deadline is after the reading that it is counted from. -/
theorem written_live {ttl : Duration} (earlier : time ≤ now) (deadline : e.expiresAt = expiresAt now ttl) :
    e.expired time = false := by
  rw [live_iff, deadline, expiresAt]
  split
  · exact Or.inl rfl
  · rename_i positive
    have later : now < now + ttl := Int.lt_add_of_pos_right now (Int.not_le.mp positive)
    exact Or.inr (Int.lt_of_le_of_lt earlier later)

theorem stores_fresh {found : Option Entry} (earlier : time ≤ now)
    (stores : Stores limits found cas now call e reply) : e.expired time = false := by
  cases stores with
  | set key value ttl => exact written_live earlier rfl
  | cas key value ttl hit live => exact written_live earlier rfl
  | incr key hit live count =>
    have kept := live_earlier earlier live
    rw [live_iff] at kept ⊢
    exact kept

theorem effect_fresh (earlier : time ≤ now) (effect : Effect limits c cas now call d counter reply)
    (fresh : ∀ e ∈ c.entries, e.expired time = false) : ∀ e ∈ d.entries, e.expired time = false := by
  intro e mem
  cases effect with
  | refused => exact fresh e mem
  | lapsed => exact fresh e (mem_without.mp mem).1
  | touched hit live =>
    rcases List.mem_cons.mp mem with rfl | other
    · exact live_earlier earlier live
    · exact fresh e (mem_without.mp other).1
  | removed => exact fresh e (mem_without.mp mem).1
  | written stores =>
    rcases List.mem_cons.mp mem with rfl | other
    · exact stores_fresh earlier stores
    · exact fresh e (mem_without.mp ((makeRoom_sublist _ _ _ _).subset other)).1
  | swept => exact fresh e (List.mem_filter.mp mem).1

theorem sweep_fresh (earlier : time ≤ now) (c : Cache) :
    ∀ e ∈ (c.cleanupExpired now).1.entries, e.expired time = false := by
  intro e mem
  exact live_earlier earlier (by simpa using (List.mem_filter.mp mem).2)

theorem fresh_refined (ref : Refines sh c xs) :
    Fresh time sh ↔ ∀ e ∈ c.entries, e.expired time = false := by
  constructor
  · intro fresh e mem
    refine fresh e.key e ?_
    rw [peek_refined ref]
    exact (find_eq_some_iff (refines_distinct ref)).mpr ⟨mem,rfl⟩
  · intro fresh key e held
    rw [peek_refined ref] at held
    exact fresh e (find_some held).1

theorem step_fresh (sound : Sound limits s) (taken : s.step work = some (t,reply))
    (earlier : time ≤ work.now) (fresh : FreshAt time i s) : FreshAt time i t := by
  obtain ⟨j,sh,next,c,d,xs,ys,_,here,shards,ref,refined,_,_,stepped⟩ := step_inverted sound taken
  intro after there
  rw [shards] at there
  by_cases own : j = i
  · subst own
    obtain rfl : next = after := by
      rw [List.getElem?_set_self (List.getElem?_eq_some_iff.mp here).1] at there
      exact Option.some.inj there
    rw [fresh_refined refined]
    exact effect_fresh earlier (effect_of_step stepped) ((fresh_refined ref).mp (fresh sh here))
  · rw [List.getElem?_set_ne own] at there
    exact fresh after there

theorem swept_fresh (sound : Sound limits s)
    {order : RangeOrder} (taken : s.step ⟨.cleanupExpired,i,now,order⟩ = some (t,reply))
    (earlier : time ≤ now) :
    FreshAt time i t := by
  obtain ⟨j,sh,next,c,d,xs,ys,target,here,shards,_,refined,_,_,stepped⟩ := step_inverted sound taken
  obtain rfl : i = j := Option.some.inj target
  intro after there
  obtain rfl : next = after := by
    rw [shards, List.getElem?_set_self (List.getElem?_eq_some_iff.mp here).1] at there
    exact Option.some.inj there
  rw [fresh_refined refined, ← (Prod.mk.inj stepped).1]
  exact sweep_fresh earlier c

theorem run_fresh {works : List StoreStep} (sound : Sound limits s)
    (run : Run Store.step s works t) (late : ∀ x ∈ works, time ≤ x.input.now)
    (fresh : FreshAt time i s) : FreshAt time i t := by
  refine (run_keeps (fun s => Sound limits s ∧ FreshAt time i s) (fun x => time ≤ x.input.now)
    (fun _ => True) ?_ run ⟨sound,fresh⟩ late).1.2
  rintro x ⟨sound,fresh⟩ taken earlier
  exact ⟨⟨step_sound sound taken, step_fresh sound taken earlier fresh⟩, trivial⟩

end StoreFreshness
