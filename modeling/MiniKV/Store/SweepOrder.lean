import MiniKV.Store.Pressure

/- A sweep over the map in any order. The runtime picks the order of the range, and the
   loop deletes from the map and the list while it runs; the shard it ends in, down to the
   links of every node on the heap, is the same for all orders. -/
namespace ShardSweepOrder
open MachineWord LinkedSegment KeyedList LruModel ShardModel CacheModel CacheEffects
  ShardRefinement ShardSimulation ShardInvariant ShardRecency StoreModel StorePressure StepRuns

variable {sh one two : Shard} {c d : Cache} {xs ys : List Ptr} {key : Bytes} {now : Time}
  {p q : Ptr}

def unlinked (node : StoredItem) : StoredItem := ⟨node.toEntry,none,none⟩

theorem kerase_filter {a : Bytes} {l : List (Sigma fun _ : Bytes => Ptr)} (distinct : l.NodupKeys) :
    l.kerase a = l.filter fun s => decide (s.1 ≠ a) := by
  induction l with
  | nil => rfl
  | cons s rest ih =>
    obtain ⟨fresh,tail⟩ := List.nodupKeys_cons.mp distinct
    by_cases same : a = s.1
    · have off : ∀ t ∈ rest, decide (t.1 ≠ a) = true := by
        intro t mem
        refine decide_eq_true ?_
        intro again
        exact fresh (same ▸ again ▸ List.mem_map_of_mem mem)
      rw [List.kerase_cons_eq same, List.filter_cons_of_neg (by simp [same]),
        List.filter_eq_self.mpr off]
    · rw [List.kerase_cons_ne same, List.filter_cons_of_pos (by simp [Ne.symm same]), ih tail]

theorem entry_lookup {s : Sigma fun _ : Bytes => Ptr} (mem : s ∈ sh.items.entries) :
    sh.items.lookup s.1 = some s.2 :=
  List.mem_dlookup sh.items.nodupKeys mem

theorem same_nodes (ref : Refines sh c xs) (refined : Refines sh d ys) : xs = ys :=
  (followed_nodes ref).symm.trans (followed_nodes refined)

theorem deleteLocked_heap (ref : Refines sh c xs) (hit : sh.items.lookup key = some p) :
    (sh.deleteLocked p).heap p = unlinked (sh.heap p) ∧
      ∀ q, q ∉ xs → (sh.deleteLocked p).heap q = sh.heap q := by
  obtain ⟨before,after,rfl⟩ := List.append_of_mem (lookup_some ref hit).1
  exact remove_outside ref.listed

theorem sweepLoop_free (now : Time) (keys : List Bytes) (sh : Shard) (removed : Nat) :
    (Shard.sweepLoop now keys sh removed).1.free = sh.free := by
  induction keys generalizing sh removed with
  | nil => rfl
  | cons key keys ih =>
    unfold Shard.sweepLoop
    split
    · exact ih sh removed
    · split
      · exact ih _ _
      · exact ih sh removed

theorem unlinked_data (p q : Ptr) : unlinked ((sh.deleteLocked p).heap q) = unlinked (sh.heap q) :=
  stored_same (remove_data sh.heap sh.lru p q) rfl rfl

/-- Off the list that is left, the nodes that were on the list are unlinked and all others
    are as they were. -/
theorem sweepLoop_heap (keys : List Bytes) (removed : Nat) (ref : Refines sh c xs)
    (refined : Refines (Shard.sweepLoop now keys sh removed).1 d ys) (off : q ∉ ys) :
    (Shard.sweepLoop now keys sh removed).1.heap q =
      if q ∈ xs then unlinked (sh.heap q) else sh.heap q := by
  induction keys generalizing sh c xs removed with
  | nil =>
    have same : xs = ys := same_nodes ref refined
    rw [if_neg (same ▸ off)]
    rfl
  | cons key keys ih =>
    unfold Shard.sweepLoop at refined ⊢
    cases hit : sh.items.lookup key with
    | none =>
      simp only [hit] at refined
      exact ih removed ref refined
    | some p =>
      simp only [hit] at refined
      by_cases dead : (sh.heap p).expired now = true
      · simp only [dead, if_true] at refined ⊢
        have mem := (lookup_some ref hit).1
        obtain ⟨own,outside⟩ := deleteLocked_heap ref hit
        rw [ih (removed + 1) (deleteLocked_refines ref hit) refined]
        by_cases left : q ∈ xs.erase p
        · rw [if_pos left, if_pos (List.mem_of_mem_erase left), unlinked_data]
        · rw [if_neg left]
          by_cases here : q = p
          · subst here
            rw [if_pos mem, own]
          · have never : q ∉ xs := fun there => left ((List.mem_erase_of_ne here).mpr there)
            rw [if_neg never, outside q never]
      · simp only [dead] at refined ⊢
        exact ih removed ref refined

/-- The map is left with the pointers that are not expired, or were not visited. -/
theorem sweepLoop_items (keys : List Bytes) (removed : Nat) (ref : Refines sh c xs) :
    (Shard.sweepLoop now keys sh removed).1.items.entries =
      sh.items.entries.filter fun s => !((sh.heap s.2).expired now && keys.contains s.1) := by
  induction keys generalizing sh c xs removed with
  | nil => simp [Shard.sweepLoop]
  | cons key keys ih =>
    unfold Shard.sweepLoop
    cases hit : sh.items.lookup key with
    | none =>
      dsimp only
      rw [ih removed ref]
      apply List.filter_congr
      intro s mem
      have other : s.1 ≠ key := by
        intro same
        rw [← same, entry_lookup mem] at hit
        cases hit
      simp [other]
    | some p =>
      dsimp only
      have owner {s : Sigma fun _ : Bytes => Ptr} (mem : s ∈ sh.items.entries) (same : s.1 = key) :
          s.2 = p := Option.some.inj ((entry_lookup mem).symm.trans (same ▸ hit))
      split
      · rename_i dead
        have data (q : Ptr) : ((sh.deleteLocked p).heap q).expired now = (sh.heap q).expired now :=
          congrArg (fun e : Entry => e.expired now) (remove_data sh.heap sh.lru p q)
        have erased : (sh.deleteLocked p).items.entries =
            sh.items.entries.filter fun s => decide (s.1 ≠ key) := by
          rw [← kerase_filter sh.items.nodupKeys, ← (lookup_some ref hit).2.1]
          rfl
        rw [ih (removed + 1) (deleteLocked_refines ref hit), erased, List.filter_filter]
        apply List.filter_congr
        intro s mem
        rw [data]
        by_cases same : s.1 = key
        · simp [same, owner mem same, dead]
        · simp [same]
      · rename_i fresh
        rw [ih removed ref]
        apply List.filter_congr
        intro s mem
        by_cases same : s.1 = key
        · simp [same, owner mem same, fresh]
        · simp [same]

/-- The nodes on the list of a shrunken shard are told by the entries it holds. -/
theorem shrunk_nodes (refined : Refines one d ys) (shrunk : Shrinks sh one) :
    ys.map some = d.entries.map fun e => sh.items.lookup e.key := by
  rw [refined.entries, List.map_map]
  apply List.map_congr_left
  intro p mem
  exact (shrunk.mapped _ p ((refined.mapped _ p).mpr ⟨mem,rfl⟩)).symm

theorem refined_same (first : Refines one d ys) (second : Refines two d ys)
    (data : ∀ p, (one.heap p).toEntry = (two.heap p).toEntry)
    (off : ∀ p, p ∉ ys → one.heap p = two.heap p) (free : one.free = two.free)
    (items : one.items.entries = two.items.entries) (limits : one.limits = two.limits) :
    one = two := by
  have heap : one.heap = two.heap := by
    funext p
    by_cases mem : p ∈ ys
    · obtain ⟨prev,next⟩ := segment_unique first.listed.segment second.listed.segment p mem
      exact stored_same (data p) prev next
    · exact off p mem
  have map : one.items = two.items := AList.ext items
  have lru : one.lru = two.lru := by
    have head := first.listed.head.trans second.listed.head.symm
    have tail := first.listed.tail.trans second.listed.tail.symm
    revert head tail
    cases one.lru
    cases two.lru
    rintro rfl rfl
    rfl
  have memory : one.memoryBytes = two.memoryBytes := by rw [first.memory, second.memory, limits]
  have ttl : one.ttlCount = two.ttlCount := first.ttl.trans second.ttl.symm
  have evictions := first.evictions.trans second.evictions.symm
  have expirations := first.expirations.trans second.expirations.symm
  obtain ⟨_,_,_,_,_,_,_,_,_⟩ := one
  obtain ⟨_,_,_,_,_,_,_,_,_⟩ := two
  subst heap free map lru memory ttl limits evictions expirations
  rfl

theorem visited_all (order : RangeOrder) {s : Sigma fun _ : Bytes => Ptr}
    (mem : s ∈ sh.items.entries) : (order.visit sh.items.keys).contains s.1 = true :=
  List.contains_iff_mem.mpr ((order.perm _).mem_iff.mpr (List.mem_map_of_mem mem))

theorem sweepLoop_same (now : Time) (order other : RangeOrder) (ref : Refines sh c xs) :
    Shard.sweepLoop now (order.visit sh.items.keys) sh 0 =
      Shard.sweepLoop now (other.visit sh.items.keys) sh 0 := by
  obtain ⟨ys,first,countOne,shrunkOne⟩ := full_sweep_refines now order ref
  obtain ⟨zs,second,countTwo,shrunkTwo⟩ := full_sweep_refines now other ref
  have nodes : ys = zs := by
    have same := (shrunk_nodes first shrunkOne).trans (shrunk_nodes second shrunkTwo).symm
    exact List.map_injective_iff.mpr (Option.some_injective _) same
  subst nodes
  refine Prod.ext ?_ (countOne.trans countTwo.symm)
  apply refined_same first second
  · intro p
    rw [shrunkOne.data, shrunkTwo.data]
  · intro p off
    rw [sweepLoop_heap _ 0 ref first off, sweepLoop_heap _ 0 ref second off]
  · rw [sweepLoop_free, sweepLoop_free]
  · rw [sweepLoop_items _ 0 ref, sweepLoop_items _ 0 ref]
    apply List.filter_congr
    intro s mem
    rw [visited_all order mem, visited_all other mem]
  · rw [shrunkOne.limits, shrunkTwo.limits]

/-- With nothing expired a sweep does nothing. -/
theorem sweepLoop_idle (keys : List Bytes) (removed : Nat)
    (fresh : ∀ key p, sh.items.lookup key = some p → (sh.heap p).expired now = false) :
    Shard.sweepLoop now keys sh removed = (sh,removed) := by
  induction keys with
  | nil => rfl
  | cons key keys ih =>
    unfold Shard.sweepLoop
    cases hit : sh.items.lookup key with
    | none => exact ih
    | some p =>
      dsimp only
      rw [fresh key p hit, if_neg Bool.false_ne_true]
      exact ih

def expiredAt (now : Time) (es : List Entry) : List Entry := es.filter fun e => e.expired now

/-- What a sweep leaves and counts. -/
structure Swept (sh next : Shard) (now : Time) (removed : Nat) : Prop where
  kept : listed next = alive now (listed sh)
  linked : ∃ nodes, Lists next.heap next.lru nodes ∧
    nodes.map (fun p => (next.heap p).toEntry) = listed next
  mapped : ∀ key, next.peek key = (sh.peek key).filter fun e => !e.expired now
  memory : next.memoryBytes =
    sh.limits.int.wrap (sh.memoryBytes - total (expiredAt now (listed sh)))
  ttl : next.ttlCount = sh.ttlCount - timed (expiredAt now (listed sh))
  expirations : next.expirations = sh.expirations + .ofNat removed
  count : removed = (expiredAt now (listed sh)).length
  evictions : next.evictions = sh.evictions
  limits : next.limits = sh.limits

theorem total_alive (now : Time) (es : List Entry) :
    total es = total (alive now es) + total (expiredAt now es) := by
  induction es with
  | nil => rfl
  | cons e es ih =>
    cases dead : e.expired now <;> simp [alive, expiredAt, dead, total_cons] at ih ⊢ <;> omega

theorem timed_alive (now : Time) (es : List Entry) :
    timed es = timed (alive now es) + timed (expiredAt now es) := by
  induction es with
  | nil => rfl
  | cons e es ih =>
    have counted := timed_cons e es
    cases dead : e.expired now with
    | true =>
      have gone := timed_cons e (expiredAt now es)
      simp only [alive, expiredAt, List.filter_cons, dead, Bool.not_true, Bool.false_eq_true,
        if_false, if_true] at ih gone ⊢
      omega
    | false =>
      have left := timed_cons e (alive now es)
      simp only [alive, expiredAt, List.filter_cons, dead, Bool.not_false, Bool.false_eq_true,
        if_false, if_true] at ih left ⊢
      omega

theorem alive_filter (now : Time) (distinct : Distinct Entry.key c.entries) (key : Bytes) :
    lookup key (alive now c.entries) = (lookup key c.entries).filter fun e => !e.expired now := by
  rcases alive_lookup now distinct key with same | ⟨e,found,dead,gone⟩
  · cases hit : lookup key c.entries with
    | none => rw [same, hit]; rfl
    | some e =>
      rw [same, hit]
      have stays : e ∈ alive now c.entries := (find_some (same.trans hit)).1
      have live : (!e.expired now) = true := (List.mem_filter.mp stays).2
      exact (if_pos live).symm
  · rw [gone, found]
    have stale : ¬ (!e.expired now) = true := by simp [dead]
    exact (if_neg stale).symm

theorem cleanupExpired_swept (now : Time) (order : RangeOrder) (ref : Refines sh c xs) :
    Swept sh (sh.cleanupExpired now order).1 now (sh.cleanupExpired now order).2 := by
  obtain ⟨ys,refined,count,shrunk⟩ := cleanupExpired_refines now order ref
  have before := listed_refined ref
  have after : listed (sh.cleanupExpired now order).1 = alive now c.entries :=
    listed_refined refined
  have left : (c.cleanupExpired now).1.entries = alive now c.entries := rfl
  have removed : (sh.cleanupExpired now order).2 = (expiredAt now c.entries).length := by
    have split := List.length_eq_length_filter_add (l := c.entries) fun e => e.expired now
    rw [count]
    simp only [Cache.cleanupExpired, alive, expiredAt] at split ⊢
    omega
  refine ⟨by rw [after, before], ⟨ys, refined.listed, ?_⟩, ?_, ?_, ?_, ?_, ?_, ?_, shrunk.limits⟩
  · rw [listed_refined refined, refined.entries]
  · intro key
    rw [peek_refined refined, peek_refined ref, left]
    exact alive_filter now (refines_distinct ref) key
  · rw [refined.memory, shrunk.limits, ref.memory, wrap_sub, before, left]
    congr 1
    have split := total_alive now c.entries
    omega
  · rw [refined.ttl, ref.ttl, before, left]
    have split := timed_alive now c.entries
    omega
  · rw [refined.expirations, ref.expirations, count, ← UInt64.ofNat_add]
    rfl
  · rw [removed, before]
  · rw [refined.evictions, ref.evictions]
    rfl

theorem cleanupExpired_idle (now : Time) (order : RangeOrder)
    (fresh : ∀ key p, sh.items.lookup key = some p → (sh.heap p).expired now = false) :
    sh.cleanupExpired now order = (sh,0) := by
  rw [Shard.cleanupExpired, sweepLoop_idle _ 0 fresh]
  rfl

theorem swept_fresh {next : Shard} {removed : Nat} (swept : Swept sh next now removed)
    (hit : next.items.lookup key = some p) : (next.heap p).expired now = false := by
  have held := swept.mapped key
  rw [Shard.peek, hit, Option.map_some, eq_comm, Option.filter_eq_some_iff] at held
  simpa using held.2

/-- For every order the runtime may choose, both sweeps end in one state: the items that
    are not expired, and the counters moved by those that were. Sweeping again at the same
    time changes nothing. -/
theorem sweeps_order_free (config : Config) {steps : List ShardStep} {sh : Shard}
    (run : Run Shard.visit (freshShard config) steps sh) (now : Time) (order : RangeOrder) :
    (∀ other, sh.cleanupExpired now other = sh.cleanupExpired now order ∧
      sh.removeExpiredLocked now other = (sh.cleanupExpired now order).1) ∧
    Swept sh (sh.cleanupExpired now order).1 now (sh.cleanupExpired now order).2 ∧
    ∀ other, (sh.cleanupExpired now order).1.cleanupExpired now other =
        ((sh.cleanupExpired now order).1, 0) ∧
      (sh.cleanupExpired now order).1.removeExpiredLocked now other =
        (sh.cleanupExpired now order).1 := by
  obtain ⟨_,c,xs,ref⟩ := run_refines run
  have swept := cleanupExpired_swept now order ref
  refine ⟨?_, swept, ?_⟩
  · intro other
    have same := sweepLoop_same now other order ref
    simp only [Shard.cleanupExpired, Shard.removeExpiredLocked, same, and_self]
  · intro other
    have idle := cleanupExpired_idle now other fun _ _ => swept_fresh swept
    refine ⟨idle, ?_⟩
    exact congrArg Prod.fst idle

def reversed : RangeOrder := ⟨List.reverse, fun keys => List.reverse_perm keys⟩

/-- Two neighbours on the list and its tail expire together. -/
theorem reversed_sweep_same : ∃ steps sh,
    Run Shard.visit (freshShard ⟨10,40,5,1⟩) steps sh ∧
      steps.map Step.input = [⟨.set [97] [49] 5,0,1,.asListed⟩, ⟨.set [98] [50] 5,1,2,.asListed⟩,
        ⟨.set [99] [51] 0,2,3,.asListed⟩] ∧
      sh.cleanupExpired 9 reversed = sh.cleanupExpired 9 .asListed ∧
      Swept sh (sh.cleanupExpired 9 .asListed).1 9 (sh.cleanupExpired 9 .asListed).2 ∧
      (sh.cleanupExpired 9 .asListed).2 = 2 := by
  have done : (exec Shard.visit (freshShard ⟨10,40,5,1⟩)
      [⟨.set [97] [49] 5,0,1,.asListed⟩, ⟨.set [98] [50] 5,1,2,.asListed⟩,
        ⟨.set [99] [51] 0,2,3,.asListed⟩]).map
      (fun done => (done.2.cleanupExpired 9 .asListed).2) = some 2 := by decide
  obtain ⟨steps,sh,run,inputs,count⟩ := exec_shows done
  obtain ⟨same,swept,_⟩ := sweeps_order_free ⟨10,40,5,1⟩ run 9 .asListed
  exact ⟨steps, sh, run, inputs, (same reversed).1, swept, count⟩

end ShardSweepOrder
