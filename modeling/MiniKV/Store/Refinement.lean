import MiniKV.Store.Cache

/- The shard refines the cache. The relation names the sequence of addresses that
   the list spells; map, links and both counters are functions of it. It holds for
   any machine word: the byte counter is the reduced sum, never assumed exact, and
   the counts of removals are the cache's modulo 2^64. -/
namespace ShardRefinement
open MachineWord LinkedSegment KeyedList LruModel Decimal ShardModel CacheModel

structure Refines (sh : Shard) (c : Cache) (xs : List Ptr) : Prop where
  listed : Lists sh.heap sh.lru xs
  mapped : ∀ k p, sh.items.lookup k = some p ↔ p ∈ xs ∧ (sh.heap p).key = k
  allocated : ∀ p ∈ xs, p < sh.free
  entries : c.entries = xs.map fun p => (sh.heap p).toEntry
  memory : sh.memoryBytes = sh.limits.int.wrap (total c.entries)
  ttl : sh.ttlCount = timed c.entries
  evictions : sh.evictions = UInt64.ofNat c.evictions
  expirations : sh.expirations = UInt64.ofNat c.expirations

/-- Nodes were only unlinked: what is still mapped was mapped before, to the same
    address, and no node lost its data. -/
structure Shrinks (sh smaller : Shard) : Prop where
  data : ∀ p, (smaller.heap p).toEntry = (sh.heap p).toEntry
  limits : smaller.limits = sh.limits
  mapped : ∀ k p, smaller.items.lookup k = some p → sh.items.lookup k = some p

theorem shrinks_refl (sh : Shard) : Shrinks sh sh := ⟨fun _ => rfl, rfl, fun _ _ h => h⟩

theorem shrinks_trans {a b c : Shard} (first : Shrinks a b) (second : Shrinks b c) :
    Shrinks a c :=
  ⟨fun p => (second.data p).trans (first.data p), second.limits.trans first.limits,
    fun k p h => first.mapped k p (second.mapped k p h)⟩

variable {sh : Shard} {c : Cache} {xs : List Ptr} {p : Ptr} {key : Bytes}

theorem newShard_refines (int : Word) (zero : int.wrap 0 = 0) (cfg : Config) (budget : Int) :
    Refines (newShard int cfg budget) CacheModel.empty [] where
  listed := ⟨rfl, rfl, trivial, List.nodup_nil⟩
  mapped := by intro k p; simp [newShard]
  allocated := by simp
  entries := rfl
  memory := by simpa [newShard, total, CacheModel.empty] using zero.symm
  ttl := rfl
  evictions := rfl
  expirations := rfl

theorem refines_distinct (ref : Refines sh c xs) : Distinct Entry.key c.entries := by
  rw [Distinct, ref.entries, List.map_map]
  refine List.Nodup.map_on ?_ ref.listed.nodup
  intro p mp q mq same
  have first := (ref.mapped _ p).mpr ⟨mp,rfl⟩
  have second := (ref.mapped _ q).mpr ⟨mq,same.symm⟩
  exact Option.some.inj (first.symm.trans second)

theorem lookup_some (ref : Refines sh c xs) (hit : sh.items.lookup key = some p) :
    p ∈ xs ∧ (sh.heap p).key = key ∧ lookup key c.entries = some (sh.heap p).toEntry := by
  obtain ⟨mem,same⟩ := (ref.mapped key p).mp hit
  refine ⟨mem,same,?_⟩
  refine (find_eq_some_iff (refines_distinct ref)).mpr ⟨?_,same⟩
  rw [ref.entries]
  exact List.mem_map_of_mem mem

theorem lookup_none (ref : Refines sh c xs) (miss : sh.items.lookup key = none) :
    lookup key c.entries = none := by
  refine find_none_iff.mpr ?_
  rw [ref.entries]
  intro e me same
  obtain ⟨p,mem,rfl⟩ := List.mem_map.mp me
  have hit := (ref.mapped key p).mpr ⟨mem,same⟩
  rw [miss] at hit
  cases hit

theorem entry_mapped (ref : Refines sh c xs) {e : Entry} (mem : e ∈ c.entries) :
    e.key ∈ sh.items.keys := by
  rw [ref.entries] at mem
  obtain ⟨p,mp,rfl⟩ := List.mem_map.mp mem
  have hit := (ref.mapped _ p).mpr ⟨mp,rfl⟩
  exact AList.lookup_isSome.mp (by rw [hit]; rfl)

theorem erase_entries (ref : Refines sh c xs) (mem : p ∈ xs) :
    (xs.erase p).map (fun q => (sh.heap q).toEntry) = others (sh.heap p).key c.entries := by
  rw [ref.listed.nodup.erase_eq_filter, others, without, ref.entries, List.filter_map]
  congr 1
  apply List.filter_congr
  intro q mq
  by_cases same : q = p
  · simp [same]
  · have other : (sh.heap q).key ≠ (sh.heap p).key := by
      intro eq
      have first := (ref.mapped _ q).mpr ⟨mq,eq⟩
      have second := (ref.mapped _ p).mpr ⟨mem,rfl⟩
      exact same (Option.some.inj (first.symm.trans second))
    simp [same, other]

theorem total_split (ref : Refines sh c xs) (hit : sh.items.lookup key = some p) :
    total c.entries = (sh.heap p).size + total (others key c.entries) :=
  sum_split Entry.size (refines_distinct ref) (lookup_some ref hit).2.2

theorem timed_split (ref : Refines sh c xs) (hit : sh.items.lookup key = some p) :
    (timed c.entries : Int) =
      timed (others key c.entries) + (if (sh.heap p).expiresAt ≠ 0 then 1 else 0) := by
  have split := count_split (fun e : Entry => decide (e.expiresAt ≠ 0)) (refines_distinct ref)
    (lookup_some ref hit).2.2
  simp only [timed, others, split, decide_eq_true_eq]
  split <;> simp

theorem deleteLocked_refines (ref : Refines sh c xs) (hit : sh.items.lookup key = some p) :
    Refines (sh.deleteLocked p) (c.drop key) (xs.erase p) := by
  obtain ⟨mem,same,_⟩ := lookup_some ref hit
  refine ⟨remove_lists_erase ref.listed mem, ?_, ?_, ?_, ?_, ?_, ref.evictions, ref.expirations⟩
  · intro k q
    have data : ((remove sh.heap sh.lru p).1 q).key = (sh.heap q).key :=
      congrArg Entry.key (remove_data sh.heap sh.lru p q)
    simp only [Shard.deleteLocked, same, data, ref.listed.nodup.mem_erase_iff]
    by_cases here : k = key
    · subst k
      simp only [AList.lookup_erase, reduceCtorEq, false_iff]
      rintro ⟨⟨qp,mq⟩,eq⟩
      have other := (ref.mapped key q).mpr ⟨mq,eq⟩
      exact qp (Option.some.inj (other.symm.trans hit))
    · rw [AList.lookup_erase_ne here, ref.mapped]
      constructor
      · rintro ⟨mq,eq⟩
        refine ⟨⟨?_,mq⟩,eq⟩
        rintro rfl
        exact here (eq.symm.trans same)
      · rintro ⟨⟨_,mq⟩,eq⟩
        exact ⟨mq,eq⟩
  · intro q mq
    exact ref.allocated q (List.mem_of_mem_erase mq)
  · have shape := erase_entries ref mem
    rw [same] at shape
    simp only [Cache.drop, ← shape, Shard.deleteLocked, remove_data]
  · have split := total_split ref hit
    simp only [Shard.deleteLocked, ref.memory, wrap_sub, Cache.drop]
    congr 1
    omega
  · have split := timed_split ref hit
    simp only [Shard.deleteLocked, ref.ttl, Cache.drop]
    by_cases zero : (sh.heap p).expiresAt = 0
    · simp only [zero, ne_eq, not_true_eq_false, if_false] at split ⊢
      omega
    · simp only [zero, ne_eq, not_false_eq_true, if_true] at split ⊢
      omega

theorem deleteLocked_shrinks (ref : Refines sh c xs) (hit : sh.items.lookup key = some p) :
    Shrinks sh (sh.deleteLocked p) := by
  refine ⟨fun q => remove_data sh.heap sh.lru p q, rfl, ?_⟩
  intro k q kept
  have same := (lookup_some ref hit).2.1
  simp only [Shard.deleteLocked, same] at kept
  by_cases here : k = key
  · subst k
    simp at kept
  · rwa [AList.lookup_erase_ne here] at kept

theorem others_absent {es : List Entry} (miss : lookup key es = none) : others key es = es :=
  without_of_absent (find_none_iff.mp miss)

def doomed (now : Time) (keys : List Bytes) (e : Entry) : Bool :=
  e.expired now && keys.contains e.key

theorem doomed_skip (now : Time) (keys : List Bytes) {es : List Entry}
    (spared : ∀ e ∈ es, e.key = key → e.expired now = false) :
    es.filter (fun e => !doomed now (key :: keys) e) = es.filter (fun e => !doomed now keys e) ∧
      es.countP (doomed now (key :: keys)) = es.countP (doomed now keys) := by
  have same : ∀ e ∈ es, doomed now (key :: keys) e = doomed now keys e := by
    intro e me
    by_cases here : e.key = key
    · simp [doomed, spared e me here]
    · simp [doomed, here]
  exact ⟨List.filter_congr fun e me => by rw [same e me],
    List.countP_congr fun e me => by rw [same e me]⟩

theorem doomed_drop {now : Time} (keys : List Bytes) {es : List Entry} {e : Entry}
    (distinct : Distinct Entry.key es) (found : lookup key es = some e)
    (dead : e.expired now = true) :
    es.filter (fun e => !doomed now (key :: keys) e) =
        (others key es).filter (fun e => !doomed now keys e) ∧
      es.countP (doomed now (key :: keys)) = (others key es).countP (doomed now keys) + 1 := by
  obtain ⟨mem,same⟩ := find_some found
  have off : ∀ x, x.key ≠ key → doomed now (key :: keys) x = doomed now keys x := by
    intro x other
    simp [doomed, other]
  have self : doomed now (key :: keys) e = true := by simp [doomed, dead, same]
  constructor
  · rw [others, without, List.filter_filter]
    apply List.filter_congr
    intro x mx
    by_cases here : x.key = key
    · have eq : x = e := same_key_same distinct mx mem (here.trans same.symm)
      subst eq
      simp [self, here]
    · simp [off x here, here]
  · rw [count_split _ distinct found, self, if_pos rfl]
    congr 1
    apply List.countP_congr
    intro x mx
    rw [off x (mem_without.mp mx).2]

/-- The sweep over any list of keys removes the expired entries it visits. -/
theorem sweepLoop_refines (now : Time) (keys : List Bytes) (ref : Refines sh c xs)
    (removed : Nat) :
    ∃ ys, Refines (Shard.sweepLoop now keys sh removed).1
        { c with entries := c.entries.filter fun e => !doomed now keys e } ys ∧
      (Shard.sweepLoop now keys sh removed).2 = removed + c.entries.countP (doomed now keys) ∧
      Shrinks sh (Shard.sweepLoop now keys sh removed).1 := by
  induction keys generalizing sh c xs removed with
  | nil =>
    have none : ∀ e, doomed now [] e = false := fun e => by simp [doomed]
    have zero : doomed now [] = fun _ => false := funext none
    refine ⟨xs, ?_, ?_, shrinks_refl sh⟩
    · simpa [Shard.sweepLoop, none] using ref
    · simp [Shard.sweepLoop, zero]
  | cons key keys ih =>
    have distinct := refines_distinct ref
    cases hit : sh.items.lookup key with
    | none =>
      have absent := find_none_iff.mp (lookup_none ref hit)
      obtain ⟨kept,count⟩ := doomed_skip now keys
        fun e me same => absurd same (absent e me)
      simp only [Shard.sweepLoop, hit, kept, count]
      exact ih ref removed
    | some p =>
      obtain ⟨_,_,found⟩ := lookup_some ref hit
      cases dead : (sh.heap p).expired now with
      | false =>
        have spared : ∀ e ∈ c.entries, e.key = key → e.expired now = false := by
          intro e me same
          obtain ⟨mem,owner⟩ := find_some found
          rwa [same_key_same distinct me mem (same.trans owner.symm)]
        obtain ⟨kept,count⟩ := doomed_skip now keys spared
        simp only [Shard.sweepLoop, hit, dead, kept, count]
        exact ih ref removed
      | true =>
        obtain ⟨kept,count⟩ := doomed_drop keys distinct found dead
        obtain ⟨ys,refined,total,shrunk⟩ := ih (deleteLocked_refines ref hit) (removed + 1)
        simp only [Shard.sweepLoop, hit, dead, if_true, kept, count]
        refine ⟨ys, refined, ?_, shrinks_trans (deleteLocked_shrinks ref hit) shrunk⟩
        simp only [total, Cache.drop]
        omega

/-- Whatever order the runtime chooses, a full sweep leaves the live entries. -/
theorem full_sweep_refines (now : Time) (order : RangeOrder) (ref : Refines sh c xs) :
    ∃ ys, Refines (Shard.sweepLoop now (order.visit sh.items.keys) sh 0).1
        { c with entries := alive now c.entries } ys ∧
      (Shard.sweepLoop now (order.visit sh.items.keys) sh 0).2 =
        c.entries.length - (alive now c.entries).length ∧
      Shrinks sh (Shard.sweepLoop now (order.visit sh.items.keys) sh 0).1 := by
  obtain ⟨ys,refined,count,shrunk⟩ :=
    sweepLoop_refines now (order.visit sh.items.keys) ref 0
  have all : ∀ e ∈ c.entries, doomed now (order.visit sh.items.keys) e = e.expired now := by
    intro e me
    have seen := (order.perm sh.items.keys).mem_iff.mpr (entry_mapped ref me)
    simp [doomed, seen]
  have kept : c.entries.filter (fun e => !doomed now (order.visit sh.items.keys) e) =
      alive now c.entries := List.filter_congr fun e me => by rw [all e me]
  have dead : c.entries.countP (doomed now (order.visit sh.items.keys)) =
      c.entries.countP fun e => e.expired now := List.countP_congr fun e me => by rw [all e me]
  have split := List.length_eq_countP_add_countP (fun e : Entry => e.expired now) (l := c.entries)
  have rest : (alive now c.entries).length = c.entries.countP fun e => !e.expired now := by
    rw [alive, ← List.countP_eq_length_filter]
  rw [kept] at refined
  refine ⟨ys,refined,?_,shrunk⟩
  simp only [Bool.not_eq_true, Bool.decide_eq_false] at split
  rw [count, dead, rest]
  omega

theorem addExpirations_refines (ref : Refines sh c xs) (removed : Nat) :
    Refines (sh.addExpirations removed) { c with expirations := c.expirations + removed } xs := by
  obtain ⟨listed,mapped,allocated,entries,memory,ttl,evictions,expirations⟩ := ref
  unfold Shard.addExpirations
  split
  · exact ⟨listed,mapped,allocated,entries,memory,ttl,evictions,by simp [expirations]⟩
  · have zero : removed = 0 := by omega
    exact ⟨listed,mapped,allocated,entries,memory,ttl,evictions,by simp [expirations, zero]⟩

theorem addEvictions_refines (ref : Refines sh c xs) (evicted : Nat) :
    Refines (sh.addEvictions evicted) { c with evictions := c.evictions + evicted } xs := by
  obtain ⟨listed,mapped,allocated,entries,memory,ttl,evictions,expirations⟩ := ref
  unfold Shard.addEvictions
  split
  · exact ⟨listed,mapped,allocated,entries,memory,ttl,by simp [evictions],expirations⟩
  · have zero : evicted = 0 := by omega
    exact ⟨listed,mapped,allocated,entries,memory,ttl,by simp [evictions, zero],expirations⟩

theorem addExpirations_shrinks (sh : Shard) (removed : Nat) :
    Shrinks sh (sh.addExpirations removed) := by
  unfold Shard.addExpirations
  split <;> exact ⟨fun _ => rfl, rfl, fun _ _ h => h⟩

theorem addEvictions_shrinks (sh : Shard) (evicted : Nat) :
    Shrinks sh (sh.addEvictions evicted) := by
  unfold Shard.addEvictions
  split <;> exact ⟨fun _ => rfl, rfl, fun _ _ h => h⟩

theorem cleanupExpired_refines (now : Time) (order : RangeOrder) (ref : Refines sh c xs) :
    ∃ ys, Refines (sh.cleanupExpired now order).1 (c.cleanupExpired now).1 ys ∧
      (sh.cleanupExpired now order).2 = (c.cleanupExpired now).2 ∧
      Shrinks sh (sh.cleanupExpired now order).1 := by
  obtain ⟨ys,refined,count,shrunk⟩ := full_sweep_refines now order ref
  refine ⟨ys, ?_, count, shrinks_trans shrunk (addExpirations_shrinks _ _)⟩
  simp only [Shard.cleanupExpired, Cache.cleanupExpired, count]
  exact addExpirations_refines refined _

theorem items_length (ref : Refines sh c xs) : sh.items.keys.length = c.entries.length := by
  have distinct : (c.entries.map Entry.key).Nodup := refines_distinct ref
  have perm : sh.items.keys.Perm (c.entries.map Entry.key) := by
    refine (List.perm_ext_iff_of_nodup sh.items.keys_nodup distinct).mpr ?_
    intro k
    constructor
    · intro mem
      obtain ⟨p,hit⟩ := Option.isSome_iff_exists.mp (AList.lookup_isSome.mpr mem)
      obtain ⟨listed,named,_⟩ := lookup_some ref hit
      rw [ref.entries, List.map_map]
      exact List.mem_map.mpr ⟨p,listed,named⟩
    · intro mem
      obtain ⟨e,me,rfl⟩ := List.mem_map.mp mem
      exact entry_mapped ref me
  rw [perm.length_eq, List.length_map]

theorem length_le_items (ref : Refines sh c xs) : xs.length ≤ sh.items.keys.length := by
  rw [items_length ref, ref.entries, List.length_map]

theorem skipProtected_walk (key : Bytes) {heap : Heap} {fuel : Nat} {start : Option Ptr}
    {ys : List Ptr} (walked : walk (linksOf heap).prev fuel start = some ys) :
    skipProtected heap key fuel start =
      some (ys.find? fun p => decide ((heap p).key ≠ key)) := by
  -- The inner loop of the eviction follows the walk up to the first node of another key.
  induction fuel generalizing start ys with
  | zero =>
    cases start with
    | none =>
      obtain rfl := Option.some.inj walked
      rfl
    | some p => cases walked
  | succ fuel ih =>
    cases start with
    | none =>
      obtain rfl := Option.some.inj walked
      rfl
    | some p =>
      obtain ⟨rest,later,rfl⟩ := Option.map_eq_some_iff.mp walked
      rw [skipProtected]
      by_cases same : (heap p).key = key
      · rw [if_pos same, List.find?_cons_of_neg (by simp [same])]
        exact ih later
      · rw [if_neg same, List.find?_cons_of_pos (by simp [same])]

theorem skipProtected_finds (key : Bytes) {heap : Heap} {after : Option Ptr}
    (segment : Segment (linksOf heap) none xs after) (fuel : Nat) (enough : xs.length ≤ fuel) :
    skipProtected heap key fuel xs.getLast? =
      some (xs.reverse.find? fun p => decide ((heap p).key ≠ key)) :=
  skipProtected_walk key (walk_prev segment fuel enough)

theorem others_map (entry : Ptr → Entry) (ys : List Ptr) :
    others key (ys.map entry) = (ys.filter fun p => decide ((entry p).key ≠ key)).map entry := by
  rw [others, without, List.filter_map]
  rfl

theorem candidate_is_last (ref : Refines sh c xs)
    (found : xs.reverse.find? (fun p => decide ((sh.heap p).key ≠ key)) = some p) :
    p ∈ xs ∧ (sh.heap p).key ≠ key ∧
      others key c.entries =
        others key (c.drop (sh.heap p).key).entries ++ [(sh.heap p).toEntry] := by
  -- The candidate is the back of the other entries, and deleting it takes it off.
  obtain ⟨other,front,back,shape,skipped⟩ := List.find?_eq_some_iff_append.mp found
  have order : xs = back.reverse ++ p :: front.reverse := by
    rw [← List.reverse_reverse xs, shape]
    simp
  have off : (sh.heap p).key ≠ key := by simpa using other
  have mem : p ∈ xs := by rw [order]; simp
  refine ⟨mem,off,?_⟩
  have none : (front.reverse.filter fun q => decide ((sh.heap q).key ≠ key)) = [] := by
    rw [List.filter_eq_nil_iff]
    intro q mq
    simpa using skipped q (List.mem_reverse.mp mq)
  have dropped := erase_entries ref mem
  have erased : xs.erase p = back.reverse ++ front.reverse := by
    have listed := ref.listed
    rw [order] at listed ⊢
    exact erase_listed listed
  rw [erased] at dropped
  rw [Cache.drop, ← dropped, ref.entries, others_map, others_map, order]
  simp only [List.filter_append, List.filter_cons, other, if_true, none, List.map_append,
    List.map_cons, List.map_nil, List.append_nil]

/-- One turn of the eviction: the walk ends at the last other node, and the running
    sum is the sum of what its removal leaves. -/
theorem evict_turn (key : Bytes) {size : Int} (reduced : sh.limits.int.wrap size = size)
    (small : size ≤ sh.limits.maxMemoryBytes) (ref : Refines sh c xs)
    (excess : sh.limits.int.wrap (total (others key c.entries) + size) >
      sh.limits.maxMemoryBytes) :
    ∃ p, skipProtected sh.heap key (sh.items.keys.length + 1) (back sh.lru) = some (some p) ∧
      sh.items.lookup (sh.heap p).key = some p ∧ (sh.heap p).key ≠ key ∧
      others key c.entries =
        others key (c.drop (sh.heap p).key).entries ++ [(sh.heap p).toEntry] ∧
      fits sh.limits size (others key (c.drop (sh.heap p).key).entries ++
        [(sh.heap p).toEntry]) = false ∧
      (others key c.entries).length =
        (others key (c.drop (sh.heap p).key).entries).length + 1 ∧
      sh.limits.int.wrap (sh.limits.int.wrap (total (others key c.entries) + size) -
          (sh.heap p).size) =
        sh.limits.int.wrap (total (others key (c.drop (sh.heap p).key).entries) + size) := by
  have nonempty : others key c.entries ≠ [] := by
    intro empty
    rw [empty] at excess
    simp only [total, List.map_nil, List.sum_nil, zero_add, reduced] at excess
    omega
  have walk := skipProtected_finds key ref.listed.segment
    (sh.items.keys.length + 1) (by have := length_le_items ref; omega)
  rw [← ref.listed.tail] at walk
  cases found : xs.reverse.find? (fun p => decide ((sh.heap p).key ≠ key)) with
  | none =>
    exfalso
    apply nonempty
    rw [ref.entries, others_map, List.map_eq_nil_iff, List.filter_eq_nil_iff]
    intro p mp
    exact List.find?_eq_none.mp found p (List.mem_reverse.mpr mp)
  | some p =>
    obtain ⟨mem,off,split⟩ := candidate_is_last ref found
    have sum : total (others key c.entries) =
        total (others key (c.drop (sh.heap p).key).entries) + (sh.heap p).size := by
      rw [split]
      simp [total]
    refine ⟨p, ?_, (ref.mapped _ p).mpr ⟨mem,rfl⟩, off, split, ?_, ?_, ?_⟩
    · rw [back, walk, found]
    · rw [← split]
      simpa [fits] using excess
    · rw [split]
      simp
    · rw [wrap_sub, sum]
      congr 1
      omega

/-- The eviction loop drops other entries from the back until the write fits; with
    enough fuel it returns, and it never reports failure. -/
theorem evictLoop_refines (key : Bytes) {size : Int} (reduced : sh.limits.int.wrap size = size)
    (small : size ≤ sh.limits.maxMemoryBytes) (fuel evicted : Nat) (ref : Refines sh c xs)
    (enough : (others key c.entries).length < fuel) :
    ∃ smaller d ys, Shard.evictLoop key fuel sh
          (sh.limits.int.wrap (total (others key c.entries) + size)) evicted =
        some (smaller,true) ∧
      Refines smaller d ys ∧ Shrinks sh smaller ∧
      others key d.entries = trimBack (fits sh.limits size) (others key c.entries) ∧
      lookup key d.entries = lookup key c.entries ∧
      d.evictions = c.evictions + evicted +
        ((others key c.entries).length - (others key d.entries).length) ∧
      d.expirations = c.expirations := by
  induction fuel generalizing sh c xs evicted with
  | zero => omega
  | succ fuel ih =>
    rw [Shard.evictLoop]
    by_cases excess : sh.limits.int.wrap (total (others key c.entries) + size) >
        sh.limits.maxMemoryBytes
    · obtain ⟨p,walk,hit,off,split,tooBig,length,running⟩ :=
        evict_turn key reduced small ref excess
      have smallerRef := deleteLocked_refines ref hit
      have limits : (sh.deleteLocked p).limits = sh.limits := rfl
      obtain ⟨smaller,d,ys,run,refined,shrunk,kept,same,count,expired⟩ :=
        ih (limits ▸ reduced) (limits ▸ small) (evicted + 1) smallerRef (by omega)
      refine ⟨smaller, d, ys, ?_, refined, shrinks_trans (deleteLocked_shrinks ref hit) shrunk,
        ?_, ?_, ?_, expired⟩
      · rw [if_pos excess, walk]
        simp only [running]
        exact run
      · rw [kept, split, trimBack_snoc tooBig]
        rfl
      · rw [same]
        exact find_without_ne (Ne.symm off)
      · have bound : (others key d.entries).length ≤
            (others key (c.drop (sh.heap p).key).entries).length := by
          rw [kept]
          exact (trimBack_sublist _ _).length_le
        rw [count, length]
        simp only [Cache.drop]
        simp only [Cache.drop] at bound
        omega
    · have ok : fits sh.limits size (others key c.entries) = true := by
        simpa [fits] using excess
      refine ⟨_, _, xs, by rw [if_neg excess], addEvictions_refines ref evicted,
        addEvictions_shrinks sh evicted, ?_, rfl, by simp, rfl⟩
      rw [trimBack_of_fits ok]

theorem front_refines (ref : Refines sh c xs) (hit : sh.items.lookup key = some p)
    (heap : Heap) (frame : ∀ q, q ≠ p → heap q = sh.heap q)
    (prev : (heap p).prev = (sh.heap p).prev) (next : (heap p).next = (sh.heap p).next)
    (named : (heap p).key = key) {memory ttl : Int}
    (memoryEq : memory = sh.limits.int.wrap (total ((heap p).toEntry :: others key c.entries)))
    (ttlEq : ttl = timed ((heap p).toEntry :: others key c.entries)) :
    Refines { sh with
        heap := (moveToFront heap sh.lru p).1, lru := (moveToFront heap sh.lru p).2,
        memoryBytes := memory, ttlCount := ttl }
      { c with entries := (heap p).toEntry :: others key c.entries } (p :: xs.erase p) := by
  -- A listed node is given new data and moved to the front; the caller supplies the two
  -- counters.
  obtain ⟨mem,same,_⟩ := lookup_some ref hit
  have linked : Lists heap sh.lru xs := by
    refine ⟨ref.listed.head, ref.listed.tail, segment_frame ?_ ref.listed.segment,
      ref.listed.nodup⟩
    intro q _
    by_cases here : q = p
    · subst q; exact ⟨prev,next⟩
    · simp [linksOf, frame q here]
  have keys : ∀ q, (heap q).key = (sh.heap q).key := by
    intro q
    by_cases here : q = p
    · subst q; exact named.trans same.symm
    · rw [frame q here]
  have members : ∀ q, q ∈ p :: xs.erase p ↔ q ∈ xs := by
    intro q
    exact (List.perm_cons_erase mem).symm.mem_iff
  refine ⟨moveToFront_lists linked mem, ?_, ?_, ?_, memoryEq, ttlEq, ref.evictions,
    ref.expirations⟩
  · intro k q
    have data : ((moveToFront heap sh.lru p).1 q).key = (sh.heap q).key :=
      (congrArg Entry.key (moveToFront_data heap sh.lru p q)).trans (keys q)
    simp only [members, data]
    exact ref.mapped k q
  · intro q mq
    exact ref.allocated q ((members q).mp mq)
  · have rest : (xs.erase p).map (fun q => (heap q).toEntry) =
        (xs.erase p).map fun q => (sh.heap q).toEntry := by
      apply List.map_congr_left
      intro q mq
      rw [frame q (ref.listed.nodup.mem_erase_iff.mp mq).1]
    simp only [moveToFront_data, List.map_cons, rest]
    rw [erase_entries ref mem, same]

theorem total_cons (e : Entry) (es : List Entry) : total (e :: es) = e.size + total es := by
  simp [total]

theorem timed_cons (e : Entry) (es : List Entry) :
    (timed (e :: es) : Int) = timed es + (if e.expiresAt ≠ 0 then 1 else 0) := by
  simp only [timed, List.countP_cons, decide_eq_true_eq]
  split <;> simp

theorem overwrite_refines (ref : Refines sh c xs) (hit : sh.items.lookup key = some p)
    (value : Bytes) (expiry : Time) (size : Int) (newCAS : UInt64) :
    Refines (sh.overwrite p value expiry size newCAS
        (sh.limits.int.wrap (total (others key c.entries) + size)))
      { c with entries := ⟨key,value,expiry,size,newCAS⟩ :: others key c.entries }
      (p :: xs.erase p) := by
  obtain ⟨_,same,_⟩ := lookup_some ref hit
  let heap := modify sh.heap p fun node =>
    { node with value := value, expiresAt := expiry, size := size, cas := newCAS }
  have entry : (heap p).toEntry = ⟨key,value,expiry,size,newCAS⟩ := by
    simp [heap, same]
  rw [← entry]
  refine front_refines ref hit heap (fun q off => modify_ne _ _ off) (by simp [heap])
    (by simp [heap]) (by rw [entry]) ?_ ?_
  · rw [entry, total_cons, Int.add_comm]
  · have split := timed_split ref hit
    rw [entry, timed_cons]
    simp only [retime, ref.ttl]
    by_cases had : (sh.heap p).expiresAt = 0 <;> by_cases zero : expiry = 0 <;>
      simp [had, zero] at split ⊢ <;> omega

theorem rewriteCounter_refines (ref : Refines sh c xs) (hit : sh.items.lookup key = some p)
    (value : Bytes) (size : Int) (newCAS : UInt64) :
    Refines (sh.rewriteCounter p value size newCAS
        (sh.limits.int.wrap (total (others key c.entries) + size)))
      { c with entries :=
        ⟨key,value,(sh.heap p).expiresAt,size,newCAS⟩ :: others key c.entries }
      (p :: xs.erase p) := by
  obtain ⟨_,same,_⟩ := lookup_some ref hit
  let heap := modify sh.heap p fun node =>
    { node with value := value, size := size, cas := newCAS }
  have entry : (heap p).toEntry = ⟨key,value,(sh.heap p).expiresAt,size,newCAS⟩ := by
    simp [heap, same]
  rw [← entry]
  refine front_refines ref hit heap (fun q off => modify_ne _ _ off) (by simp [heap])
    (by simp [heap]) (by rw [entry]) ?_ ?_
  · rw [entry, total_cons, Int.add_comm]
  · rw [entry, timed_cons, ref.ttl]
    exact timed_split ref hit

theorem touch_refines (ref : Refines sh c xs) (hit : sh.items.lookup key = some p) :
    Refines { sh with
        heap := (moveToFront sh.heap sh.lru p).1, lru := (moveToFront sh.heap sh.lru p).2 }
      (c.touch (sh.heap p).toEntry) (p :: xs.erase p) := by
  obtain ⟨_,same,_⟩ := lookup_some ref hit
  have memory : sh.memoryBytes =
      sh.limits.int.wrap (total ((sh.heap p).toEntry :: others key c.entries)) := by
    rw [total_cons, ref.memory, ← total_split ref hit]
  have ttl : sh.ttlCount = timed ((sh.heap p).toEntry :: others key c.entries) := by
    rw [timed_cons, ref.ttl]
    exact timed_split ref hit
  have moved := front_refines ref hit sh.heap (fun _ _ => rfl) rfl rfl same memory ttl
  simpa [Cache.touch, same] using moved

/-- The map with a fresh pointer for an absent key, on a heap that has the key there and
    is otherwise unchanged on the list. -/
theorem insert_mapped {heap : Heap} {p : Ptr} (ref : Refines sh c xs)
    (miss : sh.items.lookup key = none) (old : ∀ q ∈ xs, heap q = sh.heap q)
    (entry : (heap p).key = key) (k : Bytes) (q : Ptr) :
    (sh.items.insert key p).lookup k = some q ↔ q ∈ p :: xs ∧ (heap q).key = k := by
  by_cases here : k = key
  · subst k
    rw [AList.lookup_insert, Option.some.injEq, List.mem_cons]
    constructor
    · rintro rfl
      exact ⟨Or.inl rfl, entry⟩
    · rintro ⟨rfl | mq, named⟩
      · rfl
      · rw [old q mq] at named
        have hit := (ref.mapped key q).mpr ⟨mq,named⟩
        rw [miss] at hit
        cases hit
  · rw [AList.lookup_insert_ne here, ref.mapped, List.mem_cons]
    constructor
    · rintro ⟨mq,named⟩
      exact ⟨Or.inr mq, by rw [old q mq]; exact named⟩
    · rintro ⟨rfl | mq, named⟩
      · rw [entry] at named
        exact absurd named.symm here
      · rw [old q mq] at named
        exact ⟨mq,named⟩

theorem insert_refines (ref : Refines sh c xs) (miss : sh.items.lookup key = none)
    (value : Bytes) (expiry : Time) (size : Int) (newCAS : UInt64) :
    Refines (sh.insert key value expiry size newCAS
        (sh.limits.int.wrap (total (others key c.entries) + size)))
      { c with entries := ⟨key,value,expiry,size,newCAS⟩ :: others key c.entries }
      (sh.free :: xs) := by
  have fresh : sh.free ∉ xs := fun mem => Nat.lt_irrefl _ (ref.allocated _ mem)
  have untouched : others key c.entries = c.entries := others_absent (lookup_none ref miss)
  let heap := modify sh.heap sh.free fun _ => ⟨⟨key,value,expiry,size,newCAS⟩,none,none⟩
  have old : ∀ q ∈ xs, heap q = sh.heap q := fun q mq =>
    modify_ne _ _ fun e => fresh (e ▸ mq)
  have entry : (heap sh.free).toEntry = ⟨key,value,expiry,size,newCAS⟩ := by simp [heap]
  have linked : Lists heap sh.lru xs := by
    refine ⟨ref.listed.head, ref.listed.tail, segment_frame ?_ ref.listed.segment,
      ref.listed.nodup⟩
    intro q mq
    simp [linksOf, old q mq]
  rw [untouched]
  refine ⟨pushFront_lists linked fresh, ?_, ?_, ?_, ?_, ?_, ref.evictions, ref.expirations⟩
  · intro k q
    have data : ((pushFront heap sh.lru sh.free).1 q).key = (heap q).key :=
      congrArg Entry.key (pushFront_data heap sh.lru sh.free q)
    show (sh.items.insert key sh.free).lookup k = some q ↔
      q ∈ sh.free :: xs ∧ ((pushFront heap sh.lru sh.free).1 q).key = k
    rw [data]
    exact insert_mapped ref miss old (by rw [entry]) k q
  · intro q mq
    show q < sh.free + 1
    rcases List.mem_cons.mp mq with rfl | mq
    · exact Nat.lt_succ_self _
    · exact Nat.lt_succ_of_lt (ref.allocated q mq)
  · have rest : xs.map (fun q => (heap q).toEntry) = xs.map fun q => (sh.heap q).toEntry :=
      List.map_congr_left fun q mq => by rw [old q mq]
    show _ = (sh.free :: xs).map fun q => ((pushFront heap sh.lru sh.free).1 q).toEntry
    simp only [pushFront_data, List.map_cons, rest, entry, ref.entries]
  · show sh.limits.int.wrap (total c.entries + size) = _
    rw [total_cons, Int.add_comm]
    rfl
  · show (if expiry ≠ 0 then sh.ttlCount + 1 else sh.ttlCount) = _
    rw [timed_cons, ref.ttl]
    dsimp only
    split <;> simp

end ShardRefinement
