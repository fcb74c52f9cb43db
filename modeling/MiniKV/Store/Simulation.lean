import MiniKV.Store.Effects
import MiniKV.Store.Refinement

/- Every call of a shard returns, answers what the cache answers and leaves a shard
   that refines the cache's next state. The three writes make room with their own
   copies of one block; the stages of that block are proved once. -/
namespace ShardSimulation
open MachineWord KeyedList LruModel Decimal ShardModel CacheModel ShardRefinement
  CacheEffects

variable {sh : Shard} {c : Cache} {xs : List Ptr} {p : Ptr} {key : Bytes} {now : Time}
  {size : Int}

def Live (now : Time) (key : Bytes) (es : List Entry) : Prop :=
  ∀ e, lookup key es = some e → e.expired now = false

def oldSizeOf (sh : Shard) (key : Bytes) : Int :=
  match sh.items.lookup key with
  | some old => (sh.heap old).size
  | none => 0

/-- The state in which a write of this size stores its item. -/
structure Ready (sh : Shard) (c : Cache) (now : Time) (key : Bytes) (size : Int)
    (ready : Shard) (d : Cache) (ys : List Ptr) : Prop where
  refined : Refines ready d ys
  shrunk : Shrinks sh ready
  same : ready.items.lookup key = sh.items.lookup key
  kept : others key d.entries = (makeRoom sh.limits now size (others key c.entries)).kept
  evictions : d.evictions =
    c.evictions + (makeRoom sh.limits now size (others key c.entries)).evicted
  expirations : d.expirations =
    c.expirations + (makeRoom sh.limits now size (others key c.entries)).expired

theorem shrunk_lookup {smaller : Shard} {d : Cache} {ys : List Ptr} (ref : Refines sh c xs)
    (refined : Refines smaller d ys) (shrunk : Shrinks sh smaller)
    (same : lookup key d.entries = lookup key c.entries) :
    smaller.items.lookup key = sh.items.lookup key := by
  cases hit : smaller.items.lookup key with
  | some q => exact (shrunk.mapped key q hit).symm
  | none =>
    cases old : sh.items.lookup key with
    | none => rfl
    | some p =>
      have gone := lookup_none refined hit
      rw [same, (lookup_some ref old).2.2] at gone
      cases gone

theorem total_less_own (ref : Refines sh c xs) :
    total c.entries - oldSizeOf sh key = total (others key c.entries) := by
  unfold oldSizeOf
  cases hit : sh.items.lookup key with
  | none => simp [others_absent (lookup_none ref hit)]
  | some p =>
    have split := total_split ref hit
    dsimp only
    omega

theorem projected_eq (ref : Refines sh c xs) :
    sh.projected (oldSizeOf sh key) size =
      sh.limits.int.wrap (total (others key c.entries) + size) := by
  rw [Shard.projected, ref.memory, wrap_sub, sh.limits.int.absorb, total_less_own ref]

theorem over_iff (ref : Refines sh c xs) :
    sh.projected (oldSizeOf sh key) size > sh.limits.maxMemoryBytes ↔
      fits sh.limits size (others key c.entries) = false := by
  rw [projected_eq ref, fits, decide_eq_false_iff_not, gt_iff_lt, Int.not_le]

theorem oldSize_kept {smaller : Shard} (shrunk : Shrinks sh smaller)
    (same : smaller.items.lookup key = sh.items.lookup key) :
    oldSizeOf smaller key = oldSizeOf sh key := by
  unfold oldSizeOf
  rw [same]
  cases sh.items.lookup key with
  | none => rfl
  | some p => exact congrArg Entry.size (shrunk.data p)

theorem alive_of_untimed {es : List Entry} (none : timed es = 0) : alive now es = es := by
  have free : ∀ e ∈ es, e.expiresAt = 0 := by simpa [timed] using none
  rw [alive, List.filter_eq_self]
  intro e me
  simp [Entry.expired, free e me]

theorem lookup_alive {es : List Entry} (distinct : Distinct Entry.key es)
    (live : Live now key es) : lookup key (alive now es) = lookup key es := by
  cases hit : lookup key es with
  | none =>
    refine find_none_iff.mpr fun e me => ?_
    exact find_none_iff.mp hit e (List.mem_of_mem_filter me)
  | some e =>
    obtain ⟨mem,same⟩ := find_some hit
    refine (find_eq_some_iff (distinct_sublist List.filter_sublist distinct)).mpr ⟨?_,same⟩
    exact List.mem_filter.mpr ⟨mem, by simp [live e hit]⟩

theorem others_alive (es : List Entry) :
    others key (alive now es) = alive now (others key es) := by
  simp only [others, without, alive]
  exact List.filter_comm _ _ _

theorem removed_others {es : List Entry} (distinct : Distinct Entry.key es)
    (live : Live now key es) :
    es.length - (alive now es).length =
      (others key es).length - (alive now (others key es)).length := by
  -- The key's own entry is live, so only other entries are counted as removed.
  cases hit : lookup key es with
  | none => rw [others_absent hit]
  | some e =>
    have whole : es.Perm (e :: others key es) := perm_cons_without distinct hit
    have part : (alive now es).Perm (e :: others key (alive now es)) :=
      perm_cons_without (distinct_sublist List.filter_sublist distinct)
        ((lookup_alive distinct live).trans hit)
    have wholeLength := whole.length_eq
    have partLength := part.length_eq
    rw [others_alive] at partLength
    simp only [List.length_cons] at wholeLength partLength
    omega

theorem ready_unchanged (now : Time) (ref : Refines sh c xs)
    (fit : fits sh.limits size (others key c.entries) = true) :
    Ready sh c now key size sh c xs := by
  have room : makeRoom sh.limits now size (others key c.entries) =
      ⟨others key c.entries,0,0⟩ := if_pos fit
  exact ⟨ref, shrinks_refl sh, rfl, by rw [room], by rw [room]; rfl, by rw [room]; rfl⟩

/-- What the purge leaves to the eviction of a write that does not fit. -/
structure Purged (sh : Shard) (c : Cache) (now : Time) (key : Bytes) (purged : Shard)
    (d : Cache) (ys : List Ptr) : Prop where
  refined : Refines purged d ys
  shrunk : Shrinks sh purged
  entry : lookup key d.entries = lookup key c.entries
  left : others key d.entries = alive now (others key c.entries)
  evictions : d.evictions = c.evictions
  expirations : d.expirations = c.expirations +
    ((others key c.entries).length - (alive now (others key c.entries)).length)

theorem purge_runs (order : RangeOrder) (ref : Refines sh c xs) (live : Live now key c.entries) :
    ∃ d ys, Purged sh c now key (sh.removeExpiredLocked now order) d ys := by
  have distinct := refines_distinct ref
  obtain ⟨ys,refined,_,shrunk⟩ := cleanupExpired_refines now order ref
  refine ⟨_, ys, refined, shrunk, lookup_alive distinct live, others_alive _, rfl, ?_⟩
  rw [← removed_others distinct live]
  rfl

theorem purge_skipped (ref : Refines sh c xs) (untimed : ¬ sh.ttlCount > 0) :
    Purged sh c now key sh c xs := by
  -- The guard skips the purge only when no entry could have expired.
  have none : timed c.entries = 0 := by
    have := ref.ttl
    omega
  have all : alive now (others key c.entries) = others key c.entries := by
    rw [← others_alive, alive_of_untimed none]
  exact ⟨ref, shrinks_refl sh, rfl, by rw [all], rfl, by rw [all]; simp⟩

variable {purged ready : Shard} {d : Cache} {ys : List Ptr}

theorem purged_lookup (ref : Refines sh c xs) (clean : Purged sh c now key purged d ys) :
    purged.items.lookup key = sh.items.lookup key :=
  shrunk_lookup ref clean.refined clean.shrunk clean.entry

theorem purged_over (clean : Purged sh c now key purged d ys) :
    purged.projected (oldSizeOf purged key) size > purged.limits.maxMemoryBytes ↔
      fits sh.limits size (others key d.entries) = false := by
  rw [over_iff clean.refined, clean.shrunk.limits]

theorem others_below (ref : Refines sh c xs) :
    (others key c.entries).length < sh.items.keys.length + 1 := by
  -- The loop has fuel for every other entry.
  have bound := length_le_items ref
  have part := (without_sublist Entry.key key c.entries).length_le
  have whole : c.entries.length = xs.length := by rw [ref.entries]; simp
  simp only [others] at part ⊢
  omega

theorem evict_stage (ref : Refines sh c xs) (clean : Purged sh c now key purged d ys)
    (excess : fits sh.limits size (others key c.entries) = false)
    (reduced : sh.limits.int.wrap size = size) (small : size ≤ sh.limits.maxMemoryBytes) :
    ∃ ready e zs, purged.evictUntilFitsLocked key
        (purged.projected (oldSizeOf purged key) size) = some (ready,true) ∧
      Ready sh c now key size ready e zs := by
  -- The eviction after the purge: it returns true and leaves exactly the room's entries.
  have room : makeRoom sh.limits now size (others key c.entries) =
      ⟨trimBack (fits sh.limits size) (alive now (others key c.entries)),
        (alive now (others key c.entries)).length -
          (trimBack (fits sh.limits size) (alive now (others key c.entries))).length,
        (others key c.entries).length - (alive now (others key c.entries)).length⟩ := by
    simp [makeRoom, excess]
  have limits := clean.shrunk.limits
  obtain ⟨ready,e,zs,run,final,more,kept,still,evicted,expired⟩ :=
    evictLoop_refines key (by rw [limits, reduced] : purged.limits.int.wrap size = size)
      (by rw [limits]; exact small) (purged.items.keys.length + 1) 0 clean.refined
      (others_below clean.refined)
  rw [limits, clean.left] at kept
  have shrunk := shrinks_trans clean.shrunk more
  refine ⟨ready, e, zs, ?_, final, shrunk, ?_, ?_, ?_, ?_⟩
  · rw [projected_eq clean.refined]
    exact run
  · exact shrunk_lookup ref final shrunk (still.trans clean.entry)
  · rw [kept, room]
  · rw [evicted, clean.evictions, kept, clean.left, room]
    simp
  · rw [expired, clean.expirations, room]

theorem ready_purged (ref : Refines sh c xs) (clean : Purged sh c now key purged d ys)
    (excess : fits sh.limits size (others key c.entries) = false)
    (fit : fits sh.limits size (others key d.entries) = true) :
    Ready sh c now key size purged d ys := by
  have whole : trimBack (fits sh.limits size) (alive now (others key c.entries)) =
      alive now (others key c.entries) := trimBack_of_fits (clean.left ▸ fit)
  have room : makeRoom sh.limits now size (others key c.entries) =
      ⟨alive now (others key c.entries), 0,
        (others key c.entries).length - (alive now (others key c.entries)).length⟩ := by
    simp [makeRoom, excess, whole]
  refine ⟨clean.refined, clean.shrunk, purged_lookup ref clean, ?_, ?_, ?_⟩
  · rw [clean.left, room]
  · rw [clean.evictions, room]; rfl
  · rw [clean.expirations, room]

theorem write_eq {e : Entry} (made : Ready sh c now e.key e.size ready d ys) :
    { d with entries := e :: others e.key d.entries } = c.write sh.limits now e := by
  simp only [Cache.write, made.kept, made.evictions, made.expirations]

theorem itemSize_reduced (limits : Limits) (key : Bytes) (n : Nat) :
    limits.int.wrap (limits.itemSize key n) = limits.itemSize key n := by
  simp [Limits.itemSize]

theorem store_refines (value : Bytes) (ttl : Duration) (cas : UInt64)
    (made : Ready sh c now key size ready d ys) :
    ∃ stored zs, ready.store cas now key value ttl size
        (ready.projected (oldSizeOf ready key) size) = (stored,cas + 1,none) ∧
      Refines stored (c.write sh.limits now ⟨key,value,expiresAt now ttl,size,cas + 1⟩) zs ∧
      stored.limits = sh.limits := by
  have limits := made.shrunk.limits
  rw [projected_eq made.refined]
  rw [← write_eq (e := ⟨key,value,expiresAt now ttl,size,cas + 1⟩) made]
  unfold Shard.store
  cases hit : ready.items.lookup key with
  | some existing => exact ⟨_, _, rfl, overwrite_refines made.refined hit _ _ _ _, limits⟩
  | none => exact ⟨_, _, rfl, insert_refines made.refined hit _ _ _ _, limits⟩

theorem setEvicting_refines (cas : UInt64) (value : Bytes) (ttl : Duration)
    (ref : Refines sh c xs) (clean : Purged sh c now key purged d ys)
    (excess : fits sh.limits size (others key c.entries) = false)
    (reduced : sh.limits.int.wrap size = size) (small : size ≤ sh.limits.maxMemoryBytes) :
    ∃ stored zs, purged.setEvicting (oldSizeOf purged key) size
        (purged.projected (oldSizeOf purged key) size) cas now key value ttl =
          some (stored,cas + 1,none) ∧
      Refines stored (c.write sh.limits now ⟨key,value,expiresAt now ttl,size,cas + 1⟩) zs ∧
      stored.limits = sh.limits := by
  unfold Shard.setEvicting
  split
  · obtain ⟨ready,e,zs,run,made⟩ := evict_stage ref clean excess reduced small
    obtain ⟨stored,ws,done,refined,limits⟩ := store_refines value ttl cas made
    have kept : oldSizeOf ready key = oldSizeOf purged key := by
      rw [oldSize_kept made.shrunk made.same,
        oldSize_kept clean.shrunk (purged_lookup ref clean)]
    rw [kept] at done
    exact ⟨stored, ws, by simp only [run, done], refined, limits⟩
  · rename_i enough
    have fit : fits sh.limits size (others key d.entries) = true := by
      simpa using mt (purged_over clean).mpr enough
    obtain ⟨stored,ws,done,refined,limits⟩ :=
      store_refines value ttl cas (ready_purged ref clean excess fit)
    exact ⟨stored, ws, by rw [done], refined, limits⟩

theorem setFrom_refines (cas : UInt64) (order : RangeOrder) (value : Bytes) (ttl : Duration)
    (ref : Refines sh c xs) (live : Live now key c.entries)
    (fit : ¬ sh.itemSize key value.length > sh.limits.maxMemoryBytes) :
    ∃ stored ys, sh.setFrom (oldSizeOf sh key) cas now order key value ttl =
        some (stored,cas + 1,none) ∧
      Refines stored (c.write sh.limits now ⟨key,value,expiresAt now ttl,
        sh.itemSize key value.length,cas + 1⟩) ys ∧
      stored.limits = sh.limits := by
  have reduced : sh.limits.int.wrap (sh.itemSize key value.length) =
      sh.itemSize key value.length := itemSize_reduced sh.limits key value.length
  have small : sh.itemSize key value.length ≤ sh.limits.maxMemoryBytes := by omega
  simp only [Shard.setFrom, if_neg fit]
  split
  · rename_i tight
    have excess := (over_iff ref).mp tight
    split
    · obtain ⟨d,ys,clean⟩ := purge_runs order ref live
      exact setEvicting_refines cas value ttl ref clean excess reduced small
    · rename_i untimed
      exact setEvicting_refines cas value ttl ref (purge_skipped ref untimed) excess reduced small
  · rename_i loose
    have room : fits sh.limits (sh.itemSize key value.length) (others key c.entries) = true := by
      simpa using mt (over_iff ref).mpr loose
    obtain ⟨stored,ys,done,refined,limits⟩ :=
      store_refines value ttl cas (ready_unchanged now ref room)
    exact ⟨stored, ys, by rw [done], refined, limits⟩

/-- One call refines: it returns, with the cache's answer and a state that refines
    the cache's. -/
def Follows {ρ : Type} (sh : Shard) (returned : Option (Shard × ρ)) (expected : Cache × ρ) : Prop :=
  ∃ sh' ys, returned = some (sh',expected.2) ∧ Refines sh' expected.1 ys ∧ sh'.limits = sh.limits

theorem live_of_miss {es : List Entry} (miss : lookup key es = none) : Live now key es := by
  intro e hit
  rw [miss] at hit
  cases hit

theorem live_of_found {es : List Entry} {e : Entry} (found : lookup key es = some e)
    (fresh : ¬ e.expired now = true) : Live now key es := by
  intro x hit
  obtain rfl := Option.some.inj (found.symm.trans hit)
  simpa using fresh

theorem setFrom_follows (now : Time) (cas : UInt64) (order : RangeOrder) (value : Bytes) (ttl : Duration)
    (ref : Refines sh c xs) (live : Live now key c.entries) :
    Follows sh (sh.setFrom (oldSizeOf sh key) cas now order key value ttl)
      (if sh.limits.itemSize key value.length > sh.limits.maxMemoryBytes then
        (c, cas, some .memoryLimitExceeded)
      else (c.write sh.limits now ⟨key,value,expiresAt now ttl,
        sh.limits.itemSize key value.length,cas + 1⟩, cas + 1, none)) := by
  split
  · rename_i big
    have large : sh.itemSize key value.length > sh.limits.maxMemoryBytes := big
    exact ⟨sh, xs, by simp only [Shard.setFrom, if_pos large], ref, rfl⟩
  · rename_i fit
    exact setFrom_refines cas order value ttl ref live fit

theorem set_follows (cas : UInt64) (order : RangeOrder) (value : Bytes) (ttl : Duration)
    (ref : Refines sh c xs) :
    Follows sh (sh.set cas now order key value ttl) (c.set sh.limits cas now key value ttl) := by
  unfold Shard.set Cache.set Cache.dropExpired
  split
  · exact ⟨sh,xs,rfl,ref,rfl⟩
  · cases hit : sh.items.lookup key with
    | none =>
      have miss := lookup_none ref hit
      have old : oldSizeOf sh key = 0 := by simp [oldSizeOf, hit]
      have done := setFrom_follows now cas order value ttl ref (live_of_miss miss)
      rw [old] at done
      simpa only [miss] using done
    | some p =>
      have found := (lookup_some ref hit).2.2
      simp only [found]
      split
      · have gone : (sh.deleteLocked p).items.lookup key = none := by
          simp [Shard.deleteLocked, (lookup_some ref hit).2.1]
        have next := deleteLocked_refines ref hit
        have old : oldSizeOf (sh.deleteLocked p) key = 0 := by simp [oldSizeOf, gone]
        have done := setFrom_follows now cas order value ttl next
          (live_of_miss (lookup_none next gone))
        rw [old] at done
        exact done
      · rename_i fresh
        have old : oldSizeOf sh key = (sh.heap p).size := by simp [oldSizeOf, hit]
        have done := setFrom_follows now cas order value ttl ref (live_of_found found fresh)
        rw [old] at done
        exact done

theorem get_follows (ref : Refines sh c xs) :
    Follows sh (some (sh.get now key)) (c.get now key) := by
  unfold Shard.get Cache.get
  cases hit : sh.items.lookup key with
  | none =>
    rw [lookup_none ref hit]
    exact ⟨sh,xs,rfl,ref,rfl⟩
  | some p =>
    rw [(lookup_some ref hit).2.2]
    dsimp only
    split
    · exact ⟨_, _, rfl, deleteLocked_refines ref hit, rfl⟩
    · refine ⟨_, _, ?_, touch_refines ref hit, rfl⟩
      have copied : cloneBytes (sh.heap p).value = (sh.heap p).value := by
        unfold cloneBytes
        split
        · rename_i empty
          exact (List.length_eq_zero_iff.mp empty).symm
        · rfl
      rw [copied]

theorem delete_follows (ref : Refines sh c xs) :
    Follows sh (some (sh.delete now key)) (c.delete now key) := by
  unfold Shard.delete Cache.delete
  cases hit : sh.items.lookup key with
  | none =>
    rw [lookup_none ref hit]
    exact ⟨sh,xs,rfl,ref,rfl⟩
  | some p =>
    rw [(lookup_some ref hit).2.2]
    refine ⟨_, _, ?_, deleteLocked_refines ref hit, rfl⟩
    dsimp only
    split <;> rename_i dead <;> simp [dead]

theorem cleanupExpired_follows (order : RangeOrder) (ref : Refines sh c xs) :
    Follows sh (some (sh.cleanupExpired now order)) (c.cleanupExpired now) := by
  obtain ⟨ys,refined,count,shrunk⟩ := cleanupExpired_refines now order ref
  exact ⟨_, ys, by rw [← count], refined, shrunk.limits⟩

theorem oldSize_found (hit : sh.items.lookup key = some p) :
    oldSizeOf sh key = (sh.heap p).size := by
  simp [oldSizeOf, hit]

theorem overwrite_follows (value : Bytes) (ttl : Duration) (cas : UInt64)
    (hit : sh.items.lookup key = some p) (made : Ready sh c now key size ready d ys) :
    Follows sh (some (ready.overwrite p value (expiresAt now ttl) size (cas + 1)
        (ready.projected (ready.heap p).size size), cas + 1, (none : Option StoreError)))
      (c.write sh.limits now ⟨key,value,expiresAt now ttl,size,cas + 1⟩, cas + 1, none) := by
  have found := made.same.trans hit
  rw [← oldSize_found found, projected_eq made.refined]
  have refined := overwrite_refines made.refined found value (expiresAt now ttl) size (cas + 1)
  rw [write_eq (e := ⟨key,value,expiresAt now ttl,size,cas + 1⟩) made] at refined
  exact ⟨_, _, rfl, refined, made.shrunk.limits⟩

theorem rewriteCounter_follows (value : Bytes) (cas next : UInt64)
    (hit : sh.items.lookup key = some p) (made : Ready sh c now key size ready d ys) :
    Follows sh (some (ready.rewriteCounter p value size (cas + 1)
        (ready.projected (ready.heap p).size size), cas + 1,
          (Except.ok next : Except StoreError UInt64)))
      (c.write sh.limits now ⟨key,value,(sh.heap p).expiresAt,size,cas + 1⟩,
        cas + 1, .ok next) := by
  have found := made.same.trans hit
  have expiry : (ready.heap p).expiresAt = (sh.heap p).expiresAt :=
    congrArg Entry.expiresAt (made.shrunk.data p)
  rw [← oldSize_found found, projected_eq made.refined]
  have refined := rewriteCounter_refines made.refined found value size (cas + 1)
  rw [expiry, write_eq (e := ⟨key,value,(sh.heap p).expiresAt,size,cas + 1⟩) made] at refined
  exact ⟨_, _, rfl, refined, made.shrunk.limits⟩

theorem casEvicting_follows (cas : UInt64) (value : Bytes) (ttl : Duration)
    (ref : Refines sh c xs) (hit : sh.items.lookup key = some p)
    (clean : Purged sh c now key purged d ys)
    (excess : fits sh.limits size (others key c.entries) = false)
    (reduced : sh.limits.int.wrap size = size) (small : size ≤ sh.limits.maxMemoryBytes) :
    Follows sh (purged.casEvicting p size (purged.projected (purged.heap p).size size)
        cas now key value ttl)
      (c.write sh.limits now ⟨key,value,expiresAt now ttl,size,cas + 1⟩, cas + 1, none) := by
  have old := oldSize_found ((purged_lookup ref clean).trans hit)
  unfold Shard.casEvicting
  rw [← old]
  split
  · obtain ⟨ready,e,zs,run,made⟩ := evict_stage ref clean excess reduced small
    simp only [run]
    exact overwrite_follows value ttl cas hit made
  · rename_i enough
    have fit : fits sh.limits size (others key d.entries) = true := by
      simpa using mt (purged_over clean).mpr enough
    rw [old]
    exact overwrite_follows value ttl cas hit (ready_purged ref clean excess fit)

theorem cas_follows (casCounter : UInt64) (order : RangeOrder) (value : Bytes) (ttl : Duration)
    (expected : UInt64) (ref : Refines sh c xs) :
    Follows sh (sh.cas casCounter now order key value ttl expected)
      (c.cas sh.limits casCounter now key value ttl expected) := by
  unfold Shard.cas Cache.cas
  split
  · exact ⟨sh,xs,rfl,ref,rfl⟩
  · cases hit : sh.items.lookup key with
    | none =>
      rw [lookup_none ref hit]
      exact ⟨sh,xs,rfl,ref,rfl⟩
    | some p =>
      have found := (lookup_some ref hit).2.2
      rw [found]
      dsimp only
      split
      · exact ⟨_, _, rfl, deleteLocked_refines ref hit, rfl⟩
      · rename_i fresh
        split
        · exact ⟨sh,xs,rfl,ref,rfl⟩
        · show Follows sh (if sh.itemSize key value.length > sh.limits.maxMemoryBytes then _ else _)
            (if sh.itemSize key value.length > sh.limits.maxMemoryBytes then _ else _)
          split
          · exact ⟨sh,xs,rfl,ref,rfl⟩
          · rename_i fit
            have reduced : sh.limits.int.wrap (sh.itemSize key value.length) =
                sh.itemSize key value.length := itemSize_reduced sh.limits key value.length
            have small : sh.itemSize key value.length ≤ sh.limits.maxMemoryBytes := by omega
            have old := oldSize_found hit
            split
            · rename_i tight
              rw [← old] at tight
              have excess := (over_iff ref).mp tight
              split
              · obtain ⟨d,ys,clean⟩ := purge_runs order ref (live_of_found found fresh)
                rw [(purged_lookup ref clean).trans hit]
                exact casEvicting_follows casCounter value ttl ref hit clean excess reduced small
              · rename_i untimed
                exact casEvicting_follows casCounter value ttl ref hit
                  (purge_skipped ref untimed) excess reduced small
            · rename_i loose
              rw [← old] at loose
              have room : fits sh.limits (sh.itemSize key value.length)
                  (others key c.entries) = true := by
                simpa using mt (over_iff ref).mpr loose
              exact overwrite_follows value ttl casCounter hit (ready_unchanged now ref room)

theorem incrEvicting_follows (cas next : UInt64) (value : Bytes) (ref : Refines sh c xs)
    (hit : sh.items.lookup key = some p) (clean : Purged sh c now key purged d ys)
    (excess : fits sh.limits size (others key c.entries) = false)
    (reduced : sh.limits.int.wrap size = size) (small : size ≤ sh.limits.maxMemoryBytes) :
    Follows sh (purged.incrEvicting p size (purged.projected (purged.heap p).size size)
        cas key value next)
      (c.write sh.limits now ⟨key,value,(sh.heap p).expiresAt,size,cas + 1⟩,
        cas + 1, .ok next) := by
  have old := oldSize_found ((purged_lookup ref clean).trans hit)
  unfold Shard.incrEvicting
  rw [← old]
  split
  · obtain ⟨ready,e,zs,run,made⟩ := evict_stage ref clean excess reduced small
    simp only [run]
    exact rewriteCounter_follows value cas next hit made
  · rename_i enough
    have fit : fits sh.limits size (others key d.entries) = true := by
      simpa using mt (purged_over clean).mpr enough
    exact rewriteCounter_follows value cas next hit (ready_purged ref clean excess fit)

theorem isDecimal_of_parse {value : Bytes} {n : UInt64} (ok : parseUint value = some n) :
    isDecimal value = true := by
  -- The digit test in front of the parse only repeats what the parse refuses.
  obtain ⟨nonempty,digits,_⟩ := parseUint_some ok
  have positive : value.length ≠ 0 := fun zero => nonempty (List.length_eq_zero_iff.mp zero)
  simpa [isDecimal, positive] using digits

theorem incrTo_follows (cas : UInt64) (order : RangeOrder) (next : UInt64)
    (ref : Refines sh c xs) (hit : sh.items.lookup key = some p)
    (found : lookup key c.entries = some (sh.heap p).toEntry)
    (fresh : ¬ (sh.heap p).expired now = true) :
    Follows sh (sh.incrTo p cas now order key next)
      (c.incrTo sh.limits (sh.heap p).toEntry cas now key next) := by
  unfold Shard.incrTo Cache.incrTo
  by_cases long : ((formatUint next).length : Int) > sh.limits.maxValueBytes
  · rw [if_pos long, if_pos long]
    exact ⟨sh,xs,rfl,ref,rfl⟩
  · rw [if_neg long, if_neg long]
    let size := sh.itemSize key (formatUint next).length
    show Follows sh (if size > sh.limits.maxMemoryBytes then _ else _)
      (if size > sh.limits.maxMemoryBytes then _ else _)
    split
    · exact ⟨sh,xs,rfl,ref,rfl⟩
    · rename_i fit
      have reduced : sh.limits.int.wrap size = size := itemSize_reduced sh.limits key _
      have small : size ≤ sh.limits.maxMemoryBytes := by omega
      have old := oldSize_found hit
      show Follows sh (if sh.projected (sh.heap p).size size > sh.limits.maxMemoryBytes then
        (if sh.ttlCount > 0 then _ else _) else _) _
      by_cases tight : sh.projected (sh.heap p).size size > sh.limits.maxMemoryBytes
      · rw [if_pos tight]
        rw [← old] at tight
        have excess := (over_iff ref).mp tight
        split
        · obtain ⟨d,ys,clean⟩ := purge_runs order ref (live_of_found found fresh)
          dsimp only
          rw [(purged_lookup ref clean).trans hit]
          exact incrEvicting_follows cas _ _ ref hit clean excess reduced small
        · rename_i untimed
          exact incrEvicting_follows cas _ _ ref hit (purge_skipped ref untimed) excess
            reduced small
      · rw [if_neg tight]
        rw [← old] at tight
        have room : fits sh.limits size (others key c.entries) = true := by
          simpa using mt (over_iff ref).mpr tight
        exact rewriteCounter_follows _ cas _ hit (ready_unchanged now ref room)

theorem incr_follows (cas : UInt64) (order : RangeOrder) (delta : UInt64)
    (ref : Refines sh c xs) :
    Follows sh (sh.incr cas now order key delta) (c.incr sh.limits cas now key delta) := by
  unfold Shard.incr Cache.incr
  cases hit : sh.items.lookup key with
  | none =>
    rw [lookup_none ref hit]
    exact ⟨sh,xs,rfl,ref,rfl⟩
  | some p =>
    have found := (lookup_some ref hit).2.2
    rw [found]
    dsimp only
    split
    · exact ⟨_, _, rfl, deleteLocked_refines ref hit, rfl⟩
    · rename_i fresh
      cases parsed : parseUint (sh.heap p).value with
      | none =>
        have count : nextCount (sh.heap p).value delta = .error .notInteger := by
          simp only [nextCount, parsed]
        rw [count]
        refine ⟨sh,xs,?_,ref,rfl⟩
        split <;> rfl
      | some current =>
        have digits := isDecimal_of_parse parsed
        simp only [digits, Bool.not_true, Bool.false_eq_true, if_false]
        by_cases wraps : maxUint64 - current < delta
        · have count : nextCount (sh.heap p).value delta = .error .overflow := by
            simp only [nextCount, parsed, if_pos wraps]
          rw [if_pos wraps, count]
          exact ⟨sh,xs,rfl,ref,rfl⟩
        · have count : nextCount (sh.heap p).value delta = .ok (current + delta) := by
            simp only [nextCount, parsed, if_neg wraps]
          rw [if_neg wraps, count]
          exact incrTo_follows cas order (current + delta) ref hit found fresh

theorem follows_map {ρ τ : Type} {returned : Option (Shard × ρ)} {expected : Cache × ρ}
    (answer : ρ → τ) (done : Follows sh returned expected) :
    Follows sh (returned.map fun r => (r.1, answer r.2)) (expected.1, answer expected.2) := by
  obtain ⟨sh',ys,run,refined,limits⟩ := done
  exact ⟨sh', ys, by rw [run]; rfl, refined, limits⟩

/-- Every call of a shard that refines a cache returns and follows the cache. -/
theorem step_follows (cas : UInt64) (order : RangeOrder) (call : Call) (ref : Refines sh c xs) :
    Follows sh (sh.step cas now order call) (c.step sh.limits cas now call) := by
  cases call with
  | set key value ttl =>
    exact follows_map (fun r => (r.1, Reply.wrote r.2)) (set_follows cas order value ttl ref)
  | get key => exact follows_map (fun r => (cas, Reply.found r)) (get_follows ref)
  | cas key value ttl expected =>
    exact follows_map (fun r => (r.1, Reply.wrote r.2)) (cas_follows cas order value ttl expected ref)
  | delete key => exact follows_map (fun r => (cas, Reply.deleted r)) (delete_follows ref)
  | incr key delta =>
    exact follows_map (fun r => (r.1, Reply.counted r.2)) (incr_follows cas order delta ref)
  | cleanupExpired =>
    exact follows_map (fun r => (cas, Reply.swept r)) (cleanupExpired_follows order ref)

theorem step_returns (cas : UInt64) (now : Time) (order : RangeOrder) (call : Call)
    (ref : Refines sh c xs) : ∃ next counter reply,
      sh.step cas now order call = some (next,counter,reply) := by
  obtain ⟨next,ys,run,_,_⟩ := step_follows cas order call ref
  exact ⟨next,_,_,run⟩

theorem step_refined {cas counter : UInt64} {order : RangeOrder} {call : Call}
    {next : Shard} {reply : Reply} (ref : Refines sh c xs)
    (taken : sh.step cas now order call = some (next,counter,reply)) :
    ∃ d ys, Refines next d ys ∧ next.limits = sh.limits ∧
      c.step sh.limits cas now call = (d,counter,reply) := by
  obtain ⟨sh',ys,run,refined,limits⟩ := step_follows cas order call ref
  rw [taken] at run
  simp only [Option.some.injEq, Prod.mk.injEq] at run
  obtain ⟨rfl,same⟩ := run
  exact ⟨_,ys,refined,limits,by rw [same]⟩

theorem effect_of_step {limits : Limits} {cas counter : UInt64} {call : Call} {reply : Reply}
    {d : Cache} (done : c.step limits cas now call = (d,counter,reply)) :
    Effect limits c cas now call d counter reply := by
  have effect := step_effect limits c cas now call
  rwa [done] at effect

theorem visit_refined_effect {v : Visit} {next : Shard} {reply : Reply} (ref : Refines sh c xs)
    (taken : sh.visit v = some (next,reply)) :
    ∃ d ys counter, Refines next d ys ∧ next.limits = sh.limits ∧
      Effect sh.limits c v.counter v.now v.call d counter reply := by
  simp only [Shard.visit, Option.map_eq_some_iff, Prod.mk.injEq, Prod.exists] at taken
  obtain ⟨_,counter,_,stepped,rfl,rfl⟩ := taken
  obtain ⟨d,ys,refined,limits,done⟩ := step_refined ref stepped
  exact ⟨d,ys,counter,refined,limits,effect_of_step done⟩

theorem peek_refined (ref : Refines sh c xs) (key : Bytes) :
    sh.peek key = lookup key c.entries := by
  unfold Shard.peek
  cases hit : sh.items.lookup key with
  | none => exact (lookup_none ref hit).symm
  | some p => exact (lookup_some ref hit).2.2.symm

end ShardSimulation
