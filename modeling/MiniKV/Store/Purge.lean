import MiniKV.Store.Invariant
import MiniKV.Store.Parallel

/- A cache against the same cache without its expired entries. Whether a write purges
   or evicts depends on entries that nobody can read any more; as long as the sums are
   exact, the answers and the live entries do not. -/
namespace CachePurge
open MachineWord KeyedList LruModel Decimal ShardModel CacheModel CacheEffects CacheParallel
  ShardRefinement ShardSimulation ShardInvariant

variable {limits : Limits} {c : Cache} {es : List Entry} {e : Entry} {cas : UInt64}
  {now later : Time} {key : Bytes} {call : Call}

/-- The live entries and the evictions; what expired is not counted. -/
def purged (now : Time) (c : Cache) : Cache := ⟨alive now c.entries, c.evictions, 0⟩

/-- The caches differ in expired entries and in the count of them alone. -/
def SameLive (now : Time) (c d : Cache) : Prop := purged now c = purged now d

theorem expired_later (order : now ≤ later) (dead : e.expired now = true) :
    e.expired later = true := by
  simp only [Entry.expired, Bool.and_eq_true, Bool.not_eq_true', decide_eq_true_eq,
    decide_eq_false_iff_not, Int.not_lt] at dead ⊢
  exact ⟨dead.1, dead.2.trans order⟩

theorem alive_alive (order : now ≤ later) (es : List Entry) :
    alive later (alive now es) = alive later es := by
  rw [alive, alive, List.filter_filter, alive]
  apply List.filter_congr
  intro e _
  cases dead : e.expired now with
  | false => simp
  | true => simp [expired_later order dead]

theorem purged_later {d : Cache} (order : now ≤ later) (same : purged now c = purged now d) :
    purged later c = purged later d := by
  simp only [purged, Cache.mk.injEq, and_true] at same ⊢
  constructor
  · rw [← alive_alive order c.entries, same.1, alive_alive order]
  · exact same.2

theorem purged_drop (now : Time) (c : Cache) (key : Bytes) :
    purged now (c.drop key) = (purged now c).drop key := by
  simp only [purged, Cache.drop, others_alive]

theorem drop_absent (absent : lookup key (alive now c.entries) = none) :
    (purged now c).drop key = purged now c := by
  simp only [purged, Cache.drop, others_absent absent]

theorem purged_touch (live : e.expired now = false) :
    purged now (c.touch e) = (purged now c).touch e := by
  simp only [purged, Cache.touch, others_alive]
  rw [alive, List.filter_cons_of_pos (by simp [live]), alive]

theorem liveEntry_purged (now : Time) (distinct : Distinct Entry.key c.entries) (key : Bytes) :
    liveEntry now key c = lookup key (purged now c).entries := by
  rcases alive_lookup now distinct key with same | ⟨e,hit,dead,gone⟩
  · cases hit : lookup key (alive now c.entries) with
    | none => rw [liveEntry, ← same, hit, purged, hit]; rfl
    | some e =>
      have live : e.expired now = false := by
        simpa using (List.mem_filter.mp (find_some hit).1).2
      rw [liveEntry_some.mpr ⟨same.symm.trans hit,live⟩, purged, hit]
  · rw [purged, gone, liveEntry, hit]
    simp [dead]

theorem sameLive_found {d : Cache} (distinct : Distinct Entry.key c.entries)
    (distinct' : Distinct Entry.key d.entries) (same : SameLive now c d) (key : Bytes) :
    liveEntry now key d = liveEntry now key c := by
  rw [liveEntry_purged now distinct, liveEntry_purged now distinct', same]

/-- A write fits over the live entries whenever it fits over all of them. -/
def Monotone (limits : Limits) (now : Time) (size : Int) (es : List Entry) : Prop :=
  fits limits size es = true → fits limits size (alive now es) = true

theorem makeRoom_purged {size : Int} (grows : Monotone limits now size es) :
    alive now (makeRoom limits now size es).kept =
        alive now (makeRoom limits now size (alive now es)).kept ∧
      (makeRoom limits now size es).evicted =
        (makeRoom limits now size (alive now es)).evicted := by
  have twice := alive_alive (Int.le_refl now) es
  cases all : fits limits size es with
  | true => simp [makeRoom, all, grows all, twice]
  | false =>
    cases some : fits limits size (alive now es) with
    | true => simp [makeRoom, all, some, trimBack_of_fits some, twice]
    | false => simp [makeRoom, all, some, twice]

theorem write_purged (grows : Monotone limits now e.size (others e.key c.entries)) :
    purged now (c.write limits now e) = purged now ((purged now c).write limits now e) := by
  obtain ⟨kept,evicted⟩ := makeRoom_purged grows
  simp only [purged, Cache.write, others_alive, Cache.mk.injEq, and_true]
  constructor
  · rw [alive, List.filter_cons, alive, List.filter_cons]
    rw [alive, alive] at kept
    rw [kept]
  · rw [evicted]

theorem dropExpired_purged (now : Time) (key : Bytes) (distinct : Distinct Entry.key c.entries) :
    purged now (c.dropExpired now key) = purged now c := by
  unfold Cache.dropExpired
  cases hit : lookup key c.entries with
  | none => rfl
  | some e =>
    dsimp only
    split
    · rename_i dead
      have gone : lookup key (alive now c.entries) = none := by
        rw [← show liveEntry now key c = lookup key (alive now c.entries) from
          liveEntry_purged now distinct key]
        simp [liveEntry, hit, dead]
      rw [purged_drop, drop_absent gone]
    · rfl

def Regular (limits : Limits) (c : Cache) (cas : UInt64) (now : Time) (call : Call) : Prop :=
  ∀ e reply, Stores limits (lookup e.key c.entries) cas now call e reply →
    (e.value.length : Int) ≤ limits.maxValueBytes → e.size ≤ limits.maxMemoryBytes →
    Monotone limits now e.size (others e.key c.entries)

theorem step_sameLive {d : Cache} (keyed : call ≠ .cleanupExpired) (same : SameLive now c d)
    (distinct : Distinct Entry.key c.entries) (distinct' : Distinct Entry.key d.entries)
    (regular : Regular limits c cas now call) (regular' : Regular limits d cas now call) :
    Together (SameLive now) (c.step limits cas now call) (d.step limits cas now call) := by
  have found := sameLive_found distinct distinct' same
  refine step_together keyed ⟨fun _ _ => rfl, rfl, same, fun key _ => found key, ?_, ?_, ?_,
    fun _ _ _ _ => Iff.rfl, ?_⟩
  · intro key _
    rw [SameLive, dropExpired_purged now key distinct, dropExpired_purged now key distinct']
    exact same
  · intro e _ hit
    have live := (liveEntry_some.mp hit).2
    rw [SameLive, purged_touch live, purged_touch live, same]
  · intro key _
    rw [SameLive, purged_drop, purged_drop, same]
  · intro e reply stores short small
    have left := write_purged (regular e reply stores short small)
    have right := write_purged (regular' e reply (stores_live (found e.key) stores) short small)
    rw [SameLive, left, right, same]

theorem cleanupExpired_purged (now : Time) (c : Cache) :
    purged now (c.cleanupExpired now).1 = purged now c := by
  simp only [purged, Cache.cleanupExpired, alive_alive (Int.le_refl now)]

theorem monotone_of_exact {n : Nat} (now : Time) (int : limits.int = int64)
    (overhead : 0 ≤ limits.itemOverheadBytes) (sound : Accounted limits es)
    (small : limits.itemSize key n ≤ limits.maxMemoryBytes) (exact : Exact limits es key n) :
    Monotone limits now (limits.itemSize key n) (others key es) := by
  intro fit
  obtain ⟨alone,sum⟩ := exact
  rw [itemSize_exact int overhead alone] at small fit ⊢
  have range := sum small
  have rest : Accounted limits (others key es) :=
    accounted_sublist overhead sound (without_sublist Entry.key key es)
  have live : (alive now (others key es)).Sublist (others key es) := List.filter_sublist
  have less := total_sublist (accounted_sizes overhead rest) live
  have nonneg := total_nonneg (accounted_sizes overhead rest)
  have positive := total_nonneg (accounted_sizes overhead (accounted_sublist overhead rest live))
  rw [fits_exact int nonneg (by omega) range, decide_eq_true_eq] at fit
  rw [fits_exact int positive (by omega) (by omega), decide_eq_true_eq]
  omega

end CachePurge
