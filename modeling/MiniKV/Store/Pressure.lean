import MiniKV.Store.Overflow
import MiniKV.Store.Recency

/- What a write leaves of the other items. While they fit beside the new item all of
   them stay; else the expired ones go and the live ones stay up to the longest initial
   segment of the list that fits. Set, Cas and Incr share this outcome. -/
namespace StorePressure
open MachineWord LinkedSegment KeyedList LruModel ShardModel CacheModel CacheEffects
  ShardRefinement ShardSimulation ShardInvariant StoreModel StoreFate StoreOverflow StepRuns

/-- The items met by following the next links from the head. -/
def listed (sh : Shard) : List Entry :=
  (follow (linksOf sh.heap).next sh.items.keys.length sh.lru.head).map fun p => (sh.heap p).toEntry

/-- The write of the entry leads from one shard to the other. The counters are 64 bits wide,
    so what they grow by is said modulo 2^64. -/
structure Pressed (now : Time) (sh next : Shard) (e : Entry) : Prop where
  spared : total (others e.key (listed sh)) + e.size ≤ sh.limits.maxMemoryBytes →
    listed next = e :: others e.key (listed sh) ∧ next.evictions = sh.evictions ∧
      next.expirations = sh.expirations
  trimmed : sh.limits.maxMemoryBytes < total (others e.key (listed sh)) + e.size →
    ∃ kept, listed next = e :: kept ∧
      LongestInitial (fun es => total es + e.size ≤ sh.limits.maxMemoryBytes)
        (alive now (others e.key (listed sh))) kept ∧
      next.evictions + .ofNat kept.length =
        sh.evictions + .ofNat (alive now (others e.key (listed sh))).length ∧
      next.expirations + .ofNat (alive now (others e.key (listed sh))).length =
        sh.expirations + .ofNat (others e.key (listed sh)).length

def Outcome (x : StoreStep) : Prop :=
  ∀ key, writesKey key x = true → ∃ sh next e, x.before.shardOf key = some sh ∧
    x.after.shardOf key = some next ∧ e.key = key ∧
    e.size = sh.itemSize key e.value.length ∧ Pressed x.input.now sh next e

/-- Every item weighs its key, its value and the overhead. -/
def Weighed (s : Store) : Prop :=
  ∀ sh ∈ s.shards, ∀ e ∈ listed sh,
    e.size = e.key.length + e.value.length + sh.limits.itemOverheadBytes

variable {limits : Limits} {sh next : Shard} {c d : Cache} {xs ys : List Ptr} {es : List Entry}
  {e : Entry} {key : Bytes} {now : Time} {s t : Store} {reply : Reply}

theorem listed_refined (ref : Refines sh c xs) : listed sh = c.entries := by
  rw [listed, ShardRecency.followed_nodes ref, ref.entries]

theorem fits_part {fs : List Entry} (int : limits.int = int64) (sizes : ∀ e ∈ es, 0 ≤ e.size)
    {size : Int} (positive : 0 ≤ size) (range : total es + size < 2 ^ 63) (sub : fs.Sublist es) :
    fits limits size fs = true ↔ total fs + size ≤ limits.maxMemoryBytes := by
  have less := total_sublist sizes sub
  have nonneg := total_nonneg fun e me => sizes e (sub.subset me)
  rw [fits_exact int nonneg positive (by omega), decide_eq_true_eq]

theorem makeRoom_pressed (int : limits.int = int64) (sizes : ∀ e ∈ es, 0 ≤ e.size)
    {size : Int} (positive : 0 ≤ size) (range : total es + size < 2 ^ 63)
    (small : size ≤ limits.maxMemoryBytes) (now : Time) :
    (total es + size ≤ limits.maxMemoryBytes → makeRoom limits now size es = ⟨es,0,0⟩) ∧
      (limits.maxMemoryBytes < total es + size →
        LongestInitial (fun fs => total fs + size ≤ limits.maxMemoryBytes) (alive now es)
          (makeRoom limits now size es).kept ∧
        (makeRoom limits now size es).evicted + (makeRoom limits now size es).kept.length =
          (alive now es).length ∧
        (makeRoom limits now size es).expired + (alive now es).length = es.length) := by
  have whole := fits_part int sizes positive range (List.Sublist.refl es)
  constructor
  · intro room
    rw [makeRoom, if_pos (whole.mpr room)]
  · intro excess
    have tight : ¬ fits limits size es = true := by
      rw [whole]
      omega
    have liveSub : (alive now es).Sublist es := List.filter_sublist
    have part : ∀ fs, fs <+: alive now es →
        (fits limits size fs = true ↔ total fs + size ≤ limits.maxMemoryBytes) :=
      fun fs initial => fits_part int sizes positive range (initial.sublist.trans liveSub)
    have alone : fits limits size [] = true := by
      rw [part [] List.nil_prefix, total_nil]
      omega
    obtain ⟨initial,passes,longest⟩ := trimBack_longest alone (alive now es)
    have fewer := initial.length_le
    have live := liveSub.length_le
    rw [makeRoom, if_neg tight]
    refine ⟨⟨initial, (part _ initial).mp passes, ?_⟩, ?_, ?_⟩
    · intro fs shorter room
      exact longest fs shorter ((part fs shorter).mpr room)
    · dsimp only
      omega
    · dsimp only
      omega

theorem write_pressed (int : sh.limits.int = int64) (overhead : 0 ≤ sh.limits.itemOverheadBytes)
    (ref : Refines sh c xs) (refined : Refines next (c.write sh.limits now e) ys)
    (sound : Accounted sh.limits c.entries) (exact : Exact sh.limits c.entries e.key e.value.length)
    (sized : e.size = sh.limits.itemSize e.key e.value.length)
    (small : e.size ≤ sh.limits.maxMemoryBytes) : Pressed now sh next e := by
  obtain ⟨alone,sum⟩ := exact
  rw [itemSize_exact int overhead alone] at sized
  have rest := accounted_sublist overhead sound (without_sublist Entry.key e.key c.entries)
  have sizes := accounted_sizes overhead rest
  have positive : 0 ≤ e.size := by omega
  rw [← sized] at sum
  obtain ⟨spared,trimmed⟩ := makeRoom_pressed int sizes positive (sum small) small now
  have before := listed_refined ref
  have after : listed next =
      e :: (makeRoom sh.limits now e.size (others e.key c.entries)).kept := listed_refined refined
  have evictions : next.evictions = sh.evictions +
      .ofNat (makeRoom sh.limits now e.size (others e.key c.entries)).evicted := by
    rw [refined.evictions, ref.evictions, ← UInt64.ofNat_add]
    rfl
  have expirations : next.expirations = sh.expirations +
      .ofNat (makeRoom sh.limits now e.size (others e.key c.entries)).expired := by
    rw [refined.expirations, ref.expirations, ← UInt64.ofNat_add]
    rfl
  constructor
  · intro room
    rw [before] at room ⊢
    have same : makeRoom sh.limits now e.size (others e.key c.entries) =
        ⟨others e.key c.entries,0,0⟩ := spared room
    rw [same] at after evictions expirations
    exact ⟨after, evictions.trans (UInt64.add_zero _), expirations.trans (UInt64.add_zero _)⟩
  · intro excess
    rw [before] at excess ⊢
    obtain ⟨longest,evicted,expired⟩ := trimmed excess
    refine ⟨_, after, longest, ?_, ?_⟩
    · rw [evictions, UInt64.add_assoc, ← UInt64.ofNat_add]
      exact congrArg (fun n => sh.evictions + .ofNat n) evicted
    · rw [expirations, UInt64.add_assoc, ← UInt64.ofNat_add]
      exact congrArg (fun n => sh.expirations + .ofNat n) expired

theorem effect_writes {cas counter : UInt64} {call : Call}
    (effect : Effect limits c cas now call d counter reply)
    (mutation : (call.writes && reply.success) = true) :
    ∃ e, d = c.write limits now e ∧ Stores limits (lookup e.key c.entries) cas now call e reply ∧
      (e.value.length : Int) ≤ limits.maxValueBytes ∧ e.size ≤ limits.maxMemoryBytes := by
  cases effect with
  | refused _ failed => simp [failed] at mutation
  | lapsed _ _ _ failed => simp [failed] at mutation
  | touched => cases mutation
  | removed => cases mutation
  | written stores short small => exact ⟨_,rfl,stores,short,small⟩
  | swept => cases mutation

theorem step_outcome {x : StoreStep} (int : limits.int = int64)
    (overhead : 0 ≤ limits.itemOverheadBytes) (books : Books limits x.before)
    (exact : safe x.before x.input = true) (taken : Taken x) : Outcome x := by
  intro key writes
  obtain ⟨mutation,named⟩ := (writesKey_iff key x).mp writes
  obtain ⟨i,sh,next,target,here,stepped,shards⟩ := step_some_iff.mp taken
  obtain ⟨same,c,xs,ref,sound⟩ := books sh (List.mem_of_getElem? here)
  obtain ⟨d,ys,refined,_,done⟩ := step_refined ref stepped
  rw [same] at done
  obtain ⟨e,rfl,stores,short,small⟩ := effect_writes (effect_of_step done) mutation
  obtain ⟨owner,_,_,_,sized⟩ := stores_facts stores
  have own : e.key = key := Option.some.inj (owner.symm.trans named)
  have home := keyed_target named target
  have sums := safe_exact int overhead target here same ref sound exact stores short
  subst same
  refine ⟨sh, next, e, shardOf_here home here, ?_, own, own ▸ sized,
    write_pressed int overhead ref refined sound sums sized small⟩
  have inside := (List.getElem?_eq_some_iff.mp here).1
  have length : x.after.shards.length = x.before.shards.length := by rw [shards, List.length_set]
  apply shardOf_here (i := i)
  · rw [length]
    exact home
  · rw [shards, List.getElem?_set_self inside]

theorem books_weighed (books : Books limits s) : Weighed s := by
  intro sh here e mem
  obtain ⟨rfl,c,xs,ref,sound⟩ := books sh here
  rw [listed_refined ref] at mem
  exact sound.sized e mem

/-- Where the sums of all steps stay below 2 ^ 63, every write of the run has the exact
    outcome, every item has the size of its bytes, and every further section returns. -/
theorem writes_spare_longest_segment (config : Config) {steps : List StoreStep} {last : Store}
    (run : Run Store.step (Store.new int64 config) steps last)
    (exact : ∀ x ∈ steps, safe x.before x.input = true) :
    (∀ x ∈ steps, Outcome x) ∧ Weighed last ∧
      ∀ work, Reaches last.shards.length work → (last.step work).isSome = true := by
  obtain ⟨_,_,overhead,_⟩ := normalize_positive config
  refine ⟨?_, books_weighed (run_books run exact), ?_⟩
  · intro x mem
    obtain ⟨books,taken⟩ := run_books_at run exact mem
    exact step_outcome rfl overhead books (exact x mem) taken
  · intro work fit
    obtain ⟨t,reply,taken,_⟩ := section_returns ⟨run_sound run,rfl⟩ fit
    rw [taken]
    rfl

def pressedSections : List Section :=
  [⟨.set [97] [49] 0,0,1,.asListed⟩, ⟨.set [98] [50] 5,0,2,.asListed⟩,
    ⟨.set [99] [51] 0,0,9,.asListed⟩, ⟨.set [100] [52] 0,0,10,.asListed⟩,
    ⟨.incr [99] 7,0,11,.asListed⟩]

theorem pressed_sections_spare : ∃ steps last,
    Run Store.step (Store.new int64 sampleConfig) steps last ∧
      steps.map Step.input = pressedSections ∧ (∀ x ∈ steps, Outcome x) ∧ Weighed last ∧
      ∀ work, Reaches last.shards.length work → (last.step work).isSome = true := by
  have done : (exec Store.step (Store.new int64 sampleConfig) pressedSections).map
      (fun done => done.1.all fun x => safe x.before x.input) = some true := by decide
  obtain ⟨steps,last,run,inputs,within⟩ := exec_shows done
  have all : ∀ x ∈ steps, safe x.before x.input = true := by simpa using within
  exact ⟨steps, last, run, inputs, writes_spare_longest_segment sampleConfig run all⟩

/-- A budget of one byte under an overhead at the end of the range: each size is negative. -/
def negativeSizes : ConfigModel.Config :=
  { ConfigModel.Config.default with
    shards := 1, maxValueBytes := 1, maxMemoryBytes := 1,
    itemOverheadBytes := 9223372036854775807 }

def negativeItem (key : Bytes) (cas : UInt64) : Entry := ⟨key,[49],0,-9223372036854775807,cas⟩

/-- The sum of both sizes is far below the budget, but wraps to two bytes; the second
    Set evicts the first item. -/
theorem wrapped_sum_evicts : negativeSizes.validate = none ∧ ∃ steps last,
    Run Store.step (Store.new int64 negativeSizes.store) steps last ∧
      steps.map Step.input = [⟨.set [97] [49] 0,0,1,.asListed⟩, ⟨.set [98] [49] 0,0,2,.asListed⟩] ∧
      steps.map Step.output = [.wrote none, .wrote none] ∧ (last.stats int64).evictions = 1 ∧
      last.shards.map listed = [[negativeItem [98] 2]] ∧ ¬ ∀ x ∈ steps, Outcome x := by
  refine ⟨by decide, ?_⟩
  have done : (exec Store.step (Store.new int64 negativeSizes.store)
      [⟨.set [97] [49] 0,0,1,.asListed⟩, ⟨.set [98] [49] 0,0,2,.asListed⟩]).map
      (fun done => (done.1.map Step.output, (done.2.stats int64).evictions,
        done.2.shards.map listed, done.1.getLast?.map fun x => (writesKey [98] x,
          (x.before.shardOf [98]).map fun sh => (listed sh, sh.limits.maxMemoryBytes),
          (x.after.shardOf [98]).map listed))) =
        some ([.wrote none, .wrote none], 1, [[negativeItem [98] 2]],
          some (true, some ([negativeItem [97] 1],1), some [negativeItem [98] 2])) := rfl
  obtain ⟨steps,last,run,inputs,values⟩ := exec_shows done
  simp only [Prod.mk.injEq] at values
  obtain ⟨outputs,evictions,left,second⟩ := values
  refine ⟨steps, last, run, inputs, outputs, evictions, left, ?_⟩
  intro outcome
  obtain ⟨x,final,facts⟩ := Option.map_eq_some_iff.mp second
  simp only [Prod.mk.injEq] at facts
  obtain ⟨writes,before,after⟩ := facts
  obtain ⟨sh,next,e,here,there,own,_,pressed⟩ :=
    outcome x (List.mem_of_getLast? final) [98] writes
  rw [here, Option.map_some, Option.some.injEq, Prod.mk.injEq] at before
  rw [there, Option.map_some, Option.some.injEq] at after
  obtain ⟨items,budget⟩ := before
  have rest : others e.key (listed sh) = [negativeItem [97] 1] := by
    rw [items, own]
    rfl
  by_cases room : total (others e.key (listed sh)) + e.size ≤ sh.limits.maxMemoryBytes
  · have spared := (pressed.spared room).1
    rw [rest, after] at spared
    simp at spared
  · obtain ⟨kept,new,_⟩ := pressed.trimmed (Int.not_le.mp room)
    rw [after, List.cons.injEq] at new
    rw [rest, ← new.1, budget] at room
    exact room (by decide)

end StorePressure
