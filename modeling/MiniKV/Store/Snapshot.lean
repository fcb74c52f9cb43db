import MiniKV.Store.Balance
import MiniKV.Store.Budget

/- The statistics of the store while others work on it. Stats takes the shards one after the
   other: it reads items and bytes of a shard under its mutex and the two counters behind it,
   and sections of other calls may come between any two of these reads. -/
namespace StoreSnapshot
open MachineWord KeyedList LruModel ShardModel CacheModel CacheEffects ShardRefinement
  ShardSimulation ShardInvariant StoreModel StoreFate StoreBalance StoreOverflow StoreBudget
  StepRuns

/-- The next read of the loop body. -/
inductive Load where
  | counts
  | evictions
  | expirations
  deriving DecidableEq, Repr

/-- Stats in its loop, with the store that the others work on. -/
structure Sampling where
  store : Store
  next : Nat
  load : Load
  out : Stats

def Sampling.begin (s : Store) : Sampling where
  store := s
  next := 0
  load := .counts
  out := ⟨0,0,0,0,0,List.replicate s.shards.length 0,s.shards.length⟩

def addCounts (i : Nat) (sh : Shard) (out : Stats) : Stats :=
  { out with
    items := out.items + sh.items.keys.length
    memoryBytes := int64.wrap (out.memoryBytes + sh.memoryBytes)
    maxMemoryBytes := int64.wrap (out.maxMemoryBytes + sh.limits.maxMemoryBytes)
    itemsPerShard := out.itemsPerShard.set i sh.items.keys.length }

/-- One read; none behind the last shard. -/
def Sampling.look (p : Sampling) : Option Sampling :=
  match p.store.shards[p.next]? with
  | none => none
  | some sh =>
    match p.load with
    | .counts => some { p with load := .evictions, out := addCounts p.next sh p.out }
    | .evictions =>
      some { p with
        load := .expirations
        out := { p.out with evictions := p.out.evictions + sh.evictions } }
    | .expirations =>
      some { p with
        next := p.next + 1
        load := .counts
        out := { p.out with expirations := p.out.expirations + sh.expirations } }

inductive Turn where
  | work (call : Section)
  | look

def Sampling.step (p : Sampling) : Turn → Option (Sampling × Option Reply)
  | .work call => (p.store.step call).map fun done => ({ p with store := done.1 }, some done.2)
  | .look => p.look.map fun q => (q, none)

abbrev SamplingStep := Step Sampling Turn (Option Reply)

def itemCount (sh : Shard) : Nat := sh.items.keys.length

/-- The shards whose items, and whose evictions, have been read. -/
def Sampling.counted (p : Sampling) : Nat :=
  match p.load with
  | .counts => p.next
  | .evictions | .expirations => p.next + 1

def Sampling.evicted (p : Sampling) : Nat :=
  match p.load with
  | .counts | .evictions => p.next
  | .expirations => p.next + 1

/-- What has been added up of these shards; the others of the n still count zero. -/
structure Gathers (n : Nat) (cells : List Shard) (out : Stats) : Prop where
  shards : out.numShards = n
  items : out.items = (cells.map itemCount).sum
  memory : out.memoryBytes = (cells.map Shard.memoryBytes).sum
  budget : out.maxMemoryBytes = (cells.map fun sh => sh.limits.maxMemoryBytes).sum
  perShard : out.itemsPerShard = cells.map itemCount ++ List.replicate (n - cells.length) 0

/-- The shard of each number as some step of the sampling found it. -/
def Met (steps : List SamplingStep) (cells : List Shard) : Prop :=
  ∀ (i : Nat) sh, cells[i]? = some sh → ∃ x ∈ steps, x.before.store.shards[i]? = some sh

/-- A counter summed over the first k shards, each read at some step of the sampling. -/
def Reads (steps : List SamplingStep) (f : Shard → UInt64) (k : Nat) (total : UInt64) : Prop :=
  ∃ cells, cells.length = k ∧ Met steps cells ∧ total = (cells.map f).sum

structure Within (limits : Limits) (sh : Shard) : Prop where
  same : sh.limits = limits
  low : 0 ≤ sh.memoryBytes
  high : sh.memoryBytes ≤ limits.maxMemoryBytes
  sparse : (itemCount sh : Int) ≤ sh.memoryBytes + 1

variable {limits : Limits} {s t start : Store} {work : Section} {reply : Reply} {c d : Cache}
  {cas counter : UInt64} {now : Time} {call : Call} {sh : Shard} {xs : List Ptr} {n : Nat}
  {cells : List Shard} {steps : List SamplingStep} {p q : Sampling}

theorem named_sparse {es : List Entry} (sized : ∀ e ∈ es, (e.key.length : Int) ≤ e.size)
    (named : ∀ e ∈ es, e.key ≠ []) : (es.length : Int) ≤ total es := by
  induction es with
  | nil => simp [total]
  | cons e rest ih =>
    have tail := ih (fun x mem => sized x (by simp [mem])) (fun x mem => named x (by simp [mem]))
    have size := sized e (by simp)
    have letters := List.length_pos_iff.mpr (named e (by simp))
    simp only [total, List.map_cons, List.sum_cons, List.length_cons] at tail ⊢
    push_cast
    omega

/-- At most the empty key takes no byte. -/
theorem entries_sparse {es : List Entry} (distinct : Distinct Entry.key es)
    (sized : ∀ e ∈ es, (e.key.length : Int) ≤ e.size) : (es.length : Int) ≤ total es + 1 := by
  induction es with
  | nil => simp [total]
  | cons e rest ih =>
    obtain ⟨apart,distinct⟩ := List.nodup_cons.mp distinct
    have rest_sized : ∀ x ∈ rest, (x.key.length : Int) ≤ x.size := fun x mem => sized x (by simp [mem])
    have size := sized e (by simp)
    simp only [total, List.map_cons, List.sum_cons, List.length_cons]
    push_cast
    by_cases unnamed : e.key = []
    · have named : ∀ x ∈ rest, x.key ≠ [] := by
        intro x mem empty
        exact apart (List.mem_map.mpr ⟨x, mem, empty.trans unnamed.symm⟩)
      have tail := named_sparse rest_sized named
      simp only [total] at tail
      omega
    · have tail := ih distinct rest_sized
      have letters := List.length_pos_iff.mpr unnamed
      simp only [total] at tail
      omega

theorem books_cell (int : limits.int = int64) (overhead : 0 ≤ limits.itemOverheadBytes)
    (books : Books limits s) (mem : sh ∈ s.shards) : Within limits sh := by
  obtain ⟨rfl,c,xs,ref,sound⟩ := books sh mem
  have memory := accounted_memory int overhead ref sound
  have sized : ∀ e ∈ c.entries, (e.key.length : Int) ≤ e.size := by
    intro e mem
    rw [sound.sized e mem]
    omega
  refine ⟨rfl, ?_, ?_, ?_⟩
  · rw [memory]
    exact total_nonneg (accounted_sizes overhead sound)
  · rw [memory]
    exact sound.within
  · rw [itemCount, items_length ref, memory]
    exact entries_sparse (refines_distinct ref) sized

/-- The sums of shards within their limits. -/
theorem cells_within (each : ∀ sh ∈ cells, Within limits sh) :
    (cells.map fun sh => sh.limits.maxMemoryBytes).sum = cells.length * limits.maxMemoryBytes ∧
      0 ≤ (cells.map Shard.memoryBytes).sum ∧
      (cells.map Shard.memoryBytes).sum ≤ cells.length * limits.maxMemoryBytes := by
  induction cells with
  | nil => simp
  | cons sh rest ih =>
    obtain ⟨budget,low,high⟩ := ih fun x mem => each x (by simp [mem])
    have first := each sh (by simp)
    have own := first.low
    have most := first.high
    simp only [List.map_cons, List.sum_cons, List.length_cons, first.same, budget]
    push_cast
    refine ⟨by ring, by omega, ?_⟩
    rw [add_mul, one_mul]
    omega

structure Sampled (limits : Limits) (start : Store) (steps : List SamplingStep) (p : Sampling) :
    Prop where
  books : Books limits p.store
  length : p.store.shards.length = start.shards.length
  cells : ∃ cells, cells.length = p.counted ∧ Met steps cells ∧
    (∀ sh ∈ cells, Within limits sh) ∧ Gathers start.shards.length cells p.out
  evictions : Reads steps Shard.evictions p.evicted p.out.evictions
  expirations : Reads steps Shard.expirations p.next p.out.expirations
  place : p.counted ≤ start.shards.length

theorem met_nil : Met steps [] := by
  intro i sh found
  simp at found

theorem met_later (met : Met steps cells) (more : List SamplingStep) : Met (steps ++ more) cells := by
  intro i sh here
  obtain ⟨x,mem,found⟩ := met i sh here
  exact ⟨x, by simp [mem], found⟩

theorem met_next (met : Met steps cells) {x : SamplingStep} (mem : x ∈ steps)
    (here : x.before.store.shards[cells.length]? = some sh) : Met steps (cells ++ [sh]) := by
  intro i other found
  rw [List.getElem?_append] at found
  split at found
  · exact met i other found
  · obtain ⟨inside,value⟩ := List.getElem?_eq_some_iff.mp found
    have last : i = cells.length := by
      rw [List.length_singleton] at inside
      omega
    obtain rfl : sh = other := by simpa [last] using found
    rw [last]
    exact ⟨x,mem,here⟩

theorem reads_later {f : Shard → UInt64} {k : Nat} {total : UInt64} (reads : Reads steps f k total)
    (more : List SamplingStep) : Reads (steps ++ more) f k total := by
  obtain ⟨cells,size,met,sum⟩ := reads
  exact ⟨cells, size, met_later met more, sum⟩

theorem reads_next {f : Shard → UInt64} {k : Nat} {total : UInt64} (reads : Reads steps f k total)
    {x : SamplingStep} (mem : x ∈ steps) (here : x.before.store.shards[k]? = some sh) :
    Reads steps f (k + 1) (total + f sh) := by
  obtain ⟨cells,rfl,met,rfl⟩ := reads
  exact ⟨cells ++ [sh], by simp, met_next met mem here, by simp⟩

theorem within_next (each : ∀ x ∈ cells, Within limits x) (own : Within limits sh) :
    ∀ x ∈ cells ++ [sh], Within limits x := by
  intro x mem
  rcases List.mem_append.mp mem with old | new
  · exact each x old
  · rw [List.mem_singleton.mp new]
    exact own

theorem gathers_next (inside : cells.length < n) (range : n * limits.maxMemoryBytes < 2 ^ 63)
    {out : Stats} (each : ∀ x ∈ cells, Within limits x) (own : Within limits sh)
    (gathers : Gathers n cells out) :
    Gathers n (cells ++ [sh]) (addCounts cells.length sh out) := by
  obtain ⟨budget,low,high⟩ := cells_within (within_next each own)
  have room : ((cells ++ [sh]).length : Int) * limits.maxMemoryBytes ≤ n * limits.maxMemoryBytes := by
    refine Int.mul_le_mul_of_nonneg_right ?_ (own.low.trans own.high)
    simp only [List.length_append, List.length_singleton]
    omega
  simp only [List.map_append, List.map_cons, List.map_nil, List.sum_append, List.sum_cons,
    List.sum_nil, add_zero] at budget low high
  refine ⟨gathers.shards, ?_, ?_, ?_, ?_⟩
  · simp [addCounts, gathers.items, itemCount]
  · simp only [addCounts, gathers.memory, List.map_append, List.map_cons, List.map_nil,
      List.sum_append, List.sum_cons, List.sum_nil, add_zero]
    exact int64_exact ⟨by omega, by omega⟩
  · simp only [addCounts, gathers.budget, List.map_append, List.map_cons, List.map_nil,
      List.sum_append, List.sum_cons, List.sum_nil, add_zero]
    exact int64_exact ⟨by omega, by omega⟩
  · obtain ⟨m,rest⟩ : ∃ m, n - cells.length = m + 1 := ⟨n - cells.length - 1, by omega⟩
    have after : n - (cells ++ [sh]).length = m := by
      rw [List.length_append, List.length_singleton]
      omega
    simp only [addCounts, gathers.perShard, rest, after]
    rw [List.set_append, if_neg (by simp)]
    simp [List.replicate_succ, itemCount]

theorem work_sampled (int : limits.int = int64) (overhead : 0 ≤ limits.itemOverheadBytes)
    {longest : Nat} (range : Ranged limits longest)
    (short : ∀ key, work.call.key = some key → key.length ≤ longest)
    (taken : p.store.step work = some (t,reply)) (more : List SamplingStep)
    (sampled : Sampled limits start steps p) :
    Sampled limits start (steps ++ more) { p with store := t } := by
  obtain ⟨cells,size,met,each,gathers⟩ := sampled.cells
  exact {
    books := step_books int overhead sampled.books
      (ranged_safe int overhead range sampled.books short) taken
    length := (step_length taken).trans sampled.length
    cells := ⟨cells, size, met_later met more, each, gathers⟩
    evictions := reads_later sampled.evictions more
    expirations := reads_later sampled.expirations more
    place := sampled.place }

theorem look_sampled (int : limits.int = int64) (overhead : 0 ≤ limits.itemOverheadBytes)
    (range : start.shards.length * limits.maxMemoryBytes < 2 ^ 63) (looked : p.look = some q)
    (sampled : Sampled limits start steps p) :
    Sampled limits start (steps ++ [⟨p,.look,none,q⟩]) q := by
  obtain ⟨cells,size,met,each,gathers⟩ := sampled.cells
  have mem : (⟨p,.look,none,q⟩ : SamplingStep) ∈ steps ++ [⟨p,.look,none,q⟩] :=
    List.mem_append_right _ (List.mem_singleton_self _)
  have kept := met_later met [⟨p,.look,none,q⟩]
  have evictions := reads_later sampled.evictions [⟨p,.look,none,q⟩]
  have expirations := reads_later sampled.expirations [⟨p,.look,none,q⟩]
  unfold Sampling.look at looked
  split at looked
  · cases looked
  · rename_i sh here
    have inside : p.next < start.shards.length := by
      rw [← sampled.length]
      exact (List.getElem?_eq_some_iff.mp here).1
    split at looked
    · rename_i load
      simp only [Sampling.counted, load] at size
      simp only [Sampling.evicted, load] at evictions
      have own := books_cell int overhead sampled.books (List.mem_of_getElem? here)
      have met_all := met_next kept mem (size.symm ▸ here)
      have gathered := gathers_next (size.trans_lt inside) range each own gathers
      rw [size] at gathered
      obtain rfl := Option.some.inj looked
      exact ⟨sampled.books, sampled.length,
        ⟨cells ++ [sh], by simp [Sampling.counted, size], met_all, within_next each own, gathered⟩,
        evictions, expirations, inside⟩
    · rename_i load
      simp only [Sampling.counted, load] at size
      simp only [Sampling.evicted, load] at evictions
      have more := reads_next evictions mem here
      obtain rfl := Option.some.inj looked
      exact ⟨sampled.books, sampled.length,
        ⟨cells, size, kept, each,
          ⟨gathers.shards,gathers.items,gathers.memory,gathers.budget,gathers.perShard⟩⟩,
        more, expirations, inside⟩
    · rename_i load
      simp only [Sampling.counted, load] at size
      simp only [Sampling.evicted, load] at evictions
      have more := reads_next expirations mem here
      obtain rfl := Option.some.inj looked
      exact ⟨sampled.books, sampled.length,
        ⟨cells, size, kept, each,
          ⟨gathers.shards,gathers.items,gathers.memory,gathers.budget,gathers.perShard⟩⟩,
        evictions, more, inside⟩

/-- The keys of these turns are at most this long. -/
def ShortTurns (longest : Nat) (steps : List SamplingStep) : Prop :=
  ∀ x ∈ steps, ∀ work, x.input = .work work →
    ∀ key, work.call.key = some key → key.length ≤ longest

theorem begin_sampled (books : Books limits s) : Sampled limits s [] (.begin s) where
  books := books
  length := rfl
  cells := ⟨[], rfl, met_nil, by simp, rfl, rfl, rfl, rfl, by simp [Sampling.begin]⟩
  evictions := ⟨[], rfl, met_nil, rfl⟩
  expirations := ⟨[], rfl, met_nil, rfl⟩
  place := Nat.zero_le _

theorem run_sampled (int : limits.int = int64) (overhead : 0 ≤ limits.itemOverheadBytes)
    {longest : Nat} (ranged : Ranged limits longest)
    (range : s.shards.length * limits.maxMemoryBytes < 2 ^ 63) (books : Books limits s)
    (run : Run Sampling.step (.begin s) steps p) (short : ShortTurns longest steps) :
    Sampled limits s steps p := by
  induction run with
  | nil => exact begin_sampled books
  | @snoc steps p q turn reply prior taken ih =>
    have sampled := ih fun x mem => short x (by simp [mem])
    cases turn with
    | work call =>
      obtain ⟨⟨t,answer⟩,stepped,same⟩ := Option.map_eq_some_iff.mp taken
      obtain ⟨rfl,rfl⟩ := Prod.mk.inj same
      exact work_sampled int overhead ranged
        (short _ (List.mem_append_right _ (List.mem_singleton_self _)) call rfl) stepped _ sampled
    | look =>
      obtain ⟨next,looked,same⟩ := Option.map_eq_some_iff.mp taken
      obtain ⟨rfl,rfl⟩ := Prod.mk.inj same
      exact look_sampled int overhead range looked sampled

/-- Behind the last shard all three reads of every shard are done. -/
theorem sampled_done (sampled : Sampled limits start steps p) (done : p.look = none) :
    p.counted = start.shards.length ∧ p.evicted = start.shards.length ∧
      p.next = start.shards.length := by
  have past : start.shards.length ≤ p.next := by
    rw [← sampled.length, ← List.getElem?_eq_none_iff]
    unfold Sampling.look at done
    split at done
    · assumption
    · split at done <;> cases done
  have place := sampled.place
  cases load : p.load <;> simp only [Sampling.counted, Sampling.evicted, load] at place ⊢ <;> omega

/-- A snapshot as the sum of its shards, each as it was at some moment of the sampling. -/
structure Snapshot (budget : Int) (s : Store) (steps : List SamplingStep) (out : Stats) : Prop where
  parts : ∃ cells, cells.length = s.shards.length ∧ Met steps cells ∧
    Gathers s.shards.length cells out
  nonneg : 0 ≤ out.memoryBytes
  within : out.memoryBytes ≤ out.maxMemoryBytes
  budget : out.maxMemoryBytes ≤ budget
  sparse : ∀ n ∈ out.itemsPerShard, (n : Int) ≤ out.maxMemoryBytes + 1
  evictions : Reads steps Shard.evictions s.shards.length out.evictions
  expirations : Reads steps Shard.expirations s.shards.length out.expirations

theorem sampled_snapshot (sampled : Sampled limits s steps p) (done : p.look = none)
    (room : 0 < limits.maxMemoryBytes) {budget : Int}
    (slices : s.shards.length * limits.maxMemoryBytes ≤ budget) :
    Snapshot budget s steps p.out := by
  obtain ⟨counted,evicted,next⟩ := sampled_done sampled done
  obtain ⟨cells,size,met,each,gathers⟩ := sampled.cells
  obtain ⟨total,low,high⟩ := cells_within each
  rw [size, counted] at total high
  have sum : p.out.maxMemoryBytes = s.shards.length * limits.maxMemoryBytes :=
    gathers.budget.trans total
  exact {
    parts := ⟨cells, size.trans counted, met, gathers⟩
    nonneg := by
      rw [gathers.memory]
      exact low
    within := by
      rw [gathers.memory, sum]
      exact high
    budget := sum.trans_le slices
    sparse := by
      intro n mem
      rw [gathers.perShard, size, counted, Nat.sub_self, List.replicate_zero, List.append_nil] at mem
      obtain ⟨sh,here,rfl⟩ := List.mem_map.mp mem
      have own := each sh here
      have some_shard : (1 : Int) ≤ s.shards.length := by
        have filled := List.length_pos_of_mem here
        omega
      have slice : limits.maxMemoryBytes ≤ s.shards.length * limits.maxMemoryBytes :=
        le_mul_of_one_le_left room.le some_shard
      have most := own.high
      have few := own.sparse
      omega
    evictions := evicted ▸ sampled.evictions
    expirations := next ▸ sampled.expirations }

theorem look_store (looked : p.look = some q) : q.store = p.store := by
  unfold Sampling.look at looked
  split at looked
  · cases looked
  · split at looked <;> (obtain rfl := Option.some.inj looked; rfl)

/-- No section of another call between the reads: the snapshot is that of one moment. -/
theorem undisturbed_store (run : Run Sampling.step (.begin s) steps p)
    (alone : ∀ x ∈ steps, x.input = .look) : ∀ x ∈ steps, x.before.store = s := by
  suffices whole : p.store = s ∧ ∀ x ∈ steps, x.before.store = s from whole.2
  induction run with
  | nil => simp [Sampling.begin]
  | @snoc steps p q turn reply prior taken ih =>
    obtain ⟨same,earlier⟩ := ih fun x mem => alone x (by simp [mem])
    obtain rfl : turn = .look := alone _ (List.mem_append_right _ (List.mem_singleton_self _))
    obtain ⟨next,looked,equal⟩ := Option.map_eq_some_iff.mp taken
    obtain ⟨rfl,rfl⟩ := Prod.mk.inj equal
    refine ⟨(look_store looked).trans same, ?_⟩
    intro x mem
    rcases List.mem_append.mp mem with old | new
    · exact earlier x old
    · rw [List.mem_singleton.mp new]
      exact same

theorem met_undisturbed (same : ∀ x ∈ steps, x.before.store = s) (met : Met steps cells)
    (size : cells.length = s.shards.length) : cells = s.shards := by
  refine List.ext_getElem size ?_
  intro i inside bound
  obtain ⟨x,mem,found⟩ := met i cells[i] (List.getElem?_eq_getElem inside)
  rw [same x mem] at found
  exact (List.getElem?_eq_some_iff.mp found).2.symm

theorem reads_undisturbed {f : Shard → UInt64} {total : UInt64}
    (same : ∀ x ∈ steps, x.before.store = s) (reads : Reads steps f s.shards.length total) :
    total = (s.shards.map f).sum := by
  obtain ⟨cells,size,met,rfl⟩ := reads
  rw [met_undisturbed same met size]

theorem snapshot_undisturbed {budget : Int} (range : budget < 2 ^ 63)
    (same : ∀ x ∈ steps, x.before.store = s) {out : Stats} (snapshot : Snapshot budget s steps out) :
    out = s.stats int64 := by
  obtain ⟨cells,size,met,gathers⟩ := snapshot.parts
  obtain rfl := met_undisturbed same met size
  have memory := running_total int64 Shard.memoryBytes s.shards 0
  have limit := running_total int64 (fun sh : Shard => sh.limits.maxMemoryBytes) s.shards 0
  have low := snapshot.nonneg
  have within := snapshot.within
  have most := snapshot.budget
  have whole : int64.wrap out.memoryBytes = out.memoryBytes := int64_exact ⟨by omega, by omega⟩
  have all : int64.wrap out.maxMemoryBytes = out.maxMemoryBytes := int64_exact ⟨by omega, by omega⟩
  rw [zero_add, ← gathers.memory, whole] at memory
  rw [zero_add, ← gathers.budget, all] at limit
  have evictions : out.evictions = (s.stats int64).evictions :=
    reads_undisturbed same snapshot.evictions
  have expirations : out.expirations = (s.stats int64).expirations :=
    reads_undisturbed same snapshot.expirations
  calc out = ⟨out.items,out.memoryBytes,out.maxMemoryBytes,out.evictions,out.expirations,
        out.itemsPerShard,out.numShards⟩ := rfl
    _ = s.stats int64 := by
      rw [gathers.items, ← memory, ← limit, evictions, expirations, gathers.perShard,
        gathers.shards, Nat.sub_self, List.replicate_zero, List.append_nil]
      rfl

/-- The sampling of a store as New lays it out for a configuration that was accepted. -/
theorem accepted_snapshot {config : ConfigModel.Config} (accepted : config.validate = none)
    (ranged : Ranged (shardLimits config.store) 250)
    (range : max config.maxMemoryBytes config.shards < 2 ^ 63) {works : List StoreStep}
    (run : Run Store.step (Store.new int64 config.store) works s)
    (short : ∀ x ∈ works, ∀ key, x.input.call.key = some key → key.length ≤ 250)
    (sampling : Run Sampling.step (.begin s) steps p) (named : ShortTurns 250 steps)
    (done : p.look = none) :
    Snapshot (max config.maxMemoryBytes config.shards) s steps p.out := by
  obtain ⟨_,memory,_,_,shards⟩ := ConfigModel.validate_bounds accepted
  have overhead := (normalize_positive config.store).2.2.1
  have books := run_ranged_books ranged run short
  have slices : s.shards.length * (shardLimits config.store).maxMemoryBytes ≤
      max config.maxMemoryBytes config.shards := by
    simp only [shardLimits, ConfigModel.accepted_normal accepted, accepted_length accepted run,
      Int.toNat_of_nonneg (Int.le_of_lt shards)]
    exact slices_within config.store memory shards
  have sampled := run_sampled rfl overhead ranged (slices.trans_lt range) books sampling named
  exact sampled_snapshot sampled done (perShardMemory_pos (normalizeConfig config.store)) slices

/-- The two counters are between those at the begin and those at the end. -/
structure Bracketed (s t : Store) (out : Stats) : Prop where
  evictions : (s.stats int64).evictions ≤ out.evictions ∧
    out.evictions ≤ (t.stats int64).evictions
  expirations : (s.stats int64).expirations ≤ out.expirations ∧
    out.expirations ≤ (t.stats int64).expirations

/-- A sampling during which no counter runs over. -/
structure Climbs (limits : Limits) (s : Store) (steps : List SamplingStep) (p : Sampling) :
    Prop where
  sound : Sound limits p.store
  weight : (p.store.shards.map shardWeight).sum ≤ (s.shards.map shardWeight).sum + steps.length
  whole : List.Forall₂ Growth s.shards p.store.shards
  since : ∀ x ∈ steps, List.Forall₂ Growth s.shards x.before.store.shards
  until_end : ∀ x ∈ steps, List.Forall₂ Growth x.before.store.shards p.store.shards

theorem growth_refl (shards : List Shard) : List.Forall₂ Growth shards shards :=
  List.forall₂_same.mpr fun _ _ => ⟨UInt64.le_refl _, UInt64.le_refl _⟩

theorem growth_trans {first second third : List Shard} (left : List.Forall₂ Growth first second)
    (right : List.Forall₂ Growth second third) : List.Forall₂ Growth first third := by
  induction left generalizing third with
  | nil => exact right
  | cons head _ ih =>
    cases right with
    | cons next tail =>
      exact .cons ⟨UInt64.le_trans head.evictions next.evictions,
        UInt64.le_trans head.expirations next.expirations⟩ (ih tail)

/-- One turn, seen from the store that it leaves. -/
theorem turn_climbs {x : SamplingStep} (climbs : Climbs limits s steps x.before)
    (sound : Sound limits x.after.store)
    (weight : (x.after.store.shards.map shardWeight).sum ≤
      (x.before.store.shards.map shardWeight).sum + 1)
    (grown : List.Forall₂ Growth x.before.store.shards x.after.store.shards) :
    Climbs limits s (steps ++ [x]) x.after := by
  refine ⟨sound, ?_, growth_trans climbs.whole grown, ?_, ?_⟩
  · have before := climbs.weight
    rw [List.length_append, List.length_singleton]
    omega
  · intro y mem
    rcases List.mem_append.mp mem with old | new
    · exact climbs.since y old
    · rw [List.mem_singleton.mp new]
      exact climbs.whole
  · intro y mem
    rcases List.mem_append.mp mem with old | new
    · exact growth_trans (climbs.until_end y old) grown
    · rw [List.mem_singleton.mp new]
      exact grown

theorem run_climbs (sound : Sound limits s) (run : Run Sampling.step (.begin s) steps p)
    (room : (s.shards.map shardWeight).sum + steps.length < 2 ^ 64) : Climbs limits s steps p := by
  induction run with
  | nil => exact ⟨sound, Nat.le_refl _, growth_refl _, by simp, by simp⟩
  | @snoc steps p q turn reply prior taken ih =>
    rw [List.length_append, List.length_singleton] at room
    have climbs := ih (by omega)
    have before := climbs.weight
    cases turn with
    | work call =>
      obtain ⟨⟨t,answer⟩,stepped,same⟩ := Option.map_eq_some_iff.mp taken
      obtain ⟨rfl,rfl⟩ := Prod.mk.inj same
      have entered := Bool.toNat_le (insertedBy ⟨p.store,call,answer,t⟩)
      obtain ⟨balance,grown⟩ := section_conserves (x := ⟨p.store,call,answer,t⟩) climbs.sound
        stepped (by dsimp only; omega)
      dsimp only at balance
      exact turn_climbs (x := ⟨p,.work call,some answer,_⟩) climbs
        (step_sound climbs.sound stepped) (by dsimp only; omega) grown
    | look =>
      obtain ⟨next,looked,same⟩ := Option.map_eq_some_iff.mp taken
      obtain ⟨rfl,rfl⟩ := Prod.mk.inj same
      have kept : next.store = p.store := look_store looked
      refine turn_climbs (x := ⟨p,.look,none,next⟩) climbs ?_ ?_ ?_
      · exact kept ▸ climbs.sound
      · dsimp only
        rw [kept]
        omega
      · dsimp only
        rw [kept]
        exact growth_refl _

theorem growth_sum {f : Shard → UInt64} (mono : ∀ a b, Growth a b → f a ≤ f b)
    {before after : List Shard} (grown : List.Forall₂ Growth before after)
    (room : (after.map fun sh => (f sh).toNat).sum < 2 ^ 64) :
    (before.map fun sh => (f sh).toNat).sum < 2 ^ 64 ∧ (before.map f).sum ≤ (after.map f).sum := by
  have less : (before.map fun sh => (f sh).toNat).sum ≤ (after.map fun sh => (f sh).toNat).sum :=
    List.Forall₂.sum_le_sum (List.forall₂_map_left_iff.mpr (List.forall₂_map_right_iff.mpr
      (grown.imp fun a b pair => UInt64.le_iff_toNat_le.mp (mono a b pair))))
  refine ⟨by omega, ?_⟩
  rw [UInt64.le_iff_toNat_le, uint64_sum _ room, uint64_sum _ (by omega)]
  exact less

/-- What was read of a counter is between what it was and what it is. -/
theorem reads_bracket {f : Shard → UInt64} {total : UInt64}
    (mono : ∀ a b, Growth a b → f a ≤ f b) (part : ∀ sh, (f sh).toNat ≤ shardWeight sh)
    (climbs : Climbs limits s steps p)
    (room : (s.shards.map shardWeight).sum + steps.length < 2 ^ 64)
    (reads : Reads steps f s.shards.length total) :
    (s.shards.map f).sum ≤ total ∧ total ≤ (p.store.shards.map f).sum := by
  obtain ⟨cells,size,met,rfl⟩ := reads
  have since : List.Forall₂ Growth s.shards cells := by
    rw [List.forall₂_iff_get]
    refine ⟨size.symm, ?_⟩
    intro i first second
    obtain ⟨x,mem,found⟩ := met i cells[i] (List.getElem?_eq_getElem second)
    obtain ⟨bound,same⟩ := List.getElem?_eq_some_iff.mp found
    rw [List.get_eq_getElem, List.get_eq_getElem, ← same]
    exact (List.forall₂_iff_get.mp (climbs.since x mem)).2 i first bound
  have until_end : List.Forall₂ Growth cells p.store.shards := by
    rw [List.forall₂_iff_get]
    refine ⟨size.trans climbs.whole.length_eq, ?_⟩
    intro i first second
    obtain ⟨x,mem,found⟩ := met i cells[i] (List.getElem?_eq_getElem first)
    obtain ⟨bound,same⟩ := List.getElem?_eq_some_iff.mp found
    rw [List.get_eq_getElem, List.get_eq_getElem, ← same]
    exact (List.forall₂_iff_get.mp (climbs.until_end x mem)).2 i bound second
  have most : (p.store.shards.map fun sh => (f sh).toNat).sum ≤
      (p.store.shards.map shardWeight).sum := List.sum_le_sum fun sh _ => part sh
  have weight := climbs.weight
  obtain ⟨within,upper⟩ := growth_sum mono until_end (by omega)
  exact ⟨(growth_sum mono since within).2, upper⟩

theorem sampling_bracketed {config : Config} {works : List StoreStep}
    (run : Run Store.step (Store.new int64 config) works s)
    (sampling : Run Sampling.step (.begin s) steps p)
    (few : works.length + steps.length < 2 ^ 64) {budget : Int}
    (snapshot : Snapshot budget s steps p.out) : Bracketed s p.store p.out := by
  have created : works.countP insertedBy ≤ works.length := List.countP_le_length
  have total := run_conserves run (by omega)
  have room : (s.shards.map shardWeight).sum + steps.length < 2 ^ 64 := by omega
  have climbs := run_climbs (run_sound run) sampling room
  exact {
    evictions := reads_bracket (fun _ _ grown => grown.evictions)
      (fun sh => by unfold shardWeight; omega) climbs room snapshot.evictions
    expirations := reads_bracket (fun _ _ grown => grown.expirations)
      (fun sh => by unfold shardWeight; omega) climbs room snapshot.expirations }

/-- Statistics that are sampled while other calls go on add up the shards, each as it was at
    some moment of the sampling. The bytes never exceed the budget, and without another call
    the result is that of one moment. Below 2^64 calls the two counters are between those at
    its begin and its end. -/
theorem stats_sampled_under_load (config : ConfigModel.Config) (accepted : config.validate = none)
    (ranged : Ranged (shardLimits config.store) 250)
    (range : max config.maxMemoryBytes config.shards < 2 ^ 63)
    {works : List StoreStep} {s : Store}
    (run : Run Store.step (Store.new int64 config.store) works s)
    (short : ∀ x ∈ works, ∀ key, x.input.call.key = some key → key.length ≤ 250)
    {steps : List SamplingStep} {p : Sampling} (sampling : Run Sampling.step (.begin s) steps p)
    (named : ShortTurns 250 steps) (done : p.look = none) :
    Snapshot (max config.maxMemoryBytes config.shards) s steps p.out ∧
      (works.length + steps.length < 2 ^ 64 → Bracketed s p.store p.out) ∧
      ((∀ x ∈ steps, x.input = .look) → p.out = s.stats int64) := by
  have snapshot := accepted_snapshot accepted ranged range run short sampling named done
  refine ⟨snapshot, fun few => sampling_bracketed run sampling few snapshot, ?_⟩
  intro alone
  exact snapshot_undisturbed range (undisturbed_store sampling alone) snapshot

/-- Two writes come between the reads, the second when all items have been counted. -/
def loadedTurns : List Turn :=
  [.look, .look, .work ⟨.set [97] [1,2,3] 0,0,1,.asListed⟩, .look, .look, .look, .look, .look,
    .work ⟨.set [98] [1] 0,0,2,.asListed⟩, .look, .look]

theorem loaded_short {steps : List SamplingStep} (inputs : steps.map Step.input = loadedTurns) :
    ShortTurns 250 steps := by
  intro x mem work asked key named
  have turn : x.input ∈ loadedTurns := by
    rw [← inputs]
    exact List.mem_map_of_mem mem
  rw [asked] at turn
  simp only [loadedTurns, List.mem_cons, Turn.work.injEq, reduceCtorEq, List.not_mem_nil,
    or_false, false_or] at turn
  rcases turn with rfl | rfl <;> (obtain rfl := Option.some.inj named; decide)

theorem three_shards_sampled : ∃ steps p,
    Run Sampling.step (.begin (Store.new int64 threeShards.store)) steps p ∧
      steps.map Step.input = loadedTurns ∧ p.out.itemsPerShard = [0,1,0] ∧
      Snapshot 32 (Store.new int64 threeShards.store) steps p.out ∧
      Bracketed (Store.new int64 threeShards.store) p.store p.out := by
  have sampled : (exec Sampling.step (.begin (Store.new int64 threeShards.store)) loadedTurns).map
      (fun done => (done.2.look.isNone,done.2.out.itemsPerShard)) = some (true,[0,1,0]) := by decide
  obtain ⟨steps,p,run,inputs,shown⟩ := exec_shows sampled
  obtain ⟨ended,counts⟩ := Prod.mk.inj shown
  obtain ⟨snapshot,bracketed,_⟩ := stats_sampled_under_load threeShards (by decide) (by decide)
    (by decide) Run.nil (fun _ mem => by cases mem) run (loaded_short inputs) (by simpa using ended)
  have few : steps.length = loadedTurns.length := by rw [← inputs, List.length_map]
  exact ⟨steps, p, run, inputs, counts, snapshot, bracketed (by rw [few]; decide)⟩

end StoreSnapshot
