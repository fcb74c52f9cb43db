import MiniKV.Lib.Linearization
import MiniKV.Store.Overflow

/- The store as its goroutines run it. A method locks its shard, works on it, and if it
   writes an item draws the version from the shared counter in the middle of that work:
   set before it touches the item, cas and incr after they have assigned its value. The
   halves of each method on both sides of the Add are translated here; put together they
   are the critical sections of the store, and every interleaving of them linearizes. -/
namespace ShardModel
open MachineWord LruModel Decimal CriticalSections

/-- The tail of set up to and from the Add. -/
def Shard.openStore (sh : Shard) (now : Time) (key value : Bytes) (ttl : Duration)
    (size projected : Int) : Opening Shard UInt64 (Option StoreError) :=
  let expiry := expiresAt now ttl
  .access sh fun newCAS =>
    match sh.items.lookup key with
    | some existing => (sh.overwrite existing value expiry size newCAS projected, none)
    | none => (sh.insert key value expiry size newCAS projected, none)

def Shard.openSetEvicting (sh : Shard) (oldSize size projected : Int) (now : Time)
    (key value : Bytes) (ttl : Duration) : Option (Opening Shard UInt64 (Option StoreError)) :=
  if projected > sh.limits.maxMemoryBytes then
    match sh.evictUntilFitsLocked key projected with
    | none => none
    | some (sh, false) => some (.done sh (some .memoryLimitExceeded))
    | some (sh, true) => some (sh.openStore now key value ttl size (sh.projected oldSize size))
  else some (sh.openStore now key value ttl size projected)

def Shard.openSetFrom (sh : Shard) (oldSize : Int) (now : Time) (order : RangeOrder)
    (key value : Bytes) (ttl : Duration) : Option (Opening Shard UInt64 (Option StoreError)) :=
  let size := sh.itemSize key value.length
  if size > sh.limits.maxMemoryBytes then some (.done sh (some .memoryLimitExceeded))
  else
    let projected := sh.projected oldSize size
    if projected > sh.limits.maxMemoryBytes then
      if sh.ttlCount > 0 then
        let sh := sh.removeExpiredLocked now order
        let oldSize := match sh.items.lookup key with
          | some old => (sh.heap old).size
          | none => 0
        sh.openSetEvicting oldSize size (sh.projected oldSize size) now key value ttl
      else sh.openSetEvicting oldSize size projected now key value ttl
    else some (sh.openStore now key value ttl size projected)

def Shard.openSet (sh : Shard) (now : Time) (order : RangeOrder) (key value : Bytes)
    (ttl : Duration) : Option (Opening Shard UInt64 (Option StoreError)) :=
  if (value.length : Int) > sh.limits.maxValueBytes then some (.done sh (some .valueTooLarge))
  else
    match sh.items.lookup key with
    | some old =>
      if (sh.heap old).expired now then
        (sh.deleteLocked old).openSetFrom 0 now order key value ttl
      else sh.openSetFrom (sh.heap old).size now order key value ttl
    | none => sh.openSetFrom 0 now order key value ttl

/-- The assignments of cas: the version is the last field of the item to be written. -/
def Shard.openOverwrite (sh : Shard) (existing : Ptr) (value : Bytes) (expiry : Time) (size : Int)
    (projected : Int) : Opening Shard UInt64 (Option StoreError) :=
  let hadTTL := decide ((sh.heap existing).expiresAt ≠ 0)
  let sh := { sh with heap := modify sh.heap existing fun node =>
    { node with value := value, expiresAt := expiry, size := size } }
  .access sh fun newCAS =>
    let heap := modify sh.heap existing fun node => { node with cas := newCAS }
    let moved := moveToFront heap sh.lru existing
    ({ sh with
      heap := moved.1
      lru := moved.2
      ttlCount := retime sh.ttlCount hadTTL expiry
      memoryBytes := projected }, none)

def Shard.openCasEvicting (sh : Shard) (existing : Ptr) (size projected : Int) (now : Time)
    (key value : Bytes) (ttl : Duration) : Option (Opening Shard UInt64 (Option StoreError)) :=
  let expiry := expiresAt now ttl
  if projected > sh.limits.maxMemoryBytes then
    match sh.evictUntilFitsLocked key projected with
    | none => none
    | some (sh, false) => some (.done sh (some .memoryLimitExceeded))
    | some (sh, true) =>
      some (sh.openOverwrite existing value expiry size
        (sh.projected (sh.heap existing).size size))
  else some (sh.openOverwrite existing value expiry size projected)

def Shard.openCas (sh : Shard) (now : Time) (order : RangeOrder) (key value : Bytes)
    (ttl : Duration) (expected : UInt64) : Option (Opening Shard UInt64 (Option StoreError)) :=
  if (value.length : Int) > sh.limits.maxValueBytes then some (.done sh (some .valueTooLarge))
  else
    match sh.items.lookup key with
    | none => some (.done sh (some .notFound))
    | some existing =>
      if (sh.heap existing).expired now then
        some (.done (sh.deleteLocked existing) (some .notFound))
      else if (sh.heap existing).cas ≠ expected then some (.done sh (some .casMismatch))
      else
        let size := sh.itemSize key value.length
        if size > sh.limits.maxMemoryBytes then some (.done sh (some .memoryLimitExceeded))
        else
          let projected := sh.projected (sh.heap existing).size size
          if projected > sh.limits.maxMemoryBytes then
            if sh.ttlCount > 0 then
              let sh := sh.removeExpiredLocked now order
              match sh.items.lookup key with
              | none => some (.done sh (some .notFound))
              | some existing =>
                sh.openCasEvicting existing size (sh.projected (sh.heap existing).size size) now
                  key value ttl
            else sh.openCasEvicting existing size projected now key value ttl
          else some (sh.openOverwrite existing value (expiresAt now ttl) size projected)

/-- The assignments of incr. -/
def Shard.openRewrite (sh : Shard) (item : Ptr) (nextValue : Bytes) (nextSize : Int)
    (projected : Int) (next : UInt64) : Opening Shard UInt64 (Except StoreError UInt64) :=
  let sh := { sh with heap := modify sh.heap item fun node =>
    { node with value := nextValue, size := nextSize } }
  .access sh fun newCAS =>
    let heap := modify sh.heap item fun node => { node with cas := newCAS }
    let moved := moveToFront heap sh.lru item
    ({ sh with heap := moved.1, lru := moved.2, memoryBytes := projected }, .ok next)

def Shard.openIncrEvicting (sh : Shard) (item : Ptr) (nextSize projected : Int)
    (key nextValue : Bytes) (next : UInt64) :
    Option (Opening Shard UInt64 (Except StoreError UInt64)) :=
  let fitted :=
    if projected > sh.limits.maxMemoryBytes then sh.evictUntilFitsLocked key projected
    else some (sh, true)
  match fitted with
  | none => none
  | some (sh, false) => some (.done sh (.error .memoryLimitExceeded))
  | some (sh, true) =>
    some (sh.openRewrite item nextValue nextSize (sh.projected (sh.heap item).size nextSize) next)

def Shard.openIncrTo (sh : Shard) (item : Ptr) (now : Time) (order : RangeOrder) (key : Bytes)
    (next : UInt64) : Option (Opening Shard UInt64 (Except StoreError UInt64)) :=
  let nextValue := formatUint next
  if (nextValue.length : Int) > sh.limits.maxValueBytes then
    some (.done sh (.error .valueTooLarge))
  else
    let nextSize := sh.itemSize key nextValue.length
    if nextSize > sh.limits.maxMemoryBytes then some (.done sh (.error .memoryLimitExceeded))
    else
      let projected := sh.projected (sh.heap item).size nextSize
      if projected > sh.limits.maxMemoryBytes then
        if sh.ttlCount > 0 then
          let sh := sh.removeExpiredLocked now order
          match sh.items.lookup key with
          | none => some (.done sh (.error .notFound))
          | some item =>
            sh.openIncrEvicting item nextSize (sh.projected (sh.heap item).size nextSize) key
              nextValue next
        else sh.openIncrEvicting item nextSize projected key nextValue next
      else some (sh.openRewrite item nextValue nextSize projected next)

def Shard.openIncr (sh : Shard) (now : Time) (order : RangeOrder) (key : Bytes) (delta : UInt64) :
    Option (Opening Shard UInt64 (Except StoreError UInt64)) :=
  match sh.items.lookup key with
  | none => some (.done sh (.error .notFound))
  | some item =>
    if (sh.heap item).expired now then some (.done (sh.deleteLocked item) (.error .notFound))
    else if !isDecimal (sh.heap item).value then some (.done sh (.error .notInteger))
    else
      match parseUint (sh.heap item).value with
      | none => some (.done sh (.error .notInteger))
      | some current =>
        if maxUint64 - current < delta then some (.done sh (.error .overflow))
        else sh.openIncrTo item now order key (current + delta)

/-- A method under its lock up to the Add, if it comes to one. -/
def Shard.opening (sh : Shard) (now : Time) (order : RangeOrder) :
    Call → Option (Opening Shard UInt64 Reply)
  | .set key value ttl => (sh.openSet now order key value ttl).map (Opening.map .wrote)
  | .get key => some (.done (sh.get now key).1 (.found (sh.get now key).2))
  | .cas key value ttl expected =>
    (sh.openCas now order key value ttl expected).map (Opening.map .wrote)
  | .delete key => some (.done (sh.delete now key).1 (.deleted (sh.delete now key).2))
  | .incr key delta => (sh.openIncr now order key delta).map (Opening.map .counted)
  | .cleanupExpired =>
    some (.done (sh.cleanupExpired now order).1 (.swept (sh.cleanupExpired now order).2))

variable {sh : Shard} {cas : UInt64} {now : Time} {order : RangeOrder} {key value : Bytes}
  {ttl : Duration} {size projected : Int}

/-- The Add and what follows it. -/
abbrev settle {ρ : Type} (cas : UInt64) (opening : Opening Shard UInt64 ρ) : Shard × UInt64 × ρ :=
  opening.resolve (· + 1) cas

theorem modify_modify (h : Heap) (p : Ptr) (f g : StoredItem → StoredItem) :
    modify (modify h p f) p g = modify h p fun node => g (f node) := by
  funext q
  by_cases own : q = p <;> simp [LruModel.modify, own]

theorem openStore_settled : settle cas (sh.openStore now key value ttl size projected) =
    sh.store cas now key value ttl size projected := by
  unfold Shard.openStore Shard.store
  cases sh.items.lookup key <;> rfl

theorem openOverwrite_settled (existing : Ptr) (expiry : Time) :
    settle cas (sh.openOverwrite existing value expiry size projected) =
      (sh.overwrite existing value expiry size (cas + 1) projected, cas + 1, none) := by
  simp only [settle, Shard.openOverwrite, Opening.resolve, Shard.overwrite, modify_modify]

theorem openRewrite_settled (item : Ptr) (next : UInt64) :
    settle cas (sh.openRewrite item value size projected next) =
      (sh.rewriteCounter item value size (cas + 1) projected, cas + 1, .ok next) := by
  simp only [settle, Shard.openRewrite, Opening.resolve, Shard.rewriteCounter, modify_modify]

theorem openSetEvicting_settled (oldSize : Int) :
    (sh.openSetEvicting oldSize size projected now key value ttl).map (settle cas) =
      sh.setEvicting oldSize size projected cas now key value ttl := by
  unfold Shard.openSetEvicting Shard.setEvicting
  split
  · rcases sh.evictUntilFitsLocked key projected with _ | ⟨fitted,_ | _⟩
    · rfl
    · rfl
    · exact congrArg some openStore_settled
  · exact congrArg some openStore_settled

theorem openSetFrom_settled (oldSize : Int) :
    (sh.openSetFrom oldSize now order key value ttl).map (settle cas) =
      sh.setFrom oldSize cas now order key value ttl := by
  unfold Shard.openSetFrom Shard.setFrom
  dsimp only
  split
  · rfl
  · split
    · split <;> exact openSetEvicting_settled _
    · exact congrArg some openStore_settled

theorem openSet_settled : (sh.openSet now order key value ttl).map (settle cas) =
    sh.set cas now order key value ttl := by
  unfold Shard.openSet Shard.set
  split
  · rfl
  · cases sh.items.lookup key with
    | none => exact openSetFrom_settled _
    | some old =>
      dsimp only
      split <;> exact openSetFrom_settled _

theorem openCasEvicting_settled (existing : Ptr) :
    (sh.openCasEvicting existing size projected now key value ttl).map (settle cas) =
      sh.casEvicting existing size projected cas now key value ttl := by
  unfold Shard.openCasEvicting Shard.casEvicting
  dsimp only
  split
  · rcases sh.evictUntilFitsLocked key projected with _ | ⟨fitted,_ | _⟩
    · rfl
    · rfl
    · exact congrArg some (openOverwrite_settled existing _)
  · exact congrArg some (openOverwrite_settled existing _)

theorem openCas_settled (expected : UInt64) :
    (sh.openCas now order key value ttl expected).map (settle cas) =
      sh.cas cas now order key value ttl expected := by
  unfold Shard.openCas Shard.cas
  split
  · rfl
  · cases sh.items.lookup key with
    | none => rfl
    | some existing =>
      dsimp only
      split
      · rfl
      · split
        · rfl
        · split
          · rfl
          · split
            · split
              · cases (sh.removeExpiredLocked now order).items.lookup key with
                | none => rfl
                | some again => exact openCasEvicting_settled again
              · exact openCasEvicting_settled existing
            · exact congrArg some (openOverwrite_settled existing _)

theorem openIncrEvicting_settled (item : Ptr) (next : UInt64) :
    (sh.openIncrEvicting item size projected key value next).map (settle cas) =
      sh.incrEvicting item size projected cas key value next := by
  unfold Shard.openIncrEvicting Shard.incrEvicting
  rcases (if projected > sh.limits.maxMemoryBytes then sh.evictUntilFitsLocked key projected
    else some (sh, true)) with _ | ⟨fitted,_ | _⟩
  · rfl
  · rfl
  · exact congrArg some (openRewrite_settled item next)

theorem openIncrTo_settled (item : Ptr) (next : UInt64) :
    (sh.openIncrTo item now order key next).map (settle cas) =
      sh.incrTo item cas now order key next := by
  unfold Shard.openIncrTo Shard.incrTo
  dsimp only
  split
  · rfl
  · split
    · rfl
    · split
      · split
        · cases (sh.removeExpiredLocked now order).items.lookup key with
          | none => rfl
          | some again => exact openIncrEvicting_settled again next
        · exact openIncrEvicting_settled item next
      · exact congrArg some (openRewrite_settled item next)

theorem openIncr_settled (delta : UInt64) :
    (sh.openIncr now order key delta).map (settle cas) = sh.incr cas now order key delta := by
  unfold Shard.openIncr Shard.incr
  cases sh.items.lookup key with
  | none => rfl
  | some item =>
    dsimp only
    split
    · rfl
    · split
      · rfl
      · cases parseUint (sh.heap item).value with
        | none => rfl
        | some current =>
          dsimp only
          split
          · rfl
          · exact openIncrTo_settled item _

theorem replies_settled {ρ : Type} (f : ρ → Reply) {halves : Option (Opening Shard UInt64 ρ)}
    {whole : Option (Shard × UInt64 × ρ)} (same : halves.map (settle cas) = whole) :
    (halves.map (Opening.map f)).map (settle cas) =
      whole.map fun (sh, cas, result) => (sh, cas, f result) := by
  subst same
  rcases halves with _ | ⟨part,reply⟩ | ⟨part,rest⟩ <;> rfl

/-- The two halves of a method are its critical section. -/
theorem opening_settled (sh : Shard) (cas : UInt64) (now : Time) (order : RangeOrder)
    (call : Call) : (sh.opening now order call).map (settle cas) = sh.step cas now order call := by
  cases call with
  | set key value ttl => exact replies_settled .wrote openSet_settled
  | cas key value ttl expected => exact replies_settled .wrote (openCas_settled expected)
  | incr key delta => exact replies_settled .counted (openIncr_settled delta)
  | get | delete | cleanupExpired => rfl

end ShardModel

namespace StoreConcurrent
open MachineWord LruModel ShardModel ShardInvariant StoreModel StoreFate StoreOverflow StepRuns
  Partition CriticalSections

/-- A method call; only a sweep names its shard. -/
structure Request where
  call : Call
  shard : Nat

/-- What a call meets under its lock: the clock and the order of the map. -/
structure Meeting where
  now : Time
  order : RangeOrder

def sectionOf (work : Request × Meeting) : Section :=
  ⟨work.1.call,work.1.shard,work.2.now,work.2.order⟩

def Request.home (q : Request) (n : Nat) : Option Nat :=
  match q.call.key with
  | some key => shardFor key n
  | none => some q.shard

def program : Program Shard UInt64 Request Meeting Reply where
  home := Request.home
  opening q k sh := sh.opening k.now k.order q.call
  bump := (· + 1)

def storeOf (memory : Memory Shard UInt64) : Store := ⟨memory.parts,memory.cell⟩

/-- A new store and goroutines that have not called it yet. -/
def goroutines (config : ShardModel.Config) (n : Nat) :
    Machine Shard UInt64 Request Meeting Reply :=
  .start ⟨(Store.new int64 config).shards,(Store.new int64 config).cas⟩ n

def sectionStep (s : Store) (work : Request × Meeting) : Option (Store × Reply) :=
  s.step (sectionOf work)

theorem atomic_section {s t : Memory Shard UInt64} {work : Request × Meeting} {reply : Reply}
    (taken : program.atomic s work = some (t,reply)) :
    sectionStep (storeOf s) work = some (storeOf t,reply) := by
  obtain ⟨done,stepped,same⟩ := Option.map_eq_some_iff.mp taken
  obtain ⟨rfl,rfl⟩ := Prod.mk.inj same
  obtain ⟨i,sh,next,home,here,resolved,shards⟩ := stepAt_some_iff.mp stepped
  have settled : sh.step s.cell work.2.now work.2.order work.1.call = some (next,done.2) :=
    (opening_settled sh s.cell work.2.now work.2.order work.1.call).symm.trans resolved
  exact step_some_iff.mpr ⟨i, sh, next, home, here, settled, shards⟩

/-- The sections of a run one after the other, as instants of its calls. -/
def sections (works : List (Step (Memory Shard UInt64) (Request × Meeting) Reply)) :
    List (Step Store (Request × Meeting) Reply) :=
  works.map fun x => ⟨storeOf x.before,x.input,x.output,storeOf x.after⟩

/-- Any number of goroutines: each call happens at one instant between its invocation and
    its return, as one critical section with the clock and the map order that it met, and
    the calls of one shard happen in the order in which they came to hold its lock. Every
    shard whose lock is free stands as these sections leave it. -/
theorem store_linearizable (config : ShardModel.Config) (n : Nat)
    {steps : List (MachineStep Shard UInt64 Request Meeting Reply)}
    {m : Machine Shard UInt64 Request Meeting Reply}
    (run : Run (Machine.step program) (goroutines config n) steps m) :
    ∃ trace works s,
      Linearizes (fun q => q.home (Store.new int64 config).shards.length) sectionStep
        (Store.new int64 config) (shown steps) trace works s ∧
      m.memory.cell = s.cas ∧
      ∀ i : Nat, m.locks[i]? = some false → m.memory.parts[i]? = s.shards[i]? := by
  obtain ⟨trace,works,last,explained⟩ := run_explained run
  have linear := explained_linearizes explained
  refine ⟨trace, sections works, storeOf last,
    linearizes_mapped storeOf (fun _ _ _ _ => atomic_section) linear, ?_, ?_⟩
  · exact explained.mirrors.cell.symm
  · intro i free
    exact (explained.mirrors.outside i free).symm

def twoShards : ShardModel.Config := ⟨10,64,5,2⟩

/-- Two writes in two shards: the one that reads the clock first draws its version last. A
    third goroutine then finds what the second has written. -/
def crossing : List (Event Request Meeting) :=
  [.invoke 0 ⟨.set [97] [49] 0,0⟩, .invoke 1 ⟨.set [98] [50] 0,0⟩, .lock 0, .lock 1,
    .work 0 ⟨5,.asListed⟩, .work 1 ⟨6,.asListed⟩, .exchange 1, .exchange 0, .finish 1, .unlock 1,
    .invoke 2 ⟨.get [98],0⟩, .lock 2, .work 2 ⟨7,.asListed⟩, .finish 0, .unlock 2, .unlock 0]

theorem crossing_linearizes : ∃ steps m,
    Run (Machine.step program) (goroutines twoShards 3) steps m ∧
      steps.map Step.input = crossing ∧ ∃ trace works s,
      Linearizes (fun q => q.home (Store.new int64 twoShards).shards.length) sectionStep
        (Store.new int64 twoShards) (shown steps) trace works s ∧
      m.memory.cell = s.cas ∧
      ∀ i : Nat, m.locks[i]? = some false → m.memory.parts[i]? = s.shards[i]? := by
  have done : (exec (Machine.step program) (goroutines twoShards 3) crossing).isSome = true := by
    decide
  obtain ⟨⟨steps,m⟩,eq⟩ := Option.isSome_iff_exists.mp done
  obtain ⟨run,inputs⟩ := exec_run eq
  exact ⟨steps, m, run, inputs, store_linearizable twoShards 3 run⟩

theorem store_run {start last : Memory Shard UInt64}
    {works : List (Step (Memory Shard UInt64) (Request × Meeting) Reply)}
    (run : Run program.atomic start works last) :
    Run Store.step (storeOf start)
      (works.map fun x => ⟨storeOf x.before,sectionOf x.input,x.output,storeOf x.after⟩)
      (storeOf last) :=
  run_mapped storeOf sectionOf (fun _ _ _ _ => atomic_section) run

/-- A request that can be carried out: its shard exists. -/
def Routed (shards : Nat) (q : Request) : Prop := ∃ i, q.home shards = some i ∧ i < shards

/-- While a call is under way some goroutine can go on. -/
theorem some_call_goes_on {config : ShardModel.Config} {n : Nat}
    {steps : List (MachineStep Shard UInt64 Request Meeting Reply)}
    {m : Machine Shard UInt64 Request Meeting Reply}
    (run : Run (Machine.step program) (goroutines config n) steps m)
    (routed : ∀ x ∈ steps, ∀ t q, x.input = .invoke t q →
      Routed (Store.new int64 config).shards.length q)
    (busy : ∃ (t : Nat) (x : Stage Shard UInt64 Request Meeting Reply), m.threads[t]? = some x ∧
      x ≠ .idle) :
    ∃ event m' seen, m.step program event = some (m',seen) ∧ event.invokes = false := by
  obtain ⟨trace,works,last,explained⟩ := run_explained run
  obtain ⟨under,_⟩ := explained_requests (Routed (Store.new int64 config).shards.length) run
    explained routed
  have size := explained.size
  refine goes_on explained.guarded busy ?_ ?_
  · intro t q here
    rw [size]
    exact under t _ q here rfl
  · intro t q i sh here held
    -- The shard of a goroutine that has just locked it is as the sections left it.
    obtain ⟨now,seen,held',instant,equal⟩ := mirrors_at explained.guarded explained.mirrors here rfl
    obtain rfl := Option.some.inj (held.symm.trans held')
    obtain rfl : sh = seen := equal
    have serves : Serves (shardLimits config) (Store.new int64 config).shards.length
        (storeOf last) := ⟨run_sound (store_run explained.run), run_length (store_run explained.run)⟩
    obtain ⟨j,home,small⟩ := under t _ q here rfl
    have where_home := explained.guarded.homed t _ q i here rfl
    rw [size] at where_home
    obtain rfl := Option.some.inj (home.symm.trans where_home)
    refine ⟨⟨0,.asListed⟩, ?_⟩
    have reaches : Reaches (Store.new int64 config).shards.length
        (sectionOf (q,⟨0,.asListed⟩)) := ⟨j, small, home⟩
    obtain ⟨next,reply,taken,_⟩ := section_returns serves reaches
    obtain ⟨k,sh',after,target,there,stepped,_⟩ := step_some_iff.mp taken
    have same : k = j := Option.some.inj (target.symm.trans
      ((congrArg q.home serves.2).trans home))
    subst same
    obtain rfl : sh' = sh := Option.some.inj (there.symm.trans instant)
    rw [← opening_settled] at stepped
    obtain ⟨opening,found,_⟩ := Option.map_eq_some_iff.mp stepped
    exact ⟨opening,found⟩

/-- Goroutines that begin no further call come to an end, however they interleave: they take
    at most five steps for each call under way, and they can stop only when each of these calls
    has returned. -/
theorem calls_under_way_return (config : ShardModel.Config) (n : Nat)
    {steps : List (MachineStep Shard UInt64 Request Meeting Reply)}
    {m : Machine Shard UInt64 Request Meeting Reply}
    (run : Run (Machine.step program) (goroutines config n) steps m)
    (routed : ∀ x ∈ steps, ∀ t q, x.input = .invoke t q →
      Routed (Store.new int64 config).shards.length q)
    {more : List (MachineStep Shard UInt64 Request Meeting Reply)}
    {m' : Machine Shard UInt64 Request Meeting Reply}
    (rest : Run (Machine.step program) m more m') (calm : ∀ x ∈ more, x.input.invokes = false) :
    more.length ≤ 5 * m.underWay ∧
      ((∀ event, event.invokes = false → m'.step program event = none) →
        ∀ (t : Nat) x q, m.threads[t]? = some x → x.request = some q →
          ∃ z ∈ more, ∃ reply, z.output = some (.returned t q reply)) := by
  constructor
  · have bounded := calm_bounded rest calm
    have most := rank_underWay m
    omega
  · intro stuck t x q here asked
    rcases call_returns_or_stays rest calm here asked with ⟨y,there,still⟩ | returned
    · have routed_all : ∀ x ∈ steps ++ more, ∀ t q, x.input = .invoke t q →
          Routed (Store.new int64 config).shards.length q := by
        intro x mem t q event
        rcases List.mem_append.mp mem with old | new
        · exact routed x old t q event
        · have quiet := calm x new
          rw [event] at quiet
          cases quiet
      have busy : y ≠ .idle := by
        rintro rfl
        cases still
      obtain ⟨event,_,_,taken,quiet⟩ :=
        some_call_goes_on (run_append run rest) routed_all ⟨t,y,there,busy⟩
      cases (stuck event quiet).symm.trans taken
    · exact returned

theorem crossing_invokes {steps : List (MachineStep Shard UInt64 Request Meeting Reply)}
    (inputs : steps.map Step.input = crossing) (good : Request → Prop)
    (first : good ⟨.set [97] [49] 0,0⟩) (second : good ⟨.set [98] [50] 0,0⟩)
    (third : good ⟨.get [98],0⟩) : ∀ x ∈ steps, ∀ t q, x.input = .invoke t q → good q := by
  intro x mem t q event
  have known : Event.invoke t q ∈ crossing := by
    rw [← inputs, ← event]
    exact List.mem_map_of_mem mem
  simp only [crossing, List.mem_cons, Event.invoke.injEq, reduceCtorEq, List.not_mem_nil, or_false,
    false_or] at known
  rcases known with ⟨_,rfl⟩ | ⟨_,rfl⟩ | ⟨_,rfl⟩
  · exact first
  · exact second
  · exact third

theorem crossing_returns : ∃ steps m more m',
    Run (Machine.step program) (goroutines twoShards 3) steps m ∧
      Run (Machine.step program) m more m' ∧
      (steps ++ more).map Step.input = crossing ∧ more.length ≤ 5 * m.underWay := by
  have done : (exec (Machine.step program) (goroutines twoShards 3) (crossing.take 11)).map
      (fun done => (exec (Machine.step program) done.2 (crossing.drop 11)).isSome) = some true := by
    decide
  obtain ⟨steps,m,run,inputs,went⟩ := exec_shows done
  obtain ⟨⟨more,m'⟩,eq⟩ := Option.isSome_iff_exists.mp went
  obtain ⟨rest,others⟩ := exec_run eq
  have all : (steps ++ more).map Step.input = crossing := by
    rw [List.map_append, inputs, others, List.take_append_drop]
  have routed := crossing_invokes all (Routed (Store.new int64 twoShards).shards.length)
    ⟨0, by decide, by decide⟩ ⟨1, by decide, by decide⟩ ⟨1, by decide, by decide⟩
  have calm : ∀ x ∈ more, x.input.invokes = false := by
    have quiet : ∀ event ∈ crossing.drop 11, event.invokes = false := by decide
    intro x mem
    exact quiet _ (others ▸ List.mem_map_of_mem mem)
  exact ⟨steps, m, more, m', run, rest, all, (calls_under_way_return twoShards 3 run
    (fun x mem => routed x (List.mem_append_left _ mem)) rest calm).1⟩

/-- At every moment of every interleaving, a shard that no call is in the middle of
    represents its items soundly and keeps its budget. -/
theorem quiet_shards_represent (config : ShardModel.Config) (n longest : Nat)
    (range : Ranged (shardLimits config) longest)
    {steps : List (MachineStep Shard UInt64 Request Meeting Reply)}
    {m : Machine Shard UInt64 Request Meeting Reply}
    (run : Run (Machine.step program) (goroutines config n) steps m)
    (keys : ∀ x ∈ steps, ∀ t q, x.input = .invoke t q → ∀ key, q.call.key = some key →
      key.length ≤ longest) (i : Nat) (sh : Shard) (held : m.memory.parts[i]? = some sh)
    (quiet : ∀ (t : Nat) x, m.threads[t]? = some x → x.midway ≠ some i) :
    ∃ nodes, Representation sh nodes := by
  obtain ⟨trace,works,last,explained⟩ := run_explained run
  obtain ⟨_,short⟩ := explained_requests
    (fun q => ∀ key, q.call.key = some key → key.length ≤ longest) run explained keys
  have books : Books (shardLimits config) (storeOf last) := by
    refine run_ranged_books range (store_run explained.run) ?_
    intro x mem
    obtain ⟨y,there,rfl⟩ := List.mem_map.mp mem
    exact short y there
  have same := mirrors_quiet explained.guarded explained.mirrors quiet
  exact books_represent (normalize_positive config).2.2.1 books sh
    (List.mem_of_getElem? (same.symm.trans held))

theorem crossing_represents : ∃ steps m,
    Run (Machine.step program) (goroutines twoShards 3) steps m ∧
      steps.map Step.input = crossing ∧
      ∀ sh, m.memory.parts[0]? = some sh → ∃ nodes, Representation sh nodes := by
  have done : (exec (Machine.step program) (goroutines twoShards 3) crossing).map
      (fun done => done.2.threads.all fun x => x.midway.isNone) = some true := by decide
  obtain ⟨steps,m,run,inputs,idle⟩ := exec_shows done
  have short := crossing_invokes inputs (fun q => ∀ key, q.call.key = some key → key.length ≤ 1)
    (by simp [Call.key]) (by simp [Call.key]) (by simp [Call.key])
  refine ⟨steps, m, run, inputs, ?_⟩
  intro sh held
  refine quiet_shards_represent twoShards 3 1 (by decide) run short 0 sh held ?_
  intro t x here
  have still := List.all_eq_true.mp idle x (List.mem_of_getElem? here)
  rw [Option.isNone_iff_eq_none.mp still]
  simp

end StoreConcurrent
