import MiniKV.Lib.Partition
import MiniKV.Lib.StepRuns

/- Calls that run under locks and share one cell. A call locks the part of the memory that
   its request goes to, works on the part, may exchange the cell once, works on the part
   again, unlocks it and returns. Threads take these steps in any order. Each lock has one
   thread inside at most, and while a call is on its way some thread can go on. -/
namespace CriticalSections
open StepRuns Partition

structure Memory (σ χ : Type) where
  parts : List σ
  cell : χ

/-- Where the first half of a call leads: to its reply, or to the cell and on from there.
    The part is what stands in the memory then. -/
inductive Opening (σ χ ρ : Type) where
  | done (part : σ) (reply : ρ)
  | access (part : σ) (rest : χ → σ × ρ)

/-- What requests do. A call may meet something on its way, as a reading of the clock. -/
structure Program (σ χ ι κ ρ : Type) where
  home : ι → Nat → Option Nat
  opening : ι → κ → σ → Option (Opening σ χ ρ)
  bump : χ → χ

variable {σ χ ι κ ρ : Type}

/-- Where a thread stands. Between its two halves a call has the rest of its work with it,
    and what the cell gave it. -/
inductive Stage (σ χ ι κ ρ : Type) where
  | idle
  | invoked (request : ι)
  | locked (request : ι) (i : Nat)
  | opened (request : ι) (i : Nat) (met : κ) (rest : χ → σ × ρ)
  | accessed (request : ι) (i : Nat) (rest : χ → σ × ρ) (cell : χ)
  | finished (request : ι) (i : Nat) (reply : ρ)

/-- The request of a thread inside, with the part it is at. -/
def Stage.inside : Stage σ χ ι κ ρ → Option (ι × Nat)
  | .idle => none
  | .invoked _ => none
  | .locked request i => some (request,i)
  | .opened request i _ _ => some (request,i)
  | .accessed request i _ _ => some (request,i)
  | .finished request i _ => some (request,i)

/-- The lock that a thread holds. -/
def Stage.lock (x : Stage σ χ ι κ ρ) : Option Nat := x.inside.map Prod.snd

structure Machine (σ χ ι κ ρ : Type) where
  memory : Memory σ χ
  locks : List Bool
  threads : List (Stage σ χ ι κ ρ)

def Machine.start (memory : Memory σ χ) (threads : Nat) : Machine σ χ ι κ ρ :=
  ⟨memory,List.replicate memory.parts.length false,List.replicate threads .idle⟩

inductive Event (ι κ : Type) where
  | invoke (t : Nat) (request : ι)
  | lock (t : Nat)
  | work (t : Nat) (met : κ)
  | exchange (t : Nat)
  | finish (t : Nat)
  | unlock (t : Nat)

/-- What can be seen of the threads from outside, with what their calls meet. -/
inductive Observed (ι κ ρ : Type) where
  | invoked (t : Nat) (request : ι)
  | met (t : Nat) (request : ι) (met : κ)
  | returned (t : Nat) (request : ι) (reply : ρ)

def Machine.put (m : Machine σ χ ι κ ρ) (t : Nat) (stage : Stage σ χ ι κ ρ) :
    Machine σ χ ι κ ρ := { m with threads := m.threads.set t stage }

def Machine.write (m : Machine σ χ ι κ ρ) (i : Nat) (part : σ) : Machine σ χ ι κ ρ :=
  { m with memory := { m.memory with parts := m.memory.parts.set i part } }

/-- None is a step that cannot be taken: the thread stands elsewhere, its lock is taken, or
    its request has no home. -/
def Machine.step (p : Program σ χ ι κ ρ) (m : Machine σ χ ι κ ρ) (event : Event ι κ) :
    Option (Machine σ χ ι κ ρ × Option (Observed ι κ ρ)) :=
  match event with
  | .invoke t request =>
    match m.threads[t]? with
    | some .idle => some (m.put t (.invoked request), some (.invoked t request))
    | _ => none
  | .lock t =>
    match m.threads[t]? with
    | some (.invoked request) =>
      (p.home request m.memory.parts.length).bind fun i =>
        match m.locks[i]? with
        | some false => some ({ m with locks := m.locks.set i true }.put t (.locked request i), none)
        | _ => none
    | _ => none
  | .work t met =>
    match m.threads[t]? with
    | some (.locked request i) =>
      m.memory.parts[i]?.bind fun part =>
        (p.opening request met part).map fun
          | .done part reply =>
            ((m.write i part).put t (.finished request i reply), some (.met t request met))
          | .access part rest =>
            ((m.write i part).put t (.opened request i met rest), some (.met t request met))
    | _ => none
  | .exchange t =>
    match m.threads[t]? with
    | some (.opened request i _ rest) =>
      let cell := p.bump m.memory.cell
      some ({ m with memory := { m.memory with cell := cell } }.put t
        (.accessed request i rest cell), none)
    | _ => none
  | .finish t =>
    match m.threads[t]? with
    | some (.accessed request i rest cell) =>
      some ((m.write i (rest cell).1).put t (.finished request i (rest cell).2), none)
    | _ => none
  | .unlock t =>
    match m.threads[t]? with
    | some (.finished request i reply) =>
      some ({ m with locks := m.locks.set i false }.put t .idle, some (.returned t request reply))
    | _ => none

variable {p : Program σ χ ι κ ρ} {m m' : Machine σ χ ι κ ρ} {event : Event ι κ}
  {seen : Option (Observed ι κ ρ)} {t u i : Nat} {x y : Stage σ χ ι κ ρ} {s s' : Memory σ χ}

/-- What a step can do, with what lets it. -/
inductive Moved (p : Program σ χ ι κ ρ) (m : Machine σ χ ι κ ρ) :
    Event ι κ → Machine σ χ ι κ ρ → Option (Observed ι κ ρ) → Prop where
  | invoked (t : Nat) (request : ι) (here : m.threads[t]? = some .idle) :
      Moved p m (.invoke t request) (m.put t (.invoked request)) (some (.invoked t request))
  | locked (t : Nat) {request : ι} {i : Nat} (here : m.threads[t]? = some (.invoked request))
      (home : p.home request m.memory.parts.length = some i) (free : m.locks[i]? = some false) :
      Moved p m (.lock t) ({ m with locks := m.locks.set i true }.put t (.locked request i)) none
  | done (t : Nat) (met : κ) {request : ι} {i : Nat} {part part' : σ} {reply : ρ}
      (here : m.threads[t]? = some (.locked request i)) (held : m.memory.parts[i]? = some part)
      (opening : p.opening request met part = some (.done part' reply)) :
      Moved p m (.work t met) ((m.write i part').put t (.finished request i reply))
        (some (.met t request met))
  | opened (t : Nat) (met : κ) {request : ι} {i : Nat} {part part' : σ} {rest : χ → σ × ρ}
      (here : m.threads[t]? = some (.locked request i)) (held : m.memory.parts[i]? = some part)
      (opening : p.opening request met part = some (.access part' rest)) :
      Moved p m (.work t met) ((m.write i part').put t (.opened request i met rest))
        (some (.met t request met))
  | accessed (t : Nat) {request : ι} {i : Nat} {met : κ} {rest : χ → σ × ρ}
      (here : m.threads[t]? = some (.opened request i met rest)) :
      Moved p m (.exchange t) ({ m with memory := { m.memory with
        cell := p.bump m.memory.cell } }.put t (.accessed request i rest (p.bump m.memory.cell))) none
  | finished (t : Nat) {request : ι} {i : Nat} {rest : χ → σ × ρ} {cell : χ}
      (here : m.threads[t]? = some (.accessed request i rest cell)) :
      Moved p m (.finish t) ((m.write i (rest cell).1).put t
        (.finished request i (rest cell).2)) none
  | returned (t : Nat) {request : ι} {i : Nat} {reply : ρ}
      (here : m.threads[t]? = some (.finished request i reply)) :
      Moved p m (.unlock t) ({ m with locks := m.locks.set i false }.put t .idle)
        (some (.returned t request reply))

theorem step_moved (taken : m.step p event = some (m',seen)) : Moved p m event m' seen := by
  unfold Machine.step at taken
  cases event with
  | invoke t request =>
    dsimp only at taken
    split at taken
    · rename_i here
      obtain ⟨rfl,rfl⟩ := Prod.mk.inj (Option.some.inj taken)
      exact Moved.invoked t request here
    · cases taken
  | lock t =>
    dsimp only at taken
    split at taken
    · rename_i request here
      obtain ⟨i,home,locked⟩ := Option.bind_eq_some_iff.mp taken
      split at locked
      · rename_i free
        obtain ⟨rfl,rfl⟩ := Prod.mk.inj (Option.some.inj locked)
        exact Moved.locked t here home free
      · cases locked
    · cases taken
  | work t met =>
    dsimp only at taken
    split at taken
    · rename_i request i here
      obtain ⟨part,held,worked⟩ := Option.bind_eq_some_iff.mp taken
      obtain ⟨opening,found,same⟩ := Option.map_eq_some_iff.mp worked
      cases opening with
      | done part' reply =>
        obtain ⟨rfl,rfl⟩ := Prod.mk.inj same
        exact Moved.done t met here held found
      | access part' rest =>
        obtain ⟨rfl,rfl⟩ := Prod.mk.inj same
        exact Moved.opened t met here held found
    · cases taken
  | exchange t =>
    dsimp only at taken
    split at taken
    · rename_i request i met rest here
      obtain ⟨rfl,rfl⟩ := Prod.mk.inj (Option.some.inj taken)
      exact Moved.accessed t here
    · cases taken
  | finish t =>
    dsimp only at taken
    split at taken
    · rename_i request i rest cell here
      obtain ⟨rfl,rfl⟩ := Prod.mk.inj (Option.some.inj taken)
      exact Moved.finished t here
    · cases taken
  | unlock t =>
    dsimp only at taken
    split at taken
    · rename_i request i reply here
      obtain ⟨rfl,rfl⟩ := Prod.mk.inj (Option.some.inj taken)
      exact Moved.returned t here
    · cases taken

theorem moved_step (moved : Moved p m event m' seen) : m.step p event = some (m',seen) := by
  cases moved with
  | invoked t request here => simp [Machine.step, here]
  | locked t here home free => simp [Machine.step, here, home, free]
  | done t met here held opening => simp [Machine.step, here, held, opening]
  | opened t met here held opening => simp [Machine.step, here, held, opening]
  | accessed t here => simp [Machine.step, here]
  | finished t here => simp [Machine.step, here]
  | returned t here => simp [Machine.step, here]

theorem at_set {stages : List (Stage σ χ ι κ ρ)} {z : Stage σ χ ι κ ρ}
    (there : (stages.set t y)[u]? = some z) : (u = t ∧ z = y) ∨ (u ≠ t ∧ stages[u]? = some z) := by
  rw [List.getElem?_set] at there
  split at there
  · rename_i same
    split at there
    · exact Or.inl ⟨same.symm,(Option.some.inj there).symm⟩
    · cases there
  · rename_i other
    exact Or.inr ⟨fun same => other same.symm,there⟩

/-- A lock is taken exactly when one thread is inside, and then by that thread alone. -/
structure Guarded (p : Program σ χ ι κ ρ) (m : Machine σ χ ι κ ρ) : Prop where
  sizes : m.locks.length = m.memory.parts.length
  homed : ∀ (t : Nat) (x : Stage σ χ ι κ ρ) (q : ι) (i : Nat), m.threads[t]? = some x →
    x.inside = some (q,i) → p.home q m.memory.parts.length = some i
  inside : ∀ (t : Nat) (x : Stage σ χ ι κ ρ) i, m.threads[t]? = some x → x.lock = some i → m.locks[i]? = some true
  alone : ∀ (t u : Nat) (x y : Stage σ χ ι κ ρ) i, m.threads[t]? = some x → m.threads[u]? = some y →
    x.lock = some i → y.lock = some i → t = u
  taken : ∀ i, m.locks[i]? = some true → ∃ (t : Nat) (x : Stage σ χ ι κ ρ), m.threads[t]? = some x ∧ x.lock = some i

/-- A step of a thread that stays where it is with its lock. -/
theorem guarded_inside (guarded : Guarded p m) (here : m.threads[t]? = some x)
    (threads : m'.threads = m.threads.set t y) (same : y.inside = x.inside)
    (locks : m'.locks = m.locks)
    (sizes : m'.memory.parts.length = m.memory.parts.length) : Guarded p m' := by
  have back : ∀ (u : Nat) (z : Stage σ χ ι κ ρ), m'.threads[u]? = some z →
      ∃ z' : Stage σ χ ι κ ρ, m.threads[u]? = some z' ∧ z'.inside = z.inside := by
    intro u z there
    rw [threads] at there
    rcases at_set there with ⟨rfl,rfl⟩ | ⟨_,old⟩
    · exact ⟨x, here, same.symm⟩
    · exact ⟨z, old, rfl⟩
  have kept : ∀ {z z' : Stage σ χ ι κ ρ}, z'.inside = z.inside → z'.lock = z.lock :=
    fun equal => congrArg (Option.map Prod.snd) equal
  constructor
  · rw [locks, sizes]
    exact guarded.sizes
  · intro u z q i there inside
    obtain ⟨z',old,equal⟩ := back u z there
    rw [sizes]
    exact guarded.homed u z' q i old (equal.trans inside)
  · intro u z i there lock
    obtain ⟨z',old,equal⟩ := back u z there
    rw [locks]
    exact guarded.inside u z' i old ((kept equal).trans lock)
  · intro u v z w i there there' lock lock'
    obtain ⟨z',old,equal⟩ := back u z there
    obtain ⟨w',old',equal'⟩ := back v w there'
    exact guarded.alone u v z' w' i old old' ((kept equal).trans lock) ((kept equal').trans lock')
  · intro i locked
    rw [locks] at locked
    rw [threads]
    obtain ⟨u,z,there,lock⟩ := guarded.taken i locked
    by_cases own : u = t
    · subst own
      obtain rfl := Option.some.inj (here.symm.trans there)
      obtain ⟨small,_⟩ := List.getElem?_eq_some_iff.mp here
      exact ⟨u, y, by simp [small], (kept same.symm).symm.trans lock⟩
    · exact ⟨u, z, by rw [List.getElem?_set_ne (Ne.symm own)]; exact there, lock⟩

theorem guarded_locked {request : ι} (guarded : Guarded p m)
    (here : m.threads[t]? = some (.invoked request))
    (home : p.home request m.memory.parts.length = some i) (free : m.locks[i]? = some false) :
    Guarded p ({ m with locks := m.locks.set i true }.put t (.locked request i)) := by
  obtain ⟨small,_⟩ := List.getElem?_eq_some_iff.mp here
  obtain ⟨room,_⟩ := List.getElem?_eq_some_iff.mp free
  have empty : ∀ (u : Nat) (z : Stage σ χ ι κ ρ), m.threads[u]? = some z → z.lock ≠ some i := by
    intro u z there lock
    cases free.symm.trans (guarded.inside u z i there lock)
  constructor
  · exact (List.length_set ..).trans guarded.sizes
  · intro u z q j there inside
    rcases at_set there with ⟨rfl,rfl⟩ | ⟨_,old⟩
    · obtain ⟨rfl,rfl⟩ := Prod.mk.inj (Option.some.inj inside)
      exact home
    · exact guarded.homed u z q j old inside
  · intro u z j there lock
    rcases at_set there with ⟨rfl,rfl⟩ | ⟨_,old⟩
    · obtain rfl := Option.some.inj lock
      simp [Machine.put, room]
    · have other : i ≠ j := by
        rintro rfl
        exact empty u z old lock
      change (m.locks.set i true)[j]? = some true
      rw [List.getElem?_set_ne other]
      exact guarded.inside u z j old lock
  · intro u v z w j there there' lock lock'
    rcases at_set there with ⟨rfl,rfl⟩ | ⟨_,old⟩
    · obtain rfl := Option.some.inj lock
      rcases at_set there' with ⟨rfl,_⟩ | ⟨_,old'⟩
      · rfl
      · exact absurd lock' (empty v w old')
    · rcases at_set there' with ⟨rfl,rfl⟩ | ⟨_,old'⟩
      · obtain rfl := Option.some.inj lock'
        exact absurd lock (empty u z old)
      · exact guarded.alone u v z w j old old' lock lock'
  · intro j locked
    by_cases own : i = j
    · subst own
      exact ⟨t, .locked request i, by simp [Machine.put, small], rfl⟩
    · have before : m.locks[j]? = some true := by
        rw [← List.getElem?_set_ne own]
        exact locked
      obtain ⟨u,z,there,lock⟩ := guarded.taken j before
      have apart : t ≠ u := by
        rintro rfl
        obtain rfl := Option.some.inj (here.symm.trans there)
        cases lock
      exact ⟨u, z, by simpa [Machine.put, List.getElem?_set_ne apart] using there, lock⟩

theorem guarded_unlocked {request : ι} {reply : ρ} (guarded : Guarded p m)
    (here : m.threads[t]? = some (.finished request i reply)) :
    Guarded p ({ m with locks := m.locks.set i false }.put t .idle) := by
  have own : ∀ (u : Nat) (z : Stage σ χ ι κ ρ), m.threads[u]? = some z → z.lock = some i → u = t := by
    intro u z there lock
    exact guarded.alone u t z _ i there here lock rfl
  constructor
  · exact (List.length_set ..).trans guarded.sizes
  · intro u z q j there inside
    rcases at_set there with ⟨rfl,rfl⟩ | ⟨_,old⟩
    · cases inside
    · exact guarded.homed u z q j old inside
  · intro u z j there lock
    rcases at_set there with ⟨rfl,rfl⟩ | ⟨apart,old⟩
    · cases lock
    · have other : i ≠ j := by
        rintro rfl
        exact apart (own u z old lock)
      change (m.locks.set i false)[j]? = some true
      rw [List.getElem?_set_ne other]
      exact guarded.inside u z j old lock
  · intro u v z w j there there' lock lock'
    rcases at_set there with ⟨rfl,rfl⟩ | ⟨_,old⟩
    · cases lock
    · rcases at_set there' with ⟨rfl,rfl⟩ | ⟨_,old'⟩
      · cases lock'
      · exact guarded.alone u v z w j old old' lock lock'
  · intro j locked
    have other : i ≠ j := by
      rintro rfl
      have inside := guarded.inside t _ i here rfl
      obtain ⟨room,_⟩ := List.getElem?_eq_some_iff.mp inside
      simp [Machine.put, room] at locked
    have before : m.locks[j]? = some true := by
      rw [← List.getElem?_set_ne other]
      exact locked
    obtain ⟨u,z,there,lock⟩ := guarded.taken j before
    have apart : t ≠ u := by
      rintro rfl
      obtain rfl := Option.some.inj (here.symm.trans there)
      exact other (Option.some.inj lock)
    exact ⟨u, z, by simpa [Machine.put, List.getElem?_set_ne apart] using there, lock⟩

theorem guarded_step (guarded : Guarded p m) (moved : Moved p m event m' seen) :
    Guarded p m' := by
  cases moved with
  | invoked t request here => exact guarded_inside guarded here rfl rfl rfl rfl
  | locked t here home free => exact guarded_locked guarded here home free
  | done t met here held opening =>
    exact guarded_inside guarded here rfl rfl rfl (List.length_set ..)
  | opened t met here held opening =>
    exact guarded_inside guarded here rfl rfl rfl (List.length_set ..)
  | accessed t here => exact guarded_inside guarded here rfl rfl rfl rfl
  | finished t here =>
    exact guarded_inside guarded here rfl rfl rfl (List.length_set ..)
  | returned t here => exact guarded_unlocked guarded here

theorem start_idle {memory : Memory σ χ} {n : Nat}
    (here : (Machine.start memory n : Machine σ χ ι κ ρ).threads[t]? = some x) : x = .idle :=
  List.eq_of_mem_replicate (List.mem_of_getElem? here)

theorem guarded_start (p : Program σ χ ι κ ρ) (memory : Memory σ χ) (n : Nat) :
    Guarded p (.start memory n) := by
  constructor
  · exact List.length_replicate
  · intro t x q i here inside
    rw [start_idle here] at inside
    cases inside
  · intro t x i here lock
    rw [start_idle here] at lock
    cases lock
  · intro t u x y i here _ lock
    rw [start_idle here] at lock
    cases lock
  · intro i locked
    cases List.eq_of_mem_replicate (List.mem_of_getElem? locked)

/-- How many steps the call of a thread has before it. -/
def Stage.rank : Stage σ χ ι κ ρ → Nat
  | .idle => 0
  | .invoked _ => 5
  | .locked _ _ => 4
  | .opened _ _ _ _ => 3
  | .accessed _ _ _ _ => 2
  | .finished _ _ _ => 1

def Machine.rank (m : Machine σ χ ι κ ρ) : Nat := (m.threads.map Stage.rank).sum

/-- The request of a call that has not returned. -/
def Stage.request : Stage σ χ ι κ ρ → Option ι
  | .idle => none
  | .invoked request => some request
  | .locked request _ => some request
  | .opened request _ _ _ => some request
  | .accessed request _ _ _ => some request
  | .finished request _ _ => some request

def Machine.underWay (m : Machine σ χ ι κ ρ) : Nat :=
  m.threads.countP fun x => x.request.isSome

def Event.invokes : Event ι κ → Bool
  | .invoke _ _ => true
  | _ => false

theorem rank_set (here : m.threads[t]? = some x) (threads : m'.threads = m.threads.set t y) :
    m'.rank + x.rank = m.rank + y.rank := by
  obtain ⟨rest,whole,changed⟩ := sum_at (f := Stage.rank) here
  have after := changed y
  rw [Machine.rank, Machine.rank, threads, whole, after]
  omega

/-- A step brings its call nearer to its end, which it comes to with the return, unless it is
    an invocation. -/
theorem moved_stage (moved : Moved p m event m' seen) (calm : event.invokes = false) :
    ∃ (t : Nat) (x y : Stage σ χ ι κ ρ), m.threads[t]? = some x ∧ m'.threads = m.threads.set t y ∧
      y.rank + 1 ≤ x.rank ∧
      (y.request = x.request ∨ ∃ q reply, x.request = some q ∧ seen = some (.returned t q reply)) := by
  cases moved with
  | invoked => cases calm
  | @locked t request i here home free =>
    exact ⟨t, .invoked request, .locked request i, here, rfl, Nat.le_refl _, .inl rfl⟩
  | @done t met request i part part' reply here held opening =>
    exact ⟨t, .locked request i, .finished request i reply, here, rfl,
      Nat.le_of_lt_succ (by decide : 2 < 5), .inl rfl⟩
  | @opened t met request i part part' rest here held opening =>
    exact ⟨t, .locked request i, .opened request i met rest, here, rfl, Nat.le_refl _, .inl rfl⟩
  | @accessed t request i met rest here =>
    exact ⟨t, .opened request i met rest, .accessed request i rest (p.bump m.memory.cell), here,
      rfl, Nat.le_refl _, .inl rfl⟩
  | @finished t request i rest cell here =>
    exact ⟨t, .accessed request i rest cell, .finished request i (rest cell).2, here, rfl,
      Nat.le_refl _, .inl rfl⟩
  | @returned t request i reply here =>
    exact ⟨t, .finished request i reply, .idle, here, rfl, Nat.le_refl _,
      .inr ⟨request, reply, rfl, rfl⟩⟩

abbrev MachineStep (σ χ ι κ ρ : Type) :=
  Step (Machine σ χ ι κ ρ) (Event ι κ) (Option (Observed ι κ ρ))

/-- Without invocations a run takes at most the steps that the calls under way have before
    them. -/
theorem calm_bounded {steps : List (MachineStep σ χ ι κ ρ)}
    (run : Run (Machine.step p) m steps m') (calm : ∀ x ∈ steps, x.input.invokes = false) :
    steps.length + m'.rank ≤ m.rank := by
  induction run with
  | nil => simp
  | @snoc steps m₁ m₂ event seen _ taken ih =>
    have before := ih fun x mem => calm x (List.mem_append_left _ mem)
    have own := calm _ (List.mem_append_right _ (List.mem_singleton_self _))
    obtain ⟨t,x,y,here,threads,nearer,_⟩ := moved_stage (step_moved taken) own
    have counted := rank_set here threads
    rw [List.length_append, List.length_singleton]
    omega

theorem rank_underWay (m : Machine σ χ ι κ ρ) : m.rank ≤ 5 * m.underWay := by
  unfold Machine.rank Machine.underWay
  induction m.threads with
  | nil => simp
  | cons x rest ih =>
    have own : x.rank ≤ 5 * x.request.isSome.toNat := by
      cases x <;> simp [Stage.rank, Stage.request]
    rw [List.map_cons, List.sum_cons, List.countP_cons]
    cases asked : x.request.isSome <;> simp [asked] at own ⊢ <;> omega

/-- A call under way is still there, or has returned. -/
theorem call_returns_or_stays {steps : List (MachineStep σ χ ι κ ρ)} {q : ι}
    (run : Run (Machine.step p) m steps m') (calm : ∀ x ∈ steps, x.input.invokes = false)
    (here : m.threads[t]? = some x) (asked : x.request = some q) :
    (∃ y : Stage σ χ ι κ ρ, m'.threads[t]? = some y ∧ y.request = some q) ∨
      ∃ z ∈ steps, ∃ reply, z.output = some (.returned t q reply) := by
  induction run with
  | nil => exact .inl ⟨x,here,asked⟩
  | @snoc steps m₁ m₂ event seen _ taken ih =>
    have own := calm _ (List.mem_append_right _ (List.mem_singleton_self _))
    rcases ih fun z mem => calm z (List.mem_append_left _ mem) with ⟨y,there,still⟩ | ⟨z,mem,reply,out⟩
    · obtain ⟨u,before,after,stood,threads,_,kept⟩ := moved_stage (step_moved taken) own
      rw [threads]
      by_cases same : u = t
      · subst same
        obtain rfl := Option.some.inj (stood.symm.trans there)
        obtain ⟨small,_⟩ := List.getElem?_eq_some_iff.mp stood
        rcases kept with equal | ⟨q',reply,other,returned⟩
        · exact .inl ⟨after, by simp [small], equal.trans still⟩
        · obtain rfl := Option.some.inj (other.symm.trans still)
          exact .inr ⟨_, List.mem_append_right _ (List.mem_singleton_self _), reply, returned⟩
      · exact .inl ⟨y, by rw [List.getElem?_set_ne same]; exact there, still⟩
    · exact .inr ⟨z, List.mem_append_left _ mem, reply, out⟩

/-- While a call is on its way some thread can go on with one. -/
theorem goes_on (guarded : Guarded p m)
    (busy : ∃ (t : Nat) (x : Stage σ χ ι κ ρ), m.threads[t]? = some x ∧ x ≠ .idle)
    (homes : ∀ (t : Nat) q, m.threads[t]? = some (.invoked q) →
      ∃ i, p.home q m.memory.parts.length = some i ∧ i < m.memory.parts.length)
    (opens : ∀ (t : Nat) q (i : Nat) part, m.threads[t]? = some (.locked q i) →
      m.memory.parts[i]? = some part → ∃ k opening, p.opening q k part = some opening) :
    ∃ event m' seen, m.step p event = some (m',seen) ∧ event.invokes = false := by
  by_cases within : ∃ (t : Nat) (x : Stage σ χ ι κ ρ) (i : Nat), m.threads[t]? = some x ∧
      x.lock = some i
  · -- A thread inside never has to wait.
    obtain ⟨t,x,i,here,lock⟩ := within
    cases x with
    | idle | invoked => cases lock
    | locked q j =>
      obtain ⟨room,_⟩ := List.getElem?_eq_some_iff.mp (guarded.inside t _ j here rfl)
      have held := List.getElem?_eq_getElem (guarded.sizes ▸ room : j < m.memory.parts.length)
      obtain ⟨k,opening,found⟩ := opens t q j _ here held
      cases opening with
      | done part reply => exact ⟨_, _, _, moved_step (Moved.done t k here held found), rfl⟩
      | access part rest => exact ⟨_, _, _, moved_step (Moved.opened t k here held found), rfl⟩
    | opened => exact ⟨_, _, _, moved_step (Moved.accessed t here), rfl⟩
    | accessed => exact ⟨_, _, _, moved_step (Moved.finished t here), rfl⟩
    | finished => exact ⟨_, _, _, moved_step (Moved.returned t here), rfl⟩
  · -- With nobody inside every lock is free.
    obtain ⟨t,x,here,awake⟩ := busy
    cases x with
    | idle => exact absurd rfl awake
    | invoked q =>
      obtain ⟨i,home,small⟩ := homes t q here
      have room : i < m.locks.length := guarded.sizes ▸ small
      have free : m.locks[i]? = some false := by
        cases locked : m.locks[i] with
        | false => rw [List.getElem?_eq_getElem room, locked]
        | true =>
          obtain ⟨u,y,there,lock⟩ := guarded.taken i (by rw [List.getElem?_eq_getElem room, locked])
          exact absurd ⟨u,y,i,there,lock⟩ within
      exact ⟨_, _, _, moved_step (Moved.locked t here home free), rfl⟩
    | locked q i => exact absurd ⟨t,_,i,here,rfl⟩ within
    | opened q i => exact absurd ⟨t,_,i,here,rfl⟩ within
    | accessed q i => exact absurd ⟨t,_,i,here,rfl⟩ within
    | finished q i => exact absurd ⟨t,_,i,here,rfl⟩ within

end CriticalSections
