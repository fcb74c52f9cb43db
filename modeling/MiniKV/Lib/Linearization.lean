import MiniKV.Lib.CriticalSections

/- Every history of calls under locks is as if each call had happened at one instant between
   its invocation and its return. The instant is the exchange of the cell, or the work on the
   part when the call needs no exchange. A part may have been written before the instant and
   may be written after it; the lock keeps that from the other threads. -/
namespace CriticalSections
open StepRuns Partition

variable {σ χ ι κ ρ : Type}

/-- The part, the cell and the reply after the whole call. -/
def Opening.resolve (bump : χ → χ) (cell : χ) : Opening σ χ ρ → σ × χ × ρ
  | .done part reply => (part, cell, reply)
  | .access _ rest => ((rest (bump cell)).1, bump cell, (rest (bump cell)).2)

def Opening.map {τ : Type} (f : ρ → τ) : Opening σ χ ρ → Opening σ χ τ
  | .done part reply => .done part (f reply)
  | .access part rest => .access part fun cell => ((rest cell).1, f (rest cell).2)

/-- A call as one instant. -/
def Program.atomic (p : Program σ χ ι κ ρ) (s : Memory σ χ) (work : ι × κ) :
    Option (Memory σ χ × ρ) :=
  (stepAt (p.home work.1 s.parts.length)
    (fun part => (p.opening work.1 work.2 part).map (Opening.resolve p.bump s.cell)) s.parts).map
      fun done => (⟨done.1,done.2.1⟩, done.2.2)

/-- A history with the instants at which the calls happen. -/
inductive Mark (ι κ ρ : Type) where
  | invoked (t : Nat) (request : ι)
  | met (t : Nat) (request : ι) (met : κ)
  | effective (t : Nat) (request : ι) (met : κ) (reply : ρ)
  | returned (t : Nat) (request : ι) (reply : ρ)

def Mark.thread : Mark ι κ ρ → Nat
  | .invoked t _ => t
  | .met t _ _ => t
  | .effective t _ _ _ => t
  | .returned t _ _ => t

def Mark.observed : Mark ι κ ρ → Option (Observed ι κ ρ)
  | .invoked t request => some (.invoked t request)
  | .met t request k => some (.met t request k)
  | .effective _ _ _ _ => none
  | .returned t request reply => some (.returned t request reply)

def Mark.effect : Mark ι κ ρ → Option ((ι × κ) × ρ)
  | .effective _ request k reply => some ((request,k),reply)
  | _ => none

inductive Status (ι κ ρ : Type) where
  | idle
  | invoked (request : ι)
  | met (request : ι) (met : κ)
  | settled (request : ι) (reply : ρ)

/-- The marks of one thread: every call is invoked, meets what it meets, happens once with
    that, and returns with the reply that it then had; the last one may be on its way. -/
inductive Along : List (Mark ι κ ρ) → Status ι κ ρ → Prop where
  | nil : Along [] .idle
  | invoked {marks : List (Mark ι κ ρ)} (t : Nat) (request : ι) (before : Along marks .idle) :
      Along (marks ++ [.invoked t request]) (.invoked request)
  | met {marks : List (Mark ι κ ρ)} {request : ι} (t : Nat) (met : κ)
      (before : Along marks (.invoked request)) :
      Along (marks ++ [.met t request met]) (.met request met)
  | effective {marks : List (Mark ι κ ρ)} {request : ι} {met : κ} (t : Nat) (reply : ρ)
      (before : Along marks (.met request met)) :
      Along (marks ++ [.effective t request met reply]) (.settled request reply)
  | returned {marks : List (Mark ι κ ρ)} {request : ι} {reply : ρ} (t : Nat)
      (before : Along marks (.settled request reply)) :
      Along (marks ++ [.returned t request reply]) .idle

def marksOf (t : Nat) (trace : List (Mark ι κ ρ)) : List (Mark ι κ ρ) :=
  trace.filter fun mark => mark.thread = t

/-- The requests that reached a part, with what they met there, in their order. -/
def visits (home : ι → Option Nat) (i : Nat) (history : List (Observed ι κ ρ)) : List (ι × κ) :=
  history.filterMap fun
    | .met _ request k => if home request = some i then some (request,k) else none
    | _ => none

/-- An order of the calls as instants that explains a history: each lies between the
    invocation and the return of its call, and one after the other they give the replies.
    Calls of one part happen in the order in which they reached it. -/
structure Linearizes {μ : Type} (home : ι → Option Nat) (atomic : μ → ι × κ → Option (μ × ρ))
    (start : μ) (history : List (Observed ι κ ρ)) (trace : List (Mark ι κ ρ))
    (steps : List (Step μ (ι × κ) ρ)) (last : μ) : Prop where
  observed : trace.filterMap Mark.observed = history
  threads : ∀ t, ∃ status, Along (marksOf t trace) status
  run : Run atomic start steps last
  effects : steps.map (fun x => (x.input,x.output)) = trace.filterMap Mark.effect
  order : ∀ i, (steps.map Step.input).filter (fun work => home work.1 = some i) <+:
    visits home i history

variable {p : Program σ χ ι κ ρ} {m m' : Machine σ χ ι κ ρ} {event : Event ι κ}
  {seen : Option (Observed ι κ ρ)} {t u i : Nat} {x y : Stage σ χ ι κ ρ} {s s' : Memory σ χ}

/-- How the memory of a part relates to the part as the instants have it. A call that has
    not reached its instant has written the part already; one that is past it has not yet
    written all. -/
def Stage.Shows (p : Program σ χ ι κ ρ) (now seen : σ) : Stage σ χ ι κ ρ → Prop
  | .idle => now = seen
  | .invoked _ => now = seen
  | .locked _ _ => now = seen
  | .opened request _ met rest => p.opening request met seen = some (.access now rest)
  | .accessed _ _ rest cell => seen = (rest cell).1
  | .finished _ _ _ => now = seen

structure Mirrors (p : Program σ χ ι κ ρ) (m : Machine σ χ ι κ ρ) (s : Memory σ χ) : Prop where
  sizes : s.parts.length = m.memory.parts.length
  cell : s.cell = m.memory.cell
  inside : ∀ (t : Nat) (x : Stage σ χ ι κ ρ) (i : Nat) (now seen : σ), m.threads[t]? = some x →
    x.lock = some i → m.memory.parts[i]? = some now → s.parts[i]? = some seen → x.Shows p now seen
  outside : ∀ i : Nat, m.locks[i]? = some false → s.parts[i]? = m.memory.parts[i]?

/-- The part of a thread inside, in the memory and at the instants. -/
theorem mirrors_at (guarded : Guarded p m) (mirrors : Mirrors p m s)
    (here : m.threads[t]? = some x) (lock : x.lock = some i) :
    ∃ now seen, m.memory.parts[i]? = some now ∧ s.parts[i]? = some seen ∧ x.Shows p now seen := by
  obtain ⟨room,_⟩ := List.getElem?_eq_some_iff.mp (guarded.inside t x i here lock)
  have first : i < m.memory.parts.length := guarded.sizes ▸ room
  have second : i < s.parts.length := mirrors.sizes ▸ first
  refine ⟨_, _, List.getElem?_eq_getElem first, List.getElem?_eq_getElem second, ?_⟩
  exact mirrors.inside t x i _ _ here lock (List.getElem?_eq_getElem first)
    (List.getElem?_eq_getElem second)

/-- A step of a thread inside: it alone may write the part, in the memory and at the
    instants. -/
theorem mirrors_inside {now seen : σ} (guarded : Guarded p m) (mirrors : Mirrors p m s)
    (here : m.threads[t]? = some x) (threads : m'.threads = m.threads.set t y)
    (lock : x.lock = some i) (same : y.lock = some i) (locks : m'.locks = m.locks)
    (memory : m'.memory.parts = m.memory.parts.set i now) (instant : s'.parts = s.parts.set i seen)
    (cell : s'.cell = m'.memory.cell) (shows : y.Shows p now seen) : Mirrors p m' s' := by
  have locked := guarded.inside t x i here lock
  obtain ⟨room,_⟩ := List.getElem?_eq_some_iff.mp locked
  have first : i < m.memory.parts.length := guarded.sizes ▸ room
  have second : i < s.parts.length := mirrors.sizes ▸ first
  constructor
  · rw [memory, instant, List.length_set, List.length_set]
    exact mirrors.sizes
  · exact cell
  · intro u z j now' seen' there lock' held held'
    rw [threads] at there
    rw [memory] at held
    rw [instant] at held'
    rcases at_set there with ⟨rfl,rfl⟩ | ⟨apart,old⟩
    · obtain rfl := Option.some.inj (same.symm.trans lock')
      rw [List.getElem?_set_self first] at held
      rw [List.getElem?_set_self second] at held'
      obtain rfl := Option.some.inj held
      obtain rfl := Option.some.inj held'
      exact shows
    · have other : i ≠ j := by
        rintro rfl
        exact apart (guarded.alone u t z x i old here lock' lock)
      rw [List.getElem?_set_ne other] at held held'
      exact mirrors.inside u z j now' seen' old lock' held held'
  · intro j free
    rw [locks] at free
    have other : i ≠ j := by
      rintro rfl
      cases locked.symm.trans free
    rw [memory, instant, List.getElem?_set_ne other, List.getElem?_set_ne other]
    exact mirrors.outside j free

theorem mirrors_invoked {request : ι} (mirrors : Mirrors p m s) :
    Mirrors p (m.put t (.invoked request)) s := by
  constructor
  · exact mirrors.sizes
  · exact mirrors.cell
  · intro u z i now seen there lock held held'
    rcases at_set there with ⟨_,rfl⟩ | ⟨_,old⟩
    · cases lock
    · exact mirrors.inside u z i now seen old lock held held'
  · exact mirrors.outside

theorem mirrors_locked {request : ι} (mirrors : Mirrors p m s) (free : m.locks[i]? = some false) :
    Mirrors p ({ m with locks := m.locks.set i true }.put t (.locked request i)) s := by
  constructor
  · exact mirrors.sizes
  · exact mirrors.cell
  · intro u z j now seen there lock held held'
    rcases at_set there with ⟨_,rfl⟩ | ⟨_,old⟩
    · obtain rfl := Option.some.inj lock
      have equal := mirrors.outside i free
      exact (Option.some.inj (held'.symm.trans (equal.trans held))).symm
    · exact mirrors.inside u z j now seen old lock held held'
  · intro j free'
    by_cases own : i = j
    · subst own
      exact mirrors.outside i free
    · refine mirrors.outside j ?_
      rw [← List.getElem?_set_ne own]
      exact free'

theorem mirrors_unlocked {request : ι} {reply : ρ} (guarded : Guarded p m)
    (mirrors : Mirrors p m s) (here : m.threads[t]? = some (.finished request i reply)) :
    Mirrors p ({ m with locks := m.locks.set i false }.put t .idle) s := by
  constructor
  · exact mirrors.sizes
  · exact mirrors.cell
  · intro u z j now seen there lock held held'
    rcases at_set there with ⟨_,rfl⟩ | ⟨_,old⟩
    · cases lock
    · exact mirrors.inside u z j now seen old lock held held'
  · intro j free
    by_cases own : i = j
    · subst own
      obtain ⟨now,seen,held,held',equal⟩ := mirrors_at guarded mirrors here rfl
      exact held'.trans ((congrArg some (show now = seen from equal)).symm.trans held.symm)
    · refine mirrors.outside j ?_
      rw [← List.getElem?_set_ne own]
      exact free

/-- A call between its first work on its part and its last. -/
def Stage.midway : Stage σ χ ι κ ρ → Option Nat
  | .opened _ i _ _ => some i
  | .accessed _ i _ _ => some i
  | _ => none

/-- A part that no call is in the middle of is as the instants have it. -/
theorem mirrors_quiet (guarded : Guarded p m) (mirrors : Mirrors p m s)
    (quiet : ∀ (t : Nat) (x : Stage σ χ ι κ ρ), m.threads[t]? = some x → x.midway ≠ some i) :
    m.memory.parts[i]? = s.parts[i]? := by
  cases locked : m.locks[i]? with
  | none =>
    rw [List.getElem?_eq_none_iff, guarded.sizes] at locked
    rw [List.getElem?_eq_none locked, List.getElem?_eq_none (mirrors.sizes ▸ locked)]
  | some taken =>
    cases taken with
    | false => exact (mirrors.outside i locked).symm
    | true =>
      obtain ⟨t,x,here,lock⟩ := guarded.taken i locked
      obtain ⟨now,seen,held,held',shows⟩ := mirrors_at guarded mirrors here lock
      have still := quiet t x here
      cases x with
      | idle | invoked => cases lock
      | opened | accessed => exact absurd lock still
      | locked | finished =>
        rw [held, held', show now = seen from shows]

theorem set_same {xs : List σ} {a : σ} (here : xs[i]? = some a) : xs.set i a = xs := by
  obtain ⟨small,rfl⟩ := List.getElem?_eq_some_iff.mp here
  exact List.set_getElem_self small

/-- The instant of a call, in a memory that holds its part as the call found it. -/
theorem atomic_of {request : ι} {met : κ} {seen : σ} {opening : Opening σ χ ρ}
    (home : p.home request s.parts.length = some i) (held : s.parts[i]? = some seen)
    (opens : p.opening request met seen = some opening) :
    p.atomic s (request,met) = some (⟨s.parts.set i (opening.resolve p.bump s.cell).1,
      (opening.resolve p.bump s.cell).2.1⟩, (opening.resolve p.bump s.cell).2.2) := by
  have stepped : stepAt (p.home request s.parts.length)
      (fun part => (p.opening request met part).map (Opening.resolve p.bump s.cell)) s.parts =
        some (s.parts.set i (opening.resolve p.bump s.cell).1,
          (opening.resolve p.bump s.cell).2) := by
    refine stepAt_some_iff.mpr ⟨i, seen, (opening.resolve p.bump s.cell).1, home, held, ?_, rfl⟩
    rw [opens]
    rfl
  rw [Program.atomic, stepped]
  rfl

/-- The call of a thread that has worked on its part and not yet reached its instant. -/
def Stage.waiting : Stage σ χ ι κ ρ → Option (Nat × (ι × κ))
  | .opened request i met _ => some (i,(request,met))
  | _ => none

def Stage.status : Stage σ χ ι κ ρ → Status ι κ ρ
  | .idle => .idle
  | .invoked request => .invoked request
  | .locked request _ => .invoked request
  | .opened request _ met _ => .met request met
  | .accessed request _ rest cell => .settled request (rest cell).2
  | .finished request _ reply => .settled request reply

/-- The calls that reached a part and those that happened there differ by the one that
    waits. -/
inductive Behind (m : Machine σ χ ι κ ρ) (i : Nat) (done : List (ι × κ)) :
    List (ι × κ) → Prop where
  | level (none : ∀ (t : Nat) (x : Stage σ χ ι κ ρ) (w : ι × κ), m.threads[t]? = some x →
      x.waiting ≠ some (i,w)) : Behind m i done done
  | waits {t : Nat} {x : Stage σ χ ι κ ρ} {w : ι × κ} (here : m.threads[t]? = some x)
      (waits : x.waiting = some (i,w)) : Behind m i done (done ++ [w])

theorem behind_prefix {done reached : List (ι × κ)} (behind : Behind m i done reached) :
    done <+: reached := by
  cases behind with
  | level => exact List.prefix_rfl
  | waits => exact List.prefix_append ..

theorem waiting_lock {w : ι × κ} (waits : x.waiting = some (i,w)) : x.lock = some i := by
  cases x with
  | opened request j met rest =>
    obtain ⟨rfl,_⟩ := Prod.mk.inj (Option.some.inj waits)
    rfl
  | idle | invoked | locked | accessed | finished => cases waits

/-- What one step adds to the explanation. -/
structure Advances (p : Program σ χ ι κ ρ) (m m' : Machine σ χ ι κ ρ)
    (seen : Option (Observed ι κ ρ)) (s s' : Memory σ χ) (t : Nat) (x y : Stage σ χ ι κ ρ)
    (marks : List (Mark ι κ ρ)) (steps : List (Step (Memory σ χ) (ι × κ) ρ)) : Prop where
  here : m.threads[t]? = some x
  threads : m'.threads = m.threads.set t y
  own : ∀ mark ∈ marks, mark.thread = t
  observed : marks.filterMap Mark.observed = seen.toList
  along : ∀ before, Along before x.status → Along (before ++ marks) y.status
  effects : steps.map (fun x => (x.input,x.output)) = marks.filterMap Mark.effect
  run : Run p.atomic s steps s'
  mirrors : Mirrors p m' s'
  order : ∀ i done reached, Behind m i done reached →
    Behind m' i (done ++ (steps.map Step.input).filter
      (fun work => p.home work.1 m.memory.parts.length = some i))
      (reached ++ visits (fun request => p.home request m.memory.parts.length) i seen.toList)

/-- Nobody waits before the step or after it at the thread that moves. -/
theorem behind_still {j : Nat} {done reached : List (ι × κ)} (here : m.threads[t]? = some x)
    (threads : m'.threads = m.threads.set t y)
    (before : ∀ w, x.waiting ≠ some (j,w)) (after : ∀ w, y.waiting ≠ some (j,w))
    (behind : Behind m j done reached) : Behind m' j done reached := by
  cases behind with
  | level free =>
    refine Behind.level ?_
    intro u z w there
    rw [threads] at there
    rcases at_set there with ⟨_,rfl⟩ | ⟨_,old⟩
    · exact after w
    · exact free u z w old
  | @waits u z w there waits =>
    have apart : t ≠ u := by
      rintro rfl
      obtain rfl := Option.some.inj (here.symm.trans there)
      exact before w waits
    have still : m'.threads[u]? = some z := by
      rw [threads, List.getElem?_set_ne apart]
      exact there
    exact Behind.waits still waits

/-- At the part of a thread inside, the one that waits can only be that thread. -/
theorem behind_own {done reached : List (ι × κ)} (guarded : Guarded p m)
    (here : m.threads[t]? = some x) (lock : x.lock = some i) (behind : Behind m i done reached) :
    (reached = done ∧ ∀ w, x.waiting ≠ some (i,w)) ∨
      ∃ w, x.waiting = some (i,w) ∧ reached = done ++ [w] := by
  cases behind with
  | level free => exact Or.inl ⟨rfl, fun w => free t x w here⟩
  | @waits u z w there waits =>
    obtain rfl := guarded.alone t u x z i here there lock (waiting_lock waits)
    obtain rfl := Option.some.inj (here.symm.trans there)
    exact Or.inr ⟨w, waits, rfl⟩

theorem behind_level {done : List (ι × κ)} (guarded : Guarded p m) (here : m.threads[t]? = some x)
    (threads : m'.threads = m.threads.set t y) (lock : x.lock = some i)
    (after : ∀ w, y.waiting ≠ some (i,w)) : Behind m' i done done := by
  refine Behind.level ?_
  intro u z w there waits
  rw [threads] at there
  rcases at_set there with ⟨_,rfl⟩ | ⟨apart,old⟩
  · exact after w waits
  · exact apart (guarded.alone u t z x i old here (waiting_lock waits) lock)

theorem at_own (here : m.threads[t]? = some x) (threads : m'.threads = m.threads.set t y) :
    m'.threads[t]? = some y := by
  obtain ⟨small,_⟩ := List.getElem?_eq_some_iff.mp here
  rw [threads, List.getElem?_set_self small]

/-- A thread that does not work on its part, now or later, moves nobody's order. -/
theorem order_still {seen : Option (Observed ι κ ρ)} (here : m.threads[t]? = some x)
    (threads : m'.threads = m.threads.set t y) (before : x.waiting = none)
    (after : y.waiting = none) (home : ι → Option Nat) (unmet : ∀ u q k, seen ≠ some (.met u q k))
    (i : Nat) (done reached : List (ι × κ)) (behind : Behind m i done reached) :
    Behind m' i (done ++ []) (reached ++ visits home i seen.toList) := by
  have silent : visits home i seen.toList = [] := by
    cases seen with
    | none => rfl
    | some o =>
      cases o with
      | met u q k => exact absurd rfl (unmet u q k)
      | invoked | returned => rfl
  rw [silent, List.append_nil, List.append_nil]
  refine behind_still here threads ?_ ?_ behind
  · intro w waits
    cases before.symm.trans waits
  · intro w waits
    cases after.symm.trans waits

theorem visits_met (home : ι → Option Nat) (i : Nat) (t : Nat) (q : ι) (k : κ) :
    visits (ρ := ρ) home i [.met t q k] = [(q,k)].filter fun work => home work.1 = some i := by
  by_cases at_home : home q = some i <;> simp [visits, at_home]

theorem filter_own {q : ι} {k : κ} {n : Nat} (home : p.home q n = some i) :
    ([(q,k)].filter fun work => p.home work.1 n = some i) = [(q,k)] := by
  simp [home]

theorem filter_elsewhere {q : ι} {k : κ} {n j : Nat} (home : p.home q n = some i) (other : j ≠ i) :
    ([(q,k)].filter fun work => p.home work.1 n = some j) = [] := by
  simp [home, Ne.symm other]

/-- A thread inside leaves the order of the other parts. -/
theorem behind_elsewhere {j : Nat} {done reached : List (ι × κ)} (here : m.threads[t]? = some x)
    (threads : m'.threads = m.threads.set t y) (lock : x.lock = some i) (same : y.lock = some i)
    (other : j ≠ i) (behind : Behind m j done reached) : Behind m' j done reached := by
  refine behind_still here threads ?_ ?_ behind
  · intro w waits
    exact other (Option.some.inj ((waiting_lock waits).symm.trans lock))
  · intro w waits
    exact other (Option.some.inj ((waiting_lock waits).symm.trans same))

theorem advances_done {met : κ} {request : ι} {part part' : σ} {reply : ρ}
    (guarded : Guarded p m) (mirrors : Mirrors p m s)
    (here : m.threads[t]? = some (.locked request i)) (held : m.memory.parts[i]? = some part)
    (opening : p.opening request met part = some (.done part' reply)) :
    Advances p m ((m.write i part').put t (.finished request i reply)) (some (.met t request met))
      s ⟨s.parts.set i part',s.cell⟩ t (.locked request i) (.finished request i reply)
      [.met t request met,.effective t request met reply]
      [⟨s,(request,met),reply,⟨s.parts.set i part',s.cell⟩⟩] := by
  obtain ⟨now,seen,held',instant,equal⟩ := mirrors_at guarded mirrors here rfl
  obtain rfl := Option.some.inj (held.symm.trans held')
  obtain rfl : part = seen := equal
  have home := guarded.homed t _ request i here rfl
  have happens : p.atomic s (request,met) = some (⟨s.parts.set i part',s.cell⟩,reply) :=
    atomic_of (mirrors.sizes ▸ home) instant opening
  constructor
  · exact here
  · rfl
  · simp [Mark.thread]
  · rfl
  · intro before along
    have twice := Along.effective t reply (Along.met t met along)
    rwa [List.append_assoc] at twice
  · rfl
  · exact Run.snoc Run.nil happens
  · exact mirrors_inside guarded mirrors here rfl rfl rfl rfl rfl rfl mirrors.cell rfl
  · intro j done reached behind
    rw [Option.toList_some, visits_met]
    by_cases own : j = i
    · subst own
      rcases behind_own guarded here rfl behind with ⟨rfl,_⟩ | ⟨w,waits,_⟩
      · exact behind_level guarded here rfl rfl fun w => by simp [Stage.waiting]
      · cases waits
    · rw [List.map_singleton, filter_elsewhere home own, List.append_nil, List.append_nil]
      exact behind_elsewhere here rfl rfl rfl own behind

theorem advances_opened {met : κ} {request : ι} {part part' : σ} {rest : χ → σ × ρ}
    (guarded : Guarded p m) (mirrors : Mirrors p m s)
    (here : m.threads[t]? = some (.locked request i)) (held : m.memory.parts[i]? = some part)
    (opening : p.opening request met part = some (.access part' rest)) :
    Advances p m ((m.write i part').put t (.opened request i met rest)) (some (.met t request met))
      s s t (.locked request i) (.opened request i met rest) [.met t request met] [] := by
  obtain ⟨now,seen,held',instant,equal⟩ := mirrors_at guarded mirrors here rfl
  obtain rfl := Option.some.inj (held.symm.trans held')
  obtain rfl : part = seen := equal
  have home := guarded.homed t _ request i here rfl
  constructor
  · exact here
  · rfl
  · simp [Mark.thread]
  · rfl
  · intro before along
    exact Along.met t met along
  · rfl
  · exact Run.nil
  · exact mirrors_inside guarded mirrors here rfl rfl rfl rfl rfl (set_same instant).symm
      mirrors.cell opening
  · intro j done reached behind
    rw [Option.toList_some, visits_met, List.map_nil, List.filter_nil, List.append_nil]
    by_cases own : j = i
    · subst own
      rcases behind_own guarded here rfl behind with ⟨rfl,_⟩ | ⟨w,waits,_⟩
      · rw [filter_own home]
        exact Behind.waits (at_own here rfl) rfl
      · cases waits
    · rw [filter_elsewhere home own, List.append_nil]
      exact behind_elsewhere here rfl rfl rfl own behind

theorem advances_accessed {met : κ} {request : ι} {rest : χ → σ × ρ}
    (guarded : Guarded p m) (mirrors : Mirrors p m s)
    (here : m.threads[t]? = some (.opened request i met rest)) :
    Advances p m ({ m with memory := { m.memory with cell := p.bump m.memory.cell } }.put t
        (.accessed request i rest (p.bump m.memory.cell))) none s
      ⟨s.parts.set i (rest (p.bump m.memory.cell)).1,p.bump m.memory.cell⟩ t
      (.opened request i met rest) (.accessed request i rest (p.bump m.memory.cell))
      [.effective t request met (rest (p.bump m.memory.cell)).2]
      [⟨s,(request,met),(rest (p.bump m.memory.cell)).2,
        ⟨s.parts.set i (rest (p.bump m.memory.cell)).1,p.bump m.memory.cell⟩⟩] := by
  obtain ⟨now,seen,held,instant,opens⟩ := mirrors_at guarded mirrors here rfl
  have home := guarded.homed t _ request i here rfl
  have happens : p.atomic s (request,met) = some
      (⟨s.parts.set i (rest (p.bump m.memory.cell)).1,p.bump m.memory.cell⟩,
        (rest (p.bump m.memory.cell)).2) := by
    rw [← mirrors.cell]
    exact atomic_of (mirrors.sizes ▸ home) instant opens
  constructor
  · exact here
  · rfl
  · simp [Mark.thread]
  · rfl
  · intro before along
    exact Along.effective t _ along
  · rfl
  · exact Run.snoc Run.nil happens
  · exact mirrors_inside guarded mirrors here rfl rfl rfl rfl (set_same held).symm rfl rfl rfl
  · intro j done reached behind
    rw [Option.toList_none, visits, List.filterMap_nil, List.append_nil, List.map_singleton]
    by_cases own : j = i
    · subst own
      rcases behind_own guarded here rfl behind with ⟨_,free⟩ | ⟨w,waits,rfl⟩
      · exact absurd rfl (free (request,met))
      · obtain ⟨_,rfl⟩ := Prod.mk.inj (Option.some.inj waits)
        rw [filter_own home]
        exact behind_level guarded here rfl rfl fun w => by simp [Stage.waiting]
    · rw [filter_elsewhere home own, List.append_nil]
      exact behind_elsewhere here rfl rfl rfl own behind

theorem advances_finished {request : ι} {rest : χ → σ × ρ} {cell : χ} (guarded : Guarded p m)
    (mirrors : Mirrors p m s) (here : m.threads[t]? = some (.accessed request i rest cell)) :
    Advances p m ((m.write i (rest cell).1).put t (.finished request i (rest cell).2)) none s s t
      (.accessed request i rest cell) (.finished request i (rest cell).2) [] [] := by
  obtain ⟨now,seen,_,instant,equal⟩ := mirrors_at guarded mirrors here rfl
  obtain rfl : seen = (rest cell).1 := equal
  constructor
  · exact here
  · rfl
  · simp
  · rfl
  · intro before along
    rwa [List.append_nil]
  · rfl
  · exact Run.nil
  · exact mirrors_inside guarded mirrors here rfl rfl rfl rfl rfl (set_same instant).symm
      mirrors.cell rfl
  · exact order_still here rfl rfl rfl _ (by simp)

/-- Every step is explained by at most one call that happens at it. -/
theorem moved_advances (guarded : Guarded p m) (mirrors : Mirrors p m s)
    (moved : Moved p m event m' seen) :
    ∃ s' t x y marks steps, Advances p m m' seen s s' t x y marks steps := by
  cases moved with
  | invoked t request here =>
    refine ⟨s, t, .idle, .invoked request, [.invoked t request], [], ?_⟩
    exact ⟨here, rfl, by simp [Mark.thread], rfl, fun _ along => Along.invoked t request along, rfl,
      Run.nil, mirrors_invoked mirrors, order_still here rfl rfl rfl _ (by simp)⟩
  | @locked t request i here home free =>
    refine ⟨s, t, .invoked request, .locked request i, [], [], ?_⟩
    exact ⟨here, rfl, by simp, rfl, fun _ along => by rwa [List.append_nil], rfl,
      Run.nil, mirrors_locked mirrors free, order_still here rfl rfl rfl _ (by simp)⟩
  | done t met here held opening =>
    exact ⟨_, t, _, _, _, _, advances_done guarded mirrors here held opening⟩
  | opened t met here held opening =>
    exact ⟨_, t, _, _, _, _, advances_opened guarded mirrors here held opening⟩
  | accessed t here => exact ⟨_, t, _, _, _, _, advances_accessed guarded mirrors here⟩
  | finished t here => exact ⟨_, t, _, _, _, _, advances_finished guarded mirrors here⟩
  | @returned t request i reply here =>
    refine ⟨s, t, .finished request i reply, .idle, [.returned t request reply], [], ?_⟩
    exact ⟨here, rfl, by simp [Mark.thread], rfl, fun _ along => Along.returned t along, rfl,
      Run.nil, mirrors_unlocked guarded mirrors here, order_still here rfl rfl rfl _ (by simp)⟩

/-- A run so far, with an order of the calls that explains it. -/
structure Explained (p : Program σ χ ι κ ρ) (start : Memory σ χ) (m : Machine σ χ ι κ ρ)
    (history : List (Observed ι κ ρ)) (trace : List (Mark ι κ ρ))
    (steps : List (Step (Memory σ χ) (ι × κ) ρ)) (s : Memory σ χ) : Prop where
  guarded : Guarded p m
  size : m.memory.parts.length = start.parts.length
  mirrors : Mirrors p m s
  observed : trace.filterMap Mark.observed = history
  along : ∀ (t : Nat) (x : Stage σ χ ι κ ρ), m.threads[t]? = some x →
    Along (marksOf t trace) x.status
  absent : ∀ t, m.threads.length ≤ t → marksOf t trace = []
  run : Run p.atomic start steps s
  effects : steps.map (fun x => (x.input,x.output)) = trace.filterMap Mark.effect
  order : ∀ i, Behind m i
    ((steps.map Step.input).filter fun work => p.home work.1 start.parts.length = some i)
    (visits (fun request => p.home request start.parts.length) i history)

theorem moved_size (moved : Moved p m event m' seen) :
    m'.memory.parts.length = m.memory.parts.length := by
  cases moved with
  | done | opened | finished => exact List.length_set ..
  | invoked | locked | accessed | returned => rfl

theorem marksOf_append (t : Nat) (first second : List (Mark ι κ ρ)) :
    marksOf t (first ++ second) = marksOf t first ++ marksOf t second := List.filter_append ..

theorem marksOf_own {marks : List (Mark ι κ ρ)} (own : ∀ mark ∈ marks, mark.thread = t) :
    marksOf t marks = marks := by
  rw [marksOf, List.filter_eq_self]
  intro mark mem
  simp [own mark mem]

theorem marksOf_other {marks : List (Mark ι κ ρ)} (own : ∀ mark ∈ marks, mark.thread = t)
    (other : u ≠ t) : marksOf u marks = [] := by
  rw [marksOf, List.filter_eq_nil_iff]
  intro mark mem
  simp [own mark mem, Ne.symm other]

theorem explained_step {start : Memory σ χ} {history : List (Observed ι κ ρ)}
    {trace : List (Mark ι κ ρ)} {steps : List (Step (Memory σ χ) (ι × κ) ρ)}
    (explained : Explained p start m history trace steps s) (moved : Moved p m event m' seen) :
    ∃ trace' steps' s', Explained p start m' (history ++ seen.toList) trace' steps' s' := by
  obtain ⟨s',t,x,y,marks,more,advances⟩ := moved_advances explained.guarded explained.mirrors moved
  refine ⟨trace ++ marks, steps ++ more, s', ?_⟩
  constructor
  · exact guarded_step explained.guarded moved
  · exact (moved_size moved).trans explained.size
  · exact advances.mirrors
  · rw [List.filterMap_append, explained.observed, advances.observed]
  · intro u z there
    rw [marksOf_append]
    rw [advances.threads] at there
    rcases at_set there with ⟨rfl,rfl⟩ | ⟨other,old⟩
    · rw [marksOf_own advances.own]
      exact advances.along _ (explained.along u x advances.here)
    · rw [marksOf_other advances.own other, List.append_nil]
      exact explained.along u z old
  · intro u big
    rw [advances.threads, List.length_set] at big
    have other : u ≠ t := by
      rintro rfl
      obtain ⟨small,_⟩ := List.getElem?_eq_some_iff.mp advances.here
      omega
    rw [marksOf_append, marksOf_other advances.own other, explained.absent u big, List.append_nil]
  · exact run_append explained.run advances.run
  · rw [List.map_append, List.filterMap_append, explained.effects, advances.effects]
  · intro i
    have more := advances.order i _ _ (explained.order i)
    rw [List.map_append, List.filter_append, visits, List.filterMap_append]
    rw [explained.size] at more
    exact more

theorem explained_start (p : Program σ χ ι κ ρ) (memory : Memory σ χ) (n : Nat) :
    Explained p memory (.start memory n) [] [] [] memory := by
  constructor
  · exact guarded_start p memory n
  · rfl
  · constructor
    · rfl
    · rfl
    · intro t x i now seen here lock
      rw [start_idle here] at lock
      cases lock
    · exact fun _ _ => rfl
  · rfl
  · intro t x here
    rw [start_idle here]
    exact Along.nil
  · exact fun _ _ => rfl
  · exact Run.nil
  · rfl
  · intro i
    refine Behind.level ?_
    intro t x w here
    rw [start_idle here]
    simp [Stage.waiting]

/-- What the threads showed of themselves along a run. -/
def shown (steps : List (MachineStep σ χ ι κ ρ)) : List (Observed ι κ ρ) :=
  steps.flatMap fun x => x.output.toList

theorem run_explained {memory : Memory σ χ} {n : Nat}
    {steps : List (MachineStep σ χ ι κ ρ)}
    (run : Run (Machine.step p) (.start memory n) steps m) :
    ∃ trace works s, Explained p memory m (shown steps) trace works s := by
  refine run_invariant (fun steps m => ∃ trace works s,
    Explained p memory m (shown steps) trace works s) ?_ ?_ run
  · exact ⟨[], [], memory, explained_start p memory n⟩
  · rintro steps m event m' seen _ ⟨trace,works,s,explained⟩ taken
    obtain ⟨trace',works',s',after⟩ := explained_step explained (step_moved taken)
    refine ⟨trace', works', s', ?_⟩
    have whole : shown (steps ++ [⟨m,event,seen,m'⟩]) = shown steps ++ seen.toList := by
      simp [shown]
    rw [whole]
    exact after

theorem explained_linearizes {memory : Memory σ χ} {history : List (Observed ι κ ρ)}
    {trace : List (Mark ι κ ρ)} {works : List (Step (Memory σ χ) (ι × κ) ρ)}
    (explained : Explained p memory m history trace works s) :
    Linearizes (fun request => p.home request memory.parts.length) p.atomic memory history trace
      works s := by
  constructor
  · exact explained.observed
  · intro t
    rcases Nat.lt_or_ge t m.threads.length with small | big
    · exact ⟨_, explained.along t _ (List.getElem?_eq_getElem small)⟩
    · exact ⟨.idle, explained.absent t big ▸ Along.nil⟩
  · exact explained.run
  · exact explained.effects
  · exact fun i => behind_prefix (explained.order i)

/-- Instants of one kind are instants of another that follows them. -/
theorem linearizes_mapped {μ ν : Type} {home : ι → Option Nat}
    {atomic : μ → ι × κ → Option (μ × ρ)} {other : ν → ι × κ → Option (ν × ρ)} {start last : μ}
    {history : List (Observed ι κ ρ)} {trace : List (Mark ι κ ρ)}
    {works : List (Step μ (ι × κ) ρ)} (f : μ → ν)
    (follow : ∀ s work t reply, atomic s work = some (t,reply) →
      other (f s) work = some (f t,reply))
    (linearizes : Linearizes home atomic start history trace works last) :
    Linearizes home other (f start) history trace
      (works.map fun x => ⟨f x.before,x.input,x.output,f x.after⟩) (f last) := by
  constructor
  · exact linearizes.observed
  · exact linearizes.threads
  · exact run_mapped f id follow linearizes.run
  · rw [List.map_map]
    exact linearizes.effects
  · intro i
    rw [List.map_map]
    exact linearizes.order i

def Status.request : Status ι κ ρ → Option ι
  | .idle => none
  | .invoked request => some request
  | .met request _ => some request
  | .settled request _ => some request

/-- The request under way was invoked, and so was every one that happened. -/
theorem along_invoked {marks : List (Mark ι κ ρ)} {status : Status ι κ ρ}
    (along : Along marks status) :
    (∀ q, status.request = some q → ∃ t, Mark.invoked t q ∈ marks) ∧
      ∀ t q k r, Mark.effective t q k r ∈ marks → ∃ u, Mark.invoked u q ∈ marks := by
  induction along with
  | nil =>
    constructor
    · intro q now
      cases now
    · intro t q k r mem
      cases mem
  | invoked t request before ih =>
    constructor
    · intro q now
      obtain rfl := Option.some.inj now
      exact ⟨t, by simp⟩
    · intro u q k r mem
      obtain ⟨v,known⟩ := ih.2 u q k r (by simpa using mem)
      exact ⟨v, List.mem_append_left _ known⟩
  | met t k before ih =>
    constructor
    · intro q now
      obtain ⟨v,known⟩ := ih.1 q now
      exact ⟨v, List.mem_append_left _ known⟩
    · intro u q k' r mem
      obtain ⟨v,known⟩ := ih.2 u q k' r (by simpa using mem)
      exact ⟨v, List.mem_append_left _ known⟩
  | effective t reply before ih =>
    constructor
    · intro q now
      obtain ⟨v,known⟩ := ih.1 q now
      exact ⟨v, List.mem_append_left _ known⟩
    · intro u q k r mem
      rcases List.mem_append.mp mem with old | new
      · obtain ⟨v,known⟩ := ih.2 u q k r old
        exact ⟨v, List.mem_append_left _ known⟩
      · simp only [List.mem_singleton, Mark.effective.injEq] at new
        obtain ⟨_,rfl,_,_⟩ := new
        obtain ⟨v,known⟩ := ih.1 q rfl
        exact ⟨v, List.mem_append_left _ known⟩
  | returned t before ih =>
    constructor
    · intro q now
      cases now
    · intro u q k r mem
      obtain ⟨v,known⟩ := ih.2 u q k r (by simpa using mem)
      exact ⟨v, List.mem_append_left _ known⟩

theorem moved_invoked {q : ι} (moved : Moved p m event m' (some (.invoked t q))) :
    event = .invoke t q := by
  cases moved
  rfl

theorem shown_invoked {memory : Memory σ χ} {n : Nat} {steps : List (MachineStep σ χ ι κ ρ)}
    {q : ι} (run : Run (Machine.step p) (.start memory n) steps m)
    (invoked : Observed.invoked t q ∈ shown steps) : ∃ x ∈ steps, x.input = .invoke t q := by
  obtain ⟨x,mem,shows⟩ := List.mem_flatMap.mp invoked
  obtain ⟨first,second,rfl⟩ := List.append_of_mem mem
  obtain ⟨_,taken,_⟩ := run_cut run first x second rfl
  refine ⟨x, mem, ?_⟩
  have moved := step_moved taken
  rw [Option.mem_toList] at shows
  rw [shows] at moved
  exact moved_invoked moved

/-- What holds of every invoked request holds of every one under way and of every one that
    happened. -/
theorem explained_requests {memory : Memory σ χ} {n : Nat}
    {steps : List (MachineStep σ χ ι κ ρ)} {trace : List (Mark ι κ ρ)}
    {works : List (Step (Memory σ χ) (ι × κ) ρ)} (good : ι → Prop)
    (run : Run (Machine.step p) (.start memory n) steps m)
    (explained : Explained p memory m (shown steps) trace works s)
    (invoked : ∀ x ∈ steps, ∀ t q, x.input = .invoke t q → good q) :
    (∀ (t : Nat) (x : Stage σ χ ι κ ρ) q, m.threads[t]? = some x → x.status.request = some q →
      good q) ∧ ∀ x ∈ works, good x.input.1 := by
  have known : ∀ u t q, Mark.invoked t q ∈ marksOf u trace → good q := by
    intro u t q mem
    have seen : Observed.invoked t q ∈ shown steps := by
      rw [← explained.observed]
      exact List.mem_filterMap.mpr ⟨_, (List.mem_filter.mp mem).1, rfl⟩
    obtain ⟨x,there,event⟩ := shown_invoked run seen
    exact invoked x there t q event
  constructor
  · intro t x q here now
    obtain ⟨u,mem⟩ := (along_invoked (explained.along t x here)).1 q now
    exact known t u q mem
  · intro x mem
    have effect : (x.input,x.output) ∈ trace.filterMap Mark.effect := by
      rw [← explained.effects]
      exact List.mem_map_of_mem mem
    obtain ⟨mark,there,same⟩ := List.mem_filterMap.mp effect
    cases mark with
    | invoked | met | returned => cases same
    | effective t q k r =>
      obtain ⟨input,_⟩ := Prod.mk.inj (Option.some.inj same)
      rw [← input]
      have own : Mark.effective t q k r ∈ marksOf t trace :=
        List.mem_filter.mpr ⟨there, by simp [Mark.thread]⟩
      obtain ⟨status,along⟩ := (explained_linearizes explained).threads t
      obtain ⟨u,first⟩ := (along_invoked along).2 t q k r own
      exact known t u q first

end CriticalSections
