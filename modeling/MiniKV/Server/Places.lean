import MiniKV.Lib.Census
import MiniKV.Server.Lifecycle

/- The places of a call of ServeConn and what they stand for. Every shared quantity belongs
   to some of the places: it is raised when a call comes to them and lowered when it leaves
   them. On its own way, outside of ReadCommand and of the commands, a call does at each place
   one thing, which two tables give. -/
namespace ServerPlaces
open MachineWord LruModel ShardModel StoreModel ProtocolModel ServerModel ServerLifecycle

variable {i : Nat} {s : Hub} {h : Handler} {pc pc' : Pc}

/-- Behind connectionsOpened.Add. -/
def counted : Pc → Bool
  | .entered => false
  | _ => true

/-- Behind connectionsRejected.Add. -/
def dismissed : Pc → Bool
  | .rejected | .told | .turnedAway => true
  | _ => false

/-- Between connectionsActive.Add(1) and connectionsActive.Add(-1). -/
def serving : Pc → Bool
  | .top | .reading | .executing _ | .left | .closed => true
  | _ => false

/-- Between registerConn and deregisterConn. -/
def enlisted : Pc → Bool
  | .registered | .inactive => true
  | pc => serving pc

/-- Between Add and Done of the wait group. -/
def awaited : Pc → Bool
  | .joined | .deregistered => true
  | pc => enlisted pc

/-- Between acquireSlot and releaseSlot. -/
def holding : Pc → Bool
  | .acquired | .releasing | .finished => true
  | pc => awaited pc

/-- In the loop of serveConn or on the way out of it. -/
def looping : Pc → Bool
  | .top | .reading | .executing _ | .left => true
  | _ => false

theorem looping_serving {pc : Pc} (inside : looping pc = true) : serving pc = true := by
  cases pc <;> simp_all [looping, serving]

theorem serving_enlisted {pc : Pc} (inside : serving pc = true) : enlisted pc = true := by
  cases pc <;> simp_all [serving, enlisted]

theorem enlisted_awaited {pc : Pc} (inside : enlisted pc = true) : awaited pc = true := by
  cases pc <;> simp_all [serving, enlisted, awaited]

theorem awaited_holding {pc : Pc} (inside : awaited pc = true) : holding pc = true := by
  cases pc <;> simp_all [serving, enlisted, awaited, holding]

theorem looping_counted {pc : Pc} (inside : looping pc = true) :
    counted pc = true ∧ dismissed pc = false := by
  cases pc <;> simp_all [looping, counted, dismissed]

theorem looping_awaited {pc : Pc} (inside : looping pc = true) : awaited pc = true :=
  enlisted_awaited (serving_enlisted (looping_serving inside))

/-- Neither in ReadCommand nor at a command. -/
def walking : Pc → Bool
  | .reading | .executing _ => false
  | _ => true

/-- The order of the places in ServeConn. -/
def successor : Pc → Pc → Bool
  | .entered, .opened | .opened, .acquired | .opened, .refused | .refused, .rejected
  | .rejected, .told | .told, .turnedAway | .acquired, .joined | .joined, .registered
  | .registered, .top | .top, .reading | .reading, .reading | .reading, .executing _
  | .reading, .left | .executing _, .top | .executing _, .left | .left, .closed
  | .closed, .inactive | .inactive, .deregistered | .deregistered, .releasing
  | .deregistered, .finished | .releasing, .finished | .finished, .returned => true
  | _, _ => false

/-- What a call does to the counters when it walks to this place. -/
def booking : Pc → Counters → Counters
  | .opened => countOpened
  | .rejected => countRejected
  | .top => addActive 1
  | .inactive => addActive (-1)
  | _ => id

/-- The call that has walked to this place. -/
def walked (s : Hub) (h : Handler) (pc : Pc) : Handler :=
  match pc with
  | .told =>
    { h with pc := .told
             output := h.output ++ writeLine (text "SERVER_ERROR max connections reached") }
  | .turnedAway => { h with pc := .turnedAway, closed := true }
  | .top => { h with pc := .top, authenticated := decide (s.server.authToken = []) }
  | .reading => { s.arm h with pc := .reading }
  | .closed => { h with pc := .closed, closed := true }
  | pc => { h with pc := pc }

theorem walked_pc (s : Hub) (h : Handler) (pc : Pc) : (walked s h pc).pc = pc := by
  cases pc <;> rfl

theorem arm_deadline (s : Hub) (h : Handler) : ∃ d, s.arm h = { h with deadline := d } := by
  unfold Hub.arm
  split
  · exact ⟨_, rfl⟩
  · exact ⟨h.deadline, rfl⟩

/-- A call that walks keeps the bytes and the result it has, and stays closed. -/
theorem walked_keeps (s : Hub) (h : Handler) (pc : Pc) :
    (walked s h pc).received = h.received ∧ (walked s h pc).result = h.result ∧
      (h.closed = true → (walked s h pc).closed = true) := by
  obtain ⟨d,armed⟩ := arm_deadline s h
  cases pc <;> simp [walked, armed]

def places (s : Hub) : List Pc := s.calls.map Handler.pc

theorem places_at (here : s.calls[i]? = some h) : (places s)[i]? = some h.pc := by
  simp [places, here]

def active (s : Hub) : Int := s.server.counters.connectionsActive

/-- What the calls share and count. -/
structure Ledger where
  held : Nat
  conns : Finset Nat
  waitGroup : Nat
  opened : UInt64
  active : Int
  rejected : UInt64

def ledger (s : Hub) : Ledger :=
  ⟨s.held,s.conns,s.waitGroup,s.server.counters.connectionsOpened,active s,
    s.server.counters.connectionsRejected⟩

/-- The ledger after a move: every entry follows the call into and out of its places. Without
    a semaphore there are no slots to hold. -/
def booked (limited : Bool) (i : Nat) (pc pc' : Pc) (l : Ledger) : Ledger where
  held := Census.follow (fun k => if limited then k + 1 else k)
    (fun k => if limited then k - 1 else k) holding pc pc' l.held
  conns := Census.follow (insert i) (Finset.erase · i) enlisted pc pc' l.conns
  waitGroup := Census.follow (· + 1) (· - 1) awaited pc pc' l.waitGroup
  opened := Census.follow (· + 1) (· - 1) counted pc pc' l.opened
  active := Census.follow (fun a => int64.wrap (a + 1)) (fun a => int64.wrap (a + -1)) serving
    pc pc' l.active
  rejected := Census.follow (· + 1) (· - 1) dismissed pc pc' l.rejected

def setting (s : Hub) : Time × Int × Option Nat × Shutdown × Bool :=
  (s.now,s.idleTimeout,s.semaphore,s.shutdown,s.done)

/-- A slot is taken only if one is free, and refused only if none is. -/
def slotGuard (s : Hub) : Pc → Prop
  | .acquired => ∀ n, s.semaphore = some n → s.held < n
  | .refused => ∃ n, s.semaphore = some n ∧ n ≤ s.held
  | _ => True

def mover : Event → Option Nat
  | .advance i => some i
  | .receive i _ => some i
  | .interrupt i _ => some i
  | .lose i _ => some i
  | _ => none

theorem booked_looping {pc pc' : Pc} (inside : looping pc = true) (inside' : looping pc' = true)
    (limited : Bool) (l : Ledger) : booked limited i pc pc' l = l := by
  have stays {β : Type} (up down : β → β) (stands : Pc → Bool) (q : β)
      (same : stands pc = stands pc') : Census.follow up down stands pc pc' q = q := by
    unfold Census.follow
    rw [same]
    cases stands pc' <;> rfl
  unfold booked
  rw [stays _ _ holding _ (by rw [awaited_holding (looping_awaited inside),
      awaited_holding (looping_awaited inside')]),
    stays _ _ enlisted _ (by rw [serving_enlisted (looping_serving inside),
      serving_enlisted (looping_serving inside')]),
    stays _ _ awaited _ (by rw [looping_awaited inside, looping_awaited inside']),
    stays _ _ counted _ (by rw [(looping_counted inside).1, (looping_counted inside').1]),
    stays _ _ serving _ (by rw [looping_serving inside, looping_serving inside']),
    stays _ _ dismissed _ (by rw [(looping_counted inside).2, (looping_counted inside').2])]

end ServerPlaces
