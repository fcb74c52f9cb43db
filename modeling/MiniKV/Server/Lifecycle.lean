import Mathlib.Data.Finset.Insert
import Mathlib.Data.Finset.Erase
import MiniKV.Server.Server

/- The server over all its connections: the calls of ServeConn, each in its goroutine, and
   one call of Shutdown, which take their steps in any order. A step is one access to what
   they share, or the handling of one command, with all the calls of the store that it makes;
   a call that waits for the mutex, the network or the semaphore has no step, and neither has
   one whose write blocks. Every call has a connection of its own, named by the number of the
   call. -/
namespace ServerLifecycle
open MachineWord LruModel ShardModel ProtocolModel ServerModel

/-- Where a call of ServeConn stands: the last of its effects. -/
inductive Pc where
  | entered
  | opened
  | refused
  | rejected
  | told
  | turnedAway
  | acquired
  | joined
  | registered
  | top
  | reading
  | executing (command : Command)
  | left
  | closed
  | inactive
  | deregistered
  | releasing
  | finished
  | returned
  deriving DecidableEq, Repr

/-- A call with its connection. The bytes are those that have come in and that no
    finished ReadCommand has used. The last line of a call, behind which it only closes the
    connection, counts as sent. -/
structure Handler where
  pc : Pc := .entered
  deadline : Option Time := none
  closed : Bool := false
  received : Text := []
  authenticated : Bool := false
  output : Text := []
  result : Option Result := none

/-- Where the call of Shutdown stands. It holds the mutex of the connections while it goes
    over them; the pending ones are still ahead. -/
inductive Shutdown where
  | uncalled
  | signalling (pending : Finset Nat)
  | waiting
  | closing (pending : Finset Nat)
  | draining
  | returned (expired : Bool)
  deriving DecidableEq

/-- The goroutine that calls Wait: it comes back at once if the counter is zero, or sleeps
    until the last Done has woken it. -/
inductive Waiter where
  | awake
  | asleep
  | released
  deriving DecidableEq

structure Hub where
  server : Server
  idleTimeout : Int
  /-- The capacity of the semaphore, if there is one, and the slots taken. -/
  semaphore : Option Nat
  held : Nat
  conns : Finset Nat
  waitGroup : Nat
  waiter : Waiter
  calls : List Handler
  now : Time
  shutdown : Shutdown
  /-- The channel that is closed when Wait has returned. -/
  done : Bool
  /-- A panic has ended the process. -/
  down : Bool

def withMaxConnections (n : Int) : Option Nat := if 0 < n then some n.toNat else none

def Hub.new (server : Server) (idleTimeout maxConnections : Int) (now : Time) : Hub where
  server := server
  idleTimeout := idleTimeout
  semaphore := withMaxConnections maxConnections
  held := 0
  conns := ∅
  waitGroup := 0
  waiter := .awake
  calls := []
  now := now
  shutdown := .uncalled
  done := false
  down := false

inductive Cause where
  | eof
  | timeout
  | broken
  deriving DecidableEq, Repr

/-- A write of an answer that fails when this much of it has been sent: at the Flush behind
    the command, or inside execute, behind so many of the command's keys. -/
inductive Loss where
  | flush (sent : Nat)
  | write (keys sent : Nat)
  deriving DecidableEq, Repr

inductive Event where
  | start
  | advance (i : Nat)
  | receive (i : Nat) (bytes : Text)
  | interrupt (i : Nat) (cause : Cause)
  | lose (i : Nat) (loss : Loss)
  | tick (passed : Nat)
  | shutdown
  | signal (i : Nat)
  | signalled
  | sleep
  | drained
  | reused
  | expire
  | close (i : Nat)
  | closedAll
  | return
  deriving DecidableEq, Repr

def Hub.put (s : Hub) (i : Nat) (h : Handler) : Hub := { s with calls := s.calls.set i h }

def Hub.move (s : Hub) (i : Nat) (h : Handler) (pc : Pc) : Hub := s.put i { h with pc := pc }

def Hub.count (s : Hub) (bump : Counters → Counters) : Hub :=
  { s with server := s.server.count bump }

def countOpened (n : Counters) : Counters :=
  { n with connectionsOpened := n.connectionsOpened + 1 }

def countRejected (n : Counters) : Counters :=
  { n with connectionsRejected := n.connectionsRejected + 1 }

def addActive (delta : Int) (n : Counters) : Counters :=
  { n with connectionsActive := int64.wrap (n.connectionsActive + delta) }

/-- None is the default of the select: no slot is free. -/
def Hub.acquireSlot (s : Hub) : Option Hub :=
  match s.semaphore with
  | none => some s
  | some capacity => if s.held < capacity then some { s with held := s.held + 1 } else none

/-- None is a receive that waits. -/
def Hub.releaseSlot (s : Hub) : Option Hub :=
  match s.semaphore with
  | none => some s
  | some _ => if s.held = 0 then none else some { s with held := s.held - 1 }

def Hub.locked (s : Hub) : Bool :=
  match s.shutdown with
  | .signalling _ => true
  | .closing _ => true
  | _ => false

def Hub.wgDone (s : Hub) : Option Hub :=
  if s.waitGroup = 0 then none else some { s with waitGroup := s.waitGroup - 1 }

/-- ReadCommand cannot end on these bytes and has to read from the network. -/
def awaits (maxAlloc : Nat) (received : Text) : Bool :=
  match readRequest ⟨received,.fault⟩ with
  | (.error .fault, _) => true
  | (.ok (_, some size), r) =>
    let length := int64.wrap (size + 2)
    decide (0 ≤ length ∧ length ≤ maxAlloc ∧ r.bytes.length < length)
  | _ => false

def Hub.session (s : Hub) (h : Handler) (r : Reader) : Session :=
  ⟨s.server,r,h.authenticated,h.output,[]⟩

def Handler.turned (h : Handler) (turn : Session × Option Result) : Handler :=
  { h with pc := if turn.2 = none then .top else .left
           received := turn.1.reader.bytes
           authenticated := turn.1.authenticated
           output := turn.1.output
           result := turn.2 }

def Hub.turned (s : Hub) (i : Nat) (h : Handler) (turn : Session × Option Result) :
    Hub × List Command :=
  ({ s with server := turn.1.server }.put i (h.turned turn), turn.1.executed)

def Hub.read (maxAlloc : Nat) (s : Hub) (i : Nat) (h : Handler) (ending : Ending)
    (timeout : Bool) : Hub × List Command :=
  match readCommand maxAlloc ⟨h.received,ending⟩ with
  | (.ok c, r) => (s.put i { h with pc := .executing c, received := r.bytes }, [])
  | (.error failure, r) => s.turned i h ((s.session h r).handleReadError timeout failure)

def Hub.arm (s : Hub) (h : Handler) : Handler :=
  if 0 < s.idleTimeout then { h with deadline := some (s.now + s.idleTimeout) } else h

/-- The turn ends in a Flush whose error the loop looks at. -/
def flushes : Option Result → Bool
  | none => true
  | some .nil => true
  | _ => false

/-- The next step of a call on its own, with the command it executes. The deferred calls
    run from the last to the first. A panic of Add ends the process. -/
def Hub.advance (env : Env) (maxAlloc : Nat) (s : Hub) (i : Nat) (h : Handler) :
    Option (Hub × List Command) :=
  match h.pc with
  | .entered => some ((s.count countOpened).move i h .opened, [])
  | .opened =>
    match s.acquireSlot with
    | some s => some (s.move i h .acquired, [])
    | none => some (s.move i h .refused, [])
  | .refused => some ((s.count countRejected).move i h .rejected, [])
  | .rejected =>
    some (s.put i { h with
      pc := .told
      output := h.output ++ writeLine (text "SERVER_ERROR max connections reached") }, [])
  | .told => some (s.put i { h with pc := .turnedAway, closed := true }, [])
  | .turnedAway => none
  | .acquired =>
    if s.waitGroup = 0 ∧ s.waiter = .asleep then some ({ s with down := true }, [])
    else some ({ s with waitGroup := s.waitGroup + 1 }.move i h .joined, [])
  | .joined =>
    if s.locked then none
    else some ({ s with conns := insert i s.conns }.move i h .registered, [])
  | .registered =>
    some ((s.count (addActive 1)).put i
      { h with pc := .top, authenticated := decide (s.server.authToken = []) }, [])
  | .top => some (s.move i (s.arm h) .reading, [])
  | .reading => if awaits maxAlloc h.received then none else some (s.read maxAlloc i h .fault false)
  | .executing c =>
    let turn := (s.session h ⟨h.received,.fault⟩).handle env c
    if h.closed && flushes turn.2 then none else some (s.turned i h turn)
  | .left => some (s.put i { h with pc := .closed, closed := true }, [])
  | .closed => some ((s.count (addActive (-1))).move i h .inactive, [])
  | .inactive =>
    if s.locked then none
    else some ({ s with conns := s.conns.erase i }.move i h .deregistered, [])
  | .deregistered =>
    -- The last Done wakes the waiter in a step of its own.
    s.wgDone.map fun s =>
      (s.move i h (if s.waitGroup = 0 ∧ s.waiter = .asleep then .releasing else .finished), [])
  | .releasing => some ({ s with waiter := .released }.move i h .finished, [])
  | .finished =>
    s.releaseSlot.map fun s =>
      ({ s with down := decide (h.result = some Result.panicked) }.move i h .returned, [])
  | .returned => none

/-- A read of the network that succeeds. It fails at once when the deadline has come or
    the connection has been closed. -/
def Hub.receive (maxAlloc : Nat) (s : Hub) (i : Nat) (h : Handler) (bytes : Text) : Option Hub :=
  if h.pc = .reading ∧ awaits maxAlloc h.received = true ∧ bytes ≠ [] ∧ h.closed = false ∧
      (∀ d ∈ h.deadline, s.now < d) then
    some (s.put i { h with received := h.received ++ bytes })
  else none

def Hub.interrupt (maxAlloc : Nat) (s : Hub) (i : Nat) (h : Handler) (cause : Cause) :
    Option (Hub × List Command) :=
  if h.pc = .reading ∧ awaits maxAlloc h.received = true then
    match cause with
    | .eof => some (s.read maxAlloc i h .eof false)
    | .timeout => if ∃ d ∈ h.deadline, d ≤ s.now then some (s.read maxAlloc i h .fault true) else none
    | .broken => some (s.read maxAlloc i h .fault false)
  else none

def Handler.cut (h : Handler) (move : Move) (sent : Nat) : Handler :=
  { h with pc := .left
           authenticated := move.authenticated
           output := h.output ++ move.written.take sent
           result := some .unwritten }

/-- A write of an answer that fails, which ends the loop. Inside execute a write can fail only
    when the buffer has run over; the END of a command whose keys are not all done is not
    written. -/
def Hub.lose (env : Env) (s : Hub) (i : Nat) (h : Handler) (loss : Loss) :
    Option (Hub × List Command) :=
  match h.pc, loss with
  | .executing c, .flush sent =>
    let move := s.server.handle env h.authenticated c
    if flushes move.result then
      some ({ s with server := move.server }.put i (h.cut move sent), move.executed)
    else none
  | .executing c, .write keys sent =>
    let move := s.server.handle env h.authenticated { c with keys := c.keys.take keys }
    if move.executed ≠ [] ∧ move.result = none ∧ bufferSize < move.written.length ∧
        (keys < c.keys.length → sent + (writeLine (text "END")).length ≤ move.written.length) then
      some ({ s with server := move.server.count countServerError }.put i (h.cut move sent), [c])
    else none
  | _, _ => none

/-- A step of the call of Shutdown, or of the goroutine that waits for it. The goroutine
    panics if it finds the counter raised when it has been woken. -/
def Hub.windDown (s : Hub) : Event → Option Hub
  | .shutdown =>
    match s.shutdown with
    | .uncalled => some { s with shutdown := .signalling s.conns }
    | _ => none
  | .signal i =>
    match s.shutdown, s.calls[i]? with
    | .signalling pending, some h =>
      if i ∈ pending then
        some ({ s with shutdown := .signalling (pending.erase i) }.put i
          { h with deadline := some s.now })
      else none
    | _, _ => none
  | .signalled => if s.shutdown = .signalling ∅ then some { s with shutdown := .waiting } else none
  | .sleep =>
    match s.shutdown with
    | .uncalled => none
    | .signalling _ => none
    | _ =>
      if s.waitGroup ≠ 0 ∧ s.waiter = .awake ∧ s.done = false then some { s with waiter := .asleep }
      else none
  | .drained =>
    match s.shutdown with
    | .uncalled => none
    | .signalling _ => none
    | _ =>
      if s.waitGroup = 0 ∧ s.waiter ≠ .asleep ∧ s.done = false then some { s with done := true }
      else none
  | .reused =>
    if s.waitGroup ≠ 0 ∧ s.waiter = .released ∧ s.done = false then some { s with down := true }
    else none
  | .expire =>
    match s.shutdown with
    | .waiting => some { s with shutdown := .closing s.conns }
    | _ => none
  | .close i =>
    match s.shutdown, s.calls[i]? with
    | .closing pending, some h =>
      if i ∈ pending then
        some ({ s with shutdown := .closing (pending.erase i) }.put i { h with closed := true })
      else none
    | _, _ => none
  | .closedAll => if s.shutdown = .closing ∅ then some { s with shutdown := .draining } else none
  | .return =>
    match s.shutdown with
    | .waiting => if s.done then some { s with shutdown := .returned false } else none
    | .draining => if s.done then some { s with shutdown := .returned true } else none
    | _ => none
  | _ => none

/-- A step of the whole, with the commands it executes. None is an event that cannot
    happen in the state. -/
def Hub.step (env : Env) (maxAlloc : Nat) (s : Hub) (event : Event) : Option (Hub × List Command) :=
  if s.down then none
  else
    match event with
    | .start => some ({ s with calls := s.calls ++ [{}] }, [])
    | .tick passed => some ({ s with now := s.now + passed }, [])
    | .advance i => s.calls[i]?.bind (s.advance env maxAlloc i)
    | .receive i bytes =>
      s.calls[i]?.bind fun h => (s.receive maxAlloc i h bytes).map fun s => (s, [])
    | .interrupt i cause => s.calls[i]?.bind fun h => s.interrupt maxAlloc i h cause
    | .lose i loss => s.calls[i]?.bind fun h => s.lose env i h loss
    | event => (s.windDown event).map fun s => (s, [])

end ServerLifecycle
