import MiniKV.Protocol.Framing
import MiniKV.Server.Responses

/- Sessions as loops. A turn that goes on has read a command, so the bytes of the stream
   bound the turns; what a session has written so far only stands before the rest; and
   the reader has no part in the handling of a command. -/
namespace ServerSession
open MachineWord ShardModel StoreModel StoreFate StepRuns ProtocolModel ProtocolFraming ServerModel
  ServerResponses

variable {env : Env} {maxAlloc n : Nat} {x y : Session} {c : Command} {r r' : Reader}
  {limits : Limits} {timeout : Bool} {result : Option Result}

def Reachable (s : Server) : Prop :=
  ∃ (config : Config) (steps : List StoreStep),
    Run Store.step (Store.new int64 config) steps s.store

def freshServer (config : ConfigModel.Config) (authToken : Text) : Server :=
  .new (Store.new int64 config.store) authToken

theorem freshServer_reachable (config : ConfigModel.Config) (authToken : Text) :
    Reachable (freshServer config authToken) := ⟨config.store, [], Run.nil⟩

def stillEnv : Env := fun _ => ⟨0,.asListed,0⟩

def unread (x : Session) : Nat := x.reader.bytes.length

def Session.reading (x : Session) (r : Reader) : Session := { x with reader := r }

def Session.behind (output : Text) (executed : List Command) (x : Session) : Session :=
  { x with output := output ++ x.output, executed := executed ++ x.executed }

theorem handle_reader (env : Env) (x : Session) (c : Command) :
    (x.handle env c).1.reader = x.reader := rfl

theorem handle_behind (env : Env) (output : Text) (executed : List Command) (x : Session)
    (c : Command) : (Session.behind output executed x).handle env c =
      (Session.behind output executed (x.handle env c).1, (x.handle env c).2) := by
  simp [Session.handle, Session.behind]

theorem serveTurn_ok (env : Env) (read : readCommand maxAlloc x.reader = (.ok c,r)) :
    x.serveTurn env maxAlloc = (Session.reading x r).handle env c := by
  rw [Session.serveTurn, read]
  rfl

theorem serveTurn_error {failure : Failure} (env : Env)
    (read : readCommand maxAlloc x.reader = (.error failure,r)) :
    x.serveTurn env maxAlloc = (Session.reading x r).serveReadError failure := by
  rw [Session.serveTurn, read]
  rfl

theorem serveConnTurn_ok (env : Env) (timeout : Bool)
    (read : readCommand maxAlloc x.reader = (.ok c,r)) :
    x.serveConnTurn env maxAlloc timeout = (Session.reading x r).handle env c := by
  rw [Session.serveConnTurn, read]
  rfl

theorem serveConnTurn_error {failure : Failure} (env : Env) (timeout : Bool)
    (read : readCommand maxAlloc x.reader = (.error failure,r)) :
    x.serveConnTurn env maxAlloc timeout =
      (Session.reading x r).handleReadError timeout failure := by
  rw [Session.serveConnTurn, read]
  rfl

theorem serveTurn_front (env : Env) (x : Session) {bytes : Text}
    (read : readCommand maxAlloc ⟨bytes,.eof⟩ = (.ok c,⟨[],.eof⟩)) (more : Text) (ending : Ending) :
    (Session.reading x ⟨bytes ++ more,ending⟩).serveTurn env maxAlloc =
      (Session.reading (x.handle env c).1 ⟨more,ending⟩, (x.handle env c).2) := by
  rw [serveTurn_ok env (readCommand_append read more ending)]
  rfl

theorem serveTurn_behind (env : Env) (maxAlloc : Nat) (output : Text) (executed : List Command)
    (x : Session) : (Session.behind output executed x).serveTurn env maxAlloc =
      (Session.behind output executed (x.serveTurn env maxAlloc).1,
        (x.serveTurn env maxAlloc).2) := by
  have same : (Session.behind output executed x).reader = x.reader := rfl
  cases read : readCommand maxAlloc x.reader with
  | mk done r =>
    cases done with
    | ok c =>
      rw [serveTurn_ok env (same ▸ read), serveTurn_ok env read]
      exact handle_behind env output executed (Session.reading x r) c
    | error failure =>
      rw [serveTurn_error env (same ▸ read), serveTurn_error env read]
      cases failure <;> simp [Session.serveReadError, Session.behind, Session.reading,
        Session.badCommand]

theorem serveTurn_goes (goes : x.serveTurn env maxAlloc = (y,none)) :
    ∃ c r, readCommand maxAlloc x.reader = (.ok c,r) ∧
      (Session.reading x r).handle env c = (y,none) := by
  unfold Session.serveTurn at goes
  split at goes
  · rename_i failure r read
    cases failure <;> cases goes
  · rename_i c r read
    exact ⟨c,r,read,goes⟩

theorem serveConnTurn_goes (goes : x.serveConnTurn env maxAlloc timeout = (y,none)) :
    ∃ c r, readCommand maxAlloc x.reader = (.ok c,r) ∧
      (Session.reading x r).handle env c = (y,none) := by
  unfold Session.serveConnTurn at goes
  split at goes
  · rename_i failure r read
    unfold Session.handleReadError at goes
    split at goes
    · cases goes
    · split at goes <;> cases goes
    · cases goes
    · cases goes
  · rename_i c r read
    exact ⟨c,r,read,goes⟩

theorem handled_shorter (read : readCommand maxAlloc x.reader = (.ok c,r))
    (goes : (Session.reading x r).handle env c = (y,none)) : unread y < unread x := by
  have kept := handle_reader env (Session.reading x r) c
  rw [goes] at kept
  have shorter := (readCommand_shorter read).1
  simp only [unread]
  rw [kept]
  exact shorter

theorem serveTurn_down (x y : Session) (goes : x.serveTurn env maxAlloc = (y,none)) :
    unread y < unread x := by
  obtain ⟨c,r,read,handled⟩ := serveTurn_goes goes
  exact handled_shorter read handled

theorem serveConnTurn_down (x y : Session) (goes : x.serveConnTurn env maxAlloc timeout = (y,none)) :
    unread y < unread x := by
  obtain ⟨c,r,read,handled⟩ := serveConnTurn_goes goes
  exact handled_shorter read handled

/-- Serve from a state in the middle of its loop. -/
def resume (env : Env) (maxAlloc : Nat) (x : Session) : Option (Session × Result) :=
  Loop.run (Session.serveTurn env maxAlloc) (unread x + 1) x

theorem resume_next (goes : x.serveTurn env maxAlloc = (y,none)) :
    resume env maxAlloc x = resume env maxAlloc y :=
  Loop.run_next serveTurn_down goes

theorem resume_stop {done : Result} (stops : x.serveTurn env maxAlloc = (y,some done)) :
    resume env maxAlloc x = some (y,done) :=
  Loop.run_stop stops

theorem resume_ends (env : Env) (maxAlloc : Nat) (x : Session) :
    ∃ done, resume env maxAlloc x = some done :=
  Loop.run_ends serveTurn_down (Nat.lt_succ_self _)

theorem resume_behind (env : Env) (maxAlloc : Nat) (output : Text) (executed : List Command)
    (x : Session) : resume env maxAlloc (Session.behind output executed x) =
      (resume env maxAlloc x).map fun done => (Session.behind output executed done.1, done.2) :=
  Loop.run_carries (Session.behind output executed)
    (serveTurn_behind env maxAlloc output executed) x

/-- A session in which plain commands are executed over a store that answers. -/
structure Working (limits : Limits) (n : Nat) (x : Session) : Prop where
  authenticated : x.authenticated = true
  serves : Serves limits n x.server.store

/-- A command that is executed: one response is written and the session goes on. -/
theorem handle_answers (env : Env) (working : Working limits n x) (plain : c.op ≠ .auth)
    (routed : n % 2 ^ 32 ≠ 0 ∨ keyed c = false) :
    ∃ y response, x.handle env c = (y,none) ∧ Working limits n y ∧ Responds c response ∧
      y.output = x.output ++ response ∧ y.executed = x.executed ++ [c] ∧
      y.server.authToken = x.server.authToken := by
  let s := x.server.count fun m => m.countCommand c.op
  let done := s.execute env c
  have serves : Serves limits n s.store := working.serves
  obtain ⟨answers,responds⟩ := execute_answers env serves plain routed
  have moved : x.server.handle env x.authenticated c =
      ⟨done.server,true,done.written,[c],none⟩ := by
    rw [working.authenticated, Server.handle, if_neg (by simp), if_neg plain]
    dsimp only
    rw [answers.status]
  refine ⟨⟨done.server,x.reader,true,x.output ++ done.written,x.executed ++ [c]⟩, done.written,
    ?_, ⟨rfl,answers.serves⟩, responds, rfl, rfl, answers.token⟩
  rw [Session.handle, moved]

theorem handle_panics (env : Env) (working : Working limits n x) (unrouted : n % 2 ^ 32 = 0)
    (plain : c.op ≠ .auth) (needed : keyed c = true) :
    (x.handle env c).2 = some .panicked := by
  let s := x.server.count fun m => m.countCommand c.op
  have size : s.store.shards.length = n := working.serves.2
  have panics := execute_panics env size unrouted needed
  rw [Session.handle, working.authenticated, Server.handle, if_neg (by simp), if_neg plain]
  dsimp only
  rw [panics]

end ServerSession
