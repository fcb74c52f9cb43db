import MiniKV.Server.Session

/- The auth gate, as a statement about two servers: until the token has been presented, a
   connection sees nothing of the store and changes nothing in it. -/
namespace ServerAuthGate
open ShardModel StoreModel ProtocolModel ServerModel ServerSession

/-- The session ended regularly after its first command: with this output, this much of
    the stream read, no command executed, no call made and the store as it was. -/
structure Closed (s : Server) (r : Reader) (output : Text)
    (done : Option (Session × Result)) : Prop where
  ended : ∃ x, done = some (x,.nil) ∧ x.output = output ∧ x.reader = r ∧ x.executed = [] ∧
    x.server.store = s.store ∧ x.server.calls = s.calls

def refusal (c : Command) : Text :=
  if c.op ≠ .auth then writeLine (text "CLIENT_ERROR auth required")
  else writeLine (text "CLIENT_ERROR auth failed")

variable {maxAlloc : Nat} {timeout : Bool} {r : Reader} {s : Server} {c : Command} {token : Text}

theorem start_locked (token : s.authToken ≠ []) : (Session.start s r).authenticated = false := by
  simp [Session.start, token]

theorem handle_locked (env : Env) (wrong : ¬ (c.op = .auth ∧ c.token = s.authToken)) :
    ∃ t : Server, s.handle env false c = ⟨t,false,refusal c,[],some .nil⟩ ∧
      t.store = s.store ∧ t.calls = s.calls := by
  by_cases auth : c.op = .auth
  · have other : c.token ≠ s.authToken := fun same => wrong ⟨auth,same⟩
    refine ⟨(s.count countAuth).count countAuthFailure, ?_, rfl, rfl⟩
    simp [Server.handle, Server.handleAuthGate, refusal, auth, constantTimeEqual, Server.count, other]
  · refine ⟨s, ?_, rfl, rfl⟩
    simp [Server.handle, Server.handleAuthGate, refusal, auth]

def serveRefusal : Except Failure Command → Text
  | .ok c => refusal c
  | .error .eof => []
  | .error _ => writeLine (text "CLIENT_ERROR bad command")

def serveConnRefusal (timeout : Bool) : Except Failure Command → Text
  | .ok c => refusal c
  | .error .eof => []
  | .error .fault => if timeout then [] else writeLine (text "CLIENT_ERROR bad command")
  | .error _ => writeLine (text "CLIENT_ERROR bad command")

/-- A session that reads no command: the two ways in which a loop can end then. -/
theorem quiet_closed {turn : Session → Session × Option Result} {fuel : Nat} {left : Reader}
    (turned : turn (.start s r) = (Session.reading (.start s r) left, some .nil)) :
    Closed s left [] (Loop.run turn (fuel + 1) (.start s r)) :=
  ⟨_, Loop.run_stop turned, rfl, rfl, rfl, rfl, rfl⟩

theorem bad_closed {turn : Session → Session × Option Result} {fuel : Nat} {left : Reader}
    (turned : turn (.start s r) = (Session.reading (.start s r) left).badCommand) :
    Closed s left (writeLine (text "CLIENT_ERROR bad command"))
      (Loop.run turn (fuel + 1) (.start s r)) :=
  ⟨_, Loop.run_stop turned, rfl, rfl, rfl, rfl, rfl⟩

theorem refused_closed (env : Env) {turn : Session → Session × Option Result} {fuel : Nat}
    {left : Reader} (guarded : s.authToken ≠ [])
    (wrong : ¬ (c.op = .auth ∧ c.token = s.authToken))
    (turned : turn (.start s r) = (Session.reading (.start s r) left).handle env c) :
    Closed s left (refusal c) (Loop.run turn (fuel + 1) (.start s r)) := by
  obtain ⟨t,moved,store,calls⟩ := handle_locked env wrong
  have handled : (Session.reading (.start s r) left).handle env c =
      (⟨t,left,false,refusal c,[]⟩, some .nil) := by
    have locked : (Session.reading (.start s r) left).authenticated = false := start_locked guarded
    rw [Session.handle, locked]
    dsimp only [Session.reading, Session.start]
    rw [moved]
    rfl
  exact ⟨_, Loop.run_stop (turned.trans handled), rfl, rfl, rfl, store, calls⟩

theorem serve_closed (env : Env) (guarded : s.authToken ≠ [])
    (calm : (readCommand maxAlloc r).1 ≠ .error .panic)
    (wrong : ∀ c, (readCommand maxAlloc r).1 = .ok c → ¬ (c.op = .auth ∧ c.token = s.authToken)) :
    Closed s (readCommand maxAlloc r).2 (serveRefusal (readCommand maxAlloc r).1)
      (s.serve env maxAlloc r) := by
  cases read : readCommand maxAlloc r with
  | mk first left =>
    rw [read] at calm wrong
    cases first with
    | ok c => exact refused_closed env guarded (wrong c rfl) (serveTurn_ok env read)
    | error failure =>
      have turned := serveTurn_error (x := .start s r) env read
      cases failure with
      | panic => exact absurd rfl calm
      | eof => exact quiet_closed turned
      | fault => exact bad_closed turned
      | protocol message => exact bad_closed turned

theorem serveConn_closed (env : Env) (timeout : Bool) (guarded : s.authToken ≠ [])
    (calm : (readCommand maxAlloc r).1 ≠ .error .panic)
    (wrong : ∀ c, (readCommand maxAlloc r).1 = .ok c → ¬ (c.op = .auth ∧ c.token = s.authToken)) :
    Closed s (readCommand maxAlloc r).2 (serveConnRefusal timeout (readCommand maxAlloc r).1)
      (s.serveConn env maxAlloc timeout r) := by
  cases read : readCommand maxAlloc r with
  | mk first left =>
    rw [read] at calm wrong
    cases first with
    | ok c => exact refused_closed env guarded (wrong c rfl) (serveConnTurn_ok env timeout read)
    | error failure =>
      have turned := serveConnTurn_error (x := .start s r) env timeout read
      cases failure with
      | panic => exact absurd rfl calm
      | eof => exact quiet_closed turned
      | fault =>
        cases timeout with
        | true => exact quiet_closed turned
        | false => exact bad_closed turned
      | protocol message => exact bad_closed turned

/-- Two servers with one token and any stores, in any environments: a first command that
    does not present the token gets the same bytes from both, from Serve and from
    serveConn, ends the connection and leaves both stores alone. -/
theorem auth_gate_noninterference (maxAlloc : Nat) (timeout : Bool) (token : Text)
    (guarded : token ≠ []) (r : Reader) (calm : (readCommand maxAlloc r).1 ≠ .error .panic)
    (wrong : ∀ c, (readCommand maxAlloc r).1 = .ok c → ¬ (c.op = .auth ∧ c.token = token)) :
    ∃ served conned : Text, ∀ (env : Env) (s : Server), s.authToken = token →
      Closed s (readCommand maxAlloc r).2 served (s.serve env maxAlloc r) ∧
      Closed s (readCommand maxAlloc r).2 conned (s.serveConn env maxAlloc timeout r) := by
  refine ⟨serveRefusal (readCommand maxAlloc r).1,
    serveConnRefusal timeout (readCommand maxAlloc r).1, ?_⟩
  intro env s same
  subst same
  exact ⟨serve_closed env guarded calm wrong, serveConn_closed env timeout guarded calm wrong⟩

theorem ping_refused :
    ∃ served conned : Text, ∀ (env : Env) (s : Server), s.authToken = ascii ['t'] →
      Closed s ⟨ascii ['g','e','t',' ','k','\r','\n'],.eof⟩ served
        (s.serve env (2 ^ 48) ⟨ascii ['p','i','n','g','\r','\n','g','e','t',' ','k','\r','\n'],.eof⟩) ∧
      Closed s ⟨ascii ['g','e','t',' ','k','\r','\n'],.eof⟩ conned
        (s.serveConn env (2 ^ 48) true
          ⟨ascii ['p','i','n','g','\r','\n','g','e','t',' ','k','\r','\n'],.eof⟩) := by
  have read : readCommand (2 ^ 48)
      ⟨ascii ['p','i','n','g','\r','\n','g','e','t',' ','k','\r','\n'],.eof⟩ =
        (.ok { op := .ping },⟨ascii ['g','e','t',' ','k','\r','\n'],.eof⟩) := by decide
  have gate := auth_gate_noninterference (2 ^ 48) true (ascii ['t']) (by decide)
    ⟨ascii ['p','i','n','g','\r','\n','g','e','t',' ','k','\r','\n'],.eof⟩
  rw [read] at gate
  apply gate
  · decide
  · intro c same
    obtain rfl := Except.ok.inj same
    decide

end ServerAuthGate
