import MiniKV.Server.Session

/- The loop that the tests exercise and the loop of the connections. On a stream without
   read errors they take the same turns; and both return nil unless they come to a panic,
   which the stream and the number of shards decide. -/
namespace ServerAgreement
open MachineWord ShardModel StoreModel ShardInvariant StoreFate ProtocolModel ProtocolEncoding
  ProtocolFraming ServerModel ServerResponses ServerSession

variable {env : Env} {maxAlloc n fuel size : Nat} {x y : Session} {c : Command} {r r' : Reader}
  {limits : Limits} {token : Text}

/-- No panic comes before the session's regular end. The commands are those of the
    stream, followed by the failure that ends it. -/
def undisturbed (n : Nat) (token : Text) (failure : Option Failure) : Bool → List Command → Bool
  | _, [] => decide (failure ≠ some .panic)
  | false, c :: cs =>
    if c.op = .auth ∧ c.token = token then undisturbed n token failure true cs else true
  | true, c :: cs =>
    if c.op = .auth then
      if token = [] ∨ c.token ≠ token then true else undisturbed n token failure true cs
    else (decide (n % 2 ^ 32 ≠ 0) || !keyed c) && undisturbed n token failure true cs

def stream (maxAlloc : Nat) (input : Text) : List Command × Option Failure :=
  readAll maxAlloc (input.length + 1) ⟨input,.eof⟩

theorem turns_agree (env : Env) (maxAlloc : Nat) (timeout : Bool) (ending : x.reader.ending = .eof) :
    x.serveTurn env maxAlloc = x.serveConnTurn env maxAlloc timeout := by
  cases read : readCommand maxAlloc x.reader with
  | mk first left =>
    cases first with
    | ok c => rw [serveTurn_ok env read, serveConnTurn_ok env timeout read]
    | error failure =>
      rw [serveTurn_error env read, serveConnTurn_error env timeout read]
      cases failure with
      | fault =>
        have calm := readCommand_no_fault maxAlloc ending
        rw [read] at calm
        exact absurd rfl calm
      | eof => rfl
      | protocol message => rfl
      | panic => rfl

theorem turn_keeps_ending (x y : Session) (ending : x.reader.ending = .eof)
    (goes : x.serveTurn env maxAlloc = (y,none)) : y.reader.ending = .eof := by
  obtain ⟨c,r,read,handled⟩ := serveTurn_goes goes
  have kept := handle_reader env (Session.reading x r) c
  rw [handled] at kept
  rw [kept]
  exact (readCommand_shorter read).2.trans ending

/-- On a stream without read errors the two loops are one. -/
theorem serve_eq_serveConn (env : Env) (maxAlloc : Nat) (timeout : Bool) (s : Server)
    (input : Text) :
    s.serve env maxAlloc ⟨input,.eof⟩ = s.serveConn env maxAlloc timeout ⟨input,.eof⟩ :=
  Loop.run_congr (fun x => x.reader.ending = .eof) turn_keeps_ending
    (fun _ ending => turns_agree env maxAlloc timeout ending) rfl

theorem readAll_error {failure : Failure} (read : readCommand maxAlloc r = (.error failure,r')) :
    readAll maxAlloc (fuel + 1) r = ([], some failure) := by
  rw [readAll, read]

theorem readAll_ok (read : readCommand maxAlloc r = (.ok c,r')) :
    readAll maxAlloc (fuel + 1) r =
      (c :: (readAll maxAlloc fuel r').1, (readAll maxAlloc fuel r').2) := by
  rw [readAll, read]

theorem handle_gate (env : Env) (s : Server) (c : Command) :
    (c.op = .auth ∧ c.token = s.authToken ∧
      s.handle env false c =
        ⟨s.count countAuth,true,writeLine (text "AUTHENTICATED"),[],none⟩) ∨
    (¬ (c.op = .auth ∧ c.token = s.authToken) ∧ (s.handle env false c).result = some .nil) := by
  by_cases auth : c.op = .auth
  · by_cases right : c.token = s.authToken
    · left
      refine ⟨auth, right, ?_⟩
      simp [Server.handle, Server.handleAuthGate, auth, constantTimeEqual, Server.count, right]
    · right
      simp [Server.handle, Server.handleAuthGate, auth, constantTimeEqual, Server.count, right]
  · right
    simp [Server.handle, Server.handleAuthGate, auth]

/-- An auth command after the gate: the right token again, or the end. -/
theorem handle_auth (env : Env) (s : Server) (auth : c.op = .auth) :
    (¬ (s.authToken = [] ∨ c.token ≠ s.authToken) ∧
      s.handle env true c =
        ⟨s.count countAuth,true,writeLine (text "AUTHENTICATED"),[],none⟩) ∨
    ((s.authToken = [] ∨ c.token ≠ s.authToken) ∧ (s.handle env true c).result = some .nil) := by
  by_cases bare : s.authToken = []
  · right
    simp [Server.handle, auth, Server.count, bare]
  · by_cases right : c.token = s.authToken
    · left
      refine ⟨by simp [bare, right], ?_⟩
      simp [Server.handle, auth, constantTimeEqual, Server.count, bare, right]
    · right
      simp [Server.handle, auth, constantTimeEqual, Server.count, bare, right]

/-- No panic lies ahead in the stream that the session has still to read. -/
def calm (n maxAlloc fuel : Nat) (x : Session) : Bool :=
  undisturbed n x.server.authToken (readAll maxAlloc fuel x.reader).2 x.authenticated
    (readAll maxAlloc fuel x.reader).1

/-- A turn goes on to a session with the same prospect, or it ends the loop, with nil
    exactly if no panic lay ahead. -/
def Foreseen (env : Env) (n maxAlloc fuel : Nat) (limits : Limits) (x : Session) : Prop :=
  (∃ y, x.serveTurn env maxAlloc = (y,none) ∧ Serves limits n y.server.store ∧
    calm n maxAlloc (fuel + 1) x = calm n maxAlloc fuel y) ∨
  ∃ y result, x.serveTurn env maxAlloc = (y,some result) ∧
    (calm n maxAlloc (fuel + 1) x = true ↔ result = .nil)

theorem foreseen_error {failure : Failure}
    (read : readCommand maxAlloc x.reader = (.error failure,r)) :
    Foreseen env n maxAlloc fuel limits x := by
  right
  rw [serveTurn_error env read, calm, readAll_error read]
  cases failure with
  | eof => exact ⟨_,.nil,rfl,by simp [undisturbed]⟩
  | fault => exact ⟨_,.nil,rfl,by simp [undisturbed]⟩
  | protocol message => exact ⟨_,.nil,rfl,by simp [undisturbed]⟩
  | panic => exact ⟨_,.panicked,rfl,by simp [undisturbed]⟩

theorem foreseen_end (read : readCommand maxAlloc x.reader = (.ok c,r))
    (ends : (x.server.handle env x.authenticated c).result = some .nil)
    (clear : calm n maxAlloc (fuel + 1) x = true) : Foreseen env n maxAlloc fuel limits x := by
  refine Or.inr ⟨((Session.reading x r).handle env c).1, .nil, ?_, by simp [clear]⟩
  rw [serveTurn_ok env read]
  exact Prod.ext rfl ends

theorem foreseen_auth (serves : Serves limits n x.server.store)
    (read : readCommand maxAlloc x.reader = (.ok c,r))
    (opens : x.server.handle env x.authenticated c =
      ⟨x.server.count countAuth,true,writeLine (text "AUTHENTICATED"),[],none⟩)
    (clear : calm n maxAlloc (fuel + 1) x =
      undisturbed n x.server.authToken (readAll maxAlloc fuel r).2 true
        (readAll maxAlloc fuel r).1) : Foreseen env n maxAlloc fuel limits x := by
  have same : (Session.reading x r).server.handle env (Session.reading x r).authenticated c =
      ⟨x.server.count countAuth,true,writeLine (text "AUTHENTICATED"),[],none⟩ := opens
  refine Or.inl ⟨⟨x.server.count countAuth,r,true,
    x.output ++ writeLine (text "AUTHENTICATED"),x.executed ++ []⟩, ?_, serves, clear⟩
  rw [serveTurn_ok env read, Session.handle, same]
  rfl

theorem foreseen_gate (serves : Serves limits n x.server.store)
    (read : readCommand maxAlloc x.reader = (.ok c,r)) (locked : x.authenticated = false) :
    Foreseen env n maxAlloc fuel limits x := by
  rcases handle_gate env x.server c with ⟨auth,right,opens⟩ | ⟨shut,ends⟩
  · apply foreseen_auth serves read
    · rw [locked, opens]
    · rw [calm, readAll_ok read, locked, undisturbed, if_pos ⟨auth,right⟩]
  · apply foreseen_end read
    · rw [locked, ends]
    · rw [calm, readAll_ok read, locked, undisturbed, if_neg shut]

theorem foreseen_again (serves : Serves limits n x.server.store)
    (read : readCommand maxAlloc x.reader = (.ok c,r)) (signed : x.authenticated = true)
    (auth : c.op = .auth) : Foreseen env n maxAlloc fuel limits x := by
  rcases handle_auth env x.server auth with ⟨same,opens⟩ | ⟨wrong,ends⟩
  · apply foreseen_auth serves read
    · rw [signed, opens]
    · rw [calm, readAll_ok read, signed, undisturbed, if_pos auth, if_neg same]
  · apply foreseen_end read
    · rw [signed, ends]
    · rw [calm, readAll_ok read, signed, undisturbed, if_pos auth, if_pos wrong]

theorem foreseen_plain (serves : Serves limits n x.server.store)
    (read : readCommand maxAlloc x.reader = (.ok c,r)) (signed : x.authenticated = true)
    (plain : c.op ≠ .auth) : Foreseen env n maxAlloc fuel limits x := by
  -- A command for the store: it is answered, unless a key has no shard.
  have working : Working limits n (Session.reading x r) := ⟨signed,serves⟩
  have ahead : calm n maxAlloc (fuel + 1) x =
      ((decide (n % 2 ^ 32 ≠ 0) || !keyed c) &&
        undisturbed n x.server.authToken (readAll maxAlloc fuel r).2 true
          (readAll maxAlloc fuel r).1) := by
    rw [calm, readAll_ok read, signed, undisturbed, if_neg plain]
  by_cases routed : n % 2 ^ 32 ≠ 0 ∨ keyed c = false
  · obtain ⟨y,response,handled,working',_,_,_,token⟩ := handle_answers env working plain routed
    have left := handle_reader env (Session.reading x r) c
    rw [handled] at left
    have clear : (decide (n % 2 ^ 32 ≠ 0) || !keyed c) = true := by simpa using routed
    refine Or.inl ⟨y, (serveTurn_ok env read).trans handled, working'.serves, ?_⟩
    rw [ahead, clear, Bool.true_and, calm, left, working'.authenticated, token]
    rfl
  · have unrouted : n % 2 ^ 32 = 0 := by
      by_contra other
      exact routed (Or.inl other)
    have needed : keyed c = true := by
      by_contra other
      exact routed (Or.inr (Bool.eq_false_iff.mpr other))
    refine Or.inr ⟨((Session.reading x r).handle env c).1, .panicked, ?_, ?_⟩
    · rw [serveTurn_ok env read]
      exact Prod.ext rfl (handle_panics env working unrouted plain needed)
    · rw [ahead, unrouted, needed]
      simp

theorem foreseen (env : Env) (fuel : Nat) (serves : Serves limits n x.server.store) :
    Foreseen env n maxAlloc fuel limits x := by
  cases read : readCommand maxAlloc x.reader with
  | mk first r =>
    cases first with
    | error failure => exact foreseen_error read
    | ok c =>
      cases signed : x.authenticated with
      | false => exact foreseen_gate serves read signed
      | true =>
        by_cases auth : c.op = .auth
        · exact foreseen_again serves read signed auth
        · exact foreseen_plain serves read signed auth

theorem returns_iff_calm (env : Env) (maxAlloc fuel : Nat) (x : Session)
    (serves : Serves limits n x.server.store) (enough : unread x < fuel) :
    (∃ y, Loop.run (Session.serveTurn env maxAlloc) fuel x = some (y,.nil)) ↔
      calm n maxAlloc fuel x = true := by
  -- Turn by turn, the loop comes back with nil exactly if no panic lies ahead.
  induction fuel generalizing x with
  | zero => omega
  | succ fuel ih =>
    rcases foreseen env fuel serves with ⟨y,goes,serves',same⟩ | ⟨y,result,stops,ends⟩
    · have shorter := serveTurn_down x y goes
      rw [Loop.run_go goes, same]
      exact ih y serves' (by omega)
    · rw [Loop.run_stop stops, ends]
      simp

/-- The two loops end alike on every stream without read errors. They return nil, with the
    same output, executed commands, store and counters, exactly if no read and no keyed
    command of the stream panics. -/
theorem loops_agree_iff_undisturbed (env : Env) (maxAlloc : Nat) (timeout : Bool) (s : Server)
    (reached : Reachable s) (input : Text) :
    s.serve env maxAlloc ⟨input,.eof⟩ = s.serveConn env maxAlloc timeout ⟨input,.eof⟩ ∧
    ((∃ x, s.serve env maxAlloc ⟨input,.eof⟩ = some (x,.nil) ∧
        s.serveConn env maxAlloc timeout ⟨input,.eof⟩ = some (x,.nil)) ↔
      undisturbed s.store.shards.length s.authToken (stream maxAlloc input).2
        (decide (s.authToken = [])) (stream maxAlloc input).1 = true) := by
  obtain ⟨config,steps,run⟩ := reached
  have agree := serve_eq_serveConn env maxAlloc timeout s input
  have serves : Serves (shardLimits config) s.store.shards.length s.store := ⟨run_sound run, rfl⟩
  have ahead := returns_iff_calm env maxAlloc (input.length + 1) (.start s ⟨input,.eof⟩) serves
    (Nat.lt_succ_self _)
  refine ⟨agree, Iff.trans ?_ ahead⟩
  rw [← agree]
  simp only [and_self]
  rfl

theorem auth_then_ping_agree :
    ∃ x, (freshServer .default (ascii ['t'])).serve stillEnv (2 ^ 48)
        ⟨ascii ['a','u','t','h',' ','t','\r','\n','p','i','n','g','\r','\n'],.eof⟩ = some (x,.nil) ∧
      (freshServer .default (ascii ['t'])).serveConn stillEnv (2 ^ 48) false
        ⟨ascii ['a','u','t','h',' ','t','\r','\n','p','i','n','g','\r','\n'],.eof⟩ = some (x,.nil) :=
  (loops_agree_iff_undisturbed stillEnv (2 ^ 48) false (freshServer .default (ascii ['t']))
    (freshServer_reachable _ _) _).2.mpr (by decide)

/-- The largest byte count that the parser accepts: neither loop returns. -/
theorem largest_count_never_returns :
    Reachable (freshServer .default []) ∧
      ¬ ∃ x, (freshServer .default []).serve stillEnv (2 ^ 48)
        ⟨ascii ['s','e','t',' ','k',' ','9','2','2','3','3','7','2','0','3','6','8','5','4','7','7',
          '5','8','0','7','\r','\n'],.eof⟩ = some (x,.nil) := by
  have panics : ((freshServer .default []).serve stillEnv (2 ^ 48)
      ⟨ascii ['s','e','t',' ','k',' ','9','2','2','3','3','7','2','0','3','6','8','5','4','7','7',
        '5','8','0','7','\r','\n'],.eof⟩).map Prod.snd = some .panicked := by decide
  refine ⟨freshServer_reachable _ _, ?_⟩
  rintro ⟨x,returned⟩
  rw [returned] at panics
  cases panics

end ServerAgreement
