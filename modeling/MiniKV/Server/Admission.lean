import MiniKV.Config.Load
import MiniKV.Protocol.Encoding
import MiniKV.Server.AuthGate

/- A configured token against the auth command. The file gives any bytes of one trimmed
   line; the command line is cut at white space, and its one argument is checked. -/
namespace ServerAdmission
open Utf8 Fields ShardModel StoreModel ProtocolModel ProtocolEncoding ConfigModel ServerModel
  ServerSession ServerAuthGate

def authVerb : Text := ascii ['a','u','t','h']

def authCommand (token : Text) : Text := authVerb ++ 0x20 :: token

def presenting (token : Text) (more : Reader) : Reader :=
  ⟨authCommand token ++ cr :: lf :: more.bytes,more.ending⟩

/-- The session after AUTHENTICATED, with the rest of the stream to serve. -/
def admitted (s : Server) (more : Reader) : Session :=
  ⟨s.count countAuth,more,true,writeLine (text "AUTHENTICATED"),[]⟩

/-- Both loops answer the token and go on as admitted; there a command is executed. -/
structure Admits (env : Env) (maxAlloc : Nat) (timeout : Bool) (s : Server) (token : Text)
    (more : Reader) : Prop where
  served : s.serve env maxAlloc (presenting token more) =
    Loop.run (Session.serveTurn env maxAlloc) (more.bytes.length + 1) (admitted s more)
  conned : s.serveConn env maxAlloc timeout (presenting token more) =
    Loop.run (Session.serveConnTurn env maxAlloc timeout) (more.bytes.length + 1) (admitted s more)
  executes : ∀ c r, readCommand maxAlloc more = (.ok c,r) → c.op ≠ .auth →
    ((admitted s more).serveTurn env maxAlloc).1.executed = [c] ∧
      ((admitted s more).serveConnTurn env maxAlloc timeout).1.executed = [c]

/-- Every server with this token admits the client, whatever the client sends next. -/
def Presentable (maxAlloc : Nat) (token : Text) : Prop :=
  ∀ (env : Env) (timeout : Bool) (s : Server) (more : Reader), s.authToken = token →
    Admits env maxAlloc timeout s token more

/-- A token that the protocol can carry: at most 250 bytes, and no rune in it is a control
    character, a blank or other white space. -/
def Carried (token : Text) : Prop :=
  validToken token = true ∧ ∀ rune ∈ runes token, isSpace rune.code = false

instance (token : Text) : Decidable (Carried token) := inferInstanceAs (Decidable (_ ∧ _))

variable {env : Env} {maxAlloc : Nat} {timeout : Bool} {s : Server} {token : Text}
  {more r : Reader} {c : Command}

theorem authVerb_spelled : authVerb.map asciiLower = ascii Op.auth.name := by decide

theorem authVerb_isWord : IsWord authVerb := verb_isWord authVerb_spelled

theorem authCommand_fields (token : Text) :
    fields (authCommand token) = authVerb :: fields token := fields_append authVerb_isWord token

theorem authCommand_plain (plain : lf ∉ token) : lf ∉ authCommand token := by
  have verb : lf ∉ authVerb := word_no_lf authVerb_isWord
  simp only [authCommand, List.mem_append, List.mem_cons, not_or]
  exact ⟨verb, by decide, plain⟩

theorem readRequest_short (plain : lf ∉ token)
    (short : (authCommand token).length + 2 ≤ bufferSize) :
    readRequest (presenting token more) =
      ((parseAuth (fields token)).mapError Failure.protocol, more) := by
  have parsed : parseFields (fields (authCommand token)) = parseAuth (fields token) := by
    rw [authCommand_fields, parseFields_spelled authVerb_spelled]
    rfl
  rw [readRequest, presenting, readLineSlice_line (authCommand_plain plain) short]
  dsimp only
  rw [commandLine_ended]
  dsimp only
  rw [parsed]
  cases parseAuth (fields token) <;> rfl

theorem readRequest_long (more : Reader) (plain : lf ∉ token)
    (long : bufferSize < (authCommand token).length + 2) :
    (readRequest (presenting token more)).1 = .error (.protocol "command line too long") := by
  have inner := authCommand_plain plain
  have window : (authCommand token ++ cr :: lf :: more.bytes).take bufferSize =
      (authCommand token ++ [cr]).take bufferSize := by
    have split : authCommand token ++ cr :: lf :: more.bytes =
        (authCommand token ++ [cr]) ++ lf :: more.bytes := by simp
    rw [split, List.take_append_of_le_length (by simp; omega)]
  have absent : ((authCommand token ++ cr :: lf :: more.bytes).take bufferSize).findIdx?
      (fun b => b == lf) = none := by
    rw [window, List.findIdx?_eq_none_iff]
    intro b mem
    refine beq_eq_false_iff_ne.mpr ?_
    rintro rfl
    rcases List.mem_append.mp (List.mem_of_mem_take mem) with own | last
    · exact inner own
    · cases List.mem_singleton.mp last
  have full : bufferSize ≤ (authCommand token ++ cr :: lf :: more.bytes).length := by
    simp only [List.length_append, List.length_cons]
    omega
  rw [readRequest, readLineSlice, presenting, absent]
  dsimp only
  rw [if_pos full]

theorem parseAuth_ok {args : List Text} {request : Request} (parsed : parseAuth args = .ok request) :
    ∃ word, args = [word] ∧ validToken word = true ∧
      request = ({ op := .auth, token := word }, none) := by
  unfold parseAuth oneWord at parsed
  split at parsed
  · rename_i word
    split at parsed
    · rename_i valid
      exact ⟨word, rfl, valid, (Except.ok.inj parsed).symm⟩
    · cases parsed
  · cases parsed

theorem readCommand_carried (maxAlloc : Nat) (more : Reader) (carried : Carried token) :
    readCommand maxAlloc (presenting token more) = (.ok { op := .auth, token := token },more) := by
  obtain ⟨valid,whole⟩ := carried
  have isWord : IsWord token := word_isWord ⟨token,valid,whole⟩
  have length : token.length ≤ maxKeyBytes := validKey_length valid
  have short : (authCommand token).length + 2 ≤ bufferSize := by
    have verb : authVerb.length = 4 := rfl
    have most : maxKeyBytes = 250 := rfl
    have buffer : bufferSize = 4096 := rfl
    simp only [authCommand, List.length_append, List.length_cons]
    omega
  have parsed : parseAuth (fields token) = .ok ({ op := .auth, token := token }, none) := by
    rw [fields_word isWord]
    exact oneWord_valid _ (fun word => { op := .auth, token := word }) valid
  rw [readCommand, readRequest_short (word_no_lf isWord) short, parsed]
  rfl

theorem carried_of_read (plain : lf ∉ token)
    (read : readCommand maxAlloc (presenting token more) = (.ok c,r)) (same : c.token = token) :
    Carried token := by
  by_cases short : (authCommand token).length + 2 ≤ bufferSize
  · rw [readCommand, readRequest_short plain short] at read
    cases parsed : parseAuth (fields token) with
    | error message =>
      rw [parsed] at read
      cases read
    | ok request =>
      obtain ⟨word,only,valid,rfl⟩ := parseAuth_ok parsed
      rw [parsed] at read
      obtain rfl := Except.ok.inj (Prod.mk.inj read).1
      obtain rfl : word = token := same
      exact ⟨valid, (isWord_of_fields only).2⟩
  · have long := readRequest_long more plain (Nat.lt_of_not_le short)
    rw [readCommand] at read
    cases line : readRequest (presenting token more) with
    | mk first left =>
      rw [line] at long read
      obtain rfl : first = _ := long
      cases read

theorem handle_opening (env : Env) (same : s.authToken = token) :
    s.handle env false { op := .auth, token := token } =
      ⟨s.count countAuth,true,writeLine (text "AUTHENTICATED"),[],none⟩ := by
  subst same
  simp [Server.handle, Server.handleAuthGate, constantTimeEqual, Server.count]

theorem handle_presented (env : Env) (more : Reader) (guarded : token ≠ [])
    (same : s.authToken = token) :
    (Session.reading (.start s (presenting token more)) more).handle env
      { op := .auth, token := token } = (admitted s more, none) := by
  have locked : (Session.start s (presenting token more)).authenticated = false := by
    subst same
    exact start_locked guarded
  have moved := handle_opening env same
  simp only [Session.handle, Session.reading, locked]
  simp only [Session.start, moved]
  rfl

theorem handle_admitted (env : Env) (s : Server) (more r : Reader) (plain : c.op ≠ .auth) :
    ((Session.reading (admitted s more) r).handle env c).1.executed = [c] := by
  have opened : (Session.reading (admitted s more) r).authenticated = true := rfl
  rw [Session.handle, opened, Server.handle, if_neg (by simp), if_neg plain]
  dsimp only
  split <;> rfl

theorem carried_admits (env : Env) (timeout : Bool) (more : Reader) (guarded : token ≠ [])
    (carried : Carried token) (same : s.authToken = token) :
    Admits env maxAlloc timeout s token more := by
  have read := readCommand_carried maxAlloc more carried
  have first := (serveTurn_ok (x := .start s (presenting token more)) env read).trans
    (handle_presented env more guarded same)
  have firstConn := (serveConnTurn_ok (x := .start s (presenting token more)) env timeout read).trans
    (handle_presented env more guarded same)
  have enough : unread (admitted s more) < (presenting token more).bytes.length := by
    simp only [unread, admitted, presenting, List.length_append, List.length_cons]
    omega
  refine ⟨?_, ?_, ?_⟩
  · rw [Server.serve, Loop.run_go first]
    exact Loop.run_fuel serveTurn_down enough (Nat.lt_succ_self _)
  · rw [Server.serveConn, Loop.run_go firstConn]
    exact Loop.run_fuel serveConnTurn_down enough (Nat.lt_succ_self _)
  · intro c r next plain
    rw [serveTurn_ok env next, serveConnTurn_ok env timeout next]
    exact ⟨handle_admitted env s more r plain, handle_admitted env s more r plain⟩

/-- A first command that does not present the token ends the session unauthenticated. -/
theorem serve_locked (env : Env) (guarded : s.authToken ≠ [])
    (wrong : ∀ c, (readCommand maxAlloc r).1 = .ok c → ¬ (c.op = .auth ∧ c.token = s.authToken)) :
    ∃ x result, s.serve env maxAlloc r = some (x,result) ∧ x.authenticated = false := by
  have locked : (Session.start s r).authenticated = false := start_locked guarded
  cases read : readCommand maxAlloc r with
  | mk first left =>
    rw [read] at wrong
    cases first with
    | ok c =>
      obtain ⟨t,moved,_⟩ := handle_locked env (wrong c rfl)
      have turned := serveTurn_ok (x := .start s r) env read
      simp only [Session.handle, Session.reading, locked] at turned
      simp only [Session.start, moved] at turned
      exact ⟨_, _, Loop.run_stop turned, rfl⟩
    | error failure =>
      have turned := serveTurn_error (x := .start s r) env read
      cases failure <;> exact ⟨_, _, Loop.run_stop turned, locked⟩

theorem admitted_idle (env : Env) (maxAlloc : Nat) (s : Server) :
    Loop.run (Session.serveTurn env maxAlloc) 1 (admitted s ⟨[],.eof⟩) =
      some (admitted s ⟨[],.eof⟩,.nil) := rfl

theorem carried_of_presentable (guarded : token ≠ []) (plain : lf ∉ token)
    (presentable : Presentable maxAlloc token) : Carried token := by
  let s : Server := .new ⟨[],0⟩ token
  have served := (presentable stillEnv true s ⟨[],.eof⟩ rfl).served
  rw [List.length_nil, Nat.zero_add, admitted_idle] at served
  by_contra off
  have wrong : ∀ c, (readCommand maxAlloc (presenting token ⟨[],.eof⟩)).1 = .ok c →
      ¬ (c.op = .auth ∧ c.token = s.authToken) := by
    intro c first right
    exact off (carried_of_read plain (Prod.ext first rfl) right.2)
  obtain ⟨x,result,ended,locked⟩ := serve_locked stillEnv guarded wrong
  rw [served] at ended
  obtain ⟨rfl,_⟩ := Prod.mk.inj (Option.some.inj ended)
  cases locked

/-- For every file that Load accepts with a token: the token can be presented to the
    server it configures if and only if the protocol can carry it. -/
theorem accepted_token_presentable_iff (fraction : Nat → Nat → Nat → Nat)
    (disk : Text → Except Text Reader) (path : Text) (config : ConfigModel.Config)
    (accepted : load fraction disk path = .ok config) (guarded : config.authToken ≠ [])
    (maxAlloc : Nat) : Presentable maxAlloc config.authToken ↔ Carried config.authToken := by
  constructor
  · exact carried_of_presentable guarded (load_token_plain accepted)
  · intro carried env timeout s more same
    exact carried_admits env timeout more guarded carried same

def oneFile (bytes : Text) : Text → Except Text Reader := fun _ => .ok ⟨bytes,.eof⟩

def secretFile : Text :=
  ascii ['#',' ','t','o','k','e','n','\n','a','u','t','h','-','t','o','k','e','n',' ','=',' ',
    's','3','c','r','e','t','\r','\n']

theorem secret_presentable :
    load (fun _ _ _ => 0) (oneFile secretFile) [] =
        .ok { ConfigModel.Config.default with authToken := ascii ['s','3','c','r','e','t'] } ∧
      Presentable (2 ^ 48) (ascii ['s','3','c','r','e','t']) := by
  have accepted : load (fun _ _ _ => 0) (oneFile secretFile) [] =
      .ok { ConfigModel.Config.default with authToken := ascii ['s','3','c','r','e','t'] } := by
    decide
  exact ⟨accepted, (accepted_token_presentable_iff _ _ _ _ accepted (by decide) (2 ^ 48)).mpr
    (by decide)⟩

def sesameFile : Text :=
  ascii ['a','u','t','h','-','t','o','k','e','n',' ','=',' ','o','p','e','n',' ','s','e','s','a','m',
    'e','\n']

def sesame : Text := ascii ['o','p','e','n',' ','s','e','s','a','m','e']

/-- The file is accepted, and the client that sends the token is refused. -/
theorem spaced_token_refused :
    load (fun _ _ _ => 0) (oneFile sesameFile) [] =
        .ok { ConfigModel.Config.default with authToken := sesame } ∧
      ((Server.new (Store.new MachineWord.int64 ConfigModel.Config.default.store) sesame).serve
        stillEnv (2 ^ 48) (presenting sesame ⟨[],.eof⟩)).map (fun done => done.1.output) =
        some (writeLine (text "CLIENT_ERROR bad command")) ∧
      ¬ Presentable (2 ^ 48) sesame := by
  refine ⟨by decide, ?_, ?_⟩
  · rfl
  · intro presentable
    exact absurd (carried_of_presentable (by decide) (by decide) presentable) (by decide)

end ServerAdmission
