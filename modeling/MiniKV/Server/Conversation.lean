import MiniKV.Server.Moves
import MiniKV.Server.Timeouts

/- What a connection hears, among all the others. Its bytes arrive in any pieces, and the
   steps of other connections come between its own; still its output is one answer to each of
   the commands that it has got through, in their order, and only an admitted connection has
   its commands executed. When a connection ends, the commands behind have no answer, and the
   last answer may be cut off. -/
namespace ServerConversation
open MachineWord LruModel ShardModel StoreModel StoreFate ProtocolModel ProtocolFraming
  ServerModel ServerResponses ServerSession ServerTimeouts ServerLifecycle ServerPlaces ServerMoves

/-- One command and its answer, on a connection that is admitted or not: what is written,
    what is executed, and whether the connection is admitted afterwards; none if it ends. -/
inductive Speaks (token : Text) : Bool → Command → Text → List Command → Option Bool → Prop where
  | refused {c : Command} (plain : c.op ≠ .auth) :
      Speaks token false c (writeLine (text "CLIENT_ERROR auth required")) [] none
  | denied {admitted : Bool} {c : Command} (auth : c.op = .auth) (wrong : c.token ≠ token)
      (guarded : token ≠ []) :
      Speaks token admitted c (writeLine (text "CLIENT_ERROR auth failed")) [] none
  | unneeded {c : Command} (auth : c.op = .auth) (unguarded : token = []) :
      Speaks token true c (writeLine (text "CLIENT_ERROR auth not configured")) [] none
  | admitted {admitted : Bool} {c : Command} (auth : c.op = .auth) (right : c.token = token)
      (guarded : token ≠ []) :
      Speaks token admitted c (writeLine (text "AUTHENTICATED")) [] (some true)
  | answered {c : Command} {response : Text} (plain : c.op ≠ .auth)
      (responds : Responds c response) : Speaks token true c response [c] (some true)

/-- The commands of a connection with their answers, from its beginning. -/
inductive Talk (token : Text) : List (Command × Text) → List Command → Option Bool → Prop where
  | nil : Talk token [] [] (some (decide (token = [])))
  | snoc {exchanges : List (Command × Text)} {executed more : List Command} {admitted : Bool}
      {c : Command} {response : Text} {next : Option Bool}
      (before : Talk token exchanges executed (some admitted))
      (speaks : Speaks token admitted c response more next) :
      Talk token (exchanges ++ [(c,response)]) (executed ++ more) next

/-- Complete commands that have been answered: their bytes, and the answers. -/
structure Answered (maxAlloc : Nat) (token consumed : Text) (exchanges : List (Command × Text))
    (executed : List Command) (answers : Text) (next : Option Bool) : Prop where
  commands : Commands maxAlloc consumed (exchanges.map Prod.fst)
  talk : Talk token exchanges executed next
  answers : answers = (exchanges.map Prod.snd).flatten

/-- The states of a conversation: on the way to the loop of serveConn or turned away, told so,
    between two commands, at one, and out of the loop. -/
inductive Phase where
  | outside
  | told
  | waiting
  | busy (c : Command)
  | past

def phase : Pc → Phase
  | .entered | .opened | .refused | .rejected | .acquired | .joined | .registered => .outside
  | .told | .turnedAway => .told
  | .top | .reading => .waiting
  | .executing c => .busy c
  | .left | .closed | .inactive | .deregistered | .releasing | .finished | .returned => .past

/-- A connection that got these bytes and had these commands executed. -/
inductive Connected (maxAlloc : Nat) (token delivered : Text) (executed : List Command)
    (h : Handler) : Prop where
  | fresh (place : phase h.pc = .outside) (silent : delivered = []) (idle : executed = [])
      (received : h.received = []) (output : h.output = [])
  | told (place : phase h.pc = .told) (silent : delivered = [])
      (idle : executed = []) (output : h.output =
        writeLine (text "SERVER_ERROR max connections reached"))
  | waiting {consumed : Text} {exchanges : List (Command × Text)}
      (place : phase h.pc = .waiting)
      (answered : Answered maxAlloc token consumed exchanges executed h.output
        (some h.authenticated))
      (bytes : delivered = consumed ++ h.received)
  | busy {consumed own : Text} {exchanges : List (Command × Text)} {c : Command}
      (place : phase h.pc = .busy c)
      (answered : Answered maxAlloc token consumed exchanges executed h.output
        (some h.authenticated))
      (read : readCommand maxAlloc ⟨own,.eof⟩ = (.ok c,⟨[],.eof⟩))
      (bytes : delivered = consumed ++ own ++ h.received)
  | ended {consumed answers closing : Text} {exchanges : List (Command × Text)}
      {next : Option Bool} (place : phase h.pc = .past)
      (answered : Answered maxAlloc token consumed exchanges executed answers next)
      (output : h.output = answers ++ closing)
      (closing : closing = [] ∨
        next ≠ none ∧ closing = writeLine (text "CLIENT_ERROR bad command"))
      (bytes : consumed <+: delivered)
  | cut {consumed answers response sent : Text} {exchanges : List (Command × Text)} {c : Command}
      {next : Option Bool} (place : phase h.pc = .past)
      (answered : Answered maxAlloc token consumed (exchanges ++ [(c,response)]) executed
        (answers ++ response) next)
      (output : h.output = answers ++ sent) (sent : sent <+: response)
      (unwritten : h.result = some .unwritten) (bytes : consumed <+: delivered)

variable {env : Env} {maxAlloc n i : Nat} {limits : Limits} {token delivered : Text}
  {executed : List Command} {s t : Hub} {h h' : Handler} {c : Command} {out : List Command}

theorem talk_flag {exchanges : List (Command × Text)} {admitted : Bool}
    (talk : Talk token exchanges executed (some admitted)) :
    admitted = false → token ≠ [] ∧ executed = [] ∧ exchanges = [] := by
  generalize flag : some admitted = next at talk
  cases talk with
  | nil =>
    intro closed
    obtain rfl := Option.some.inj flag
    exact ⟨by simpa using closed, rfl, rfl⟩
  | snoc before speaks =>
    intro closed
    subst closed
    cases speaks with
    | refused | denied | unneeded => cases flag
    | admitted | answered => cases flag

/-- A command is executed only behind the token. -/
theorem talk_admitted {exchanges : List (Command × Text)} {next : Option Bool}
    (talk : Talk token exchanges executed next) (guarded : token ≠ []) :
    (executed ≠ [] ∨ next = some true) →
      ∃ c response rest, exchanges = (c,response) :: rest ∧ c.op = .auth ∧ c.token = token := by
  induction talk with
  | nil =>
    rintro (some_executed | flag)
    · exact absurd rfl some_executed
    · simp [guarded] at flag
  | @snoc exchanges executed more admitted c response next before speaks ih =>
    intro reached
    cases speaks with
    | refused plain =>
      obtain ⟨_,rfl,_⟩ := talk_flag before rfl
      simp at reached
    | denied auth wrong =>
      rcases reached with some_executed | flag
      · obtain ⟨c,response,rest,rfl,known⟩ := ih (Or.inl (by simpa using some_executed))
        exact ⟨c, response, _, rfl, known⟩
      · cases flag
    | unneeded auth unguarded => exact absurd unguarded guarded
    | answered plain responds =>
      obtain ⟨c,response,rest,rfl,known⟩ := ih (Or.inr rfl)
      exact ⟨c, response, _, rfl, known⟩
    | admitted auth right =>
      cases admitted with
      | true =>
        obtain ⟨c,response,rest,rfl,known⟩ := ih (Or.inr rfl)
        exact ⟨c, response, _, rfl, known⟩
      | false =>
        obtain ⟨_,_,rfl⟩ := talk_flag before rfl
        exact ⟨c, _, [], rfl, auth, right⟩

theorem commands_snoc {consumed own : Text} {cs : List Command}
    (complete : Commands maxAlloc consumed cs)
    (read : readCommand maxAlloc ⟨own,.eof⟩ = (.ok c,⟨[],.eof⟩)) :
    Commands maxAlloc (consumed ++ own) (cs ++ [c]) := by
  induction complete with
  | nil =>
    have one := Commands.cons read Commands.nil
    rwa [List.append_nil] at one
  | cons first more ih =>
    rw [List.append_assoc]
    exact Commands.cons first ih

theorem answered_snoc {consumed own answers response : Text} {exchanges : List (Command × Text)}
    {more : List Command} {admitted : Bool} {next : Option Bool}
    (answered : Answered maxAlloc token consumed exchanges executed answers (some admitted))
    (read : readCommand maxAlloc ⟨own,.eof⟩ = (.ok c,⟨[],.eof⟩))
    (speaks : Speaks token admitted c response more next) :
    Answered maxAlloc token (consumed ++ own) (exchanges ++ [(c,response)]) (executed ++ more)
      (answers ++ response) next := by
  constructor
  · rw [List.map_append]
    exact commands_snoc answered.commands read
  · exact Talk.snoc answered.talk speaks
  · rw [answered.answers]
    simp

/-- The ways of handling a command. -/
inductive Handled (env : Env) (s : Server) : Bool → Command → Move → Prop where
  | refused {c : Command} (plain : c.op ≠ .auth) :
      Handled env s false c ⟨s,false,writeLine (text "CLIENT_ERROR auth required"),[],some .nil⟩
  | denied {admitted : Bool} {c : Command} (auth : c.op = .auth) (wrong : c.token ≠ s.authToken)
      (guarded : s.authToken ≠ []) :
      Handled env s admitted c ⟨(s.count countAuth).count countAuthFailure,admitted,
        writeLine (text "CLIENT_ERROR auth failed"),[],some .nil⟩
  | unneeded {c : Command} (auth : c.op = .auth) (unguarded : s.authToken = []) :
      Handled env s true c ⟨s.count countAuth,true,
        writeLine (text "CLIENT_ERROR auth not configured"),[],some .nil⟩
  | admitted {admitted : Bool} {c : Command} (auth : c.op = .auth) (right : c.token = s.authToken)
      (guarded : s.authToken ≠ []) :
      Handled env s admitted c ⟨s.count countAuth,true,writeLine (text "AUTHENTICATED"),[],none⟩
  | executed {c : Command} {server : Server} {result : Option Result} (plain : c.op ≠ .auth)
      (done : Execution) (own : done = (s.count fun m => m.countCommand c.op).execute env c)
      (answered : done.status = .ok → server = done.server ∧ result = none)
      (left : server = done.server ∨ server = done.server.count countServerError) :
      Handled env s true c ⟨server,true,done.written,[c],result⟩

theorem handle_cases (env : Env) (s : Server) (admitted : Bool) (c : Command)
    (guarded : admitted = false → s.authToken ≠ []) :
    Handled env s admitted c (s.handle env admitted c) := by
  by_cases auth : c.op = .auth
  · cases admitted with
    | false =>
      by_cases right : c.token = s.authToken
      · have moved : s.handle env false c =
            ⟨s.count countAuth,true,writeLine (text "AUTHENTICATED"),[],none⟩ := by
          simp [Server.handle, Server.handleAuthGate, auth, right, constantTimeEqual, Server.count]
        rw [moved]
        exact Handled.admitted auth right (guarded rfl)
      · have moved : s.handle env false c = ⟨(s.count countAuth).count countAuthFailure,false,
            writeLine (text "CLIENT_ERROR auth failed"),[],some .nil⟩ := by
          simp [Server.handle, Server.handleAuthGate, auth, right, constantTimeEqual, Server.count]
        rw [moved]
        exact Handled.denied auth right (guarded rfl)
    | true =>
      by_cases unguarded : s.authToken = []
      · have moved : s.handle env true c = ⟨s.count countAuth,true,
            writeLine (text "CLIENT_ERROR auth not configured"),[],some .nil⟩ := by
          simp [Server.handle, auth, unguarded, Server.count]
        rw [moved]
        exact Handled.unneeded auth unguarded
      · by_cases right : c.token = s.authToken
        · have moved : s.handle env true c =
              ⟨s.count countAuth,true,writeLine (text "AUTHENTICATED"),[],none⟩ := by
            simp [Server.handle, auth, right, unguarded, constantTimeEqual, Server.count]
          rw [moved]
          exact Handled.admitted auth right unguarded
        · have moved : s.handle env true c = ⟨(s.count countAuth).count countAuthFailure,true,
              writeLine (text "CLIENT_ERROR auth failed"),[],some .nil⟩ := by
            simp [Server.handle, auth, right, unguarded, constantTimeEqual, Server.count]
          rw [moved]
          exact Handled.denied auth right unguarded
  · cases admitted with
    | false =>
      have moved : s.handle env false c =
          ⟨s,false,writeLine (text "CLIENT_ERROR auth required"),[],some .nil⟩ := by
        simp [Server.handle, Server.handleAuthGate, auth]
      rw [moved]
      exact Handled.refused auth
    | true =>
      rw [Server.handle, if_neg (by simp), if_neg auth]
      dsimp only
      split
      · exact Handled.executed auth _ rfl (fun _ => ⟨rfl, rfl⟩) (Or.inl rfl)
      · rename_i failed
        exact Handled.executed auth _ rfl (fun ok => by cases failed.symm.trans ok) (Or.inr rfl)
      · rename_i failed
        exact Handled.executed auth _ rfl (fun ok => by cases failed.symm.trans ok) (Or.inl rfl)

/-- The answer of a server whose store finds every shard. -/
theorem handled_speaks {s : Server} {admitted : Bool} {move : Move}
    (serves : Serves limits n s.store) (routed : n % 2 ^ 32 ≠ 0)
    (handled : Handled env s admitted c move) :
    Speaks s.authToken admitted c move.written move.executed
        (if move.result = none then some move.authenticated else none) ∧
      Serves limits n move.server.store ∧ move.server.authToken = s.authToken := by
  cases handled with
  | refused plain => exact ⟨Speaks.refused plain, serves, rfl⟩
  | denied auth wrong guarded => exact ⟨Speaks.denied auth wrong guarded, serves, rfl⟩
  | unneeded auth unguarded => exact ⟨Speaks.unneeded auth unguarded, serves, rfl⟩
  | admitted auth right guarded => exact ⟨Speaks.admitted auth right guarded, serves, rfl⟩
  | executed plain done own answered left =>
    subst own
    obtain ⟨answers,responds⟩ := execute_answers env
      (s := s.count fun m => m.countCommand c.op) serves plain (Or.inl routed)
    obtain ⟨rfl,rfl⟩ := answered answers.status
    exact ⟨Speaks.answered plain responds, answers.serves, answers.token⟩

/-- What the whole owes its connections: a store that answers, the token, and to each call
    the state of its own conversation. -/
structure Talking (maxAlloc : Nat) (limits : Limits) (n : Nat) (token : Text)
    (delivered : Nat → Text) (executed : Nat → List Command) (s : Hub) : Prop where
  serves : Serves limits n s.server.store
  guards : s.server.authToken = token
  calls : ∀ (i : Nat) (h : Handler), s.calls[i]? = some h →
    Connected maxAlloc token (delivered i) (executed i) h
  later : ∀ i, s.calls.length ≤ i → delivered i = [] ∧ executed i = []

/-- A call between two places that have one state of the conversation. -/
theorem connected_moved {pc : Pc} (connected : Connected maxAlloc token delivered executed h)
    (same : phase pc = phase h.pc) (deadline : Option Time) (closed : Bool) :
    Connected maxAlloc token delivered executed
      { h with pc := pc, deadline := deadline, closed := closed } := by
  cases connected with
  | fresh place silent idle received output =>
    exact Connected.fresh (same.trans place) silent idle received output
  | told place silent idle output => exact Connected.told (same.trans place) silent idle output
  | waiting place answered bytes => exact Connected.waiting (same.trans place) answered bytes
  | busy place answered read bytes =>
    exact Connected.busy (same.trans place) answered read bytes
  | ended place answered output closing bytes =>
    exact Connected.ended (same.trans place) answered output closing bytes
  | cut place answered output sent unwritten bytes =>
    exact Connected.cut (same.trans place) answered output sent unwritten bytes

theorem connected_waiting (connected : Connected maxAlloc token delivered executed h)
    (place : phase h.pc = .waiting) :
    ∃ consumed exchanges, Answered maxAlloc token consumed exchanges executed h.output
      (some h.authenticated) ∧ delivered = consumed ++ h.received := by
  cases connected with
  | waiting _ answered bytes => exact ⟨_, _, answered, bytes⟩
  | fresh other | told other | busy other | ended other | cut other => cases place.symm.trans other

theorem connected_busy (connected : Connected maxAlloc token delivered executed h)
    (place : phase h.pc = .busy c) :
    ∃ consumed own exchanges, Answered maxAlloc token consumed exchanges executed h.output
      (some h.authenticated) ∧ readCommand maxAlloc ⟨own,.eof⟩ = (.ok c,⟨[],.eof⟩) ∧
        delivered = consumed ++ own ++ h.received := by
  cases connected with
  | busy other answered read bytes =>
    obtain rfl := Phase.busy.inj (place.symm.trans other)
    exact ⟨_, _, _, answered, read, bytes⟩
  | fresh other | told other | waiting other | ended other | cut other => cases place.symm.trans other

theorem connected_fresh (connected : Connected maxAlloc token delivered executed h)
    (place : phase h.pc = .outside) :
    delivered = [] ∧ executed = [] ∧ h.received = [] ∧ h.output = [] := by
  cases connected with
  | fresh _ silent idle received output => exact ⟨silent, idle, received, output⟩
  | told other | waiting other | busy other | ended other | cut other => cases place.symm.trans other

/-- A read that fails ends the connection, with one line at most. -/
theorem readError_closes (timeout : Bool) (x : Session) (failure : Failure) :
    ∃ closing, (x.handleReadError timeout failure).1.output = x.output ++ closing ∧
      (closing = [] ∨ closing = writeLine (text "CLIENT_ERROR bad command")) ∧
      (x.handleReadError timeout failure).2 ≠ none ∧
      (x.handleReadError timeout failure).1.server.store = x.server.store ∧
      (x.handleReadError timeout failure).1.server.authToken = x.server.authToken := by
  have quiet : x.output = x.output ++ [] := (List.append_nil _).symm
  cases failure with
  | eof => exact ⟨[], quiet, Or.inl rfl, by simp [Session.handleReadError], rfl, rfl⟩
  | fault =>
    cases timeout with
    | true => exact ⟨[], quiet, Or.inl rfl, by simp [Session.handleReadError], rfl, rfl⟩
    | false =>
      exact ⟨_, rfl, Or.inr rfl, by simp [Session.handleReadError, Session.badCommand], rfl, rfl⟩
  | protocol message =>
    exact ⟨_, rfl, Or.inr rfl, by simp [Session.handleReadError, Session.badCommand], rfl, rfl⟩
  | panic => exact ⟨[], quiet, Or.inl rfl, by simp [Session.handleReadError], rfl, rfl⟩

/-- The bytes that an event brings to a connection. -/
def incoming (i : Nat) : Event → Text
  | .receive j bytes => if j = i then bytes else []
  | _ => []

theorem incoming_mover (i : Nat) (event : Event) : incoming i event = [] ∨ mover event = some i := by
  cases event with
  | receive j bytes =>
    by_cases own : j = i
    · exact Or.inr (by rw [own]; rfl)
    · exact Or.inl (if_neg own)
  | _ => exact Or.inl rfl

section Walk
variable {pc pc' : Pc}

theorem phase_walks (way : walking pc = true) (next : successor pc pc' = true) :
    (phase pc' = phase pc ∧ pc' ≠ .told ∧ pc' ≠ .top) ∨ pc = .rejected ∧ pc' = .told ∨
      pc = .registered ∧ pc' = .top := by
  cases pc <;> cases pc' <;>
    first
    | exact absurd next Bool.false_ne_true
    | exact absurd way Bool.false_ne_true
    | exact Or.inl ⟨rfl, nofun, nofun⟩
    | exact Or.inr (Or.inl ⟨rfl,rfl⟩)
    | exact Or.inr (Or.inr ⟨rfl,rfl⟩)

theorem walked_plain (s : Hub) (h : Handler) (untold : pc ≠ .told) (inside : pc ≠ .top) :
    ∃ d f, walked s h pc = { h with pc := pc, deadline := d, closed := f } := by
  obtain ⟨d,armed⟩ := arm_deadline s h
  cases pc with
  | told => exact absurd rfl untold
  | top => exact absurd rfl inside
  | reading => exact ⟨d, h.closed, by rw [walked, armed]⟩
  | turnedAway => exact ⟨h.deadline, true, rfl⟩
  | closed => exact ⟨h.deadline, true, rfl⟩
  | _ => exact ⟨h.deadline, h.closed, rfl⟩

end Walk

/-- A call on its own way: it is told that it is turned away, the conversation begins, or
    nothing of it changes. -/
theorem walked_connected {pc : Pc} (connected : Connected maxAlloc token delivered executed h)
    (guards : s.server.authToken = token) (way : walking h.pc = true)
    (next : successor h.pc pc = true) :
    Connected maxAlloc token delivered executed (walked s h pc) := by
  rcases phase_walks way next with ⟨same,untold,inside⟩ | ⟨place,rfl⟩ | ⟨place,rfl⟩
  · obtain ⟨d,f,shape⟩ := walked_plain s h untold inside
    rw [shape]
    exact connected_moved connected same d f
  · obtain ⟨silent,idle,received,output⟩ := connected_fresh connected (by rw [place]; rfl)
    exact Connected.told rfl silent idle (by simp [walked, output])
  · obtain ⟨silent,idle,received,output⟩ := connected_fresh connected (by rw [place]; rfl)
    have empty : Answered maxAlloc token [] [] executed h.output
        (some (decide (s.server.authToken = []))) := by
      rw [idle, guards]
      exact ⟨Commands.nil, Talk.nil, output⟩
    exact Connected.waiting rfl empty (by rw [silent]; exact received.symm)

/-- An answer to a command of which only the first keys were looked up. -/
theorem responds_trimmed {keys : Nat} {response : Text}
    (responds : Responds { c with keys := c.keys.take keys } response) : Responds c response := by
  have trimmed {line : Text → Item → Text} (blocks : Blocks line (c.keys.take keys) response) :
      Blocks line c.keys response := by
    obtain ⟨hits,some_keys,shape⟩ := blocks
    exact ⟨hits, some_keys.trans (List.take_sublist keys c.keys), shape⟩
  unfold Responds at responds ⊢
  dsimp only at responds
  cases op : c.op <;> simp only [op] at responds ⊢ <;> first | exact responds | exact trimmed responds

theorem speaks_trimmed {keys : Nat} {admitted : Bool} {response : Text} {more : List Command}
    {next : Option Bool}
    (speaks : Speaks token admitted { c with keys := c.keys.take keys } response more next)
    (ran : more ≠ []) : Speaks token admitted c response [c] next := by
  cases speaks with
  | refused | denied | unneeded | admitted => exact absurd rfl ran
  | answered plain responds => exact Speaks.answered plain (responds_trimmed responds)

/-- A call at a command, as a server whose store finds every shard handles it. -/
theorem busy_speaks (env : Env) (connected : Connected maxAlloc token delivered executed h)
    (place : phase h.pc = .busy c) (serves : Serves limits n s.server.store)
    (routed : n % 2 ^ 32 ≠ 0) (guards : s.server.authToken = token) (c' : Command) :
    Speaks token h.authenticated c' (s.server.handle env h.authenticated c').written
        (s.server.handle env h.authenticated c').executed
        (if (s.server.handle env h.authenticated c').result = none
          then some (s.server.handle env h.authenticated c').authenticated else none) ∧
      Serves limits n (s.server.handle env h.authenticated c').server.store ∧
      (s.server.handle env h.authenticated c').server.authToken = token := by
  obtain ⟨_,_,_,answered,_⟩ := connected_busy connected place
  have closed : h.authenticated = false → s.server.authToken ≠ [] := by
    rw [guards]
    exact fun flag => (talk_flag answered.talk flag).1
  rw [← guards]
  exact handled_speaks serves routed (handle_cases env s.server h.authenticated c' closed)

/-- A write that fails cuts the answer off, and with it the conversation. -/
theorem cut_connected {move : Move} {next : Option Bool} {more : List Command} (sent : Nat)
    (connected : Connected maxAlloc token delivered executed h) (place : phase h.pc = .busy c)
    (speaks : Speaks token h.authenticated c move.written more next) :
    Connected maxAlloc token delivered (executed ++ more) (h.cut move sent) := by
  obtain ⟨consumed,own,exchanges,answered,alone,bytes⟩ := connected_busy connected place
  exact Connected.cut rfl (answered_snoc answered alone speaks) rfl (List.take_prefix sent _) rfl
    ⟨h.received,bytes.symm⟩

/-- A command is handled: its answer is the next of the conversation. -/
theorem handled_connected (connected : Connected maxAlloc token delivered executed h)
    (place : phase h.pc = .busy c)
    (speaks : Speaks token h.authenticated c (s.server.handle env h.authenticated c).written
      (s.server.handle env h.authenticated c).executed
      (if (s.server.handle env h.authenticated c).result = none
        then some (s.server.handle env h.authenticated c).authenticated else none)) :
    Connected maxAlloc token delivered
      (executed ++ (s.server.handle env h.authenticated c).executed)
      (h.turned ((s.session h ⟨h.received,.fault⟩).handle env c)) := by
  obtain ⟨consumed,own,exchanges,answered,alone,bytes⟩ := connected_busy connected place
  have longer := answered_snoc answered alone speaks
  cases goes : (s.server.handle env h.authenticated c).result with
  | none =>
    rw [goes, if_pos rfl] at longer
    refine Connected.waiting ?_ longer bytes
    simp [Handler.turned, Session.handle, Hub.session, goes, phase]
  | some result =>
    rw [goes, if_neg (by simp)] at longer
    refine Connected.ended ?_ longer (List.append_nil _).symm (Or.inl rfl) ⟨h.received, bytes.symm⟩
    simp [Handler.turned, Session.handle, Hub.session, goes, phase]

/-- ReadCommand has come back with an error, which ends the connection. -/
theorem failed_connected {r : Reader} (timeout : Bool) (failure : Failure)
    (connected : Connected maxAlloc token delivered executed h) (place : phase h.pc = .waiting) :
    Connected maxAlloc token delivered executed
      (h.turned ((s.session h r).handleReadError timeout failure)) := by
  obtain ⟨consumed,exchanges,answered,bytes⟩ := connected_waiting connected place
  obtain ⟨closing,output,last,ends,_⟩ := readError_closes timeout (s.session h r) failure
  refine Connected.ended ?_ answered output ?_ ⟨h.received, bytes.symm⟩
  · simp [Handler.turned, ends, phase]
  · exact last.imp_right fun line => ⟨by simp, line⟩

/-- What one step of a call leaves: the call in the next state of its conversation, and a
    server that answers as before. -/
structure Follows (maxAlloc : Nat) (limits : Limits) (n : Nat) (token delivered : Text)
    (executed : List Command) (h : Handler) (server : Server) : Prop where
  call : Connected maxAlloc token delivered executed h
  serves : Serves limits n server.store
  guards : server.authToken = token

theorem deed_follows {server : Server} {event : Event}
    (connected : Connected maxAlloc token delivered executed h)
    (serves : Serves limits n s.server.store) (routed : n % 2 ^ 32 ≠ 0)
    (guards : s.server.authToken = token)
    (deed : Deed env maxAlloc s i h event h' server out) :
    Follows maxAlloc limits n token (delivered ++ incoming i event) (executed ++ out) h' server := by
  have silent {j : Nat} {event : Event} {ending : Ending} {timeout : Bool}
      (reads : Reads maxAlloc j h event ending timeout) : incoming i event = [] := by
    cases reads <;> rfl
  cases deed with
  | walked way next =>
    refine ⟨?_, serves, guards⟩
    simpa [incoming] using walked_connected connected guards way next
  | @received bytes place =>
    obtain ⟨consumed,exchanges,answered,whole⟩ := connected_waiting connected (by rw [place]; rfl)
    rw [List.append_nil]
    refine ⟨Connected.waiting (by rw [place]; rfl) answered ?_, serves, guards⟩
    simp [incoming, whole]
  | @found event ending timeout c r place reads read =>
    obtain ⟨consumed,exchanges,answered,bytes⟩ := connected_waiting connected (by rw [place]; rfl)
    obtain ⟨own,cut,alone⟩ := readCommand_local read
    rw [silent reads, List.append_nil, List.append_nil]
    refine ⟨Connected.busy rfl answered alone ?_, serves, guards⟩
    rw [bytes, List.append_assoc]
    exact congrArg (consumed ++ ·) cut
  | @failed event ending timeout failure r place reads read =>
    obtain ⟨_,_,_,_,store,kept⟩ := readError_closes timeout (s.session h r) failure
    rw [silent reads, List.append_nil, List.append_nil]
    exact ⟨failed_connected timeout failure connected (by rw [place]; rfl), store ▸ serves,
      kept.trans guards⟩
  | @handled c place =>
    have busy : phase h.pc = .busy c := by rw [place]; rfl
    obtain ⟨speaks,serving,kept⟩ := busy_speaks env connected busy serves routed guards c
    rw [show incoming i (.advance i) = [] from rfl, List.append_nil]
    exact ⟨handled_connected connected busy speaks, serving, kept⟩
  | @unflushed c sent place =>
    have busy : phase h.pc = .busy c := by rw [place]; rfl
    obtain ⟨speaks,serving,kept⟩ := busy_speaks env connected busy serves routed guards c
    rw [show incoming i (.lose i _) = [] from rfl, List.append_nil]
    exact ⟨cut_connected sent connected busy speaks, serving, kept⟩
  | @unwritten c keys sent move place tried ran answered =>
    have busy : phase h.pc = .busy c := by rw [place]; rfl
    obtain ⟨speaks,serving,kept⟩ := busy_speaks env connected busy serves routed guards
      { c with keys := c.keys.take keys }
    rw [← tried] at speaks serving kept
    rw [show incoming i (.lose i _) = [] from rfl, List.append_nil]
    exact ⟨cut_connected sent connected busy (speaks_trimmed speaks ran), serving, kept⟩

variable {deliveries : Nat → Text} {executions : Nat → List Command} {event : Event}

theorem step_follows (talking : Talking maxAlloc limits n token deliveries executions s)
    (routed : n % 2 ^ 32 ≠ 0) (here : s.calls[i]? = some h) {server : Server}
    (deed : Deed env maxAlloc s i h event h' server out) :
    Follows maxAlloc limits n token (deliveries i ++ incoming i event) (executions i ++ out) h'
      server :=
  deed_follows (talking.calls i h here) talking.serves routed talking.guards deed

theorem step_serves (talking : Talking maxAlloc limits n token deliveries executions s)
    (routed : n % 2 ^ 32 ≠ 0) (taken : s.step env maxAlloc event = some (t,out)) :
    Serves limits n t.server.store ∧ t.server.authToken = token := by
  have same (server : t.server = s.server) :
      Serves limits n t.server.store ∧ t.server.authToken = token := by
    rw [server]
    exact ⟨talking.serves, talking.guards⟩
  cases step_cases taken with
  | moved i h h' pc pc' here moved deed =>
    have follows := step_follows talking routed here deed
    exact ⟨follows.serves, follows.guards⟩
  | misused _ _ _ _ misused => exact same (by rw [misused.down])
  | started _ shape => exact same (by rw [shape])
  | passed _ _ shape => exact same (by rw [shape])
  | wound wound => exact same (by cases wound <;> rfl)

/-- A call that takes no step hears nothing and has nothing executed. -/
theorem spared_silent (spared : Spared event i h h' s t out) :
    incoming i event = [] ∧ (if mover event = some i then out else []) = [] := by
  constructor
  · rcases incoming_mover i event with silent | mine
    · exact silent
    · rw [(spared.joining mine).1]
      rfl
  · split
    · rename_i mine
      exact (spared.joining mine).2.2
    · rfl

/-- One step of the whole. -/
theorem step_talking (talking : Talking maxAlloc limits n token deliveries executions s)
    (routed : n % 2 ^ 32 ≠ 0) (taken : s.step env maxAlloc event = some (t,out)) :
    Talking maxAlloc limits n token (fun i => deliveries i ++ incoming i event)
      (fun i => executions i ++ if mover event = some i then out else []) t := by
  obtain ⟨serves,guards⟩ := step_serves talking routed taken
  refine ⟨serves, guards, ?_, ?_⟩
  · intro j k there
    rcases step_calls taken there with ⟨h,here⟩ | ⟨rfl,new,rfl⟩
    · rcases step_call taken here with ⟨h',spared⟩ | ⟨h',pc',moved,deed⟩
      · obtain ⟨silent,idle⟩ := spared_silent spared
        obtain rfl : h' = k := Option.some.inj (spared.call.symm.trans there)
        rw [silent, idle, List.append_nil, List.append_nil, spared.same]
        exact connected_moved (talking.calls j h here) rfl _ _
      · obtain rfl : h' = k := Option.some.inj ((moved_call moved here).symm.trans there)
        rw [if_pos moved.mine]
        exact (step_follows talking routed here deed).call
    · obtain ⟨silent,idle⟩ := talking.later j new
      exact Connected.fresh rfl (by simp [silent, incoming]) (by simp [idle, mover]) rfl rfl
  · intro j big
    have absent : s.calls.length ≤ j := by
      by_contra small
      obtain ⟨h,here⟩ : ∃ h, s.calls[j]? = some h := ⟨_, List.getElem?_eq_getElem (not_le.mp small)⟩
      rcases step_call taken here with ⟨h',spared⟩ | ⟨h',pc',moved,_⟩
      · have inside := (List.getElem?_eq_some_iff.mp spared.call).1
        omega
      · have inside := (List.getElem?_eq_some_iff.mp (moved_call moved here)).1
        omega
    have unmoved : mover event ≠ some j := by
      intro mine
      obtain ⟨h,here⟩ := step_caller taken mine
      have inside := (List.getElem?_eq_some_iff.mp here).1
      omega
    obtain ⟨silent,idle⟩ := talking.later j absent
    rw [silent, idle, (incoming_mover j event).resolve_right unmoved, if_neg unmoved]
    exact ⟨rfl, rfl⟩

end ServerConversation
