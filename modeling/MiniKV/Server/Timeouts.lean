import MiniKV.Protocol.Canonical
import MiniKV.Server.Pipelining

/- Reads that time out. A stream is complete commands and a rest; the timeout is met when the
   rest is the beginning of a command, inside its line or inside its value. Only the error of
   the line comes through as the timeout that it is. -/
namespace ServerTimeouts
open MachineWord ProtocolModel ProtocolEncoding ProtocolFraming ProtocolCanonical ServerModel
  ServerSession ServerPipelining

/-- The rest is less than a line. -/
def inLine (b : Text) : Bool := decide (b.length < bufferSize) && !b.contains lf

/-- The rest is the line of a set or a cas and less than the value it announces. -/
def inValue (maxAlloc : Nat) (b : Text) : Bool :=
  match readRequest ⟨b,.fault⟩ with
  | (.ok (_,some size), r) =>
    decide (size + 2 < 2 ^ 63 ∧ size + 2 ≤ maxAlloc ∧ r.bytes.length < size + 2)
  | _ => false

/-- ReadCommand waits for more bytes. -/
def starved (maxAlloc : Nat) (b : Text) : Bool := inLine b || inValue maxAlloc b

/-- The session goes on after each of the commands. -/
def Lasts (env : Env) : List Command → Session → Prop
  | [], _ => True
  | c :: cs, x => (x.handle env c).2 = none ∧ Lasts env cs (x.handle env c).1

/-- The session after the commands, as its loop leaves it when the stream then ends. -/
def answered (env : Env) (s : Server) (cs : List Command) (ending : Ending) : Session :=
  Session.reading (after env cs (.start s ⟨[],.eof⟩)) ⟨[],ending⟩

/-- The commands before it are answered and nothing else is: server and output are those
    after the commands. -/
def Quiet (env : Env) (maxAlloc : Nat) (s : Server) (a b : Text) (cs : List Command) : Prop :=
  s.serveConn env maxAlloc true ⟨a ++ b,.fault⟩ = some (answered env s cs .fault,.nil)

/-- What is seen of a session that has ended. -/
def outcome (done : Session × Result) : Server × Text × List Command × Result :=
  (done.1.server,done.1.output,done.1.executed,done.2)

/-- The session ends on these bytes, whatever comes behind them. -/
def Unmet (env : Env) (maxAlloc : Nat) (s : Server) (bytes : Text) : Prop :=
  ∃ done, ∀ timeout more ending,
    (s.serveConn env maxAlloc timeout ⟨bytes ++ more,ending⟩).map outcome = some done

variable {env : Env} {maxAlloc size : Nat} {s : Server} {a b bytes : Text} {c : Command}
  {cs : List Command} {x y : Session} {timeout : Bool} {r r' : Reader} {request : Request}

theorem readLineSlice_starved (short : inLine b = true) :
    readLineSlice ⟨b,.fault⟩ = (.error .fault,⟨[],.fault⟩) := by
  simp only [inLine, Bool.and_eq_true, decide_eq_true_eq, Bool.not_eq_true', List.contains_eq_mem,
    decide_eq_false_iff_not] at short
  obtain ⟨few,plain⟩ := short
  have window : b.take bufferSize = b := List.take_of_length_le (by omega)
  have none : b.findIdx? (fun byte => byte == lf) = none := by
    rw [List.findIdx?_eq_none_iff]
    intro byte mem
    refine beq_eq_false_iff_ne.mpr ?_
    rintro rfl
    exact plain mem
  rw [readLineSlice]
  dsimp only
  rw [window, none]
  dsimp only [Reader.skip]
  rw [if_neg (by omega), List.drop_length]
  rfl

theorem readCommand_inLine (short : inLine b = true) :
    readCommand maxAlloc ⟨b,.fault⟩ = (.error .fault,⟨[],.fault⟩) := by
  rw [readCommand, readRequest, readLineSlice_starved short]

theorem inValue_request (short : inValue maxAlloc b = true) :
    ∃ command size r, readRequest ⟨b,.fault⟩ = (.ok (command,some size),r) ∧ size + 2 < 2 ^ 63 ∧
      size + 2 ≤ maxAlloc ∧ r.bytes.length < size + 2 := by
  unfold inValue at short
  split at short
  · rename_i command size r read
    obtain ⟨int,room,few⟩ := of_decide_eq_true short
    exact ⟨command, size, r, read, int, room, few⟩
  · cases short

/-- The timeout inside a value is reported as a malformed command. -/
theorem readCommand_inValue (short : inValue maxAlloc b = true) :
    readCommand maxAlloc ⟨b,.fault⟩ = (.error (.protocol "incomplete value"),⟨[],.fault⟩) := by
  obtain ⟨command,size,r,read,int,room,few⟩ := inValue_request short
  obtain ⟨_,_,kept,_⟩ := readRequest_line_of read
  have ends : r.skip r.bytes.length = ⟨[],.fault⟩ := by
    rw [Reader.skip, List.drop_length, kept]
  rw [readCommand, read]
  dsimp only
  rw [readValue_allocated int room, if_neg (by omega), ends]
  rfl

def resumeConn (env : Env) (maxAlloc : Nat) (timeout : Bool) (x : Session) :
    Option (Session × Result) :=
  Loop.run (Session.serveConnTurn env maxAlloc timeout) (unread x + 1) x

theorem serveConnTurn_front (env : Env) (timeout : Bool) (x : Session)
    (read : readCommand maxAlloc ⟨bytes,.eof⟩ = (.ok c,⟨[],.eof⟩)) (more : Text) (ending : Ending) :
    (Session.reading x ⟨bytes ++ more,ending⟩).serveConnTurn env maxAlloc timeout =
      (Session.reading (x.handle env c).1 ⟨more,ending⟩, (x.handle env c).2) := by
  rw [serveConnTurn_ok env timeout (readCommand_append read more ending)]
  rfl

/-- Complete commands are handled in order, whatever stands behind them. -/
theorem resumeConn_after (complete : Commands maxAlloc a cs) (lasts : Lasts env cs x)
    (rest : Text) (ending : Ending) :
    resumeConn env maxAlloc timeout (Session.reading x ⟨a ++ rest,ending⟩) =
      resumeConn env maxAlloc timeout (Session.reading (after env cs x) ⟨rest,ending⟩) := by
  induction complete generalizing x with
  | nil => rfl
  | @cons bytes more c cs read _ ih =>
    obtain ⟨goes,later⟩ := lasts
    have turned := serveConnTurn_front env timeout x read (more ++ rest) ending
    rw [goes] at turned
    rw [List.append_assoc]
    exact (Loop.run_next serveConnTurn_down turned).trans (ih later)

theorem serveConn_after (complete : Commands maxAlloc a cs)
    (lasts : Lasts env cs (.start s ⟨[],.eof⟩)) (rest : Text) (ending : Ending) :
    s.serveConn env maxAlloc timeout ⟨a ++ rest,ending⟩ =
      resumeConn env maxAlloc timeout
        (Session.reading (after env cs (.start s ⟨[],.eof⟩)) ⟨rest,ending⟩) :=
  resumeConn_after complete lasts rest ending

theorem resumeConn_stop {failure : Failure} {done : Result}
    (read : readCommand maxAlloc r = (.error failure,r'))
    (stops : (Session.reading x r').handleReadError timeout failure = (y,some done)) :
    resumeConn env maxAlloc timeout (Session.reading x r) = some (y,done) :=
  Loop.run_stop ((serveConnTurn_error env timeout read).trans stops)

theorem eof_quiet (env : Env) (maxAlloc : Nat) (timeout : Bool) (x : Session) :
    resumeConn env maxAlloc timeout (Session.reading x ⟨[],.eof⟩) =
      some (Session.reading x ⟨[],.eof⟩,.nil) := by
  have read : readCommand maxAlloc ⟨[],.eof⟩ = (.error .eof,⟨[],.eof⟩) := rfl
  exact resumeConn_stop read rfl

theorem inLine_quiet (short : inLine b = true) :
    resumeConn env maxAlloc true (Session.reading x ⟨b,.fault⟩) =
      some (Session.reading x ⟨[],.fault⟩,.nil) :=
  resumeConn_stop (readCommand_inLine short) rfl

theorem inValue_answered (short : inValue maxAlloc b = true) :
    resumeConn env maxAlloc timeout (Session.reading x ⟨b,.fault⟩) =
      some ((Session.reading x ⟨[],.fault⟩).badCommand.1,.nil) :=
  resumeConn_stop (readCommand_inValue short) rfl

/-- What badCommand writes is seen. -/
theorem badCommand_seen (x : Session) : x.badCommand.1 ≠ x := by
  intro same
  have output : x.output ++ writeLine (text "CLIENT_ERROR bad command") = x.output :=
    congrArg Session.output same
  have none := List.append_right_eq_self.mp output
  exact absurd none (by decide)

theorem met_quiet_iff (complete : Commands maxAlloc a cs)
    (lasts : Lasts env cs (.start s ⟨[],.eof⟩)) (met : starved maxAlloc b = true) :
    Quiet env maxAlloc s a b cs ↔ inValue maxAlloc b = false := by
  rw [Quiet, serveConn_after complete lasts b .fault]
  cases short : inValue maxAlloc b with
  | true =>
    refine iff_of_false ?_ (by decide)
    rw [inValue_answered short]
    intro same
    have sessions := congrArg Prod.fst (Option.some.inj same)
    exact badCommand_seen _ sessions
  | false =>
    have line : inLine b = true := by
      rw [starved, short, Bool.or_false] at met
      exact met
    exact iff_of_true (inLine_quiet line) rfl

/-- A line that was read is read alike before anything else. -/
theorem readRequest_local (read : readRequest r = (.ok request,r')) :
    ∃ line, r.bytes = line ++ cr :: lf :: r'.bytes ∧ r'.ending = r.ending ∧
      ∀ rest ending, readRequest ⟨line ++ cr :: lf :: rest,ending⟩ = (.ok request,⟨rest,ending⟩) := by
  obtain ⟨line,split,kept,plain,short,parsed⟩ := readRequest_line_of read
  refine ⟨line, split, kept, ?_⟩
  intro rest ending
  rw [readRequest, readLineSlice_line plain short]
  dsimp only
  rw [commandLine_ended]
  dsimp only
  rw [parsed]

/-- The bytes of a command that was read are the command when they stand alone. -/
theorem readCommand_local (read : readCommand maxAlloc r = (.ok c,r')) :
    ∃ p, r.bytes = p ++ r'.bytes ∧ readCommand maxAlloc ⟨p,.eof⟩ = (.ok c,⟨[],.eof⟩) := by
  rcases readCommand_ok read with requested | ⟨command,size,middle,value,requested,valued',rfl⟩
  · obtain ⟨line,split,_,alone⟩ := readRequest_local requested
    refine ⟨line ++ [cr,lf], by rw [split]; simp, ?_⟩
    rw [readCommand, alone [] .eof]
  · obtain ⟨line,split,_,alone⟩ := readRequest_local requested
    obtain ⟨_,_,_,_,_,parsed⟩ := readRequest_line_of requested
    obtain ⟨rest,_,length,room,int⟩ := readValue_taken (parseFields_size parsed) valued'
    subst length
    refine ⟨line ++ cr :: lf :: (value ++ [cr,lf]), by rw [split, rest]; simp, ?_⟩
    rw [readCommand, alone (value ++ [cr,lf]) .eof]
    dsimp only
    rw [readValue_framed room int]
    rfl

/-- The same read with more bytes behind what it has left. -/
def extend {α : Type} (more : Text) (ending : Ending) (done : α × Reader) : α × Reader :=
  (done.1,⟨done.2.bytes ++ more,ending⟩)

theorem readLineSlice_decided (full : inLine b = false) (more : Text) (ending : Ending) :
    readLineSlice ⟨b ++ more,ending⟩ = extend more ending (readLineSlice ⟨b,.fault⟩) := by
  cases found : (b.take bufferSize).findIdx? fun byte => byte == lf with
  | some i =>
    have sliced : readLineSlice ⟨b,.fault⟩ = (.ok (b.take (i + 1)),⟨b.drop (i + 1),.fault⟩) := by
      rw [readLineSlice]
      dsimp only
      rw [found]
      rfl
    rw [readLineSlice_append sliced more ending, sliced]
    rfl
  | none =>
    -- A rest without a line feed that is not inside a line fills the buffer.
    have long : bufferSize ≤ b.length := by
      by_contra few
      rw [List.take_of_length_le (by omega), List.findIdx?_eq_none_iff] at found
      have short : inLine b = true := by
        simp only [inLine, Bool.and_eq_true, decide_eq_true_eq, Bool.not_eq_true',
          List.contains_eq_mem, decide_eq_false_iff_not]
        refine ⟨by omega, fun mem => ?_⟩
        cases found lf mem
      cases full.symm.trans short
    have again : ((b ++ more).take bufferSize).findIdx? (fun byte => byte == lf) = none := by
      rw [List.take_append_of_le_length long, found]
    rw [readLineSlice, readLineSlice]
    dsimp only
    rw [found, again]
    dsimp only
    rw [if_pos long, if_pos (by rw [List.length_append]; omega)]
    simp only [extend, Reader.skip, List.drop_append_of_le_length long]

theorem readRequest_decided (full : inLine b = false) (more : Text) (ending : Ending) :
    readRequest ⟨b ++ more,ending⟩ = extend more ending (readRequest ⟨b,.fault⟩) := by
  rw [readRequest, readRequest, readLineSlice_decided full more ending]
  generalize readLineSlice ⟨b,.fault⟩ = sliced
  obtain ⟨line,left⟩ := sliced
  cases line with
  | error failure => rfl
  | ok line =>
    dsimp only [extend]
    cases commandLine line with
    | error failure => rfl
    | ok body =>
      dsimp only
      cases parseFields (Fields.fields body) <;> rfl

theorem readValue_decided (int : size < 2 ^ 63)
    (full : size + 2 < 2 ^ 63 → size + 2 ≤ maxAlloc → size + 2 ≤ r.bytes.length) (more : Text)
    (ending : Ending) :
    readValue maxAlloc size ⟨r.bytes ++ more,ending⟩ =
      extend more ending (readValue maxAlloc size r) := by
  by_cases allocated : size + 2 < 2 ^ 63 ∧ size + 2 ≤ maxAlloc
  · have enough := full allocated.1 allocated.2
    have first : (r.bytes ++ more)[size]? = r.bytes[size]? := List.getElem?_append_left (by omega)
    have second : (r.bytes ++ more)[size + 1]? = r.bytes[size + 1]? :=
      List.getElem?_append_left (by omega)
    rw [readValue_allocated allocated.1 allocated.2, readValue_allocated allocated.1 allocated.2]
    dsimp only
    rw [if_pos enough, if_pos (by rw [List.length_append]; omega), first, second]
    split <;> simp only [extend, Reader.skip, List.drop_append_of_le_length enough,
      List.take_append_of_le_length (Nat.le_trans (Nat.le_add_right size 2) enough)]
  · rw [readValue_refused int allocated, readValue_refused int allocated]
    rfl

/-- A read that is not left waiting is decided by the bytes it has. -/
theorem readCommand_decided (full : starved maxAlloc b = false) (more : Text) (ending : Ending) :
    readCommand maxAlloc ⟨b ++ more,ending⟩ =
      extend more ending (readCommand maxAlloc ⟨b,.fault⟩) := by
  rw [starved, Bool.or_eq_false_iff] at full
  obtain ⟨offLine,offValue⟩ := full
  rw [readCommand, readCommand, readRequest_decided offLine more ending]
  cases requested : readRequest ⟨b,.fault⟩ with
  | mk read left =>
    cases read with
    | error failure => rfl
    | ok request =>
      obtain ⟨command,announced⟩ := request
      cases announced with
      | none => rfl
      | some size =>
        obtain ⟨_,_,_,_,_,parsed⟩ := readRequest_line_of requested
        have enough : size + 2 < 2 ^ 63 → size + 2 ≤ maxAlloc → size + 2 ≤ left.bytes.length := by
          intro int room
          rw [inValue, requested] at offValue
          have whole := of_decide_eq_false offValue
          by_contra few
          exact whole ⟨int, room, by omega⟩
        dsimp only [extend]
        rw [readValue_decided (parseFields_size parsed) enough more ending]
        generalize readValue maxAlloc size left = done
        obtain ⟨value,rest⟩ := done
        cases value <;> rfl

/-- Every stream is complete commands and a rest that starves the next read, or decides it. -/
theorem stream_cut (maxAlloc : Nat) (bytes : Text) :
    ∃ a b cs, bytes = a ++ b ∧ Commands maxAlloc a cs ∧ (starved maxAlloc b = true ∨
      ∃ failure r, readCommand maxAlloc ⟨b,.fault⟩ = (.error failure,r) ∧
        starved maxAlloc b = false) := by
  induction size : bytes.length using Nat.strongRecOn generalizing bytes with
  | ind n ih =>
    cases read : readCommand maxAlloc ⟨bytes,.fault⟩ with
    | mk first left =>
      cases first with
      | ok c =>
        obtain ⟨p,split,alone⟩ := readCommand_local read
        have shorter := (readCommand_shorter read).1
        obtain ⟨a,b,cs,rest,complete,ends⟩ := ih left.bytes.length (size ▸ shorter) left.bytes rfl
        refine ⟨p ++ a, b, c :: cs, ?_, .cons alone complete, ends⟩
        rw [List.append_assoc, ← rest]
        exact split
      | error failure =>
        refine ⟨[], bytes, [], rfl, .nil, ?_⟩
        cases met : starved maxAlloc bytes with
        | true => exact Or.inl rfl
        | false => exact Or.inr ⟨failure, left, read, rfl⟩

/-- A session that does not last through the commands ends at one of them. -/
theorem early_outcome (complete : Commands maxAlloc a cs) (early : ¬ Lasts env cs x) :
    ∃ done, ∀ timeout rest ending,
      (resumeConn env maxAlloc timeout (Session.reading x ⟨a ++ rest,ending⟩)).map outcome =
        some done := by
  induction complete generalizing x with
  | nil => exact absurd trivial early
  | @cons bytes more c cs read _ ih =>
    cases goes : (x.handle env c).2 with
    | some done =>
      refine ⟨outcome ((x.handle env c).1,done), ?_⟩
      intro timeout rest ending
      have turned := serveConnTurn_front env timeout x read (more ++ rest) ending
      rw [goes] at turned
      rw [List.append_assoc, resumeConn, Loop.run_stop turned]
      rfl
    | none =>
      obtain ⟨done,same⟩ := ih fun later => early ⟨goes,later⟩
      refine ⟨done, ?_⟩
      intro timeout rest ending
      have turned := serveConnTurn_front env timeout x read (more ++ rest) ending
      rw [goes] at turned
      rw [List.append_assoc, resumeConn, Loop.run_next serveConnTurn_down turned]
      exact same timeout rest ending

theorem decided_outcome {failure : Failure} (full : starved maxAlloc b = false)
    (failed : readCommand maxAlloc ⟨b,.fault⟩ = (.error failure,r)) (x : Session) :
    ∃ done, ∀ timeout rest ending,
      (resumeConn env maxAlloc timeout (Session.reading x ⟨b ++ rest,ending⟩)).map outcome =
        some done := by
  have again (rest : Text) (ending : Ending) :
      readCommand maxAlloc ⟨b ++ rest,ending⟩ = (.error failure,⟨r.bytes ++ rest,ending⟩) := by
    rw [readCommand_decided full, failed]
    rfl
  have stops (timeout : Bool) (rest : Text) (ending : Ending) (y : Session) (done : Result)
      (handled : (Session.reading x ⟨r.bytes ++ rest,ending⟩).handleReadError timeout failure =
        (y,some done)) :
      (resumeConn env maxAlloc timeout (Session.reading x ⟨b ++ rest,ending⟩)).map outcome =
        some (outcome (y,done)) := by
    rw [resumeConn_stop (again rest ending) handled]
    rfl
  cases failure with
  | fault =>
    have regular : (⟨b ++ [],.eof⟩ : Reader).ending = .eof := rfl
    have calm := readCommand_no_fault maxAlloc regular
    rw [again [] .eof] at calm
    exact absurd rfl calm
  | eof =>
    refine ⟨outcome (x,.nil), ?_⟩
    intro timeout rest ending
    exact stops timeout rest ending (Session.reading x ⟨r.bytes ++ rest,ending⟩) .nil rfl
  | protocol message =>
    refine ⟨outcome (x.badCommand.1,.nil), ?_⟩
    intro timeout rest ending
    exact stops timeout rest ending (Session.reading x ⟨r.bytes ++ rest,ending⟩).badCommand.1 .nil rfl
  | panic =>
    refine ⟨outcome (x,.panicked), ?_⟩
    intro timeout rest ending
    exact stops timeout rest ending (Session.reading x ⟨r.bytes ++ rest,ending⟩) .panicked rfl

/-- A timeout is met behind complete commands through which the session lasts, or the session
    has ended before it. -/
theorem met_or_unmet (env : Env) (maxAlloc : Nat) (s : Server) (bytes : Text) :
    (∃ a b cs, bytes = a ++ b ∧ Commands maxAlloc a cs ∧ Lasts env cs (.start s ⟨[],.eof⟩) ∧
      starved maxAlloc b = true) ∨ Unmet env maxAlloc s bytes := by
  obtain ⟨a,b,cs,rfl,complete,ends⟩ := stream_cut maxAlloc bytes
  by_cases lasts : Lasts env cs (.start s ⟨[],.eof⟩)
  · rcases ends with met | ⟨failure,r,failed,full⟩
    · exact Or.inl ⟨a, b, cs, rfl, complete, lasts, met⟩
    · right
      obtain ⟨done,same⟩ := decided_outcome full failed (after env cs (.start s ⟨[],.eof⟩))
      refine ⟨done, ?_⟩
      intro timeout more ending
      rw [List.append_assoc, serveConn_after complete lasts]
      exact same timeout more ending
  · right
    obtain ⟨done,same⟩ := early_outcome complete lasts
    refine ⟨done, ?_⟩
    intro timeout more ending
    rw [List.append_assoc]
    exact same timeout (b ++ more) ending

/-- A timeout that is met closes the session quietly unless it strikes inside a value. -/
theorem timeouts_quiet_iff_outside_value (env : Env) (maxAlloc : Nat) (s : Server) :
    (∀ a b cs, Commands maxAlloc a cs → Lasts env cs (.start s ⟨[],.eof⟩) →
      starved maxAlloc b = true →
      s.serveConn env maxAlloc true ⟨a,.eof⟩ = some (answered env s cs .eof,.nil) ∧
        (Quiet env maxAlloc s a b cs ↔ inValue maxAlloc b = false)) ∧
    ∀ bytes, (∃ a b cs, bytes = a ++ b ∧ Commands maxAlloc a cs ∧
        Lasts env cs (.start s ⟨[],.eof⟩) ∧ starved maxAlloc b = true) ∨
      Unmet env maxAlloc s bytes := by
  constructor
  · intro a b cs complete lasts met
    refine ⟨?_, met_quiet_iff complete lasts met⟩
    have usual : s.serveConn env maxAlloc true ⟨a ++ [],.eof⟩ = some (answered env s cs .eof,.nil) := by
      rw [serveConn_after complete lasts [] .eof]
      exact eof_quiet env maxAlloc true _
    rw [List.append_nil] at usual
    exact usual
  · exact met_or_unmet env maxAlloc s

def pingLine : Text := ascii ['p','i','n','g','\r','\n']

theorem ping_then_silence_quiet :
    Quiet stillEnv 0 (freshServer .default []) (pingLine ++ []) (ascii ['g','e','t']) [{ op := .ping }] := by
  have complete : Commands 0 (pingLine ++ []) [{ op := .ping }] := .cons (by decide) .nil
  have lasts : Lasts stillEnv [{ op := .ping }] (.start (freshServer .default []) ⟨[],.eof⟩) :=
    ⟨by decide, trivial⟩
  have quiet := (timeouts_quiet_iff_outside_value stillEnv 0 (freshServer .default [])).1 _
    (ascii ['g','e','t']) _ complete lasts (by decide)
  exact quiet.2.mpr (by decide)

/-- The line of a set and two of the five bytes it announces. -/
def cutSet : Text := ascii ['s','e','t',' ','k',' ','5','\r','\n','a','b']

theorem cut_value_answered :
    starved (2 ^ 48) cutSet = true ∧
      ((freshServer .default []).serveConn stillEnv (2 ^ 48) true ⟨cutSet,.fault⟩).map
          (fun done => (done.1.output,done.1.server.counters.clientErrors,done.2)) =
        some (writeLine (text "CLIENT_ERROR bad command"),1,.nil) ∧
      ¬ Quiet stillEnv (2 ^ 48) (freshServer .default []) [] cutSet [] := by
  refine ⟨by decide, by decide, ?_⟩
  rw [met_quiet_iff .nil trivial (by decide)]
  decide

end ServerTimeouts
