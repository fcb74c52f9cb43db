import MiniKV.Config.Config
import MiniKV.Lib.Loop
import MiniKV.Protocol.Parser

/- The server over one connection: the two command loops, the auth gate and the
   execution of commands. A session owns its reader and its writer; no write fails here,
   so the buffered writer is the bytes written so far. The clock, the order of a range over
   a map and the uptime come from the environment, one reading a call. -/
namespace ServerModel
open MachineWord LruModel Decimal ShardModel StoreModel ProtocolModel ConfigModel

def text (s : String) : Text := s.toUTF8.data.toList

structure Reading where
  now : Time
  order : RangeOrder
  uptimeSeconds : Int

/-- The reading that the call of this number meets. -/
abbrev Env := Nat → Reading

structure Counters where
  connectionsOpened : UInt64 := 0
  connectionsActive : Int := 0
  connectionsRejected : UInt64 := 0
  authFailures : UInt64 := 0
  clientErrors : UInt64 := 0
  serverErrors : UInt64 := 0
  cmdGet : UInt64 := 0
  cmdSet : UInt64 := 0
  cmdDelete : UInt64 := 0
  cmdIncr : UInt64 := 0
  cmdMget : UInt64 := 0
  cmdGets : UInt64 := 0
  cmdCas : UInt64 := 0
  cmdStats : UInt64 := 0
  cmdAuth : UInt64 := 0
  cmdPing : UInt64 := 0
  deriving DecidableEq, Repr

/-- The counter of an operation. -/
def Counters.commands (n : Counters) : Op → UInt64
  | .get => n.cmdGet
  | .set => n.cmdSet
  | .delete => n.cmdDelete
  | .incr => n.cmdIncr
  | .mget => n.cmdMget
  | .gets => n.cmdGets
  | .cas => n.cmdCas
  | .stats => n.cmdStats
  | .auth => n.cmdAuth
  | .ping => n.cmdPing

structure Server where
  store : Store
  authToken : Text
  counters : Counters
  /-- The number of the next call that meets the environment. -/
  calls : Nat

def Server.new (kv : Store) (authToken : Text) : Server := ⟨kv,authToken,{},0⟩

/-- A call of the store. None is a panic. -/
def Server.call (env : Env) (s : Server) (call : Call) : Option (Server × Reply) :=
  (s.store.step ⟨call,0,(env s.calls).now,(env s.calls).order⟩).map fun done =>
    ({ s with store := done.1, calls := s.calls + 1 }, done.2)

def writeLine (line : Text) : Text := line ++ [cr,lf]

inductive Status where
  | ok
  | failed (err : StoreError)
  | panicked
  deriving DecidableEq, Repr

structure Execution where
  server : Server
  written : Text
  status : Status

def answer (s : Server) (line : String) : Execution := ⟨s,writeLine (text line),.ok⟩

/-- MaxInt64 nanoseconds in seconds. -/
def maxTTLSeconds : Nat := (2 ^ 63 - 1) / 1000000000

/-- time.Duration(seconds) * time.Second: the conversion and the product are int64. -/
def ttlDuration (ttlSeconds : UInt64) : Duration :=
  int64.wrap (int64.wrap ttlSeconds.toNat * second)

/-- The answer to a set or a cas, by the errors that its switch names. -/
def answerWrite (named : StoreError → Option String) : Option (Server × Reply) → Server → Execution
  | some (s, .wrote none), _ => answer s "STORED"
  | some (s, .wrote (some err)), _ =>
    match named err with
    | some line => answer s line
    | none => ⟨s,[],.failed err⟩
  | _, s => ⟨s,[],.panicked⟩

def setErrors : StoreError → Option String
  | .valueTooLarge => some "SERVER_ERROR value too large"
  | .memoryLimitExceeded => some "SERVER_ERROR memory limit exceeded"
  | _ => none

def casErrors : StoreError → Option String
  | .casMismatch => some "EXISTS"
  | .notFound => some "NOT_FOUND"
  | .valueTooLarge => some "SERVER_ERROR value too large"
  | .memoryLimitExceeded => some "SERVER_ERROR memory limit exceeded"
  | _ => none

def incrErrors : StoreError → Option String
  | .notFound => some "NOT_FOUND"
  | .notInteger => some "CLIENT_ERROR value is not an unsigned integer"
  | .overflow => some "CLIENT_ERROR increment would overflow uint64"
  | .valueTooLarge => some "SERVER_ERROR value too large"
  | .memoryLimitExceeded => some "SERVER_ERROR memory limit exceeded"
  | _ => none

def valueLine (key : Text) (item : Item) : Text :=
  text "VALUE " ++ key ++ text " " ++ formatNat item.value.length

def valueCasLine (key : Text) (item : Item) : Text :=
  valueLine key item ++ text " " ++ formatUint item.cas

def block (line : Text) (value : Bytes) : Text := writeLine line ++ value ++ [cr,lf]

/-- The loop of mget and gets over their keys, with END behind it. -/
def Server.values (env : Env) (line : Text → Item → Text) : List Text → Server → Execution
  | [], s => answer s "END"
  | key :: keys, s =>
    match s.call env (.get key) with
    | some (s, .found none) => Server.values env line keys s
    | some (s, .found (some item)) =>
      let rest := Server.values env line keys s
      { rest with written := block (line key item) item.value ++ rest.written }
    | _ => ⟨s,[],.panicked⟩

def Server.statLines (s : Server) (uptimeSeconds : Int) : List (String × Text) :=
  let kv := s.store.stats int64
  [("uptime_seconds", formatInt uptimeSeconds),
    ("connections_opened", formatUint s.counters.connectionsOpened),
    ("connections_active", formatInt s.counters.connectionsActive),
    ("connections_rejected", formatUint s.counters.connectionsRejected),
    ("auth_failures", formatUint s.counters.authFailures),
    ("client_errors", formatUint s.counters.clientErrors),
    ("server_errors", formatUint s.counters.serverErrors),
    ("cmd_get", formatUint s.counters.cmdGet),
    ("cmd_set", formatUint s.counters.cmdSet),
    ("cmd_delete", formatUint s.counters.cmdDelete),
    ("cmd_incr", formatUint s.counters.cmdIncr),
    ("cmd_mget", formatUint s.counters.cmdMget),
    ("cmd_gets", formatUint s.counters.cmdGets),
    ("cmd_cas", formatUint s.counters.cmdCas),
    ("cmd_stats", formatUint s.counters.cmdStats),
    ("cmd_auth", formatUint s.counters.cmdAuth),
    ("cmd_ping", formatUint s.counters.cmdPing),
    ("items", formatNat kv.items),
    ("memory_bytes", formatInt kv.memoryBytes),
    ("max_memory_bytes", formatInt kv.maxMemoryBytes),
    ("evictions", formatUint kv.evictions),
    ("expirations", formatUint kv.expirations),
    ("shards", formatNat kv.numShards)]

def writeStats (lines : List (String × Text)) : Text :=
  (lines.flatMap fun l => writeLine (text "STAT " ++ text l.1 ++ text " " ++ l.2)) ++
    writeLine (text "END")

/-- An auth command is handled by the loops and never comes here. -/
def Server.execute (env : Env) (s : Server) (c : Command) : Execution :=
  match c.op with
  | .ping => answer s "PONG"
  | .stats =>
    ⟨{ s with calls := s.calls + 1 },
      writeStats (s.statLines (env s.calls).uptimeSeconds),.ok⟩
  | .get =>
    match s.call env (.get c.key) with
    | some (s, .found none) => answer s "END"
    | some (s, .found (some item)) =>
      ⟨s,block (valueLine c.key item) item.value ++ writeLine (text "END"),.ok⟩
    | _ => ⟨s,[],.panicked⟩
  | .set =>
    if c.ttlSeconds.toNat > maxTTLSeconds then answer s "CLIENT_ERROR TTL is too large"
    else
      answerWrite setErrors
        (s.call env (.set c.key c.value (ttlDuration c.ttlSeconds))) s
  | .delete =>
    match s.call env (.delete c.key) with
    | some (s, .deleted true) => answer s "DELETED"
    | some (s, .deleted false) => answer s "NOT_FOUND"
    | _ => ⟨s,[],.panicked⟩
  | .mget => s.values env valueLine c.keys
  | .gets => s.values env valueCasLine c.keys
  | .cas =>
    if c.ttlSeconds.toNat > maxTTLSeconds then answer s "CLIENT_ERROR TTL is too large"
    else
      answerWrite casErrors
        (s.call env (.cas c.key c.value (ttlDuration c.ttlSeconds) c.cas)) s
  | .incr =>
    match s.call env (.incr c.key c.delta) with
    | some (s, .counted (.ok value)) => ⟨s,writeLine (text "VALUE " ++ formatUint value),.ok⟩
    | some (s, .counted (.error err)) =>
      match incrErrors err with
      | some line => answer s line
      | none => ⟨s,[],.failed err⟩
    | _ => ⟨s,[],.panicked⟩
  | .auth => answer s "CLIENT_ERROR unknown command"

def Counters.countCommand (n : Counters) : Op → Counters
  | .get => { n with cmdGet := n.cmdGet + 1 }
  | .set => { n with cmdSet := n.cmdSet + 1 }
  | .delete => { n with cmdDelete := n.cmdDelete + 1 }
  | .incr => { n with cmdIncr := n.cmdIncr + 1 }
  | .mget => { n with cmdMget := n.cmdMget + 1 }
  | .gets => { n with cmdGets := n.cmdGets + 1 }
  | .cas => { n with cmdCas := n.cmdCas + 1 }
  | .stats => { n with cmdStats := n.cmdStats + 1 }
  | .ping => { n with cmdPing := n.cmdPing + 1 }
  | .auth => n

def Server.count (s : Server) (bump : Counters → Counters) : Server :=
  { s with counters := bump s.counters }

def countAuth (n : Counters) : Counters := { n with cmdAuth := n.cmdAuth + 1 }

def countAuthFailure (n : Counters) : Counters := { n with authFailures := n.authFailures + 1 }

def countClientError (n : Counters) : Counters := { n with clientErrors := n.clientErrors + 1 }

def countServerError (n : Counters) : Counters := { n with serverErrors := n.serverErrors + 1 }

def constantTimeEqual (got want : Text) : Bool := decide (got = want)

/-- The server with what the gate writes, and its two results. -/
structure Gate where
  server : Server
  written : Text
  ok : Bool
  terminal : Bool

def Server.handleAuthGate (s : Server) (c : Command) : Gate :=
  if c.op ≠ .auth then ⟨s,writeLine (text "CLIENT_ERROR auth required"),false,true⟩
  else
    let s := s.count countAuth
    if !constantTimeEqual c.token s.authToken then
      ⟨s.count countAuthFailure,writeLine (text "CLIENT_ERROR auth failed"),false,true⟩
    else ⟨s,writeLine (text "AUTHENTICATED"),true,false⟩

/-- How a loop ends; unwritten is the error of a write. -/
inductive Result where
  | nil
  | failed (err : StoreError)
  | unwritten
  | panicked
  deriving DecidableEq, Repr

/-- What a turn does with a command: the new server and flag, what it writes, the command
    if it is executed, and the result if the loop ends. -/
structure Move where
  server : Server
  authenticated : Bool
  written : Text
  executed : List Command
  result : Option Result

/-- The part of a turn after ReadCommand, which the two loops have word for word. -/
def Server.handle (env : Env) (s : Server) (authenticated : Bool) (c : Command) : Move :=
  if !authenticated then
    let gate := s.handleAuthGate c
    if !gate.ok then
      ⟨gate.server,false,gate.written,[],if gate.terminal then some .nil else none⟩
    else ⟨gate.server,true,gate.written,[],none⟩
  else if c.op = .auth then
    let s := s.count countAuth
    if s.authToken = [] then
      ⟨s,true,writeLine (text "CLIENT_ERROR auth not configured"),[],some .nil⟩
    else if !constantTimeEqual c.token s.authToken then
      ⟨s.count countAuthFailure,true,writeLine (text "CLIENT_ERROR auth failed"),[],some .nil⟩
    else ⟨s,true,writeLine (text "AUTHENTICATED"),[],none⟩
  else
    let done := (s.count fun n => n.countCommand c.op).execute env c
    match done.status with
    | .ok => ⟨done.server,true,done.written,[c],none⟩
    | .failed err => ⟨done.server.count countServerError,true,done.written,[c],some (.failed err)⟩
    | .panicked => ⟨done.server,true,done.written,[c],some .panicked⟩

/-- The variables of a loop. The list of executed commands is only a record. -/
structure Session where
  server : Server
  reader : Reader
  authenticated : Bool
  output : Text
  executed : List Command

def Session.start (s : Server) (r : Reader) : Session := ⟨s,r,decide (s.authToken = []),[],[]⟩

def Session.handle (env : Env) (x : Session) (c : Command) : Session × Option Result :=
  let move := x.server.handle env x.authenticated c
  (⟨move.server,x.reader,move.authenticated,x.output ++ move.written,x.executed ++ move.executed⟩,
    move.result)

def Session.badCommand (x : Session) : Session × Option Result :=
  ({ x with server := x.server.count countClientError,
            output := x.output ++ writeLine (text "CLIENT_ERROR bad command") }, some .nil)

def Session.serveReadError (x : Session) : Failure → Session × Option Result
  | .eof => (x, some .nil)
  | .fault => x.badCommand
  | .protocol _ => x.badCommand
  | .panic => (x, some .panicked)

def Session.serveTurn (env : Env) (maxAlloc : Nat) (x : Session) : Session × Option Result :=
  match readCommand maxAlloc x.reader with
  | (.error failure, r) => { x with reader := r }.serveReadError failure
  | (.ok c, r) => { x with reader := r }.handle env c

/-- A failed read is a timeout or another error of the connection. -/
def Session.handleReadError (timeout : Bool) (x : Session) : Failure → Session × Option Result
  | .eof => (x, some .nil)
  | .fault => if timeout then (x, some .nil) else x.badCommand
  | .protocol _ => x.badCommand
  | .panic => (x, some .panicked)

/-- A turn of serveConn; when the deadline it sets lets a read fail is up to the stream. -/
def Session.serveConnTurn (env : Env) (maxAlloc : Nat) (timeout : Bool) (x : Session) :
    Session × Option Result :=
  match readCommand maxAlloc x.reader with
  | (.error failure, r) => { x with reader := r }.handleReadError timeout failure
  | (.ok c, r) => { x with reader := r }.handle env c

/-- Every turn that goes on has taken bytes from the stream. -/
def Server.serve (env : Env) (maxAlloc : Nat) (s : Server) (r : Reader) :
    Option (Session × Result) :=
  Loop.run (Session.serveTurn env maxAlloc) (r.bytes.length + 1) (.start s r)

def Server.serveConn (env : Env) (maxAlloc : Nat) (timeout : Bool) (s : Server) (r : Reader) :
    Option (Session × Result) :=
  Loop.run (Session.serveConnTurn env maxAlloc timeout) (r.bytes.length + 1) (.start s r)

end ServerModel
