import MiniKV.Benchmark.Clients
import MiniKV.Server.Pipelining

/- The client against the server. A value goes through four codecs: the request is written
   by the client and read by the parser, the response is written by the server and read by
   the client. -/
namespace BenchmarkRoundTrip
open MachineWord LruModel Decimal Utf8 Fields ShardModel CacheEffects ShardInvariant StoreModel
  StoreFate StepRuns ProtocolModel ProtocolEncoding ProtocolCanonical ProtocolFraming ServerModel
  ServerResponses ServerSession ServerPipelining BenchmarkModel

/-- The store's Set of the key succeeds at the reading that the next call meets. -/
def Succeeds (env : Env) (s : Server) (key value : Text) : Prop :=
  ∃ kv, s.store.step ⟨.set key value 0,0,(env s.calls).now,(env s.calls).order⟩ =
    some (kv,.wrote none)

/-- There is no live item at the reading that the next call meets. -/
def Absent (env : Env) (s : Server) (key : Text) : Prop :=
  ∀ e, s.store.peek key = some e → e.expired (env s.calls).now = true

structure RoundTrips (env : Env) (maxAlloc : Nat) (s : Server) (key : Text) : Prop where
  stored : ∀ value, value.length + 2 ≤ maxAlloc → Succeeds env s key value →
    ∃ x y, s.serve env maxAlloc ⟨setRequest key value,.eof⟩ = some (x,.nil) ∧
      x.server.serve env maxAlloc ⟨getRequest key,.eof⟩ = some (y,.nil) ∧
      ∀ ending, readMiniKVSet ⟨x.output,ending⟩ key = (.ok (),⟨[],ending⟩) ∧
        readMiniKVGet maxAlloc ⟨y.output,ending⟩ key = (.ok (some value),⟨[],ending⟩)
  missing : Absent env s key →
    ∃ y, s.serve env maxAlloc ⟨getRequest key,.eof⟩ = some (y,.nil) ∧
      ∀ ending, readMiniKVGet maxAlloc ⟨y.output,ending⟩ key = (.ok none,⟨[],ending⟩)

variable {env : Env} {maxAlloc n : Nat} {s t : Server} {key value bytes : Text} {c : Command}
  {limits : Limits} {e : Entry}

theorem setRequest_render (key value : Text) :
    setRequest key value = render { op := .set, key := key, value := value } := by
  have verb : text "set " = ascii ['s','e','t'] ++ [0x20] := by decide
  have blank : text " " = [0x20] := by decide
  simp [setRequest, render, canonicalLine, arguments, trailer, valued, unwords, Op.name, verb, blank]

theorem getRequest_render (key : Text) :
    getRequest key = render { op := .get, key := key } := by
  have verb : text "get " = ascii ['g','e','t'] ++ [0x20] := by decide
  simp [getRequest, render, canonicalLine, arguments, trailer, valued, unwords, Op.name, verb]

theorem setRequest_read (runtime : maxAlloc < 2 ^ 63) (word : Tokenized key)
    (room : value.length + 2 ≤ maxAlloc) :
    readCommand maxAlloc ⟨setRequest key value,.eof⟩ =
      (.ok { op := .set, key := key, value := value },⟨[],.eof⟩) := by
  have read := carries_read runtime (.set value) word (fun _ => room) [] .eof
  rw [List.append_nil, ← setRequest_render] at read
  exact read

theorem getRequest_read (runtime : maxAlloc < 2 ^ 63) (word : Tokenized key) :
    readCommand maxAlloc ⟨getRequest key,.eof⟩ = (.ok { op := .get, key := key },⟨[],.eof⟩) := by
  have read := carries_read runtime .get word (fun takes => by cases takes) [] .eof
  rw [List.append_nil, ← getRequest_render] at read
  exact read

/-- A connection with one command, which is answered. -/
theorem serve_one (unguarded : s.authToken = []) (plain : c.op ≠ .auth)
    (read : readCommand maxAlloc ⟨bytes,.eof⟩ = (.ok c,⟨[],.eof⟩))
    (done : ((s.count fun n => n.countCommand c.op).execute env c).status = .ok) :
    ∃ x, s.serve env maxAlloc ⟨bytes,.eof⟩ = some (x,.nil) ∧
      x.server = ((s.count fun n => n.countCommand c.op).execute env c).server ∧
      x.output = ((s.count fun n => n.countCommand c.op).execute env c).written := by
  let x : Session := ⟨((s.count fun n => n.countCommand c.op).execute env c).server,⟨[],.eof⟩,true,
    ((s.count fun n => n.countCommand c.op).execute env c).written,[c]⟩
  have handled : (Session.reading (.start s ⟨bytes,.eof⟩) ⟨[],.eof⟩).handle env c = (x,none) := by
    simp [x, Session.reading, Session.start, Session.handle, Server.handle, unguarded, plain, done]
  refine ⟨x, ?_, rfl, rfl⟩
  change resume env maxAlloc (.start s ⟨bytes,.eof⟩) = _
  rw [resume_next ((serveTurn_ok env read).trans handled)]
  have ended : x.serveTurn env maxAlloc = (x,some .nil) := rfl
  exact resume_stop ended

/-- The item that a Set without a TTL leaves. -/
theorem set_leaves (sound : Sound limits s.store)
    (called : s.call env (.set key value 0) = some (t,.wrote none)) :
    ∃ e, t.store.peek key = some e ∧ e.value = value ∧ ∀ now, e.expired now = false := by
  obtain ⟨e,held,stores⟩ := call_stores sound called rfl rfl rfl
  refine ⟨e, held, ?_⟩
  cases stores
  simp [Entry.expired, expiresAt]

theorem get_found (env : Env) (serves : Serves limits n s.store) (routed : n % 2 ^ 32 ≠ 0)
    (held : s.store.peek key = some e) (live : ∀ now, e.expired now = false) :
    (s.execute env { op := .get, key := key }).status = .ok ∧
      (s.execute env { op := .get, key := key }).written =
        block (valueLine key ⟨e.value,e.cas⟩) e.value ++ writeLine (text "END") := by
  obtain ⟨t,reply,called,_⟩ := call_returns env serves routed (rfl : (Call.get key).key = some key)
  rcases get_inverted serves.1 rfl (call_inverted called).1 with
    ⟨f,here,_,rfl,_⟩ | ⟨_,dead⟩
  · obtain rfl := Option.some.inj (held.symm.trans here)
    simp only [Server.execute, called, and_self]
  · cases (live _).symm.trans (dead e held)

theorem get_missing (serves : Serves limits n s.store) (routed : n % 2 ^ 32 ≠ 0)
    (absent : Absent env s key) :
    (s.execute env { op := .get, key := key }).status = .ok ∧
      (s.execute env { op := .get, key := key }).written = writeLine (text "END") := by
  obtain ⟨t,reply,called,_⟩ := call_returns env serves routed (rfl : (Call.get key).key = some key)
  rcases get_inverted serves.1 rfl (call_inverted called).1 with
    ⟨e,held,fresh,_⟩ | ⟨rfl,_⟩
  · cases fresh.symm.trans (absent e held)
  · simp only [Server.execute, called, answer, and_self]

theorem set_stored (succeeds : Succeeds env s key value) :
    ∃ t, s.call env (.set key value 0) = some (t,.wrote none) ∧
      s.execute env { op := .set, key := key, value := value } = answer t "STORED" := by
  obtain ⟨kv,taken⟩ := succeeds
  have called : s.call env (.set key value 0) =
      some ({ s with store := kv, calls := s.calls + 1 },.wrote none) := by
    rw [Server.call, taken]
    rfl
  have ttl : ttlDuration 0 = 0 := by decide
  refine ⟨_, called, ?_⟩
  simp only [Server.execute]
  rw [if_neg (by decide), ttl, called]
  rfl

theorem routed_round_trips (runtime : maxAlloc < 2 ^ 63) (serves : Serves limits n s.store)
    (unguarded : s.authToken = []) (word : Tokenized key) (routed : n % 2 ^ 32 ≠ 0) :
    RoundTrips env maxAlloc s key := by
  have isWord := tokenized_isWord word
  have notAuth : Op.set ≠ .auth ∧ Op.get ≠ .auth := by decide
  constructor
  · intro value room succeeds
    have counted : Succeeds env (s.count fun n => n.countCommand .set) key value := succeeds
    have served : Serves limits n (s.count fun n => n.countCommand .set).store := serves
    obtain ⟨t,called,executed⟩ := set_stored counted
    obtain ⟨x,set,server,output⟩ := serve_one unguarded notAuth.1
      (setRequest_read runtime word room) (congrArg Execution.status executed)
    rw [executed] at server output
    obtain rfl : x.server = t := server
    obtain ⟨kept,token⟩ := call_serves served called
    obtain ⟨e,held,same,live⟩ := set_leaves served.1 called
    have again : Serves limits n (x.server.count fun n => n.countCommand .get).store := kept
    have found := get_found env again routed held live
    obtain ⟨y,got,_,response⟩ := serve_one (token.trans unguarded) notAuth.2
      (getRequest_read runtime word) found.1
    refine ⟨x, y, set, got, ?_⟩
    intro ending
    have accepted := readMiniKVSet_stored key [] ending
    have back : readMiniKVGet maxAlloc ⟨block (valueLine key ⟨value,e.cas⟩) value ++
        writeLine (text "END") ++ [],ending⟩ key = (.ok (some value),⟨[],ending⟩) :=
      readMiniKVGet_found isWord ⟨value,e.cas⟩ room (by dsimp only; omega) [] ending
    rw [List.append_nil] at accepted back
    rw [output, response, found.2, same]
    exact ⟨accepted, back⟩
  · intro absent
    have counted : Absent env (s.count fun n => n.countCommand .get) key := absent
    have served : Serves limits n (s.count fun n => n.countCommand .get).store := serves
    have missing := get_missing served routed counted
    obtain ⟨y,got,_,response⟩ := serve_one unguarded notAuth.2 (getRequest_read runtime word)
      missing.1
    refine ⟨y, got, ?_⟩
    intro ending
    have back := readMiniKVGet_missing maxAlloc key [] ending
    rw [List.append_nil] at back
    rw [response, missing.2]
    exact back

/-- Without a shard the key is absent, and its Get panics. -/
theorem unrouted_breaks (runtime : maxAlloc < 2 ^ 63) (working : Working limits n (.start s ⟨[],.eof⟩))
    (word : Tokenized key) (unrouted : n % 2 ^ 32 = 0) : ¬ RoundTrips env maxAlloc s key := by
  intro trips
  have size : s.store.shards.length = n := working.serves.2
  have absent : Absent env s key := by
    intro e held
    have lost := (shardFor_none_iff key s.store.shards.length).mpr (by rw [size]; exact unrouted)
    simp [Store.peek, Store.shardOf, lost] at held
  obtain ⟨y,answered,_⟩ := trips.missing absent
  have complete : Commands maxAlloc (getRequest key ++ []) [{ op := .get, key := key }] :=
    .cons (getRequest_read runtime word) .nil
  obtain ⟨z,panics⟩ := resume_panics env complete working (by simp) unrouted
    ⟨_, List.mem_singleton_self _, rfl⟩ [] .eof
  rw [List.append_nil, List.append_nil] at panics
  have same : s.serve env maxAlloc ⟨getRequest key,.eof⟩ = some (z,.panicked) := panics
  rw [same] at answered
  cases answered

/-- The client gets back what it has set, and hears of a key that is not there, exactly on the
    servers whose keys find a shard. -/
theorem client_round_trips_iff_routed (env : Env) (maxAlloc : Nat) (runtime : maxAlloc < 2 ^ 63)
    (s : Server) (reached : Reachable s) (unguarded : s.authToken = []) (key : Text)
    (word : Tokenized key) :
    RoundTrips env maxAlloc s key ↔ s.store.shards.length % 2 ^ 32 ≠ 0 := by
  obtain ⟨limits,working⟩ := start_working reached unguarded
  constructor
  · intro trips unrouted
    exact unrouted_breaks runtime working word unrouted trips
  · exact routed_round_trips runtime working.serves unguarded word

theorem letter_tokenized : Tokenized (ascii ['k']) := (tokenized_iff _).mpr (by decide)

/-- A value with a line end and the last line of a reply in it. -/
def replyValue : Text := ascii ['\r','\n','E','N','D','\r','\n']

/-- It comes back whole from the default server. -/
theorem reply_value_round_trips :
    ∃ x y, (freshServer .default []).serve stillEnv (2 ^ 48)
        ⟨setRequest (ascii ['k']) replyValue,.eof⟩ = some (x,.nil) ∧
      x.server.serve stillEnv (2 ^ 48) ⟨getRequest (ascii ['k']),.eof⟩ = some (y,.nil) ∧
      readMiniKVGet (2 ^ 48) ⟨y.output,.eof⟩ (ascii ['k']) =
        (.ok (some replyValue),⟨[],.eof⟩) := by
  have trips := (client_round_trips_iff_routed stillEnv (2 ^ 48) (by decide) (freshServer .default [])
    (freshServer_reachable _ _) rfl (ascii ['k']) letter_tokenized).mpr (by decide)
  have stores : ((freshServer .default []).store.step ⟨.set (ascii ['k']) replyValue 0,0,
      (stillEnv 0).now,(stillEnv 0).order⟩).map Prod.snd = some (.wrote none) := by decide
  have succeeds : Succeeds stillEnv (freshServer .default []) (ascii ['k']) replyValue := by
    obtain ⟨⟨kv,reply⟩,taken,same⟩ := Option.map_eq_some_iff.mp stores
    obtain rfl : reply = .wrote none := same
    exact ⟨kv, taken⟩
  obtain ⟨x,y,served,answered,read⟩ := trips.stored replyValue (by decide) succeeds
  exact ⟨x, y, served, answered, (read .eof).2⟩

theorem absent_get_unanswered :
    StoreSharding.manyShards.validate = none ∧
      Reachable (freshServer StoreSharding.manyShards []) ∧ Tokenized (ascii ['k']) ∧
      ¬ RoundTrips stillEnv (2 ^ 48) (freshServer StoreSharding.manyShards []) (ascii ['k']) := by
  have reached := freshServer_reachable StoreSharding.manyShards []
  obtain ⟨limits,working⟩ := start_working reached rfl
  refine ⟨by decide, reached, letter_tokenized, ?_⟩
  exact unrouted_breaks (by decide) working letter_tokenized (by rw [manyShards_length]; decide)

end BenchmarkRoundTrip
