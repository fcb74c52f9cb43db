import MiniKV.Server.Server
import MiniKV.Store.Fate

/- What the execution of a command gives: on a store whose keys all find a shard it is
   one complete response, whatever the store answers. -/
namespace ServerResponses
open MachineWord LruModel Decimal ShardModel StoreModel CacheModel StoreFate ProtocolModel
  ConfigModel ServerModel

def keyed (c : Command) : Bool :=
  match c.op with
  | .get | .delete | .incr => true
  | .set | .cas => decide (c.ttlSeconds.toNat ≤ maxTTLSeconds)
  | .mget | .gets => !c.keys.isEmpty
  | .ping | .stats | .auth => false

def writeErrors : List String :=
  ["SERVER_ERROR value too large", "SERVER_ERROR memory limit exceeded",
    "CLIENT_ERROR TTL is too large"]

def statNames : List String :=
  ["uptime_seconds", "connections_opened", "connections_active", "connections_rejected",
    "auth_failures", "client_errors", "server_errors", "cmd_get", "cmd_set", "cmd_delete",
    "cmd_incr", "cmd_mget", "cmd_gets", "cmd_cas", "cmd_stats", "cmd_auth", "cmd_ping", "items",
    "memory_bytes", "max_memory_bytes", "evictions", "expirations", "shards"]

def OneLine (lines : List String) (response : Text) : Prop :=
  ∃ line ∈ lines, response = writeLine (text line)

/-- The blocks of some of the keys, in their order, and END. -/
def Blocks (line : Text → Item → Text) (keys : List Text) (response : Text) : Prop :=
  ∃ hits : List (Text × Item), (hits.map Prod.fst).Sublist keys ∧
    response = (hits.flatMap fun hit => block (line hit.1 hit.2) hit.2.value) ++
      writeLine (text "END")

/-- A complete response to a command, as the protocol documents it. -/
def Responds (c : Command) (response : Text) : Prop :=
  match c.op with
  | .ping => OneLine ["PONG"] response
  | .stats => ∃ numbers : List Int, numbers.length = statNames.length ∧
      response = writeStats (statNames.zip (numbers.map formatInt))
  | .get => Blocks valueLine [c.key] response
  | .mget => Blocks valueLine c.keys response
  | .gets => Blocks valueCasLine c.keys response
  | .set => OneLine ("STORED" :: writeErrors) response
  | .cas => OneLine ("STORED" :: "EXISTS" :: "NOT_FOUND" :: writeErrors) response
  | .delete => OneLine ["DELETED", "NOT_FOUND"] response
  | .incr => (∃ n : UInt64, response = writeLine (text "VALUE " ++ formatUint n)) ∨
      OneLine ("NOT_FOUND" :: "CLIENT_ERROR value is not an unsigned integer" ::
        "CLIENT_ERROR increment would overflow uint64" :: writeErrors) response
  | .auth => False

def permitted : Call → Reply → Bool
  | .set _ _ _, .wrote err => err.all fun e => (setErrors e).isSome
  | .cas _ _ _ _, .wrote err => err.all fun e => (casErrors e).isSome
  | .incr _ _, .counted (.error err) => (incrErrors err).isSome
  | .incr _ _, .counted (.ok _) => true
  | .get _, .found _ => true
  | .delete _, .deleted _ => true
  | .cleanupExpired, .swept _ => true
  | _, _ => false

variable {limits : Limits} {n : Nat} {env : Env} {s t : Server} {c : Command} {call : Call}
  {reply : Reply} {key : Text}

theorem set_permitted (cache : Cache) (cas : UInt64) (now : Time) (key value : Bytes)
    (ttl : Duration) :
    ((cache.set limits cas now key value ttl).2.2).all (fun e => (setErrors e).isSome) = true := by
  unfold Cache.set
  split
  · rfl
  · dsimp only
    split <;> rfl

theorem cas_permitted (cache : Cache) (counter : UInt64) (now : Time) (key value : Bytes)
    (ttl : Duration) (expected : UInt64) :
    ((cache.cas limits counter now key value ttl expected).2.2).all
      (fun e => (casErrors e).isSome) = true := by
  unfold Cache.cas
  split
  · rfl
  · split
    · rfl
    · split
      · rfl
      · split
        · rfl
        · dsimp only
          split <;> rfl

theorem incr_permitted (cache : Cache) (cas : UInt64) (now : Time) (key : Bytes)
    (delta : UInt64) :
    permitted (.incr key delta) (.counted (cache.incr limits cas now key delta).2.2) = true := by
  unfold Cache.incr
  split
  · rfl
  · split
    · rfl
    · split
      · rename_i err failed
        unfold nextCount at failed
        split at failed
        · obtain rfl := Except.error.inj failed
          rfl
        · split at failed
          · obtain rfl := Except.error.inj failed
            rfl
          · cases failed
      · unfold Cache.incrTo
        dsimp only
        split
        · rfl
        · split <;> rfl

theorem step_permitted (limits : Limits) (cache : Cache) (cas : UInt64) (now : Time)
    (call : Call) : permitted call (cache.step limits cas now call).2.2 = true := by
  cases call with
  | set key value ttl => exact set_permitted cache cas now key value ttl
  | get key => rfl
  | cas key value ttl expected => exact cas_permitted cache cas now key value ttl expected
  | delete key => rfl
  | incr key delta => exact incr_permitted cache cas now key delta
  | cleanupExpired => rfl

theorem call_returns (env : Env) (serves : Serves limits n s.store) (routed : n % 2 ^ 32 ≠ 0)
    (named : call.key = some key) :
    ∃ t reply, s.call env call = some (t,reply) ∧ permitted call reply = true ∧
      Serves limits n t.store ∧ t.authToken = s.authToken := by
  have fit : Reaches n ⟨call,0,(env s.calls).now,(env s.calls).order⟩ := keyed_reaches routed named
  obtain ⟨store,reply,taken,kept⟩ := section_returns serves fit
  obtain ⟨_,_,_,c,d,_,_,_,_,_,_,_,_,_,done⟩ := step_inverted serves.1 taken
  have shape := step_permitted limits c s.store.cas (env s.calls).now call
  rw [done] at shape
  refine ⟨{ s with store := store, calls := s.calls + 1 }, reply, ?_, shape, kept, rfl⟩
  rw [Server.call, taken]
  rfl

theorem call_inverted (called : s.call env call = some (t,reply)) :
    s.store.step ⟨call,0,(env s.calls).now,(env s.calls).order⟩ = some (t.store,reply) ∧
      t = { s with store := t.store, calls := s.calls + 1 } := by
  obtain ⟨⟨store,found⟩,taken,same⟩ := Option.map_eq_some_iff.mp called
  obtain ⟨rfl,rfl⟩ := Prod.mk.inj same
  exact ⟨taken,rfl⟩

theorem call_serves (serves : Serves limits n s.store) (called : s.call env call = some (t,reply)) :
    Serves limits n t.store ∧ t.authToken = s.authToken := by
  obtain ⟨taken,same⟩ := call_inverted called
  refine ⟨⟨step_sound serves.1 taken, (step_length taken).trans serves.2⟩, ?_⟩
  rw [same]

/-- A write of a key that has succeeded leaves the entry that it stores. -/
theorem call_stores (sound : Sound limits s.store) (called : s.call env call = some (t,reply))
    (writes : call.writes = true) (success : reply.success = true) (named : call.key = some key) :
    ∃ e, t.store.peek key = some e ∧
      CacheEffects.Stores limits (s.store.peek key) s.store.cas (env s.calls).now call e reply := by
  let x : StoreStep := ⟨s.store,⟨call,0,(env s.calls).now,(env s.calls).order⟩,reply,t.store⟩
  have own : writesKey key x = true := by simp [writesKey, mutates, x, writes, success, named]
  have taken : Taken x := (call_inverted called).1
  obtain ⟨e,_,held,stores⟩ := written_fate sound taken own
  exact ⟨e, held, stores⟩

theorem call_panics (size : s.store.shards.length = n) (unrouted : n % 2 ^ 32 = 0)
    (named : call.key = some key) : s.call env call = none := by
  have missed := (shardFor_none_iff key n).mpr unrouted
  simp [Server.call, Store.step, Section.target, named, size, missed, Partition.stepAt]

structure Answers (limits : Limits) (n : Nat) (s : Server) (done : Execution) : Prop where
  status : done.status = .ok
  serves : Serves limits n done.server.store
  token : done.server.authToken = s.authToken

theorem answer_answers (line : String) (serves : Serves limits n t.store)
    (token : t.authToken = s.authToken) : Answers limits n s (answer t line) :=
  ⟨rfl,serves,token⟩

theorem values_answers (line : Text → Item → Text) (keys : List Text)
    (serves : Serves limits n s.store) (routed : n % 2 ^ 32 ≠ 0 ∨ keys = []) :
    Answers limits n s (s.values env line keys) ∧
      Blocks line keys (s.values env line keys).written := by
  -- The loop over the keys, by induction on them: a miss writes nothing, a hit its block.
  induction keys generalizing s with
  | nil => exact ⟨answer_answers "END" serves rfl, [], by simp, rfl⟩
  | cons key keys ih =>
    have spread : n % 2 ^ 32 ≠ 0 := routed.resolve_right (by simp)
    obtain ⟨t,reply,called,shape,kept,token⟩ :=
      call_returns env serves spread (rfl : (Call.get key).key = some key)
    obtain ⟨later,hits,among,written⟩ := ih kept (Or.inl spread)
    rw [Server.values, called]
    cases reply with
    | found item =>
      cases item with
      | none =>
        exact ⟨⟨later.status,later.serves,later.token.trans token⟩, hits,
          among.trans (List.sublist_cons_self _ _), written⟩
      | some item =>
        refine ⟨⟨later.status,later.serves,later.token.trans token⟩, (key,item) :: hits, ?_, ?_⟩
        · exact among.cons_cons key
        · simp only [List.flatMap_cons, List.append_assoc]
          rw [written]
    | _ => cases shape

theorem values_panic (line : Text → Item → Text) (key : Text) (keys : List Text)
    (size : s.store.shards.length = n) (unrouted : n % 2 ^ 32 = 0) :
    s.values env line (key :: keys) = ⟨s,[],.panicked⟩ := by
  rw [Server.values, call_panics size unrouted rfl]

/-- The shape that set and cas share: a TTL out of range is refused, and otherwise the
    call is answered by the lines that its switch names. -/
theorem write_answers {named : StoreError → Option String} {lines : List String}
    (serves : Serves limits n s.store)
    (routed : n % 2 ^ 32 ≠ 0 ∨ c.ttlSeconds.toNat > maxTTLSeconds) (keyOf : call.key = some key)
    (shaped : ∀ reply, permitted call reply = true →
      ∃ err, reply = .wrote err ∧ err.all (fun e => (named e).isSome) = true)
    (refused : "CLIENT_ERROR TTL is too large" ∈ lines) (stored : "STORED" ∈ lines)
    (listed : ∀ err line, named err = some line → line ∈ lines) :
    let done := if c.ttlSeconds.toNat > maxTTLSeconds then
      answer s "CLIENT_ERROR TTL is too large" else answerWrite named (s.call env call) s
    Answers limits n s done ∧ OneLine lines done.written := by
  dsimp only
  by_cases long : c.ttlSeconds.toNat > maxTTLSeconds
  · rw [if_pos long]
    exact ⟨answer_answers _ serves rfl, _, refused, rfl⟩
  · rw [if_neg long]
    obtain ⟨t,reply,called,shape,kept,token⟩ :=
      call_returns env serves (routed.resolve_right long) keyOf
    obtain ⟨err,rfl,known⟩ := shaped reply shape
    rw [called]
    cases err with
    | none => exact ⟨answer_answers "STORED" kept token, _, stored, rfl⟩
    | some err =>
      cases line : named err with
      | none => simp [line] at known
      | some written =>
        simp only [answerWrite, line]
        exact ⟨answer_answers written kept token, _, listed err written line, rfl⟩

theorem set_answers (serves : Serves limits n s.store) (op : c.op = .set)
    (routed : n % 2 ^ 32 ≠ 0 ∨ keyed c = false) :
    Answers limits n s (s.execute env c) ∧ Responds c (s.execute env c).written := by
  simp only [Server.execute, Responds, op]
  refine write_answers serves ?_ rfl ?_ (by simp [writeErrors]) (by simp) ?_
  · simpa [keyed, op] using routed
  · intro reply shape
    cases reply with
    | wrote err => exact ⟨err,rfl,shape⟩
    | _ => cases shape
  · intro err line named
    cases err <;> simp_all [setErrors, writeErrors]

theorem cas_answers (serves : Serves limits n s.store) (op : c.op = .cas)
    (routed : n % 2 ^ 32 ≠ 0 ∨ keyed c = false) :
    Answers limits n s (s.execute env c) ∧ Responds c (s.execute env c).written := by
  simp only [Server.execute, Responds, op]
  refine write_answers serves ?_ rfl ?_ (by simp [writeErrors]) (by simp) ?_
  · simpa [keyed, op] using routed
  · intro reply shape
    cases reply with
    | wrote err => exact ⟨err,rfl,shape⟩
    | _ => cases shape
  · intro err line named
    cases err <;> simp_all [casErrors, writeErrors]

theorem incr_answers (serves : Serves limits n s.store) (op : c.op = .incr)
    (spread : n % 2 ^ 32 ≠ 0) :
    Answers limits n s (s.execute env c) ∧ Responds c (s.execute env c).written := by
  simp only [Server.execute, Responds, op]
  obtain ⟨t,reply,called,shape,kept,token⟩ := call_returns env serves spread
    (rfl : (Call.incr c.key c.delta).key = some c.key)
  rw [called]
  cases reply with
  | counted result =>
    cases result with
    | ok value => exact ⟨⟨rfl,kept,token⟩, Or.inl ⟨value,rfl⟩⟩
    | error err =>
      cases named : incrErrors err with
      | none => simp [permitted, named] at shape
      | some line =>
        dsimp only
        rw [named]
        refine ⟨answer_answers line kept token, Or.inr ⟨line,?_,rfl⟩⟩
        cases err <;> simp_all [incrErrors, writeErrors]
  | _ => cases shape

theorem get_answers (serves : Serves limits n s.store) (op : c.op = .get)
    (spread : n % 2 ^ 32 ≠ 0) :
    Answers limits n s (s.execute env c) ∧ Responds c (s.execute env c).written := by
  simp only [Server.execute, Responds, op]
  obtain ⟨t,reply,called,shape,kept,token⟩ := call_returns env serves spread
    (rfl : (Call.get c.key).key = some c.key)
  rw [called]
  cases reply with
  | found item =>
    cases item with
    | none => exact ⟨answer_answers "END" kept token, [], by simp, rfl⟩
    | some item => exact ⟨⟨rfl,kept,token⟩, [(c.key,item)], by simp, by simp⟩
  | _ => cases shape

theorem delete_answers (serves : Serves limits n s.store) (op : c.op = .delete)
    (spread : n % 2 ^ 32 ≠ 0) :
    Answers limits n s (s.execute env c) ∧ Responds c (s.execute env c).written := by
  simp only [Server.execute, Responds, op]
  obtain ⟨t,reply,called,shape,kept,token⟩ := call_returns env serves spread
    (rfl : (Call.delete c.key).key = some c.key)
  rw [called]
  cases reply with
  | deleted ok =>
    cases ok with
    | true => exact ⟨answer_answers _ kept token, _, by simp, rfl⟩
    | false => exact ⟨answer_answers _ kept token, _, by simp, rfl⟩
  | _ => cases shape

theorem formatInt_ofNat (k : Nat) : formatInt k = formatNat k := by
  simp [formatInt]

/-- The lines of STATS are the documented names, each with a number. -/
theorem stats_respond (s : Server) (uptime : Int) :
    ∃ numbers : List Int, numbers.length = statNames.length ∧
      s.statLines uptime = statNames.zip (numbers.map formatInt) := by
  let m := s.counters
  let kv := s.store.stats int64
  refine ⟨[uptime, m.connectionsOpened.toNat, m.connectionsActive, m.connectionsRejected.toNat,
    m.authFailures.toNat, m.clientErrors.toNat, m.serverErrors.toNat, m.cmdGet.toNat,
    m.cmdSet.toNat, m.cmdDelete.toNat, m.cmdIncr.toNat, m.cmdMget.toNat, m.cmdGets.toNat,
    m.cmdCas.toNat, m.cmdStats.toNat, m.cmdAuth.toNat, m.cmdPing.toNat, kv.items, kv.memoryBytes,
    kv.maxMemoryBytes, kv.evictions.toNat, kv.expirations.toNat, kv.numShards], rfl, ?_⟩
  simp only [List.map_cons, List.map_nil, formatInt_ofNat, statNames, List.zip_cons_cons,
    List.zip_nil_right]
  rfl

/-- A command whose keys find their shards, or that needs none, gets its response. -/
theorem execute_answers (env : Env) (serves : Serves limits n s.store) (plain : c.op ≠ .auth)
    (routed : n % 2 ^ 32 ≠ 0 ∨ keyed c = false) :
    Answers limits n s (s.execute env c) ∧ Responds c (s.execute env c).written := by
  have spread (needed : keyed c = true) : n % 2 ^ 32 ≠ 0 := routed.resolve_right (by simp [needed])
  cases op : c.op with
  | ping =>
    simp only [Server.execute, Responds, op]
    exact ⟨answer_answers "PONG" serves rfl, "PONG", by simp, rfl⟩
  | stats =>
    simp only [Server.execute, Responds, op]
    obtain ⟨numbers,length,same⟩ := stats_respond s (env s.calls).uptimeSeconds
    exact ⟨⟨rfl,serves,rfl⟩, numbers, length, by rw [same]⟩
  | get => exact get_answers serves op (spread (by simp [keyed, op]))
  | set => exact set_answers serves op routed
  | delete => exact delete_answers serves op (spread (by simp [keyed, op]))
  | incr => exact incr_answers serves op (spread (by simp [keyed, op]))
  | cas => exact cas_answers serves op routed
  | mget =>
    simp only [Server.execute, Responds, op]
    exact values_answers _ _ serves (routed.imp_right fun idle => by simpa [keyed, op] using idle)
  | gets =>
    simp only [Server.execute, Responds, op]
    exact values_answers _ _ serves (routed.imp_right fun idle => by simpa [keyed, op] using idle)
  | auth => exact absurd op plain

theorem execute_panics (env : Env) (size : s.store.shards.length = n) (unrouted : n % 2 ^ 32 = 0)
    (needed : keyed c = true) : s.execute env c = ⟨s,[],.panicked⟩ := by
  have lost (call : Call) (named : call.key = some c.key) : s.call env call = none :=
    call_panics size unrouted named
  cases op : c.op with
  | get => simp only [Server.execute, op, lost (.get c.key) rfl]
  | delete => simp only [Server.execute, op, lost (.delete c.key) rfl]
  | incr => simp only [Server.execute, op, lost (.incr c.key c.delta) rfl]
  | set =>
    have short : ¬ c.ttlSeconds.toNat > maxTTLSeconds := by simpa [keyed, op] using needed
    simp only [Server.execute, op, if_neg short,
      lost (.set c.key c.value (ttlDuration c.ttlSeconds)) rfl, answerWrite]
  | cas =>
    have short : ¬ c.ttlSeconds.toNat > maxTTLSeconds := by simpa [keyed, op] using needed
    simp only [Server.execute, op, if_neg short,
      lost (.cas c.key c.value (ttlDuration c.ttlSeconds) c.cas) rfl, answerWrite]
  | mget =>
    simp only [Server.execute, op]
    cases keys : c.keys with
    | nil => simp [keyed, op, keys] at needed
    | cons key more => exact values_panic _ key more size unrouted
  | gets =>
    simp only [Server.execute, op]
    cases keys : c.keys with
    | nil => simp [keyed, op, keys] at needed
    | cons key more => exact values_panic _ key more size unrouted
  | _ => simp [keyed, op] at needed

end ServerResponses
