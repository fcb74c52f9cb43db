import MiniKV.Server.Responses
import MiniKV.Store.History

/- The TTL of a set or a cas, from its seconds in the command to the instant at which the
   key is gone. What int64 nanoseconds cannot hold is refused before the conversion. -/
namespace ServerExpiry
open MachineWord KeyedList LruModel ShardModel StoreModel CacheModel CacheEffects ShardRefinement
  ShardSimulation ShardInvariant StoreFate StoreHistory StepRuns ProtocolModel ConfigModel ServerModel
  ServerResponses

def nanoseconds (ttlSeconds : UInt64) : Nat := ttlSeconds.toNat * 1000000000

/-- The answer to a command that finds no live item under its key. -/
def missLine : Op → String
  | .get => "END"
  | _ => "NOT_FOUND"

/-- The commands that look a key up. A cas checks its TTL and the length of its value
    before that. -/
def Looks (maxValueBytes : Int) (key : Text) (p : Command) : Prop :=
  p.key = key ∧ match p.op with
    | .get | .delete | .incr => True
    | .cas => nanoseconds p.ttlSeconds < 2 ^ 63 ∧ (p.value.length : Int) ≤ maxValueBytes
    | _ => False

structure Honoured (maxValueBytes : Int) (env : Env) (s : Server) (c : Command) : Prop where
  refused : (s.execute env c).written = writeLine (text "CLIENT_ERROR TTL is too large") ↔
    2 ^ 63 ≤ nanoseconds c.ttlSeconds
  unchanged : 2 ^ 63 ≤ nanoseconds c.ttlSeconds → (s.execute env c).server = s
  converted : nanoseconds c.ttlSeconds < 2 ^ 63 →
    ttlDuration c.ttlSeconds = nanoseconds c.ttlSeconds
  visible : (s.execute env c).written = writeLine (text "STORED") →
    ∀ later p, Looks maxValueBytes c.key p →
      let done := (s.execute env c).server
      (done.execute later p).status = .ok ∧
        ((done.execute later p).written ≠ writeLine (text (missLine p.op)) ↔
          c.ttlSeconds = 0 ∨
            (later done.calls).now < (env s.calls).now + nanoseconds c.ttlSeconds)

variable {limits : Limits} {env : Env} {s t : Server} {store next : Store} {c p : Command}
  {key value : Bytes} {e : Entry} {work : Section} {call : Call} {reply : Reply} {n : Nat}
  {named : StoreError → Option String}

theorem too_large_iff (ttlSeconds : UInt64) :
    ttlSeconds.toNat > maxTTLSeconds ↔ 2 ^ 63 ≤ nanoseconds ttlSeconds := by
  unfold maxTTLSeconds nanoseconds
  omega

/-- Neither the conversion nor the product wraps once the guard has passed. -/
theorem ttlDuration_exact {ttlSeconds : UInt64} (fits : nanoseconds ttlSeconds < 2 ^ 63) :
    ttlDuration ttlSeconds = nanoseconds ttlSeconds := by
  unfold nanoseconds at fits ⊢
  have seconds : int64.wrap (ttlSeconds.toNat : Int) = ttlSeconds.toNat :=
    int64_exact ⟨by omega, by omega⟩
  have product : (ttlSeconds.toNat : Int) * second = (ttlSeconds.toNat * 1000000000 : Nat) := by
    rw [second]
    omega
  rw [ttlDuration, seconds, product]
  exact int64_exact ⟨by omega, by omega⟩

/-- The store's answer that there is no live item. -/
def missed : Reply → Bool
  | .found none => true
  | .deleted false => true
  | .counted (.error .notFound) => true
  | .wrote (some .notFound) => true
  | _ => false

/-- The calls that look a key up and do not fail before that. -/
def Seeks (limits : Limits) (key : Bytes) : Call → Prop
  | .get name => name = key
  | .delete name => name = key
  | .incr name _ => name = key
  | .cas name value _ _ => name = key ∧ (value.length : Int) ≤ limits.maxValueBytes
  | _ => False

theorem seeks_key (seeks : Seeks limits key call) : call.key = some key := by
  cases call with
  | get name => exact congrArg some seeks
  | delete name => exact congrArg some seeks
  | incr name delta => exact congrArg some seeks
  | cas name value ttl expected => exact congrArg some seeks.1
  | _ => cases seeks

theorem nextCount_found (value : Bytes) (delta : UInt64) :
    nextCount value delta ≠ .error .notFound := by
  unfold nextCount
  split
  · simp
  · split <;> simp

theorem incrTo_found (cache : Cache) (cas : UInt64) (now : Time) (number : UInt64) :
    (cache.incrTo limits e cas now key number).2.2 ≠ .error .notFound := by
  unfold Cache.incrTo
  dsimp only
  split
  · simp
  · split <;> simp

theorem counted_found {result : Except StoreError UInt64} (found : result ≠ .error .notFound) :
    missed (.counted result) = false := by
  cases result with
  | ok _ => rfl
  | error err => cases err <;> simp_all [missed]

theorem incr_missed {cache : Cache} (cas : UInt64) (now : Time) (delta : UInt64)
    (hit : lookup key cache.entries = some e) :
    missed (.counted (cache.incr limits cas now key delta).2.2) = e.expired now := by
  simp only [Cache.incr, hit]
  cases e.expired now with
  | true => rfl
  | false =>
    rw [if_neg Bool.false_ne_true]
    refine counted_found ?_
    have readable := nextCount_found e.value delta
    cases count : nextCount e.value delta with
    | error err =>
      rw [count] at readable
      exact readable
    | ok number => exact incrTo_found cache cas now number

theorem cache_missed {cache : Cache} (cas : UInt64) (now : Time) (seeks : Seeks limits key call)
    (hit : lookup key cache.entries = some e) :
    missed (cache.step limits cas now call).2.2 = e.expired now := by
  cases call with
  | get name =>
    obtain rfl : name = key := seeks
    simp only [Cache.step, Cache.get, hit]
    cases e.expired now <;> rfl
  | delete name =>
    obtain rfl : name = key := seeks
    simp only [Cache.step, Cache.delete, hit]
    cases e.expired now <;> rfl
  | incr name delta =>
    obtain rfl : name = key := seeks
    exact incr_missed cas now delta hit
  | cas name value ttl expected =>
    obtain ⟨rfl,short⟩ : name = key ∧ _ := seeks
    simp only [Cache.step, Cache.cas, hit]
    rw [if_neg (by omega)]
    cases e.expired now with
    | true => rfl
    | false =>
      rw [if_neg Bool.false_ne_true]
      split
      · rfl
      · split <;> rfl
  | _ => cases seeks

theorem step_missed (sound : Sound limits store) (taken : store.step work = some (next,reply))
    (seeks : Seeks limits key work.call) (held : store.peek key = some e) :
    missed reply = e.expired work.now := by
  obtain ⟨i,sh,_,cache,_,_,_,target,here,_,ref,_,_,_,done⟩ := step_inverted sound taken
  have home := keyed_target (seeks_key seeks) target
  rw [peek_here home here, peek_refined ref] at held
  have answer := cache_missed store.cas work.now seeks held
  rw [done] at answer
  exact answer

/-- The lines by which the switches of set and cas answer an error. -/
def failLines : List String :=
  ["EXISTS", "NOT_FOUND", "SERVER_ERROR value too large", "SERVER_ERROR memory limit exceeded"]

theorem failLines_apart {line : String} (mem : line ∈ failLines) :
    writeLine (text line) ≠ writeLine (text "STORED") ∧
      writeLine (text line) ≠ writeLine (text "CLIENT_ERROR TTL is too large") := by
  simp only [failLines, List.mem_cons, List.not_mem_nil, or_false] at mem
  rcases mem with rfl | rfl | rfl | rfl <;> decide

/-- A write that is not refused for its TTL: it has stored, or what is written says something
    else. -/
theorem answerWrite_cases (lines : ∀ err line, named err = some line → line ∈ failLines)
    (called : Option (Server × Reply)) (s : Server) :
    (∃ t, called = some (t,.wrote none) ∧ answerWrite named called s = answer t "STORED") ∨
      ((answerWrite named called s).written ≠ writeLine (text "STORED") ∧
        (answerWrite named called s).written ≠
          writeLine (text "CLIENT_ERROR TTL is too large")) := by
  have silent : ([] : Text) ≠ writeLine (text "STORED") ∧
      ([] : Text) ≠ writeLine (text "CLIENT_ERROR TTL is too large") := by decide
  cases called with
  | none => exact Or.inr silent
  | some done =>
    obtain ⟨t,reply⟩ := done
    cases reply with
    | wrote err =>
      cases err with
      | none => exact Or.inl ⟨t, rfl, rfl⟩
      | some err =>
        right
        simp only [answerWrite]
        cases line : named err with
        | none => exact silent
        | some written => exact failLines_apart (lines err written line)
    | _ => exact Or.inr silent

/-- The two writes with a TTL, which duplicate its handling. -/
def Writes (c : Command) (call : Call) : Prop :=
  call = .set c.key c.value (ttlDuration c.ttlSeconds) ∨
    call = .cas c.key c.value (ttlDuration c.ttlSeconds) c.cas

theorem execute_write (write : c.op = .set ∨ c.op = .cas) :
    ∃ named call, (∀ err line, named err = some line → line ∈ failLines) ∧ Writes c call ∧
      ∀ env s, Server.execute env s c =
        if c.ttlSeconds.toNat > maxTTLSeconds then answer s "CLIENT_ERROR TTL is too large"
        else answerWrite named (s.call env call) s := by
  rcases write with op | op
  · refine ⟨setErrors, _, ?_, Or.inl rfl, ?_⟩
    · intro err line found
      cases err <;> simp_all [setErrors, failLines]
    · intro env s
      simp only [Server.execute, op]
  · refine ⟨casErrors, _, ?_, Or.inr rfl, ?_⟩
    · intro err line found
      cases err <;> simp_all [casErrors, failLines]
    · intro env s
      simp only [Server.execute, op]

theorem stores_expiry {found : Option Entry} {cas : UInt64} {now : Time}
    (stores : Stores limits found cas now call e reply) (writes : Writes c call) :
    e.expiresAt = expiresAt now (ttlDuration c.ttlSeconds) := by
  cases stores with
  | set key value ttl =>
    rcases writes with same | same
    · obtain ⟨_,_,ttlSame⟩ := Call.set.inj same
      exact congrArg (expiresAt now) ttlSame
    · cases same
  | cas key value ttl hit live =>
    rcases writes with same | same
    · cases same
    · obtain ⟨_,_,ttlSame,_⟩ := Call.cas.inj same
      exact congrArg (expiresAt now) ttlSame
  | incr key hit live count => rcases writes with same | same <;> cases same

theorem write_stored (sound : Sound limits s.store) (writes : Writes c call)
    (called : s.call env call = some (t,.wrote none)) :
    ∃ e, t.store.peek c.key = some e ∧
      e.expiresAt = expiresAt (env s.calls).now (ttlDuration c.ttlSeconds) := by
  have named : call.writes = true ∧ call.key = some c.key := by
    rcases writes with rfl | rfl <;> exact ⟨rfl,rfl⟩
  obtain ⟨e,held,stores⟩ := call_stores sound called named.1 rfl named.2
  exact ⟨e, held, stores_expiry stores writes⟩

theorem routed_of_call (size : s.store.shards.length = n) (keyOf : call.key = some key)
    (called : s.call env call = some (t,reply)) : n % 2 ^ 32 ≠ 0 := by
  intro unrouted
  rw [call_panics size unrouted keyOf] at called
  cases called

/-- The call of a command that looks a key up. -/
def callOf (p : Command) : Call :=
  match p.op with
  | .get => .get p.key
  | .delete => .delete p.key
  | .incr => .incr p.key p.delta
  | _ => .cas p.key p.value (ttlDuration p.ttlSeconds) p.cas

theorem looks_seeks (looks : Looks limits.maxValueBytes key p) :
    Seeks limits key (callOf p) := by
  obtain ⟨own,able⟩ := looks
  unfold callOf
  cases op : p.op with
  | get => exact own
  | delete => exact own
  | incr => exact own
  | cas =>
    simp only [op] at able
    exact ⟨own,able.2⟩
  | _ => simp only [op] at able

theorem value_answer (rest : Text) : text "VALUE " ++ rest ≠ writeLine (text "END") ∧
    text "VALUE " ++ rest ≠ writeLine (text "NOT_FOUND") := by
  constructor <;> intro same <;> cases (List.cons.inj same).1

theorem incrErrors_apart {err : StoreError} {line : String} (found : incrErrors err = some line) :
    writeLine (text line) = writeLine (text "NOT_FOUND") ↔ err = .notFound := by
  cases err <;> simp only [incrErrors, Option.some.injEq, reduceCtorEq] at found <;> subst found <;>
    decide

theorem casErrors_apart {err : StoreError} {line : String} (found : casErrors err = some line) :
    writeLine (text line) = writeLine (text "NOT_FOUND") ↔ err = .notFound := by
  cases err <;> simp only [casErrors, Option.some.injEq, reduceCtorEq] at found <;> subst found <;>
    decide

theorem missed_error (err : StoreError) :
    (missed (.wrote (some err)) = true ↔ err = .notFound) ∧
      (missed (.counted (.error err)) = true ↔ err = .notFound) := by
  cases err <;> decide

theorem get_written (called : s.call env (.get p.key) = some (t,reply)) (op : p.op = .get)
    (shape : permitted (.get p.key) reply = true) :
    (s.execute env p).written = writeLine (text "END") ↔ missed reply = true := by
  simp only [Server.execute, op, called]
  cases reply with
  | found item =>
    cases item with
    | none => exact iff_of_true rfl rfl
    | some item =>
      have apart := (value_answer ((p.key ++ text " " ++ Decimal.formatNat item.value.length) ++
        [cr,lf] ++ item.value ++ [cr,lf] ++ writeLine (text "END"))).1
      simp only [missed, Bool.false_eq_true, iff_false]
      simpa [block, valueLine, writeLine] using apart
  | _ => cases shape

theorem delete_written (called : s.call env (.delete p.key) = some (t,reply)) (op : p.op = .delete)
    (shape : permitted (.delete p.key) reply = true) :
    (s.execute env p).written = writeLine (text "NOT_FOUND") ↔ missed reply = true := by
  simp only [Server.execute, op, called]
  cases reply with
  | deleted held =>
    have apart : writeLine (text "DELETED") ≠ writeLine (text "NOT_FOUND") := by decide
    cases held with
    | true => exact iff_of_false apart (by decide)
    | false => exact iff_of_true rfl rfl
  | _ => cases shape

theorem incr_written (called : s.call env (.incr p.key p.delta) = some (t,reply))
    (op : p.op = .incr) (shape : permitted (.incr p.key p.delta) reply = true) :
    (s.execute env p).written = writeLine (text "NOT_FOUND") ↔ missed reply = true := by
  simp only [Server.execute, op, called]
  cases reply with
  | counted result =>
    cases result with
    | ok number =>
      have apart := (value_answer (Decimal.formatUint number ++ [cr,lf])).2
      simp only [missed, Bool.false_eq_true, iff_false]
      simpa [writeLine] using apart
    | error err =>
      obtain ⟨line,listed⟩ := Option.isSome_iff_exists.mp shape
      simp only [listed]
      rw [(missed_error err).2]
      exact incrErrors_apart listed
  | _ => cases shape

theorem cas_written
    (called : s.call env (.cas p.key p.value (ttlDuration p.ttlSeconds) p.cas) = some (t,reply))
    (op : p.op = .cas) (fits : nanoseconds p.ttlSeconds < 2 ^ 63)
    (shape : permitted (.cas p.key p.value (ttlDuration p.ttlSeconds) p.cas) reply = true) :
    (s.execute env p).written = writeLine (text "NOT_FOUND") ↔ missed reply = true := by
  have short : ¬ p.ttlSeconds.toNat > maxTTLSeconds := by
    rw [too_large_iff]
    omega
  simp only [Server.execute, op, if_neg short, called]
  cases reply with
  | wrote err =>
    have apart : writeLine (text "STORED") ≠ writeLine (text "NOT_FOUND") := by decide
    cases err with
    | none => exact iff_of_false apart (by decide)
    | some err =>
      obtain ⟨line,listed⟩ := Option.isSome_iff_exists.mp shape
      simp only [answerWrite, listed]
      rw [(missed_error err).1]
      exact casErrors_apart listed
  | _ => cases shape

/-- What is written shows whether the store has found a live item. -/
theorem written_missed (looks : Looks limits.maxValueBytes key p)
    (called : s.call env (callOf p) = some (t,reply))
    (shape : permitted (callOf p) reply = true) :
    (s.execute env p).written = writeLine (text (missLine p.op)) ↔ missed reply = true := by
  obtain ⟨_,able⟩ := looks
  unfold callOf at called shape
  cases op : p.op with
  | get =>
    simp only [op] at called shape
    exact get_written called op shape
  | delete =>
    simp only [op] at called shape
    exact delete_written called op shape
  | incr =>
    simp only [op] at called shape
    exact incr_written called op shape
  | cas =>
    simp only [op] at able called shape
    exact cas_written called op able.1 shape
  | _ => simp only [op] at able

theorem looks_plain {maxValueBytes : Int} (looks : Looks maxValueBytes key p) : p.op ≠ .auth := by
  intro op
  have able := looks.2
  simp only [op] at able

theorem looked_up (serves : Serves limits n s.store) (routed : n % 2 ^ 32 ≠ 0)
    (looks : Looks limits.maxValueBytes key p) (held : s.store.peek key = some e) (env : Env) :
    (s.execute env p).status = .ok ∧
      ((s.execute env p).written = writeLine (text (missLine p.op)) ↔
        e.expired (env s.calls).now = true) := by
  have seeks := looks_seeks looks
  obtain ⟨t,reply,called,shape,_⟩ := call_returns env serves routed (seeks_key seeks)
  have found := step_missed serves.1 (call_inverted called).1 seeks held
  refine ⟨(execute_answers env serves (looks_plain looks) (Or.inl routed)).1.status, ?_⟩
  rw [written_missed looks called shape, found]

theorem fresh_iff {t₀ t : Int} (positive : 0 < t₀) {ttlSeconds : UInt64}
    (fits : nanoseconds ttlSeconds < 2 ^ 63)
    (expires : e.expiresAt = expiresAt t₀ (ttlDuration ttlSeconds)) :
    ¬ e.expired t = true ↔ ttlSeconds = 0 ∨ t < t₀ + nanoseconds ttlSeconds := by
  have zero : ttlSeconds = 0 ↔ nanoseconds ttlSeconds = 0 := by
    rw [← UInt64.toNat_inj, nanoseconds, UInt64.toNat_zero]
    omega
  rw [expired_iff, expires, ttlDuration_exact fits, zero]
  generalize nanoseconds ttlSeconds = ttl
  by_cases forever : ttl = 0
  · subst forever
    simp [expiresAt]
  · have positiveTtl : ¬ (ttl : Int) ≤ 0 := by omega
    have instant : expiresAt t₀ ttl = t₀ + ttl := if_neg positiveTtl
    have later : t₀ + (ttl : Int) ≠ 0 := by omega
    rw [instant, not_and, Int.not_le]
    exact ⟨fun seen => Or.inr (seen later), fun seen _ => seen.resolve_left forever⟩

theorem stored_apart :
    writeLine (text "STORED") ≠ writeLine (text "CLIENT_ERROR TTL is too large") := by decide

theorem refused_honoured (maxValueBytes : Int) (large : 2 ^ 63 ≤ nanoseconds c.ttlSeconds)
    (done : s.execute env c = answer s "CLIENT_ERROR TTL is too large") :
    Honoured maxValueBytes env s c := by
  refine ⟨?_, ?_, ?_, ?_⟩
  · rw [done]
    exact iff_of_true rfl large
  · intro _
    rw [done]
    rfl
  · intro fits
    omega
  · intro stored
    rw [done] at stored
    exact absurd stored stored_apart.symm

/-- A write that has stored: its item is found until the TTL is over. -/
theorem stored_visible (serves : Serves limits n s.store) (clock : 0 < (env s.calls).now)
    (fits : nanoseconds c.ttlSeconds < 2 ^ 63) (writes : Writes c call)
    (called : s.call env call = some (t,.wrote none)) (later : Env)
    (looks : Looks limits.maxValueBytes c.key p) :
    (t.execute later p).status = .ok ∧
      ((t.execute later p).written ≠ writeLine (text (missLine p.op)) ↔
        c.ttlSeconds = 0 ∨
          (later t.calls).now < (env s.calls).now + nanoseconds c.ttlSeconds) := by
  have keyOf : call.key = some c.key := by
    rcases writes with rfl | rfl <;> rfl
  have routed := routed_of_call serves.2 keyOf called
  obtain ⟨e,held,expires⟩ := write_stored serves.1 writes called
  obtain ⟨status,missing⟩ := looked_up (call_serves serves called).1 routed looks held later
  exact ⟨status, (not_congr missing).trans (fresh_iff clock fits expires)⟩

/-- Every TTL of a set or a cas is refused or kept to the nanosecond. -/
theorem ttl_honoured (config : ShardModel.Config) {steps : List StoreStep} {s : Server}
    (reached : Run Store.step (Store.new int64 config) steps s.store) (env : Env) (c : Command)
    (write : c.op = .set ∨ c.op = .cas) (clock : 0 < (env s.calls).now) :
    Honoured (normalizeConfig config).maxValueBytes env s c := by
  obtain ⟨named,call,lines,writes,executed⟩ := execute_write write
  have serves : Serves (shardLimits config) s.store.shards.length s.store := ⟨run_sound reached,rfl⟩
  by_cases long : c.ttlSeconds.toNat > maxTTLSeconds
  · refine refused_honoured _ ((too_large_iff c.ttlSeconds).mp long) ?_
    rw [executed, if_pos long]
  · have done : s.execute env c = answerWrite named (s.call env call) s := by
      rw [executed, if_neg long]
    have fits : nanoseconds c.ttlSeconds < 2 ^ 63 := by
      rw [too_large_iff] at long
      omega
    refine ⟨?_, fun large => by omega, fun _ => ttlDuration_exact fits, ?_⟩
    · refine iff_of_false ?_ (by omega)
      rw [done]
      rcases answerWrite_cases lines (s.call env call) s with ⟨t,_,stored⟩ | apart
      · rw [stored]
        exact stored_apart
      · exact apart.2
    · intro written later p looks
      rw [done] at written ⊢
      rcases answerWrite_cases lines (s.call env call) s with ⟨t,called,stored⟩ | apart
      · rw [stored]
        exact stored_visible serves clock fits writes called later looks
      · exact absurd written apart.1

def risingEnv : Env := fun call => ⟨call + 1,.asListed,0⟩

def briefSet : Command := { op := .set, key := ascii ['k'], value := ascii ['v'], ttlSeconds := 3 }

/-- Three seconds after the first instant the key is visible for as long as they last. -/
theorem brief_set_honoured :
    let s := Server.new (Store.new int64 StoreModel.defaultConfig) []
    Honoured 1048576 risingEnv s briefSet ∧
      ∀ t : Time, ((s.execute risingEnv briefSet).server.execute (fun _ => ⟨t,.asListed,0⟩)
          { op := .get, key := ascii ['k'] }).written ≠ writeLine (text "END") ↔
        t < 3000000001 := by
  intro s
  have honoured : Honoured 1048576 risingEnv s briefSet :=
    ttl_honoured StoreModel.defaultConfig Run.nil risingEnv briefSet (Or.inl rfl) (by decide)
  refine ⟨honoured, ?_⟩
  intro t
  have stored : (s.execute risingEnv briefSet).written = writeLine (text "STORED") := by decide
  have seen := (honoured.visible stored (fun _ => ⟨t,.asListed,0⟩) { op := .get, key := ascii ['k'] }
    ⟨rfl,trivial⟩).2
  exact seen.trans (by simp [risingEnv, briefSet, nanoseconds, s, Server.new])

end ServerExpiry
