import MiniKV.Server.Session
import MiniKV.Store.Sharding

/- Pipelining: complete commands at the front of a stream are served as if the rest came
   over a session of its own. -/
namespace ServerPipelining
open MachineWord LruModel ShardModel StoreModel ShardInvariant StoreFate StepRuns ProtocolModel ProtocolFraming
  ServerModel ServerResponses ServerSession

def OneEach (cs : List Command) (output : Text) : Prop :=
  ∃ responses : List Text, List.Forall₂ Responds cs responses ∧ output = responses.flatten

/-- Serve on these commands returns with one response each; what follows them is served as
    by a Serve after it; and a malformed command behind them ends the session. -/
def Pipelined (env : Env) (maxAlloc : Nat) (s : Server) (a : Text) (cs : List Command) : Prop :=
  ∃ x, s.serve env maxAlloc ⟨a,.eof⟩ = some (x,.nil) ∧ x.executed = cs ∧ OneEach cs x.output ∧
    (∀ r, ∃ y result, x.server.serve env maxAlloc r = some (y,result) ∧
      s.serve env maxAlloc ⟨a ++ r.bytes,r.ending⟩ =
        some (Session.behind x.output x.executed y,result)) ∧
    ∀ r r' message, readCommand maxAlloc r = (.error (.protocol message),r') →
      ∃ y, s.serve env maxAlloc ⟨a ++ r.bytes,r.ending⟩ = some (y,.nil) ∧ y.executed = cs ∧
        y.server.store = x.server.store ∧
        y.output = x.output ++ writeLine (text "CLIENT_ERROR bad command")

variable {env : Env} {maxAlloc n : Nat} {x : Session} {a : Text} {cs : List Command}
  {limits : Limits}

def after (env : Env) (cs : List Command) (x : Session) : Session :=
  cs.foldl (fun x c => (x.handle env c).1) x

theorem after_answers (env : Env) (working : Working limits n x) (plain : ∀ c ∈ cs, c.op ≠ .auth)
    (routed : n % 2 ^ 32 ≠ 0 ∨ ∀ c ∈ cs, keyed c = false) :
    Working limits n (after env cs x) ∧
      (after env cs x).server.authToken = x.server.authToken ∧
      (after env cs x).executed = x.executed ++ cs ∧
      ∃ responses : List Text, List.Forall₂ Responds cs responses ∧
        (after env cs x).output = x.output ++ responses.flatten := by
  induction cs generalizing x with
  | nil => exact ⟨working, rfl, by simp [after], [], List.Forall₂.nil, by simp [after]⟩
  | cons c cs ih =>
    obtain ⟨y,response,handled,next,responds,output,executed,token⟩ :=
      handle_answers env working (plain c (by simp)) (routed.imp_right fun all => all c (by simp))
    obtain ⟨still,same,ran,responses,all,written⟩ := ih next
      (fun d mem => plain d (by simp [mem])) (routed.imp_right fun all d mem => all d (by simp [mem]))
    have unfolded : after env (c :: cs) x = after env cs y := by
      simp only [after, List.foldl_cons]
      rw [handled]
    rw [unfolded]
    refine ⟨still, same.trans token, ?_, response :: responses,
      List.Forall₂.cons responds all, ?_⟩
    · rw [ran, executed, List.append_assoc, List.singleton_append]
    · rw [written, output, List.flatten_cons, List.append_assoc]

theorem resume_after (complete : Commands maxAlloc a cs) (working : Working limits n x)
    (plain : ∀ c ∈ cs, c.op ≠ .auth) (routed : n % 2 ^ 32 ≠ 0 ∨ ∀ c ∈ cs, keyed c = false)
    (rest : Text) (ending : Ending) :
    resume env maxAlloc (Session.reading x ⟨a ++ rest,ending⟩) =
      resume env maxAlloc (Session.reading (after env cs x) ⟨rest,ending⟩) := by
  -- Induction over the commands: each is read off the front, and its handling goes on.
  induction complete generalizing x with
  | nil => rfl
  | @cons bytes more c cs read _ ih =>
    obtain ⟨y,_,handled,next,_⟩ := handle_answers env working (plain c (by simp))
      (routed.imp_right fun all => all c (by simp))
    have turned := serveTurn_front env x read (more ++ rest) ending
    rw [handled] at turned
    have unfolded : after env (c :: cs) x = after env cs y := by
      simp only [after, List.foldl_cons]
      rw [handled]
    rw [List.append_assoc, resume_next turned, unfolded]
    exact ih next (fun d mem => plain d (by simp [mem]))
      (routed.imp_right fun all d mem => all d (by simp [mem]))

theorem resume_panics (env : Env) (complete : Commands maxAlloc a cs) (working : Working limits n x)
    (plain : ∀ c ∈ cs, c.op ≠ .auth) (unrouted : n % 2 ^ 32 = 0)
    (needed : ∃ c ∈ cs, keyed c = true) (rest : Text) (ending : Ending) :
    ∃ y, resume env maxAlloc (Session.reading x ⟨a ++ rest,ending⟩) = some (y,.panicked) := by
  -- With no shard for any key, the first command that needs one ends it all.
  induction complete generalizing x with
  | nil =>
    obtain ⟨c,mem,_⟩ := needed
    cases mem
  | @cons bytes more c cs read _ ih =>
    have turned := serveTurn_front env x read (more ++ rest) ending
    rw [List.append_assoc]
    cases own : keyed c with
    | true =>
      rw [handle_panics env working unrouted (plain c (by simp)) own] at turned
      exact ⟨_, resume_stop turned⟩
    | false =>
      obtain ⟨y,_,handled,next,_⟩ := handle_answers env working (plain c (by simp)) (Or.inr own)
      rw [handled] at turned
      rw [resume_next turned]
      obtain ⟨d,mem,dNeeded⟩ := needed
      have later : d ∈ cs := by
        rcases List.mem_cons.mp mem with rfl | later
        · rw [own] at dNeeded
          cases dNeeded
        · exact later
      exact ih next (fun d mem => plain d (by simp [mem])) ⟨d,later,dNeeded⟩

theorem start_working {s : Server} (reached : Reachable s) (unguarded : s.authToken = []) :
    ∃ limits, Working limits s.store.shards.length (.start s ⟨[],.eof⟩) := by
  obtain ⟨config,steps,run⟩ := reached
  exact ⟨shardLimits config, by simp [Session.start, unguarded], run_sound run, rfl⟩

theorem start_behind {s : Server} (working : Working limits n x) (same : x.server = s)
    (unguarded : s.authToken = []) (r : Reader) :
    Session.reading x r = Session.behind x.output x.executed (.start s r) := by
  obtain ⟨server,reader,authenticated,output,executed⟩ := x
  obtain rfl : authenticated = true := working.authenticated
  obtain rfl : server = s := same
  simp [Session.reading, Session.behind, Session.start, unguarded]

theorem serve_malformed (env : Env) (s : Server) {r r' : Reader} {message : String}
    (malformed : readCommand maxAlloc r = (.error (.protocol message),r')) :
    s.serve env maxAlloc r = some (⟨s.count countClientError,r',decide (s.authToken = []),
      writeLine (text "CLIENT_ERROR bad command"),[]⟩,.nil) := by
  apply Loop.run_stop
  rw [Session.serveTurn]
  dsimp only [Session.start]
  rw [malformed]
  rfl

theorem pipelined {s : Server} (reached : Reachable s) (unguarded : s.authToken = [])
    (complete : Commands maxAlloc a cs) (plain : ∀ c ∈ cs, c.op ≠ .auth)
    (routed : s.store.shards.length % 2 ^ 32 ≠ 0 ∨ ∀ c ∈ cs, keyed c = false) :
    Pipelined env maxAlloc s a cs := by
  obtain ⟨limits,working⟩ := start_working reached unguarded
  obtain ⟨still,token,ran,responses,all,written⟩ := after_answers env working plain routed
  let last := after env cs (.start s ⟨[],.eof⟩)
  have served (r : Reader) : s.serve env maxAlloc ⟨a ++ r.bytes,r.ending⟩ =
      resume env maxAlloc (Session.reading last r) :=
    resume_after complete working plain routed r.bytes r.ending
  have composed (r : Reader) : ∃ y result, last.server.serve env maxAlloc r = some (y,result) ∧
      s.serve env maxAlloc ⟨a ++ r.bytes,r.ending⟩ =
        some (Session.behind last.output last.executed y,result) := by
    obtain ⟨⟨y,result⟩,ended⟩ := resume_ends env maxAlloc (.start last.server r)
    refine ⟨y, result, ended, ?_⟩
    rw [served, start_behind still rfl (token.trans unguarded), resume_behind, ended]
    rfl
  refine ⟨Session.reading last ⟨[],.eof⟩, ?_, ran, ⟨responses,all,written⟩, composed, ?_⟩
  · have own := served ⟨[],.eof⟩
    rw [List.append_nil] at own
    rw [own]
    exact resume_stop rfl
  · intro r r' message malformed
    obtain ⟨y,result,later,whole⟩ := composed r
    rw [serve_malformed env last.server malformed] at later
    obtain ⟨rfl,rfl⟩ := Prod.mk.inj (Option.some.inj later)
    refine ⟨_, whole, ?_, rfl, rfl⟩
    change last.executed ++ [] = cs
    rw [List.append_nil]
    exact ran

theorem pipelined_routed {s : Server} (reached : Reachable s) (unguarded : s.authToken = [])
    (complete : Commands maxAlloc a cs) (plain : ∀ c ∈ cs, c.op ≠ .auth)
    (pipelined : Pipelined env maxAlloc s a cs) :
    s.store.shards.length % 2 ^ 32 ≠ 0 ∨ ∀ c ∈ cs, keyed c = false := by
  by_contra failing
  rw [not_or, not_not, not_forall] at failing
  obtain ⟨unrouted,c,needed⟩ := failing
  obtain ⟨mem,own⟩ : c ∈ cs ∧ keyed c = true := by simpa using needed
  obtain ⟨limits,working⟩ := start_working reached unguarded
  obtain ⟨y,panicked⟩ := resume_panics env complete working plain unrouted ⟨c,mem,own⟩ [] .eof
  rw [List.append_nil] at panicked
  obtain ⟨x,returned,_⟩ := pipelined
  have both := returned.symm.trans panicked
  cases both

/-- Pipelining is a homomorphism exactly when every command in front finds the shards of
    its keys: that is, when the number of shards is no multiple of 2 ^ 32, or when no
    command goes to the store with a key. -/
theorem pipelining_iff_routed (env : Env) (maxAlloc : Nat) (s : Server) (reached : Reachable s)
    (unguarded : s.authToken = []) (a : Text) (cs : List Command)
    (complete : Commands maxAlloc a cs) (plain : ∀ c ∈ cs, c.op ≠ .auth) :
    Pipelined env maxAlloc s a cs ↔
      s.store.shards.length % 2 ^ 32 ≠ 0 ∨ ∀ c ∈ cs, keyed c = false := by
  constructor
  · intro pipelined
    exact pipelined_routed reached unguarded complete plain pipelined
  · intro routed
    exact pipelined reached unguarded complete plain routed

def setThenGet : Text := ascii ['s','e','t',' ','k',' ','6','\r','\n','p','i','n','g','\r','\n',
  '\r','\n'] ++ (ascii ['g','e','t',' ','k','\r','\n'] ++ [])

def setThenGetCommands : List Command :=
  [{ op := .set, key := ascii ['k'], value := ascii ['p','i','n','g','\r','\n'] },
    { op := .get, key := ascii ['k'] }]

theorem set_then_get_pipelined :
    Pipelined stillEnv (2 ^ 48) (freshServer .default []) setThenGet setThenGetCommands := by
  have complete : Commands (2 ^ 48) setThenGet setThenGetCommands :=
    Commands.cons (by decide) (Commands.cons (by decide) Commands.nil)
  have iff := pipelining_iff_routed stillEnv (2 ^ 48) (freshServer .default [])
    (freshServer_reachable .default []) rfl setThenGet setThenGetCommands complete (by decide)
  exact iff.mpr (Or.inl (by decide))

theorem manyShards_length :
    (freshServer StoreSharding.manyShards []).store.shards.length = 4294967296 := by
  have normal : (normalizeConfig StoreSharding.manyShards.store).shards = 4294967296 := by decide
  simp only [freshServer, Server.new, Store.new, List.length_replicate, normal]
  rfl

def oneGet : Text := ascii ['g','e','t',' ','k','\r','\n'] ++ []

def oneGetCommands : List Command := [{ op := .get, key := ascii ['k'] }]

/-- Four billion shards, which validation accepts: a Get panics instead of answering. -/
theorem get_panics_without_shard :
    StoreSharding.manyShards.validate = none ∧
      Reachable (freshServer StoreSharding.manyShards []) ∧
      Commands (2 ^ 48) oneGet oneGetCommands ∧
      ¬ Pipelined stillEnv (2 ^ 48) (freshServer StoreSharding.manyShards []) oneGet
        oneGetCommands := by
  have complete : Commands (2 ^ 48) oneGet oneGetCommands :=
    Commands.cons (by decide) Commands.nil
  refine ⟨by decide, freshServer_reachable _ _, complete, ?_⟩
  intro pipelined
  rcases pipelined_routed (freshServer_reachable _ _) rfl complete (by decide) pipelined with
    routed | idle
  · rw [manyShards_length] at routed
    exact routed (by decide)
  · exact absurd (idle _ (List.mem_singleton.mpr rfl)) (by decide)

end ServerPipelining
