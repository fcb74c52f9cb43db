import MiniKV.Server.Conversation
import MiniKV.Store.Overflow

/- The store under the whole server. Whatever the connections do, the store goes through
   critical sections for the keys of commands that were read, each at a reading of the clock
   that no section met before; the parser bounds the keys. Without a command that is executed
   the store stays as it is. -/
namespace ServerSections
open MachineWord LruModel ShardModel StoreModel StoreFate StoreOverflow StepRuns ProtocolModel
  ProtocolFraming ProtocolCanonical ServerModel ServerResponses ServerLifecycle ServerPlaces
  ServerMoves ServerConversation ShardInvariant

def Named (c : Command) (key : Text) : Prop := key = c.key ∨ key ∈ c.keys

/-- A section for a key of which this holds, at a reading from this number on. -/
structure Fit (env : Env) (named : Text → Prop) (first : Nat) (work : Section) : Prop where
  named : ∀ key, work.call.key = some key → named key
  met : ∃ k, first ≤ k ∧ work.now = (env k).now

/-- From one server to the other by fit sections. -/
def Through (env : Env) (named : Text → Prop) (s t : Server) : Prop :=
  s.calls ≤ t.calls ∧ ∃ works : List StoreStep, Run Store.step s.store works t.store ∧
    ∀ x ∈ works, Fit env named s.calls x.input

variable {env : Env} {maxAlloc n i : Nat} {named other : Text → Prop} {s t u : Server} {c : Command}
  {call : Call} {reply : Reply}

theorem through_aside (same : (t.store,t.calls) = (s.store,s.calls)) : Through env named s t := by
  obtain ⟨store,calls⟩ := Prod.mk.inj same
  refine ⟨Nat.le_of_eq calls.symm, [], ?_, fun _ mem => by cases mem⟩
  rw [store]
  exact Run.nil

theorem through_refl (env : Env) (named : Text → Prop) (s : Server) : Through env named s s :=
  through_aside rfl

theorem through_trans (first : Through env named s t) (second : Through env named t u) :
    Through env named s u := by
  obtain ⟨later,works,run,fit⟩ := first
  obtain ⟨later',more,run',fit'⟩ := second
  refine ⟨Nat.le_trans later later', works ++ more, run_append run run', ?_⟩
  intro x mem
  rcases List.mem_append.mp mem with old | new
  · exact fit x old
  · obtain ⟨k,from_here,now⟩ := (fit' x new).met
    exact ⟨(fit' x new).named, k, Nat.le_trans later from_here, now⟩

theorem through_weaken (weaker : ∀ key, named key → other key) (through : Through env named s t) :
    Through env other s t := by
  obtain ⟨later,works,run,fit⟩ := through
  refine ⟨later, works, run, ?_⟩
  intro x mem
  exact ⟨fun key own => weaker key ((fit x mem).named key own), (fit x mem).met⟩

theorem call_through (called : s.call env call = some (t,reply))
    (own : ∀ key, call.key = some key → named key) : Through env named s t := by
  obtain ⟨taken,shape⟩ := call_inverted called
  refine ⟨by rw [shape]; exact Nat.le_succ _, [_], Run.snoc Run.nil taken, ?_⟩
  intro x mem
  rw [List.mem_singleton.mp mem]
  exact ⟨own, s.calls, Nat.le_refl _, rfl⟩

theorem answerWrite_through (errors : StoreError → Option String) (env : Env) (s : Server)
    (call : Call) (own : ∀ key, call.key = some key → named key) :
    Through env named s (answerWrite errors (s.call env call) s).server := by
  cases called : s.call env call with
  | none => exact through_refl env named s
  | some done =>
    obtain ⟨t,reply⟩ := done
    have section_run : Through env named s t := call_through called own
    cases reply with
    | wrote err =>
      cases err with
      | none => exact section_run
      | some err =>
        unfold answerWrite
        dsimp only
        split <;> exact section_run
    | found | deleted | counted | swept => exact through_refl env named s

theorem values_through (line : Text → Item → Text) (keys : List Text)
    (all : ∀ key ∈ keys, named key) :
    ∀ s : Server, Through env named s (s.values env line keys).server := by
  induction keys with
  | nil => exact through_refl env named
  | cons key keys ih =>
    intro s
    unfold Server.values
    have own : ∀ k, (Call.get key).key = some k → named k := by
      intro k same
      obtain rfl := Option.some.inj same
      exact all key (by simp)
    cases called : s.call env (.get key) with
    | none => exact through_refl env named s
    | some done =>
      obtain ⟨t,reply⟩ := done
      have first : Through env named s t := call_through called own
      have rest := ih (fun k mem => all k (by simp [mem])) t
      cases reply with
      | found item => cases item <;> exact through_trans first rest
      | wrote | deleted | counted | swept => exact through_refl env named s

/-- The execution of a command is a run of sections for its keys. -/
theorem execute_through (env : Env) (s : Server) (c : Command) :
    Through env (Named c) s (s.execute env c).server := by
  have key : ∀ k, some c.key = some k → Named c k :=
    fun k same => Or.inl (Option.some.inj same).symm
  have keys : ∀ k ∈ c.keys, Named c k := fun k mem => Or.inr mem
  unfold Server.execute
  split
  · exact through_refl _ _ _
  · exact ⟨Nat.le_succ _, [], Run.nil, fun _ mem => by cases mem⟩
  · cases called : s.call env (.get c.key) with
    | none => exact through_refl _ _ _
    | some done =>
      obtain ⟨t,reply⟩ := done
      cases reply with
      | found item => cases item <;> exact call_through called key
      | wrote | deleted | counted | swept => exact through_refl _ _ _
  · split
    · exact through_refl _ _ _
    · exact answerWrite_through setErrors env s _ key
  · cases called : s.call env (.delete c.key) with
    | none => exact through_refl _ _ _
    | some done =>
      obtain ⟨t,reply⟩ := done
      cases reply with
      | deleted ok => cases ok <;> exact call_through called key
      | wrote | found | counted | swept => exact through_refl _ _ _
  · exact values_through valueLine c.keys keys s
  · exact values_through valueCasLine c.keys keys s
  · split
    · exact through_refl _ _ _
    · exact answerWrite_through casErrors env s _ key
  · cases called : s.call env (.incr c.key c.delta) with
    | none => exact through_refl _ _ _
    | some done =>
      obtain ⟨t,reply⟩ := done
      cases reply with
      | counted result =>
        cases result with
        | ok value => exact call_through called key
        | error err =>
          dsimp only
          split <;> exact call_through called key
      | wrote | found | deleted | swept => exact through_refl _ _ _
  · exact through_refl _ _ _

theorem handled_through {admitted : Bool} {move : Move} (handled : Handled env s admitted c move) :
    Through env (Named c) s move.server ∧
      (move.executed = [] → (move.server.store,move.server.calls) = (s.store,s.calls)) := by
  cases handled with
  | refused | denied | unneeded | admitted => exact ⟨through_aside rfl, fun _ => rfl⟩
  | executed plain done own answered left =>
    have through := execute_through env (s.count fun m => m.countCommand c.op) c
    rw [← own] at through
    exact ⟨by rcases left with rfl | rfl <;> exact through, fun idle => by cases idle⟩

theorem formed_keys (formed : Formed c) : ∀ key, Named c key → key.length ≤ 250 := by
  intro key name
  cases formed with
  | ping | stats | auth => rcases name with rfl | mem <;> simp_all
  | get word | delete word | incr word | set word | cas word =>
    rcases name with rfl | mem
    · exact word.short
    · cases mem
  | mget _ words | gets _ words =>
    rcases name with rfl | mem
    · simp
    · exact (words key mem).short

section Whole
variable {s t : Hub} {h : Handler} {event : Event} {out : List Command} {limits : Limits}
  {token : Text} {deliveries : Nat → Text} {executions : Nat → List Command}

/-- The keys that the parser lets through. -/
def Short (key : Text) : Prop := key.length ≤ 250

/-- What one step of the whole does to the store. -/
structure Passes (env : Env) (s t : Server) (out : List Command) : Prop where
  through : Through env Short s t
  idle : out = [] → t.store = s.store

theorem passes_aside {s t : Server} {out : List Command}
    (same : (t.store,t.calls) = (s.store,s.calls)) : Passes env s t out :=
  ⟨through_aside same, fun _ => (Prod.mk.inj same).1⟩

/-- A call at a command takes the store through sections for the keys of the command. -/
theorem busy_through (env : Env) (talking : Talking maxAlloc limits n token deliveries executions s)
    (here : s.calls[i]? = some h) (place : h.pc = .executing c) {c' : Command}
    (fewer : ∀ key, Named c' key → Named c key) :
    Through env Short s.server (s.server.handle env h.authenticated c').server ∧
      ((s.server.handle env h.authenticated c').executed = [] →
        (s.server.handle env h.authenticated c').server.store = s.server.store) := by
  obtain ⟨_,own,_,answered,read,_⟩ :=
    connected_busy (talking.calls i h here) (by rw [place]; rfl)
  obtain ⟨formed,_,_⟩ := (readCommand_wellFormed read).1
  have closed : h.authenticated = false → s.server.authToken ≠ [] := by
    rw [talking.guards]
    exact fun flag => (talk_flag answered.talk flag).1
  obtain ⟨through,idle⟩ := handled_through (handle_cases env s.server h.authenticated c' closed)
  refine ⟨through_weaken (fun key name => formed_keys formed key (fewer key name)) through, ?_⟩
  intro none_executed
  exact (Prod.mk.inj (idle none_executed)).1

theorem deed_passes {h' : Handler} {server : Server}
    (talking : Talking maxAlloc limits n token deliveries executions s)
    (here : s.calls[i]? = some h) (deed : Deed env maxAlloc s i h event h' server out) :
    Passes env s.server server out := by
  cases deed with
  | walked | received | found => exact passes_aside rfl
  | @failed event ending timeout failure r place reads read =>
    refine passes_aside ?_
    cases failure <;> cases timeout <;> rfl
  | handled place | unflushed place =>
    obtain ⟨through,idle⟩ := busy_through env talking here place fun _ => id
    exact ⟨through, idle⟩
  | @unwritten c keys sent move place tried ran answered =>
    have fewer : ∀ key, Named { c with keys := c.keys.take keys } key → Named c key :=
      fun key => Or.imp_right List.mem_of_mem_take
    obtain ⟨through,_⟩ := busy_through env talking here place fewer
    rw [← tried] at through
    exact ⟨through, nofun⟩

/-- One step of the whole takes the store through sections for short keys. -/
theorem step_passes (talking : Talking maxAlloc limits n token deliveries executions s)
    (taken : s.step env maxAlloc event = some (t,out)) : Passes env s.server t.server out := by
  cases step_cases taken with
  | moved i h h' pc pc' here moved deed => exact deed_passes talking here deed
  | misused _ _ _ _ misused =>
    rw [misused.down]
    exact passes_aside rfl
  | started _ same =>
    rw [same]
    exact passes_aside rfl
  | passed _ _ same =>
    rw [same]
    exact passes_aside rfl
  | wound wound => cases wound <;> exact passes_aside rfl

end Whole
end ServerSections
