import Mathlib.Logic.Function.Basic
import MiniKV.Store.History

/- What the store is for: a dictionary whose records have a version and a deadline. It has
   no shards, no list of uses, no sizes but the two limits of a record, and it never removes
   a record that has expired; such a record is only not seen any more. It may forget: a store
   that has to make room loses records, and the runs below say which. -/
namespace StoreDictionary
open MachineWord KeyedList LruModel Decimal ShardModel CacheModel CacheEffects ShardRefinement
  ShardSimulation ShardInvariant StoreModel StoreFate StoreHistory StepRuns

structure Record where
  value : Bytes
  expiresAt : Time
  version : UInt64

structure Dictionary where
  held : Bytes → Option Record
  version : UInt64

namespace Dictionary

def empty : Dictionary := ⟨fun _ => none, 0⟩

def live (now : Time) (r : Record) : Bool := decide (r.expiresAt = 0 ∨ now < r.expiresAt)

def read (m : Dictionary) (now : Time) (key : Bytes) : Option Record := (m.held key).filter (live now)

/-- Every record that is put gets a version of its own. -/
def put (m : Dictionary) (key value : Bytes) (expiresAt : Time) : Dictionary :=
  ⟨Function.update m.held key (some ⟨value,expiresAt,m.version + 1⟩), m.version + 1⟩

def erase (m : Dictionary) (key : Bytes) : Dictionary :=
  { m with held := Function.update m.held key none }

open Classical in
noncomputable def forget (m : Dictionary) (lost : Bytes → Prop) : Dictionary :=
  { m with held := fun key => if lost key then none else m.held key }

/-- Why a value cannot be held under a key. -/
def refusal (limits : Limits) (key : Bytes) (n : Nat) : Option StoreError :=
  if (n : Int) > limits.maxValueBytes then some .valueTooLarge
  else if limits.itemSize key n > limits.maxMemoryBytes then some .memoryLimitExceeded
  else none

def incr (limits : Limits) (m : Dictionary) (key : Bytes) (r : Record) (delta : UInt64) :
    Dictionary × Reply :=
  match nextCount r.value delta with
  | .error err => (m, .counted (.error err))
  | .ok next =>
    match refusal limits key (formatUint next).length with
    | some err => (m, .counted (.error err))
    | none => (m.put key (formatUint next) r.expiresAt, .counted (.ok next))

def step (limits : Limits) (m : Dictionary) (now : Time) : Call → Dictionary × Reply
  | .get key => (m, .found ((m.read now key).map fun r => ⟨r.value,r.version⟩))
  | .set key value ttl =>
    match refusal limits key value.length with
    | some err => (m, .wrote (some err))
    | none => (m.put key value (expiresAt now ttl), .wrote none)
  | .cas key value ttl expected =>
    if (value.length : Int) > limits.maxValueBytes then (m, .wrote (some .valueTooLarge))
    else
      match m.read now key with
      | none => (m, .wrote (some .notFound))
      | some r =>
        if r.version ≠ expected then (m, .wrote (some .casMismatch))
        else
          match refusal limits key value.length with
          | some err => (m, .wrote (some err))
          | none => (m.put key value (expiresAt now ttl), .wrote none)
  | .delete key => (m.erase key, .deleted (m.read now key).isSome)
  | .incr key delta =>
    match m.read now key with
    | none => (m, .counted (.error .notFound))
    | some r => m.incr limits key r delta
  | .cleanupExpired => (m, .swept 0)

end Dictionary

def view (e : Entry) : Record := ⟨e.value,e.expiresAt,e.cas⟩

/-- What a call at this time sees of an entry. -/
def seen (now : Time) (found : Option Entry) : Option Record :=
  (found.map view).filter (Dictionary.live now)

/-- The store shows the dictionary: the same records are seen under every key. -/
structure Shows (now : Time) (s : Store) (m : Dictionary) : Prop where
  version : m.version = s.cas
  read : ∀ key, m.read now key = seen now (s.peek key)

variable {limits : Limits} {now later : Time} {m : Dictionary} {key : Bytes} {e : Entry} {c : Cache}
  {cas : UInt64} {call : Call} {s t : Store} {x : StoreStep}

theorem live_view (now : Time) (e : Entry) : Dictionary.live now (view e) = !e.expired now := by
  by_cases timed : e.expiresAt = 0 <;> simp [Dictionary.live, view, Entry.expired, timed]

theorem seen_none (now : Time) : seen now none = none := rfl

theorem seen_expired (dead : e.expired now = true) : seen now (some e) = none := by
  simp [seen, live_view, dead]

theorem seen_live (live : e.expired now = false) : seen now (some e) = some (view e) := by
  simp [seen, live_view, live]

/-- What is seen later is what was seen, less what has expired since. -/
theorem live_later (before : now ≤ later) (r : Record) :
    Dictionary.live later r = (Dictionary.live now r && Dictionary.live later r) := by
  by_cases then_live : Dictionary.live later r = true
  · have live : Dictionary.live now r = true := by
      simp only [Dictionary.live, decide_eq_true_eq] at then_live ⊢
      rcases then_live with untimed | ahead
      · exact Or.inl untimed
      · exact Or.inr (Int.lt_of_le_of_lt before ahead)
    rw [then_live, live]
    rfl
  · rw [Bool.not_eq_true] at then_live
    rw [then_live, Bool.and_false]

theorem filter_later (before : now ≤ later) (found : Option Record) :
    found.filter (Dictionary.live later) =
      (found.filter (Dictionary.live now)).filter (Dictionary.live later) := by
  rw [Option.filter_filter]
  congr 1
  funext r
  exact live_later before r

theorem shows_later (before : now ≤ later) (shows : Shows now s m) : Shows later s m := by
  refine ⟨shows.version, ?_⟩
  intro key
  have same := shows.read key
  rw [Dictionary.read, seen] at same ⊢
  rw [filter_later before, same, ← filter_later before]

theorem read_put (m : Dictionary) (now : Time) (key value : Bytes) (expiry : Time) :
    (m.put key value expiry).read now key =
      (some ⟨value,expiry,m.version + 1⟩ : Option Record).filter (Dictionary.live now) := by
  simp [Dictionary.read, Dictionary.put]

theorem read_erase (m : Dictionary) (now : Time) (key : Bytes) : (m.erase key).read now key = none := by
  simp [Dictionary.read, Dictionary.erase]

/-- The two levels after a call, as far as the key is concerned. -/
structure Agrees (now : Time) (key : Bytes) (m : Dictionary × Reply) (done : Cache × UInt64 × Reply) :
    Prop where
  version : m.1.version = done.2.1
  reply : m.2 = done.2.2
  read : m.1.read now key = seen now (lookup key done.1.entries)

theorem kept_agrees (reply : Reply) (version : m.version = cas)
    (shown : m.read now key = seen now (lookup key c.entries)) :
    Agrees now key (m,reply) (c,cas,reply) := ⟨version,rfl,shown⟩

/-- An expired entry is dropped; it was not seen before. -/
theorem dropped_agrees (reply : Reply) (version : m.version = cas)
    (unseen : m.read now key = none) : Agrees now key (m,reply) (c.drop key,cas,reply) := by
  refine ⟨version, rfl, ?_⟩
  rw [unseen, drop_lookup_self, seen_none]

theorem written_agrees (limits : Limits) (c : Cache) (now : Time) (key value : Bytes)
    (expiry : Time) (size : Int) (reply : Reply) (version : m.version = cas) :
    Agrees now key (m.put key value expiry,reply)
      (c.write limits now ⟨key,value,expiry,size,cas + 1⟩,cas + 1,reply) := by
  refine ⟨by rw [← version]; rfl, rfl, ?_⟩
  have held := write_lookup_self limits c now ⟨key,value,expiry,size,cas + 1⟩
  dsimp only at held
  rw [read_put, held, version]
  rfl

theorem dropExpired_seen (c : Cache) (now : Time) (key : Bytes) :
    seen now (lookup key (c.dropExpired now key).entries) = seen now (lookup key c.entries) := by
  unfold Cache.dropExpired
  split
  · rename_i e hit
    split
    · rename_i dead
      rw [drop_lookup_self, hit, seen_none, seen_expired dead]
    · rfl
  · rfl

theorem set_agrees (value : Bytes) (ttl : Duration) (version : m.version = cas)
    (shown : m.read now key = seen now (lookup key c.entries)) :
    Agrees now key (m.step limits now (.set key value ttl))
      (c.step limits cas now (.set key value ttl)) := by
  simp only [Dictionary.step, Dictionary.refusal, Cache.step, Cache.set]
  by_cases long : (value.length : Int) > limits.maxValueBytes
  · simp only [if_pos long]
    exact kept_agrees _ version shown
  · by_cases large : limits.itemSize key value.length > limits.maxMemoryBytes
    · simp only [if_neg long, if_pos large]
      exact kept_agrees _ version (shown.trans (dropExpired_seen c now key).symm)
    · have same := write_dropExpired limits c now
        ⟨key,value,expiresAt now ttl,limits.itemSize key value.length,cas + 1⟩
      dsimp only at same
      simp only [if_neg long, if_neg large, same]
      exact written_agrees limits c now key value _ _ _ version

theorem get_agrees (version : m.version = cas)
    (shown : m.read now key = seen now (lookup key c.entries)) :
    Agrees now key (m.step limits now (.get key)) (c.step limits cas now (.get key)) := by
  simp only [Dictionary.step, Cache.step, Cache.get]
  cases hit : lookup key c.entries with
  | none =>
    rw [hit, seen_none] at shown
    refine ⟨version, by rw [shown]; rfl, ?_⟩
    rw [shown, hit, seen_none]
  | some e =>
    rw [hit] at shown
    cases dead : e.expired now with
    | true =>
      rw [seen_expired dead] at shown
      simp only [shown, dead, if_true, Option.map_none]
      exact dropped_agrees _ version shown
    | false =>
      rw [seen_live dead] at shown
      simp only [shown, dead, Bool.false_eq_true, if_false, Option.map_some]
      refine ⟨version, rfl, ?_⟩
      have own : e.key = key := (find_some hit).2
      subst own
      rw [touch_lookup hit, hit, shown, seen_live dead]

theorem delete_agrees (version : m.version = cas)
    (shown : m.read now key = seen now (lookup key c.entries)) :
    Agrees now key (m.step limits now (.delete key)) (c.step limits cas now (.delete key)) := by
  simp only [Dictionary.step, Cache.step, Cache.delete]
  cases hit : lookup key c.entries with
  | none =>
    rw [hit, seen_none] at shown
    refine ⟨version, by rw [shown]; rfl, ?_⟩
    rw [read_erase, hit, seen_none]
  | some e =>
    rw [hit] at shown
    refine ⟨version, ?_, by rw [read_erase, drop_lookup_self, seen_none]⟩
    cases dead : e.expired now with
    | true => simp [shown, seen_expired dead, dead]
    | false => simp [shown, seen_live dead, dead]

theorem cas_agrees (value : Bytes) (ttl : Duration) (expected : UInt64) (version : m.version = cas)
    (shown : m.read now key = seen now (lookup key c.entries)) :
    Agrees now key (m.step limits now (.cas key value ttl expected))
      (c.step limits cas now (.cas key value ttl expected)) := by
  simp only [Dictionary.step, Dictionary.refusal, Cache.step, Cache.cas]
  by_cases long : (value.length : Int) > limits.maxValueBytes
  · simp only [if_pos long]
    exact kept_agrees _ version shown
  · simp only [if_neg long]
    cases hit : lookup key c.entries with
    | none =>
      rw [hit, seen_none] at shown
      simp only [shown]
      exact kept_agrees _ version (by rw [shown, hit, seen_none])
    | some e =>
      rw [hit] at shown
      cases dead : e.expired now with
      | true =>
        rw [seen_expired dead] at shown
        simp only [shown, dead, if_true]
        exact dropped_agrees _ version shown
      | false =>
        rw [seen_live dead] at shown
        have still : m.read now key = seen now (lookup key c.entries) := by
          rw [hit, seen_live dead, shown]
        simp only [shown, dead, view, Bool.false_eq_true, if_false]
        by_cases stale : e.cas ≠ expected
        · simp only [if_pos stale]
          exact kept_agrees _ version still
        · by_cases large : limits.itemSize key value.length > limits.maxMemoryBytes
          · simp only [if_neg stale, if_pos large]
            exact kept_agrees _ version still
          · simp only [if_neg stale, if_neg large]
            exact written_agrees limits c now key value _ _ _ version

theorem incr_agrees (delta : UInt64) (version : m.version = cas)
    (shown : m.read now key = seen now (lookup key c.entries)) :
    Agrees now key (m.step limits now (.incr key delta))
      (c.step limits cas now (.incr key delta)) := by
  simp only [Dictionary.step, Cache.step, Cache.incr]
  cases hit : lookup key c.entries with
  | none =>
    rw [hit, seen_none] at shown
    simp only [shown]
    exact kept_agrees _ version (by rw [shown, hit, seen_none])
  | some e =>
    rw [hit] at shown
    cases dead : e.expired now with
    | true =>
      rw [seen_expired dead] at shown
      simp only [shown, dead, if_true]
      exact dropped_agrees _ version shown
    | false =>
      rw [seen_live dead] at shown
      have still : m.read now key = seen now (lookup key c.entries) := by
        rw [hit, seen_live dead, shown]
      simp only [shown, dead, Dictionary.incr, view, Bool.false_eq_true, if_false]
      cases count : nextCount e.value delta with
      | error err => exact kept_agrees _ version still
      | ok next =>
        simp only [Dictionary.refusal, Cache.incrTo]
        by_cases long : ((formatUint next).length : Int) > limits.maxValueBytes
        · simp only [if_pos long]
          exact kept_agrees _ version still
        · by_cases large : limits.itemSize key (formatUint next).length > limits.maxMemoryBytes
          · simp only [if_neg long, if_pos large]
            exact kept_agrees _ version still
          · simp only [if_neg long, if_neg large]
            exact written_agrees limits c now key _ _ _ _ version

theorem call_agrees (named : call.key = some key) (version : m.version = cas)
    (shown : m.read now key = seen now (lookup key c.entries)) :
    Agrees now key (m.step limits now call) (c.step limits cas now call) := by
  cases call with
  | set name value ttl => cases named; exact set_agrees value ttl version shown
  | get name => cases named; exact get_agrees version shown
  | cas name value ttl expected => cases named; exact cas_agrees value ttl expected version shown
  | delete name => cases named; exact delete_agrees version shown
  | incr name delta => cases named; exact incr_agrees delta version shown
  | cleanupExpired => cases named

theorem put_other {name value : Bytes} {expiry : Time} (other : key ≠ name) :
    (m.put name value expiry).held key = m.held key := Function.update_of_ne other _ _

/-- A call leaves the records of other keys alone. -/
theorem step_other (limits : Limits) (m : Dictionary) (now : Time) (call : Call)
    (other : call.key ≠ some key) : (m.step limits now call).1.held key = m.held key := by
  cases call with
  | get | cleanupExpired => rfl
  | set name value ttl =>
    have apart : key ≠ name := fun same => other (congrArg some same.symm)
    simp only [Dictionary.step]
    split
    · rfl
    · exact put_other apart
  | cas name value ttl expected =>
    have apart : key ≠ name := fun same => other (congrArg some same.symm)
    simp only [Dictionary.step]
    split
    · rfl
    · split
      · rfl
      · split
        · rfl
        · split
          · rfl
          · exact put_other apart
  | delete name =>
    have apart : key ≠ name := fun same => other (congrArg some same.symm)
    exact Function.update_of_ne apart _ _
  | incr name delta =>
    have apart : key ≠ name := fun same => other (congrArg some same.symm)
    simp only [Dictionary.step]
    split
    · rfl
    · simp only [Dictionary.incr]
      split
      · rfl
      · split
        · rfl
        · exact put_other apart

theorem forget_lost {lost : Bytes → Prop} (gone : lost key) (now : Time) :
    (m.forget lost).read now key = none := by
  simp [Dictionary.read, Dictionary.forget, gone]

theorem forget_kept {lost : Bytes → Prop} (kept : ¬ lost key) (now : Time) :
    (m.forget lost).read now key = m.read now key := by
  simp [Dictionary.read, Dictionary.forget, kept]

/-- The dictionary after a step of the store: what the call does to it, and the records that
    a write of another key has evicted. -/
noncomputable def Dictionary.after (limits : Limits) (m : Dictionary) (x : StoreStep) : Dictionary :=
  (m.step limits x.input.now x.input.call).1.forget fun key => Evicts key x

/-- Whatever becomes of the entry of another key, the dictionary follows. -/
theorem other_shown (sound : Sound limits x.before) (taken : Taken x)
    (shows : Shows x.input.now x.before m) (other : x.input.call.key ≠ some key) :
    (m.after limits x).read x.input.now key = seen x.input.now (x.after.peek key) := by
  have same : (m.step limits x.input.now x.input.call).1.read x.input.now key =
      seen x.input.now (x.before.peek key) := by
    rw [← shows.read key, Dictionary.read, step_other limits m _ _ other]
    rfl
  cases step_fate sound taken key with
  | kept unchanged =>
    have held : ¬ Evicts key x := by
      rintro ⟨e,_,before,_,after,_⟩
      rw [unchanged, before] at after
      cases after
    rw [Dictionary.after, forget_kept held, same, unchanged]
  | wrote named stores => exact absurd (named ▸ (stores_facts stores).1) other
  | deleted call => exact absurd (by rw [call]; rfl) other
  | expired before dead after =>
    have held : ¬ Evicts key x := by
      rintro ⟨f,_,there,live,_⟩
      obtain rfl := Option.some.inj (before.symm.trans there)
      rw [dead] at live
      cases live
    rw [Dictionary.after, forget_kept held, same, before, after, seen_expired dead, seen_none]
  | evicted before live after apart together mutation written budget =>
    have lost : Evicts key x := ⟨_,_,before,live,after,apart,together,mutation,written,budget⟩
    rw [Dictionary.after, forget_lost lost, after, seen_none]

/-- The key of a call is not one that the call evicts. -/
theorem own_kept (named : x.input.call.key = some key) : ¬ Evicts key x := by
  rintro ⟨_,w,_,_,_,apart,_,mutation,_⟩
  have written := ((writesKey_iff w.key x).mp mutation).2
  rw [named] at written
  exact apart (Option.some.inj written).symm

theorem step_shows (sound : Sound limits x.before) (taken : Taken x) (before : now ≤ x.input.now)
    (shows : Shows now x.before m) : Shows x.input.now x.after (m.after limits x) ∧
      (x.input.call.key ≠ none → x.output = (m.step limits x.input.now x.input.call).2) := by
  have shown := shows_later before shows
  obtain ⟨i,sh,next,c,d,xs,ys,target,here,shards,ref,refined,_,_,stepped⟩ :=
    step_inverted sound taken
  cases named : x.input.call.key with
  | none =>
    have sweep : x.input.call = .cleanupExpired := by
      cases call : x.input.call <;> rw [call] at named <;> cases named
    refine ⟨⟨?_, fun key => other_shown sound taken shown (by rw [named]; exact nofun)⟩,
      fun keyed => absurd rfl keyed⟩
    rw [sweep] at stepped
    obtain ⟨_,counter,_⟩ := Prod.mk.inj stepped |>.imp id Prod.mk.inj
    rw [← counter, ← shown.version, Dictionary.after, sweep]
    rfl
  | some name =>
    have home := keyed_target named target
    have held : m.read x.input.now name = seen x.input.now (lookup name c.entries) := by
      rw [shown.read, peek_here home here, peek_refined ref]
    have agrees : Agrees x.input.now name (m.step limits x.input.now x.input.call)
        (c.step limits x.before.cas x.input.now x.input.call) :=
      call_agrees named shown.version held
    rw [stepped] at agrees
    refine ⟨⟨agrees.version, ?_⟩, fun _ => agrees.reply.symm⟩
    intro key
    by_cases own : name = key
    · subst own
      rw [Dictionary.after, forget_kept (own_kept named), agrees.read,
        peek_stepped home here shards, peek_refined refined]
    · exact other_shown sound taken shown (by rw [named]; exact fun same => own (Option.some.inj same))

/-- The dictionary along a run of the store. -/
noncomputable def Dictionary.along (limits : Limits) (m : Dictionary) (steps : List StoreStep) :
    Dictionary := steps.foldl (Dictionary.after limits) m

/-- The answers of a dictionary that forgets nothing. -/
def Dictionary.answers (limits : Limits) : Dictionary → List Section → List Reply
  | _, [] => []
  | m, work :: works =>
    (m.step limits work.now work.call).2 ::
      Dictionary.answers limits (m.step limits work.now work.call).1 works

/-- A keyed call has the answer of the dictionary; the sweeps are its own affair. -/
def Answers (x : StoreStep) (reply : Reply) : Prop := x.input.call.key ≠ none → x.output = reply

theorem along_snoc (limits : Limits) (m : Dictionary) (steps : List StoreStep) (x : StoreStep) :
    m.along limits (steps ++ [x]) = (m.along limits steps).after limits x := by
  simp [Dictionary.along]

theorem after_unevicted (m : Dictionary) (whole : ∀ key, ¬ Evicts key x) :
    m.after limits x = (m.step limits x.input.now x.input.call).1 := by
  simp [Dictionary.after, Dictionary.forget, whole]

theorem answers_unevicted (steps : List StoreStep) (whole : ∀ x ∈ steps, ∀ key, ¬ Evicts key x)
    (m : Dictionary) (each : ∀ first x rest, steps = first ++ x :: rest →
      Answers x ((m.along limits first).step limits x.input.now x.input.call).2) :
    List.Forall₂ Answers steps (m.answers limits (steps.map Step.input)) := by
  induction steps generalizing m with
  | nil => exact List.Forall₂.nil
  | cons x steps ih =>
    refine List.Forall₂.cons (each [] x steps rfl) (ih (fun y mem => whole y (by simp [mem])) _ ?_)
    intro first y rest split
    have later := each (x :: first) y rest (by rw [split]; rfl)
    rw [Dictionary.along, List.foldl_cons, after_unevicted m (whole x (by simp))] at later
    exact later

theorem new_shows (config : ShardModel.Config) (now : Time) :
    Shows now (Store.new int64 config) Dictionary.empty := by
  refine ⟨rfl, ?_⟩
  intro key
  rw [StoreTokens.new_peek]
  rfl

theorem run_shows {config : ShardModel.Config} {steps : List StoreStep} {last : Store}
    (run : Run Store.step (Store.new int64 config) steps last) :
    (steps.map fun x => x.input.now).Pairwise (· ≤ ·) →
    (∀ now, (∀ x ∈ steps, x.input.now ≤ now) →
      Shows now last (Dictionary.empty.along (shardLimits config) steps)) ∧
    ∀ first x rest, steps = first ++ x :: rest →
      Answers x ((Dictionary.empty.along (shardLimits config) first).step (shardLimits config)
        x.input.now x.input.call).2 := by
  induction run with
  | nil =>
    intro _
    refine ⟨fun now _ => new_shows config now, ?_⟩
    intro first x rest empty
    simp at empty
  | @snoc steps s t work reply prior taken ih =>
    intro ordered
    rw [List.map_append, List.pairwise_append] at ordered
    obtain ⟨before,_,upTo⟩ := ordered
    obtain ⟨shows,answers⟩ := ih before
    have past : ∀ x ∈ steps, x.input.now ≤ work.now := by
      intro x mem
      exact upTo _ (List.mem_map_of_mem mem) _ (by simp)
    obtain ⟨after,answer⟩ := step_shows (x := ⟨s,work,reply,t⟩) (run_sound prior) taken
      (Int.le_refl _) (shows work.now past)
    constructor
    · intro now bound
      rw [along_snoc]
      exact shows_later (bound ⟨s,work,reply,t⟩ (by simp)) after
    · intro first x rest split
      rcases List.eq_nil_or_concat rest with rfl | ⟨body,y,rfl⟩
      · obtain ⟨rfl,same⟩ := List.append_inj' split rfl
        obtain rfl := List.singleton_inj.mp same
        exact answer
      · have shape : steps ++ [⟨s,work,reply,t⟩] = (first ++ x :: body) ++ [y] := by simpa using split
        exact answers first x body (List.append_inj' shape rfl).1

/-- The store is a dictionary with deadlines and versions. With a clock that does not go back,
    any interleaving of calls and sweeps is answered as the dictionary answers it, where the
    only records it may lose are those of live entries that a write beyond the budget of
    their shard has evicted; without evictions the answers are those of a plain dictionary. -/
theorem store_refines_dictionary (config : ShardModel.Config) {steps : List StoreStep}
    {last : Store} (run : Run Store.step (Store.new int64 config) steps last)
    (ordered : (steps.map fun x => x.input.now).Pairwise (· ≤ ·)) :
    (∀ now, (∀ x ∈ steps, x.input.now ≤ now) →
      Shows now last (Dictionary.empty.along (shardLimits config) steps)) ∧
    (∀ first x rest, steps = first ++ x :: rest →
      Answers x ((Dictionary.empty.along (shardLimits config) first).step (shardLimits config)
        x.input.now x.input.call).2) ∧
    ((∀ x ∈ steps, ∀ key, ¬ Evicts key x) → List.Forall₂ Answers steps
      (Dictionary.empty.answers (shardLimits config) (steps.map Step.input))) := by
  obtain ⟨shows,answers⟩ := run_shows run ordered
  exact ⟨shows, answers, fun whole => answers_unevicted steps whole _ answers⟩

/-- A record with a deadline, a version that is refused and one that is not, a sweep, a write
    that has to evict the record, and a read of it. -/
def dictionaryCalls : List Section :=
  [⟨.set [97] [49] 5,0,1,.asListed⟩, ⟨.cas [97] [50] 0 7,0,2,.asListed⟩,
    ⟨.cas [97] [50] 0 1,0,3,.asListed⟩, ⟨.cleanupExpired,0,4,.asListed⟩,
    ⟨.set [98] [51,51,51,51,51,51,51,51] 0,0,5,.asListed⟩, ⟨.get [97],0,5,.asListed⟩]

theorem dictionary_calls_refined : ∃ steps last,
    Run Store.step (Store.new int64 ⟨10,16,5,1⟩) steps last ∧
      steps.map Step.input = dictionaryCalls ∧
      steps.map Step.output = [.wrote none, .wrote (some .casMismatch), .wrote none, .swept 0,
        .wrote none, .found none] ∧
      ∀ first x rest, steps = first ++ x :: rest →
        Answers x ((Dictionary.empty.along (shardLimits ⟨10,16,5,1⟩) first).step
          (shardLimits ⟨10,16,5,1⟩) x.input.now x.input.call).2 := by
  obtain ⟨steps,last,run,inputs,outputs⟩ := exec_shows
    (show (exec Store.step (Store.new int64 ⟨10,16,5,1⟩) dictionaryCalls).map
      (fun run => run.1.map Step.output) = some [.wrote none, .wrote (some .casMismatch),
        .wrote none, .swept 0, .wrote none, .found none] by decide)
  have ordered : (steps.map fun x => x.input.now).Pairwise (· ≤ ·) := by
    have clock : steps.map (fun x => x.input.now) = dictionaryCalls.map Section.now := by
      rw [← inputs, List.map_map]
      rfl
    rw [clock]
    decide
  exact ⟨steps, last, run, inputs, outputs,
    (store_refines_dictionary ⟨10,16,5,1⟩ run ordered).2.1⟩

end StoreDictionary
