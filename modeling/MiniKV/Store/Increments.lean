import MiniKV.Store.Failures

/- A counter under concurrent increments. Clients' sections come in any order, with
   sections about other keys between them; while the item stays, its number is the one
   it began with plus every delta that an Incr has reported as added. -/
namespace StoreIncrements
open MachineWord KeyedList LruModel Decimal ShardModel CacheModel CacheEffects ShardRefinement
  ShardSimulation ShardInvariant ShardFailures StoreModel StoreFate StepRuns

/-- The delta that a step has added to the key's number. -/
def addedBy (key : Bytes) (x : StoreStep) : Nat :=
  match x.input.call, x.output with
  | .incr name delta, .counted (.ok _) => if name = key then delta.toNat else 0
  | _, _ => 0

def added (key : Bytes) (steps : List StoreStep) : Nat := (steps.map (addedBy key)).sum

def incremented (key : Bytes) (steps : List StoreStep) : Bool := steps.any (writesKey key)

/-- What an Incr of the key reports after the given steps; number is the one at the start. -/
structure Reports (key : Bytes) (number : Nat) (before : List StoreStep) (x : StoreStep)
    (delta : UInt64) : Prop where
  sum : ∀ result, x.output = .counted (.ok result) →
    result.toNat = number + added key before + delta.toNat
  overflow : x.output = .counted (.error .overflow) ↔
    2 ^ 64 ≤ number + added key before + delta.toNat
  failed : ∀ err, x.output = .counted (.error err) → x.after = x.before

/-- The item after these steps: its number, in canonical form once it was incremented, and
    the expiry it began with. -/
structure Stands (key : Bytes) (start : Entry) (steps : List StoreStep) (e : Entry) : Prop where
  number : e.value ≠ [] ∧ e.value.all isDigit ∧ decimalValue e.value < 2 ^ 64
  total : decimalValue e.value = decimalValue start.value + added key steps
  text : e.value = if incremented key steps then
    formatNat (decimalValue start.value + added key steps) else start.value
  expiry : e.expiresAt = start.expiresAt

variable {limits : Limits} {s t : Store} {key : Bytes} {e start : Entry} {x : StoreStep}
  {steps : List StoreStep} {delta : UInt64}

theorem added_snoc (key : Bytes) (steps : List StoreStep) (x : StoreStep) :
    added key (steps ++ [x]) = added key steps + addedBy key x := by
  simp [added]

theorem incremented_snoc (key : Bytes) (steps : List StoreStep) (x : StoreStep) :
    incremented key (steps ++ [x]) = (incremented key steps || writesKey key x) := by
  simp [incremented]

theorem addedBy_unwritten (unwritten : writesKey key x = false) : addedBy key x = 0 := by
  unfold addedBy
  split
  · rename_i name delta result call output
    split
    · rename_i own
      subst own
      simp [writesKey, mutates, call, output, Call.writes, Reply.success, Call.key] at unwritten
    · rfl
  · rfl

theorem addedBy_incr {result : UInt64} (call : x.input.call = .incr key delta)
    (output : x.output = .counted (.ok result)) : addedBy key x = delta.toNat := by
  simp [addedBy, call, output]

theorem nextCount_sum {value : Bytes} {next : UInt64}
    (good : value ≠ [] ∧ value.all isDigit ∧ decimalValue value < 2 ^ 64)
    (count : nextCount value delta = .ok next) :
    next.toNat = decimalValue value + delta.toNat := by
  rw [nextCount_number good] at count
  split at count
  · cases count
  · obtain rfl := Except.ok.inj count
    rw [UInt64.toNat_ofNat', Nat.mod_eq_of_lt (by omega)]

theorem formatNat_number {n : Nat} (small : n < 2 ^ 64) :
    formatNat n ≠ [] ∧ (formatNat n).all isDigit ∧ decimalValue (formatNat n) < 2 ^ 64 := by
  rw [decimalValue_formatNat]
  exact ⟨formatNat_nonempty n, formatNat_digits n, small⟩

/-- One step: an Incr of the key moves the number on, anything else leaves it. -/
theorem stands_step (sound : Sound limits x.before) (taken : Taken x)
    (own : x.input.call.key = some key →
      (∃ delta, x.input.call = .incr key delta) ∨ x.input.call = .get key)
    (stays : (x.after.peek key).isSome = true) (held : x.before.peek key = some e)
    (stands : Stands key start steps e) :
    ∃ f, x.after.peek key = some f ∧ Stands key start (steps ++ [x]) f := by
  cases step_fate sound taken key with
  | kept same unwritten =>
    refine ⟨e, same.trans held, stands.number, ?_, ?_, stands.expiry⟩
    · rw [added_snoc, addedBy_unwritten unwritten, Nat.add_zero]
      exact stands.total
    · rw [added_snoc, incremented_snoc, addedBy_unwritten unwritten, unwritten, Nat.add_zero,
        Bool.or_false]
      exact stands.text
  | @wrote f named stores after =>
    obtain ⟨about,writes,success,_,_⟩ := stores_facts stores
    rw [named] at about
    have written : writesKey key x = true := by
      simp [writesKey, mutates, writes, success, about]
    rcases own about with ⟨delta,call⟩ | get
    · rw [held, call] at stores
      generalize output : x.output = reply at stores
      cases stores with
      | @incr old _ next _ hit _ count =>
        obtain rfl := Option.some.inj hit
        have sum := nextCount_sum stands.number count
        have bound := next.toNat_lt
        have gained := addedBy_incr call output
        refine ⟨_, after, formatNat_number bound, ?_, ?_, stands.expiry⟩
        · rw [added_snoc, gained, formatUint, decimalValue_formatNat, sum, stands.total,
            Nat.add_assoc]
        · rw [added_snoc, incremented_snoc, gained, written, Bool.or_true, if_pos rfl, formatUint,
            sum, stands.total, Nat.add_assoc]
    · rw [get] at writes
      cases writes
  | deleted call =>
    rcases own (by rw [call]; rfl) with ⟨delta,incr⟩ | get
    · rw [call] at incr
      cases incr
    · rw [call] at get
      cases get
  | expired _ _ after =>
    rw [after] at stays
    cases stays
  | evicted _ _ after =>
    rw [after] at stays
    cases stays

theorem store_same (parts : s.shards = t.shards) (counter : s.cas = t.cas) : s = t := by
  obtain ⟨_,_⟩ := s
  obtain ⟨_,_⟩ := t
  obtain rfl := parts
  obtain rfl := counter
  rfl

/-- An Incr that finds its item and leaves it there: the outcome, and no change on failure. -/
theorem incr_inverted (sound : Sound limits x.before) (taken : Taken x)
    (call : x.input.call = .incr key delta) (held : x.before.peek key = some e)
    (stays : (x.after.peek key).isSome = true) :
    x.output = .counted (incrOutcome limits (some e) key delta) ∧
      (x.output.success = false → x.after = x.before) := by
  obtain ⟨i,sh,next,target,here,stepped,shards⟩ := step_some_iff.mp taken
  obtain ⟨same,c,xs,ref⟩ := sound sh (List.mem_of_getElem? here)
  have home : shardFor key x.before.shards.length = some i :=
    keyed_target (by rw [call]; rfl) target
  rw [peek_here home here] at held
  rw [peek_stepped home here shards] at stays
  have found : lookup key c.entries = some e := (peek_refined ref key).symm.trans held
  rw [call] at stepped
  obtain ⟨⟨sh',counter,result⟩,returned,values⟩ := Option.map_eq_some_iff.mp stepped
  simp only [Prod.mk.injEq] at values
  obtain ⟨rfl,rfl,output⟩ := values
  have live : sh.live x.input.now key = some e := by
    cases dead : e.expired x.input.now with
    | false => exact live_fresh ref found dead
    | true =>
      -- An expired item would have been dropped.
      exfalso
      obtain ⟨d,ys,refined,_,done⟩ := step_refined ref stepped
      rw [peek_refined refined] at stays
      simp only [Cache.step, Cache.incr, found, dead, if_true, Prod.mk.injEq] at done
      rw [← done.1, drop_lookup_self] at stays
      cases stays
  obtain ⟨_,_,exact⟩ := (refined_fails ref x.before.cas x.input.now x.input.order).incrFails key delta
  rw [live, same] at exact
  rw [returned] at exact
  simp only [Option.some.injEq, Prod.mk.injEq] at exact
  refine ⟨by rw [← output, exact.2.2], ?_⟩
  intro failed
  rw [← output] at stepped failed
  obtain ⟨counter,_,about,unspoilt⟩ := step_unspoilt ref stepped rfl failed
  obtain rfl := Option.some.inj about
  have kept : sh' = sh := by
    rcases unspoilt with kept | dropped
    · exact kept
    · rw [dropped.gone] at stays
      cases stays
  have parts : x.after.shards = x.before.shards := by
    obtain ⟨inside,rfl⟩ := List.getElem?_eq_some_iff.mp here
    rw [shards, kept, List.set_getElem_self inside]
  exact store_same parts counter

theorem incr_reports (sound : Sound limits x.before) (taken : Taken x)
    (call : x.input.call = .incr key delta) (held : x.before.peek key = some e)
    (stays : (x.after.peek key).isSome = true) (stands : Stands key start steps e) :
    Reports key (decimalValue start.value) steps x delta := by
  obtain ⟨output,unchanged⟩ := incr_inverted sound taken call held stays
  have number := stands.number
  have total := stands.total
  have outcome : x.output = .counted (incrOutcome limits (some e) key delta) := output
  unfold incrOutcome at outcome
  dsimp only at outcome
  rw [if_neg (not_not.mpr number), total] at outcome
  by_cases tooLarge : 2 ^ 64 ≤ decimalValue start.value + added key steps + delta.toNat
  · rw [if_pos tooLarge] at outcome
    refine ⟨?_, ?_, ?_⟩
    · intro result ok
      rw [outcome] at ok
      cases ok
    · exact iff_of_true outcome tooLarge
    · intro err _
      exact unchanged (by rw [outcome]; rfl)
  · rw [if_neg tooLarge] at outcome
    refine ⟨?_, ?_, ?_⟩
    · intro result ok
      rw [outcome] at ok
      split at ok
      · cases ok
      · split at ok
        · cases ok
        · obtain rfl := Except.ok.inj (Reply.counted.inj ok)
          rw [UInt64.toNat_ofNat', Nat.mod_eq_of_lt (by omega)]
    · refine iff_of_false ?_ tooLarge
      intro error
      rw [outcome] at error
      split at error
      · cases error
      · split at error <;> cases error
    · intro err error
      exact unchanged (by rw [error]; rfl)

theorem run_stands (sound : Sound limits s) (held : s.peek key = some start)
    (number : start.value ≠ [] ∧ start.value.all isDigit ∧ decimalValue start.value < 2 ^ 64)
    (run : Run Store.step s steps t)
    (own : ∀ x ∈ steps, x.input.call.key = some key →
      (∃ delta, x.input.call = .incr key delta) ∨ x.input.call = .get key)
    (stays : ∀ x ∈ steps, (x.after.peek key).isSome = true) :
    ∃ e, t.peek key = some e ∧ Stands key start steps e := by
  refine run_invariant (fun steps t =>
    (∀ x ∈ steps, x.input.call.key = some key →
      (∃ delta, x.input.call = .incr key delta) ∨ x.input.call = .get key) →
    (∀ x ∈ steps, (x.after.peek key).isSome = true) →
    Sound limits t ∧ ∃ e, t.peek key = some e ∧ Stands key start steps e) ?_ ?_ run own stays |>.2
  · intro _ _
    exact ⟨sound, start, held, number, rfl, rfl, rfl⟩
  · intro steps m work t reply _ ih taken own stays
    obtain ⟨sound,e,held,stands⟩ := ih (fun x mem => own x (by simp [mem]))
      (fun x mem => stays x (by simp [mem]))
    refine ⟨step_sound sound taken, ?_⟩
    have last : (⟨m,work,reply,t⟩ : StoreStep) ∈ steps ++ [⟨m,work,reply,t⟩] := by simp
    exact stands_step (x := ⟨m,work,reply,t⟩) sound taken (own _ last) (stays _ last) held stands

/-- No increment is lost, whatever the clients' sections are interleaved with, as long as
    the item is only incremented or read and stays in the store. -/
theorem increments_counted (config : Config) {past : List StoreStep} {s : Store}
    (reached : Run Store.step (Store.new int64 config) past s) {key : Bytes} {start : Entry}
    (held : s.peek key = some start) (decimal : isDecimal start.value = true)
    (small : decimalValue start.value < 2 ^ 64) {steps : List StoreStep} {t : Store}
    (run : Run Store.step s steps t)
    (own : ∀ x ∈ steps, x.input.call.key = some key →
      (∃ delta, x.input.call = .incr key delta) ∨ x.input.call = .get key)
    (stays : ∀ x ∈ steps, (x.after.peek key).isSome = true) :
    (∀ before x after delta, steps = before ++ x :: after → x.input.call = .incr key delta →
      Reports key (decimalValue start.value) before x delta) ∧
    ∃ e, t.peek key = some e ∧ e.expiresAt = start.expiresAt ∧
      e.value = if incremented key steps then
        formatNat (decimalValue start.value + added key steps) else start.value := by
  have sound := run_sound reached
  have number : start.value ≠ [] ∧ start.value.all isDigit ∧ decimalValue start.value < 2 ^ 64 := by
    unfold isDecimal at decimal
    split at decimal
    · cases decimal
    · rename_i nonempty
      exact ⟨fun empty => nonempty (by rw [empty]; rfl), decimal, small⟩
  constructor
  · intro before x after delta split call
    obtain ⟨prior,taken,_⟩ := run_cut run before x after split
    have mem : x ∈ steps := by simp [split]
    obtain ⟨e,here,stands⟩ := run_stands sound held number prior
      (fun y my => own y (by simp [split, my])) (fun y my => stays y (by simp [split, my]))
    exact incr_reports (run_keeps_sound sound prior) taken call here (stays x mem) stands
  · obtain ⟨e,here,stands⟩ := run_stands sound held number run own stays
    exact ⟨e, here, stands.expiry, stands.text⟩

def setCounter : List Section := [⟨.set [107] [48,48,55] 9,0,1,.asListed⟩]

/-- Two clients increment, another key is written between, and a last delta is too large. -/
def countSections : List Section :=
  [⟨.incr [107] 5,0,2,.asListed⟩, ⟨.set [97] [49] 0,0,3,.asListed⟩,
    ⟨.incr [107] 10,0,4,.asListed⟩, ⟨.incr [107] 18446744073709551615,0,5,.asListed⟩]

theorem two_clients_counted : ∃ past s start steps t,
    Run Store.step (Store.new int64 sampleConfig) past s ∧ s.peek [107] = some start ∧
      start.value = [48,48,55] ∧ Run Store.step s steps t ∧
      steps.map Step.input = countSections ∧
      steps.map Step.output = [.counted (.ok 12), .wrote none, .counted (.ok 22),
        .counted (.error .overflow)] ∧
      (∀ before x after delta, steps = before ++ x :: after → x.input.call = .incr [107] delta →
        Reports [107] (decimalValue start.value) before x delta) ∧
      ∃ e, t.peek [107] = some e ∧ e.expiresAt = start.expiresAt ∧
        e.value = if incremented [107] steps then
          formatNat (decimalValue start.value + added [107] steps) else start.value := by
  have first : (exec Store.step (Store.new int64 sampleConfig) setCounter).map
      (fun done => (done.2.peek [107], (exec Store.step done.2 countSections).map fun more =>
        (more.1.map Step.output, more.1.all fun x => (x.after.peek [107]).isSome))) =
      some (some ⟨[107],[48,48,55],10,9,1⟩,
        some ([.counted (.ok 12), .wrote none, .counted (.ok 22), .counted (.error .overflow)],
          true)) := by decide
  obtain ⟨past,s,reached,_,shown⟩ := exec_shows first
  simp only [Prod.mk.injEq] at shown
  obtain ⟨held,second⟩ := shown
  obtain ⟨steps,t,run,inputs,values⟩ := exec_shows second
  simp only [Prod.mk.injEq] at values
  obtain ⟨outputs,all⟩ := values
  have own : ∀ x ∈ steps, x.input.call.key = some [107] →
      (∃ delta, x.input.call = .incr [107] delta) ∨ x.input.call = .get [107] := by
    intro x mem
    have input : x.input ∈ countSections := inputs ▸ List.mem_map_of_mem mem
    have each : ∀ work ∈ countSections, work.call.key = some [107] →
        (∃ delta, work.call = .incr [107] delta) ∨ work.call = .get [107] := by
      simp [countSections, Call.key]
    exact each x.input input
  exact ⟨past, s, _, steps, t, reached, held, rfl, run, inputs, outputs,
    increments_counted sampleConfig reached held (by decide) (by decide) run own
      (List.all_eq_true.mp all)⟩

end StoreIncrements
