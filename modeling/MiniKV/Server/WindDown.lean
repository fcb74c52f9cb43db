import MiniKV.Server.Slots

/- Shutdown's signal, a read deadline that has come. The deadline of a connection has two
   writers: Shutdown, and the top of the loop of its call, which sets it anew before every
   command. -/
namespace ServerWindDown
open MachineWord LruModel ShardModel StoreModel StepRuns ProtocolModel ProtocolFraming ServerModel
  ServerLifecycle ServerPlaces ServerMoves

variable {env : Env} {maxAlloc i : Nat} {s t : Hub} {h h₀ : Handler} {event : Event}
  {out : List Command} {c : Command} {steps : List (Step Hub Event (List Command))}

def Expired (i : Nat) (s : Hub) : Prop :=
  ∃ h, s.calls[i]? = some h ∧ ∃ d ∈ h.deadline, d ≤ s.now

/-- The command had come in whole: it was read already, or it stands in the bytes that were
    received and not yet used. -/
def Heard (maxAlloc : Nat) (h : Handler) (c : Command) : Prop :=
  h.pc = .executing c ∨
    ∃ rest r, rest <:+ h.received ∧ readCommand maxAlloc ⟨rest,.fault⟩ = (.ok c,r)

/-- After a step the signal still stands; the step was no read from the network, and it
    executed no command that came later than the signal. -/
structure Signalled (maxAlloc i : Nat) (h : Handler) (y : Step Hub Event (List Command)) :
    Prop where
  expired : Expired i y.after
  unread : ∀ bytes, y.input ≠ .receive i bytes
  heard : mover y.input = some i → ∀ c ∈ y.output, Heard maxAlloc h c

/-- Every signal of the run stands to its end. -/
def SignalsStand (maxAlloc : Nat) (steps : List (Step Hub Event (List Command))) : Prop :=
  ∀ first x second i h, steps = first ++ x :: second → x.input = .signal i →
    x.after.calls[i]? = some h → Expired i x.after ∧ ∀ y ∈ second, Signalled maxAlloc i h y

/-- The step sets the deadline anew, at the top of the loop. -/
def Arms (i : Nat) (y : Step Hub Event (List Command)) : Prop :=
  mover y.input = some i ∧ (places y.before)[i]? = some .top ∧ 0 < y.before.idleTimeout

instance (i : Nat) (y : Step Hub Event (List Command)) : Decidable (Arms i y) :=
  inferInstanceAs (Decidable (_ ∧ _ ∧ _))

def signalled : Event → Option Nat
  | .signal i => some i
  | _ => none

/-- No call sets its deadline anew once it has been signalled. -/
def Unarmed (steps : List (Step Hub Event (List Command))) : Prop :=
  steps.Pairwise fun x y => ∀ i ∈ signalled x.input, ¬ Arms i y

instance (steps : List (Step Hub Event (List Command))) : Decidable (Unarmed steps) :=
  inferInstanceAs (Decidable (List.Pairwise _ _))

/-- A call whose deadline has come, with its place and its unread bytes. -/
def Overdue (holds : Pc → Text → Prop) (i : Nat) (s : Hub) : Prop :=
  ∃ h, s.calls[i]? = some h ∧ (∃ d ∈ h.deadline, d ≤ s.now) ∧ holds h.pc h.received

/-- What holds of a signalled connection as long as no step arms it. -/
def Quiet (maxAlloc i : Nat) (h₀ : Handler) : Hub → Prop :=
  Overdue (fun pc received => received <:+ h₀.received ∧
    ∀ c, pc = .executing c → Heard maxAlloc h₀ c) i

theorem overdue_expired {holds : Pc → Text → Prop} (overdue : Overdue holds i s) : Expired i s := by
  obtain ⟨h,here,expired,_⟩ := overdue
  exact ⟨h,here,expired⟩

/-- A command that was read stands in the bytes, whatever comes behind them. -/
theorem read_stands {bytes : Text} {ending : Ending} {r : Reader}
    (read : readCommand maxAlloc ⟨bytes,ending⟩ = (.ok c,r)) :
    readCommand maxAlloc ⟨bytes,.fault⟩ = (.ok c,⟨r.bytes,.fault⟩) := by
  obtain ⟨left,last⟩ := r
  obtain rfl : last = ending := (readCommand_shorter read).2
  have again := readCommand_append read [] .fault
  rw [List.append_nil, List.append_nil] at again
  exact again

theorem heard_read {ending : Ending} {r : Reader} (rest : h.received <:+ h₀.received)
    (read : readCommand maxAlloc ⟨h.received,ending⟩ = (.ok c,r)) : Heard maxAlloc h₀ c :=
  Or.inr ⟨h.received,_,rest,read_stands read⟩

section Own
variable {h' : Handler} {pc pc' : Pc} {server : Server}

theorem walked_deadline (way : walking h.pc = true) (next : successor h.pc pc' = true) :
    (walked s h pc').deadline =
      if h.pc = .top ∧ 0 < s.idleTimeout then some (s.now + s.idleTimeout) else h.deadline := by
  by_cases top : h.pc = .top
  · rw [top] at next
    cases pc' with
    | reading =>
      simp only [walked, Hub.arm, top, true_and]
      split <;> rfl
    | _ => cases next
  · rw [if_neg fun arms => top arms.1]
    cases pc' with
    | reading => cases place : h.pc <;> rw [place] at way next top <;> simp_all [successor, walking]
    | _ => rfl

/-- The deadline of a call is set at the top of its loop, and nowhere else. -/
theorem deed_deadline (deed : Deed env maxAlloc s i h event h' server out) :
    h'.deadline =
      if h.pc = .top ∧ 0 < s.idleTimeout then some (s.now + s.idleTimeout) else h.deadline := by
  cases deed with
  | walked way next => exact walked_deadline way next
  | received place | found place | failed place | handled place | unflushed place | unwritten place =>
    exact (if_neg (by simp [place])).symm

/-- What a call does when its deadline has come: it does not receive, and a command that it
    comes to was there. -/
theorem deed_overdue (deed : Deed env maxAlloc s i h event h' server out)
    (past : ∃ d ∈ h.deadline, d ≤ s.now) :
    (∀ bytes, event ≠ .receive i bytes) ∧ h'.received <:+ h.received ∧
      ∀ c, h'.pc = .executing c →
        ∃ ending r, readCommand maxAlloc ⟨h.received,ending⟩ = (.ok c,r) := by
  cases deed with
  | @walked pc' way next =>
    refine ⟨by simp, by rw [(walked_keeps s h pc').1], ?_⟩
    intro c executing
    rw [walked_pc] at executing
    subst executing
    cases place : h.pc <;> rw [place] at way next <;> simp_all [successor, walking]
  | received _ _ _ early =>
    obtain ⟨d,set,past⟩ := past
    exact absurd past (not_le.mpr (early d set))
  | @found event ending timeout c r place reads read =>
    have rest := readCommand_suffix maxAlloc ⟨h.received,ending⟩
    rw [read] at rest
    refine ⟨by cases reads <;> simp, rest, ?_⟩
    intro c' same
    obtain rfl := Pc.executing.inj same
    exact ⟨ending,r,read⟩
  | @failed event ending timeout failure r place reads read =>
    have rest := readCommand_suffix maxAlloc ⟨h.received,ending⟩
    obtain ⟨ends,left,_⟩ := readError_ends timeout (s.session h r) failure
    rw [read] at rest
    refine ⟨by cases reads <;> simp, by rw [Handler.turned, left]; exact rest, ?_⟩
    intro c same
    rw [Handler.turned, if_neg ends] at same
    cases same
  | handled place =>
    refine ⟨by simp, List.suffix_refl _, ?_⟩
    intro c same
    unfold Handler.turned at same
    dsimp only at same
    split at same <;> cases same
  | unflushed place | unwritten place => exact ⟨by simp, List.suffix_refl _, by simp [Handler.cut]⟩

end Own

/-- A step of the whole keeps what the own steps of an overdue call keep, unless the call arms
    its deadline anew. -/
theorem step_overdue {holds : Pc → Text → Prop} (overdue : Overdue holds i s)
    (taken : s.step env maxAlloc event = some (t,out)) (unarmed : ¬ Arms i ⟨s,event,out,t⟩)
    (own : ∀ h h', (∃ d ∈ h.deadline, d ≤ s.now) → holds h.pc h.received →
      Deed env maxAlloc s i h event h' t.server out → holds h'.pc h'.received) :
    Overdue holds i t := by
  obtain ⟨h,here,⟨d,set,past⟩,held⟩ := overdue
  rcases step_call taken here with ⟨h',spared⟩ | ⟨h',pc',moved,deed⟩
  · refine ⟨h', spared.call, ?_, by rw [spared.same]; exact held⟩
    rcases spared.deadline with same | again
    · exact ⟨d,by rw [same]; exact set,le_trans past spared.later⟩
    · exact ⟨s.now,by rw [again]; rfl,spared.later⟩
  · have asleep : ¬ (h.pc = .top ∧ 0 < s.idleTimeout) := by
      rintro ⟨top,positive⟩
      exact unarmed ⟨moved.mine,by rw [places_at here, top],positive⟩
    have deadline : h'.deadline = h.deadline := by rw [deed_deadline deed, if_neg asleep]
    refine ⟨h', moved_call moved here, ⟨d,?_,?_⟩, own h h' ⟨d,set,past⟩ held deed⟩
    · rw [deadline]
      exact set
    · rw [moved_now moved]
      exact past

theorem step_quiet (quiet : Quiet maxAlloc i h₀ s) (taken : s.step env maxAlloc event = some (t,out))
    (unarmed : ¬ Arms i ⟨s,event,out,t⟩) :
    Quiet maxAlloc i h₀ t ∧ Signalled maxAlloc i h₀ ⟨s,event,out,t⟩ := by
  have kept : Quiet maxAlloc i h₀ t := by
    refine step_overdue quiet taken unarmed ?_
    rintro h h' past ⟨rest,_⟩ deed
    obtain ⟨_,shorter,reads⟩ := deed_overdue deed past
    refine ⟨shorter.trans rest, ?_⟩
    intro c executing
    obtain ⟨ending,r,read⟩ := reads c executing
    exact heard_read rest read
  obtain ⟨h,here,past,_,executing⟩ := quiet
  rcases step_call taken here with ⟨h',spared⟩ | ⟨h',pc',moved,deed⟩
  · refine ⟨kept, overdue_expired kept, ?_, ?_⟩
    · rintro bytes rfl
      cases (spared.joining rfl).1
    · intro own c mem
      rw [show out = [] from (spared.joining own).2.2] at mem
      cases mem
  · refine ⟨kept, overdue_expired kept, (deed_overdue deed past).1, ?_⟩
    intro _ c mem
    rcases deed_output deed with none | ⟨c',place,one⟩
    · rw [none] at mem
      cases mem
    · rw [one] at mem
      obtain rfl := List.mem_singleton.mp mem
      exact executing c place

theorem signal_shows (taken : s.step env maxAlloc (.signal i) = some (t,out)) :
    ∃ h, s.calls[i]? = some h ∧ t.calls[i]? = some { h with deadline := some s.now } ∧
      t.now = s.now := by
  cases step_cases taken with
  | moved j h h' pc pc' there moved => cases moved.mine
  | misused _ _ _ own | started own | passed _ own => cases own
  | wound wound =>
    cases wound with
    | signal _ _ h pending phase here mem =>
      exact ⟨h, here, List.getElem?_set_self (List.getElem?_eq_some_iff.mp here).1, rfl⟩

theorem signal_quiet (taken : s.step env maxAlloc (.signal i) = some (t,out)) :
    ∃ h, t.calls[i]? = some h ∧ Quiet maxAlloc i h t := by
  obtain ⟨h,_,place,now⟩ := signal_shows taken
  exact ⟨_, place, _, place, ⟨s.now,rfl,le_of_eq now.symm⟩, List.suffix_refl _, fun _ => Or.inl⟩

theorem arms_ahead (taken : s.step env maxAlloc event = some (t,out))
    (arms : Arms i ⟨s,event,out,t⟩) : ¬ Expired i t := by
  obtain ⟨mine,place,positive⟩ := arms
  rintro ⟨h₁,here₁,d,set,past⟩
  obtain ⟨h,here,top⟩ : ∃ h, s.calls[i]? = some h ∧ h.pc = .top := by
    simpa [places] using place
  rcases step_call taken here with ⟨h',spared⟩ | ⟨h',pc',moved,deed⟩
  · cases (spared.joining mine).2.1.symm.trans top
  · obtain rfl : h' = h₁ := Option.some.inj ((moved_call moved here).symm.trans here₁)
    rw [deed_deadline deed, if_pos ⟨top,positive⟩] at set
    obtain rfl := Option.some.inj set
    rw [moved_now moved] at past
    exact absurd past (not_le.mpr (Int.lt_add_of_pos_right s.now positive))

theorem stand_unarmed {start : Hub} (run : Run (Hub.step env maxAlloc) start steps s)
    (stand : SignalsStand maxAlloc steps) : Unarmed steps := by
  apply pairwise_iff_splits.mpr
  intro first x second split y mem i named arms
  have signal : x.input = .signal i := by
    cases input : x.input <;> simp_all [signalled]
  obtain ⟨_,taken,after⟩ := run_cut run first x second split
  rw [signal] at taken
  obtain ⟨h,here,_⟩ := signal_quiet taken
  obtain ⟨front,back,rest⟩ := List.append_of_mem mem
  obtain ⟨_,armed,_⟩ := run_cut after front y back rest
  exact arms_ahead armed arms ((stand first x second i h split signal here).2 y mem).expired

theorem unarmed_stand {start : Hub} (run : Run (Hub.step env maxAlloc) start steps s)
    (unarmed : Unarmed steps) : SignalsStand maxAlloc steps := by
  intro first x second i h split signal here
  obtain ⟨_,taken,after⟩ := run_cut run first x second split
  rw [signal] at taken
  obtain ⟨h₁,here₁,quiet⟩ := signal_quiet taken
  obtain rfl : h = h₁ := Option.some.inj (here.symm.trans here₁)
  refine ⟨overdue_expired quiet, ?_⟩
  have free : ∀ y ∈ second, ¬ Arms i y := by
    intro y mem
    exact pairwise_iff_splits.mp unarmed first x second split y mem i (by rw [signal]; rfl)
  exact (run_keeps (Quiet maxAlloc i h) (fun y => ¬ Arms i y) (Signalled maxAlloc i h)
    (fun _ quiet taken unarmed => step_quiet quiet taken unarmed) after quiet free).2

/-- On the way out of the loop, or behind it. -/
def leaving : Pc → Bool
  | .left | .closed | .inactive | .deregistered | .releasing | .finished | .returned => true
  | _ => false

theorem leaving_next {pc pc' : Pc} (next : successor pc pc' = true) (out : leaving pc = true) :
    leaving pc' = true := by
  cases pc <;> cases pc' <;> simp_all [successor, leaving]

theorem awaits_unread {bytes : Text} {ending : Ending} {r : Reader}
    (short : awaits maxAlloc bytes = true) : readCommand maxAlloc ⟨bytes,ending⟩ ≠ (.ok c,r) := by
  intro read
  unfold awaits at short
  rcases readCommand_ok (read_stands read) with requested | ⟨command,size,middle,value,requested,valued,_⟩
  · rw [requested] at short
    cases short
  · rw [requested] at short
    obtain ⟨n,filling,length,_,filled,_⟩ := readValue_ok valued
    have enough := (readFull_ok filled).1
    have less := (of_decide_eq_true short).2.2
    rw [length] at less
    omega

/-- A signalled call that has nothing left but to leave its loop. -/
def Ebbing (maxAlloc i : Nat) : Hub → Prop :=
  Overdue (fun pc received => pc = .reading ∧ awaits maxAlloc received = true ∨ leaving pc = true) i

theorem ebbing_unarmed (ebbing : Ebbing maxAlloc i s) : ¬ Arms i ⟨s,event,out,t⟩ := by
  rintro ⟨_,top,_⟩
  obtain ⟨h,here,_,held⟩ := ebbing
  have place : h.pc = .top := Option.some.inj ((places_at here).symm.trans top)
  rw [place] at held
  rcases held with ⟨reading,_⟩ | out
  · cases reading
  · cases out

theorem deed_ebbing {h' : Handler} {server : Server}
    (deed : Deed env maxAlloc s i h event h' server out) (past : ∃ d ∈ h.deadline, d ≤ s.now)
    (held : h.pc = .reading ∧ awaits maxAlloc h.received = true ∨ leaving h.pc = true) :
    h'.pc = .reading ∧ awaits maxAlloc h'.received = true ∨ leaving h'.pc = true := by
  have short (place : h.pc = .reading) : awaits maxAlloc h.received = true := by
    rw [place] at held
    exact held.elim And.right nofun
  have idle (c : Command) : h.pc ≠ .executing c := by
    intro place
    rw [place] at held
    exact held.elim (fun reading => by cases reading.1) nofun
  cases deed with
  | @walked pc' way next =>
    rcases held with ⟨reading,_⟩ | out
    · rw [reading] at way
      cases way
    · rw [walked_pc]
      exact Or.inr (leaving_next next out)
  | received _ _ _ early =>
    obtain ⟨d,set,come⟩ := past
    exact absurd come (not_le.mpr (early d set))
  | found place reads read => exact absurd read (awaits_unread (short place))
  | @failed event ending timeout failure r place reads read =>
    have ends := (readError_ends timeout (s.session h r) failure).1
    rw [Handler.turned, if_neg ends]
    exact Or.inr rfl
  | handled place | unflushed place | unwritten place => exact absurd place (idle _)

theorem step_ebbing (ebbing : Ebbing maxAlloc i s)
    (taken : s.step env maxAlloc event = some (t,out)) : Ebbing maxAlloc i t :=
  step_overdue ebbing taken (ebbing_unarmed ebbing) fun _ _ past held deed =>
    deed_ebbing deed past held

theorem step_idleTimeout (taken : s.step env maxAlloc event = some (t,out)) :
    t.idleTimeout = s.idleTimeout := by
  cases step_cases taken with
  | moved i h h' pc pc' here moved => exact congrArg (fun fixed => fixed.2.1) moved.setting
  | misused _ _ _ _ misused => rw [misused.down]
  | started _ same => rw [same]
  | passed _ _ same => rw [same]
  | wound wound => cases wound <;> rfl

/-- The signal finds its call in the read, with no complete command in its bytes. -/
def InRead (maxAlloc : Nat) (x : Step Hub Event (List Command)) : Prop :=
  ∀ i ∈ signalled x.input, ∃ h, x.before.calls[i]? = some h ∧ h.pc = .reading ∧
    awaits maxAlloc h.received = true

theorem signal_ebbing (taken : s.step env maxAlloc (.signal i) = some (t,out))
    (inside : ∃ h, s.calls[i]? = some h ∧ h.pc = .reading ∧ awaits maxAlloc h.received = true) :
    Ebbing maxAlloc i t := by
  obtain ⟨h,here,place,short⟩ := inside
  obtain ⟨k,there,after,now⟩ := signal_shows taken
  obtain rfl : h = k := Option.some.inj (here.symm.trans there)
  exact ⟨_, after, ⟨s.now,rfl,le_of_eq now.symm⟩, Or.inl ⟨place,short⟩⟩

/-- Every signal stands without an idle timeout, and where each of them finds its call in the
    read with no complete command in its bytes. -/
theorem signals_stand_in_reads {start : Hub} (run : Run (Hub.step env maxAlloc) start steps s)
    (place : start.idleTimeout ≤ 0 ∨ ∀ x ∈ steps, InRead maxAlloc x) :
    SignalsStand maxAlloc steps := by
  apply unarmed_stand run
  apply pairwise_iff_splits.mpr
  intro first x second split y mem i named arms
  obtain ⟨before,taken,after⟩ := run_cut run first x second split
  obtain ⟨front,back,rest⟩ := List.append_of_mem mem
  obtain ⟨between,_,_⟩ := run_cut after front y back rest
  rcases place with off | inside
  · have idle : y.before.idleTimeout = start.idleTimeout :=
      run_stays (fun u => u.idleTimeout = start.idleTimeout)
        (fun _ _ _ _ same taken => (step_idleTimeout taken).trans same)
        (run_append (Run.snoc before taken) between) rfl
    have positive := arms.2.2
    omega
  · have signal : x.input = .signal i := by
      cases input : x.input <;> simp_all [signalled]
    have found := inside x (by simp [split]) i named
    rw [signal] at taken
    have ebbing := run_stays (Ebbing maxAlloc i) (fun _ _ _ _ ebbing taken => step_ebbing ebbing taken)
      between (signal_ebbing taken found)
    exact ebbing_unarmed ebbing arms

/-- The signals of a run stand exactly if no call arms its deadline after its signal. -/
theorem signals_stand_iff_unarmed (env : Env) (maxAlloc : Nat) (start s : Hub)
    (steps : List (Step Hub Event (List Command)))
    (run : Run (Hub.step env maxAlloc) start steps s) :
    SignalsStand maxAlloc steps ↔ Unarmed steps := by
  constructor
  · intro stand
    exact stand_unarmed run stand
  · intro unarmed
    exact unarmed_stand run unarmed

def patient : Hub :=
  .new (.new (Store.new int64 ConfigModel.Config.default.store) []) 300000000000 1024 0

def patientStep : Hub → Event → Option (Hub × List Command) :=
  Hub.step (fun _ => ⟨0,.asListed,0⟩) (2 ^ 48)

def signalledInRead : List Event :=
  [.start, .advance 0, .advance 0, .advance 0, .advance 0, .advance 0, .advance 0, .tick 1000,
    .shutdown, .signal 0, .signalled, .tick 1000, .interrupt 0 .timeout, .advance 0]

theorem signal_in_read_stands :
    ∃ steps s, Run patientStep patient steps s ∧ steps.map Step.input = signalledInRead ∧
      SignalsStand (2 ^ 48) steps := by
  have ends : (exec patientStep patient signalledInRead).map (fun run => decide (Unarmed run.1)) =
      some true := by decide
  obtain ⟨⟨steps,s⟩,done,checked⟩ := Option.map_eq_some_iff.mp ends
  obtain ⟨run,inputs⟩ := exec_run done
  exact ⟨steps, s, run, inputs,
    (signals_stand_iff_unarmed _ _ _ s steps run).mpr (of_decide_eq_true checked)⟩

/-- The signal comes at the top of the loop: the call sets the deadline anew, reads what is
    sent afterwards, and executes it. -/
def signalledAtTop : List Event :=
  [.start, .advance 0, .advance 0, .advance 0, .advance 0, .advance 0, .shutdown, .signal 0,
    .advance 0, .signalled, .receive 0 (ascii ['p','i','n','g','\r','\n']), .advance 0, .advance 0]

theorem signal_at_top_undone :
    ∃ steps s, Run patientStep patient steps s ∧ steps.map Step.input = signalledAtTop ∧
      steps.flatMap Step.output = [{ op := .ping }] ∧ ¬ SignalsStand (2 ^ 48) steps := by
  have ends : (exec patientStep patient signalledAtTop).map (fun run =>
      decide (run.1.flatMap Step.output = [{ op := .ping }] ∧ ¬ Unarmed run.1)) = some true := by
    decide
  obtain ⟨⟨steps,s⟩,done,checked⟩ := Option.map_eq_some_iff.mp ends
  obtain ⟨run,inputs⟩ := exec_run done
  obtain ⟨executed,armed⟩ := of_decide_eq_true checked
  exact ⟨steps, s, run, inputs, executed, fun stand => armed (stand_unarmed run stand)⟩

end ServerWindDown
