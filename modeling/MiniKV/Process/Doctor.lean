import MiniKV.Lib.Binary64
import MiniKV.Server.Server
import MiniKV.Store.Snapshot

/- The handler of /doctor. It compares quotients in binary64 with its limits, which for the
   sizes a store can have is the same as comparing the numbers themselves. -/
namespace DoctorModel
open MachineWord Decimal ShardModel ShardInvariant StoreModel StepRuns ProtocolModel ServerModel
  StoreBudget StoreSnapshot Binary64

/-- The verb %.0f, for the decimal nearest to the exact value. The sign of a negative number
    stays when it is rounded to zero. -/
def formatFixed0 (x : ℚ) : Text :=
  if x < 0 ∧ tieEven x = 0 then text "-0" else formatInt (tieEven x)

/-- The verb %.1f, of a number that is not negative. -/
def formatFixed1 (x : ℚ) : Text :=
  let tenths := tieEven (10 * x)
  formatInt (tenths / 10) ++ text "." ++ formatInt (tenths % 10)

/-- A line for failures, or one for ok. -/
structure Check where
  failed : Bool
  line : Text

def pressure (st : Stats) : ℚ :=
  if st.maxMemoryBytes > 0 then
    float64 (float64 st.memoryBytes / float64 st.maxMemoryBytes)
  else 0

def memoryPressure (st : Stats) : Check :=
  let percent := formatFixed0 (float64 (pressure st * 100))
  if pressure st > float64 (95 / 100) then
    ⟨true, text "memory_pressure: high (" ++ percent ++ text "% of budget)"⟩
  else ⟨false, text "memory_pressure: ok (" ++ percent ++ text "% of budget)"⟩

/-- The loop for minItems and maxItems. -/
def extremes (bounds : Nat × Nat) (items : List Nat) : Nat × Nat :=
  items.foldl (fun bounds n =>
    (if n < bounds.1 then n else bounds.1, if n > bounds.2 then n else bounds.2)) bounds

/-- None is the index of a list without shards. -/
def shardBalance (st : Stats) : Option Check :=
  if st.items ≥ 100 then
    match st.itemsPerShard with
    | [] => none
    | first :: rest =>
      let bounds := extremes (first,first) (first :: rest)
      let minItems := if bounds.1 = 0 then 1 else bounds.1
      let ratio := float64 (float64 bounds.2 / float64 minItems)
      if ratio > 4 then
        some ⟨true, text "shard_balance: imbalanced (max/min ratio " ++ formatFixed1 ratio ++
          text "x)"⟩
      else
        some ⟨false, text "shard_balance: ok (max/min ratio " ++ formatFixed1 ratio ++ text "x)"⟩
  else
    some ⟨false, text "shard_balance: ok (only " ++ formatNat st.items ++
      text " items, ratio not meaningful)"⟩

/-- The status and what is written behind the header, a line at a time. -/
structure Response where
  status : Nat
  writes : List Text

/-- The answer to a request, from the sampled statistics and the text of the uptime. -/
def doctorHandler (st : Stats) (uptime : Text) : Option Response :=
  (shardBalance st).map fun balance =>
    let checks := [memoryPressure st, balance, ⟨false, text "uptime: " ++ uptime⟩]
    let failures := (checks.filter fun c => c.failed).map Check.line
    let ok := (checks.filter fun c => !c.failed).map Check.line
    ⟨if failures = [] then 200 else 503,
      failures.map (fun line => text "FAIL " ++ line ++ text "\n") ++
        ok.map (fun line => text "OK   " ++ line ++ text "\n")⟩

/-- More than 95 percent of the budget are in use. -/
def Pressed (st : Stats) : Prop := 19 * st.maxMemoryBytes < 20 * st.memoryBytes

/-- Some shard has more than four times the items of another, which counts as one if empty. -/
def Skewed (st : Stats) : Prop :=
  100 ≤ st.items ∧ ∃ low ∈ st.itemsPerShard, ∃ high ∈ st.itemsPerShard, 4 * max low 1 < high

theorem float64_intCast {n : Int} (nonneg : 0 ≤ n) (small : n < 2 ^ 53) : float64 n = n := by
  obtain ⟨k,rfl⟩ := Int.eq_ofNat_of_zero_le nonneg
  exact float64_natCast (by exact_mod_cast small)

variable {st : Stats}

/-- The sizes for which the quotients are compared as the numbers would be. -/
structure Sized (st : Stats) : Prop where
  nonneg : 0 ≤ st.memoryBytes
  within : st.memoryBytes ≤ st.maxMemoryBytes
  small : st.maxMemoryBytes ≤ 2 ^ 49
  sparse : ∀ n ∈ st.itemsPerShard, n ≤ 2 ^ 50
  shards : st.itemsPerShard ≠ []

theorem pressure_value (sized : Sized st) (positive : 0 < st.maxMemoryBytes) :
    pressure st = float64 ((st.memoryBytes : ℚ) / st.maxMemoryBytes) := by
  have small := sized.small
  have within := sized.within
  rw [pressure, if_pos positive, float64_intCast sized.nonneg (by omega),
    float64_intCast positive.le (by omega)]

/-- Up to the limit the quotient is rounded to a number that is not greater. -/
theorem calm_pressure (sized : Sized st) (calm : ¬ Pressed st) :
    pressure st ≤ float64 (95 / 100) := by
  by_cases positive : 0 < st.maxMemoryBytes
  · rw [pressure_value sized positive]
    apply float64_mono
    have room : (0 : ℚ) < st.maxMemoryBytes := by exact_mod_cast positive
    have few : (20 * st.memoryBytes : ℚ) ≤ 19 * st.maxMemoryBytes := by
      exact_mod_cast not_lt.mp calm
    rw [div_le_iff₀ room]
    linarith
  · rw [pressure, if_neg positive, float64_ninetyFive]
    norm_num

/-- Past the limit the quotient is at least the next number of the format. -/
theorem pressed_pressure (sized : Sized st) (pressed : Pressed st) :
    8556839292003943 / 2 ^ 53 ≤ pressure st := by
  have within := sized.within
  have nonneg := sized.nonneg
  have positive : 0 < st.maxMemoryBytes := by
    unfold Pressed at pressed
    omega
  rw [pressure_value sized positive]
  have exact_value : Representable (8556839292003943 / 2 ^ 53) :=
    ⟨8556839292003943, -53, by norm_num, by norm_num⟩
  rw [← float64_exact exact_value]
  apply float64_mono
  have room : (0 : ℚ) < st.maxMemoryBytes := by exact_mod_cast positive
  have small : (st.maxMemoryBytes : ℚ) ≤ 2 ^ 49 := by exact_mod_cast sized.small
  have many : (19 * st.maxMemoryBytes + 1 : ℚ) ≤ 20 * st.memoryBytes := by
    exact_mod_cast pressed
  rw [le_div_iff₀ room]
  linarith

theorem pressure_high_iff (sized : Sized st) :
    pressure st > float64 (95 / 100) ↔ Pressed st := by
  constructor
  · intro high
    by_contra calm
    exact absurd high (not_lt.mpr (calm_pressure sized calm))
  · intro pressed
    have above := pressed_pressure sized pressed
    rw [float64_ninetyFive]
    have gap : (8556839292003942 / 2 ^ 53 : ℚ) < 8556839292003943 / 2 ^ 53 := by norm_num
    linarith

theorem pressure_bounds (sized : Sized st) : 0 ≤ pressure st ∧ pressure st ≤ 1 := by
  by_cases positive : 0 < st.maxMemoryBytes
  · rw [pressure_value sized positive]
    have room : (0 : ℚ) < st.maxMemoryBytes := by exact_mod_cast positive
    have low : (0 : ℚ) ≤ st.memoryBytes := by exact_mod_cast sized.nonneg
    have high : (st.memoryBytes : ℚ) ≤ st.maxMemoryBytes := by exact_mod_cast sized.within
    have least := float64_mono (div_nonneg low room.le)
    have most := float64_mono ((div_le_one room).mpr high)
    have zero : float64 0 = 0 := by exact_mod_cast float64_natCast (n := 0) (by norm_num)
    have one : float64 1 = 1 := by exact_mod_cast float64_natCast (n := 1) (by norm_num)
    rw [zero] at least
    rw [one] at most
    exact ⟨least,most⟩
  · rw [pressure, if_neg positive]
    norm_num

theorem shown_le {x : ℚ} {k : ℕ} (small : k < 2 ^ 53) (below : x ≤ k) : tieEven (float64 x) ≤ k := by
  have rounded := float64_mono below
  rw [float64_natCast small] at rounded
  have shown := tieEven_mono rounded
  rwa [show (k : ℚ) = ((k : ℤ) : ℚ) by push_cast; rfl, tieEven_int] at shown

theorem le_shown {x : ℚ} {k : ℕ} (small : k < 2 ^ 53) (above : k ≤ x) : k ≤ tieEven (float64 x) := by
  have rounded := float64_mono above
  rw [float64_natCast small] at rounded
  have shown := tieEven_mono rounded
  rwa [show (k : ℚ) = ((k : ℤ) : ℚ) by push_cast; rfl, tieEven_int] at shown

/-- The percentage that is shown agrees with the verdict. -/
theorem percent_shown (sized : Sized st) : ∃ percent : ℕ,
    formatFixed0 (float64 (pressure st * 100)) = formatNat percent ∧ percent ≤ 100 ∧
      (Pressed st → 95 ≤ percent) ∧ (¬ Pressed st → percent ≤ 95) := by
  obtain ⟨low,high⟩ := pressure_bounds sized
  have least := le_shown (x := pressure st * 100) (k := 0) (by norm_num) (by push_cast; linarith)
  obtain ⟨percent,shown⟩ := Int.eq_ofNat_of_zero_le least
  have unsigned : ¬ (float64 (pressure st * 100) < 0 ∧
      tieEven (float64 (pressure st * 100)) = 0) := by
    have rounded := float64_mono (x := ((0 : ℕ) : ℚ)) (y := pressure st * 100)
      (by push_cast; linarith)
    rw [float64_natCast (by norm_num)] at rounded
    push_cast at rounded
    exact fun small => absurd small.1 (not_lt.mpr rounded)
  refine ⟨percent, ?_, ?_, ?_, ?_⟩
  · rw [formatFixed0, if_neg unsigned, shown, formatInt, if_neg (by omega)]
    rfl
  · have most := shown_le (x := pressure st * 100) (k := 100) (by norm_num) (by push_cast; linarith)
    omega
  · intro pressed
    have above := pressed_pressure sized pressed
    have reached := le_shown (x := pressure st * 100) (k := 95) (by norm_num)
      (by push_cast; linarith)
    omega
  · intro calm
    have below := calm_pressure sized calm
    rw [float64_ninetyFive] at below
    have reached := shown_le (x := pressure st * 100) (k := 95) (by norm_num)
      (by push_cast; linarith)
    omega

theorem extremes_spec (bounds : Nat × Nat) (items : List Nat) :
    ((extremes bounds items).1 = bounds.1 ∨ (extremes bounds items).1 ∈ items) ∧
      ((extremes bounds items).1 ≤ bounds.1 ∧ ∀ n ∈ items, (extremes bounds items).1 ≤ n) ∧
      ((extremes bounds items).2 = bounds.2 ∨ (extremes bounds items).2 ∈ items) ∧
      (bounds.2 ≤ (extremes bounds items).2 ∧ ∀ n ∈ items, n ≤ (extremes bounds items).2) := by
  induction items generalizing bounds with
  | nil => simp [extremes]
  | cons n rest ih =>
    obtain ⟨least,⟨low,below⟩,greatest,high,above⟩ := ih
      (if n < bounds.1 then n else bounds.1, if n > bounds.2 then n else bounds.2)
    have same : extremes bounds (n :: rest) = extremes
      (if n < bounds.1 then n else bounds.1, if n > bounds.2 then n else bounds.2) rest := rfl
    rw [same]
    dsimp only at least low greatest high
    simp only [List.mem_cons, forall_eq_or_imp]
    refine ⟨?_, ⟨?_, ?_, below⟩, ?_, ?_, ?_, above⟩
    · rcases least with own | later
      · rw [own]
        split <;> simp
      · exact Or.inr (Or.inr later)
    · refine low.trans ?_
      split <;> omega
    · refine low.trans ?_
      split <;> omega
    · rcases greatest with own | later
      · rw [own]
        split <;> simp
      · exact Or.inr (Or.inr later)
    · refine le_trans ?_ high
      split <;> omega
    · refine le_trans ?_ high
      split <;> omega

/-- The quotient passes four exactly when the one count passes four times the other. -/
theorem ratio_high_iff (most : ℕ) {least : ℕ} (positive : 0 < least) (small : least ≤ 2 ^ 50) :
    float64 (float64 most / float64 least) > 4 ↔ 4 * least < most := by
  have room : (0 : ℚ) < least := by exact_mod_cast positive
  rw [float64_natCast (n := least) (by omega)]
  constructor
  · intro high
    by_contra few
    have bound := float64_mono (x := (most : ℚ)) (y := ((4 * least : ℕ) : ℚ))
      (by exact_mod_cast not_lt.mp few)
    rw [float64_natCast (n := 4 * least) (by omega)] at bound
    push_cast at bound
    have quotient := float64_mono ((div_le_iff₀ room).mpr bound)
    have four : float64 4 = 4 := by exact_mod_cast float64_natCast (n := 4) (by norm_num)
    rw [four] at quotient
    linarith
  · intro many
    have bound := float64_mono (x := ((4 * least + 1 : ℕ) : ℚ)) (y := (most : ℚ))
      (by exact_mod_cast many)
    rw [float64_natCast (n := 4 * least + 1) (by omega)] at bound
    push_cast at bound
    have few : (least : ℚ) ≤ 2 ^ 50 := by exact_mod_cast small
    have exact_value : Representable (4 + 1 / 2 ^ 50) := ⟨2 ^ 52 + 1, -50, by norm_num, by norm_num⟩
    have quotient := float64_mono (x := 4 + 1 / 2 ^ 50) (y := float64 most / least)
      (by rw [le_div_iff₀ room]; linarith)
    rw [float64_exact exact_value] at quotient
    have gap : (0 : ℚ) < 1 / 2 ^ 50 := by norm_num
    linarith

/-- Two shards are out of balance when the extremes are. -/
theorem skewed_iff (many : 100 ≤ st.items) {low high : Nat} (least : low ∈ st.itemsPerShard)
    (below : ∀ n ∈ st.itemsPerShard, low ≤ n) (most : high ∈ st.itemsPerShard)
    (above : ∀ n ∈ st.itemsPerShard, n ≤ high) : Skewed st ↔ 4 * max low 1 < high := by
  constructor
  · rintro ⟨-,few,mem,full,mem',apart⟩
    have first := below few mem
    have last := above full mem'
    omega
  · intro apart
    exact ⟨many, low, least, high, most, apart⟩

theorem extremes_mem (first : Nat) (rest : List Nat) :
    (extremes (first,first) (first :: rest)).1 ∈ first :: rest ∧
      (extremes (first,first) (first :: rest)).2 ∈ first :: rest := by
  obtain ⟨least,_,most,_⟩ := extremes_spec (first,first) (first :: rest)
  constructor
  · rcases least with own | later
    · rw [own]
      exact List.mem_cons_self
    · exact later
  · rcases most with own | later
    · rw [own]
      exact List.mem_cons_self
    · exact later

theorem balance_checked (sized : Sized st) :
    ∃ check, shardBalance st = some check ∧ (check.failed = true ↔ Skewed st) := by
  unfold shardBalance
  by_cases many : st.items ≥ 100
  · obtain ⟨first,rest,shards⟩ := List.exists_cons_of_ne_nil sized.shards
    obtain ⟨least,most⟩ := extremes_mem first rest
    obtain ⟨_,⟨_,below⟩,_,_,above⟩ := extremes_spec (first,first) (first :: rest)
    rw [if_pos many, shards]
    dsimp only
    obtain ⟨bounds,same⟩ : ∃ bounds, bounds = extremes (first,first) (first :: rest) := ⟨_,rfl⟩
    rw [← same] at least most below above ⊢
    rw [← shards] at least most below above
    have floor : (if bounds.1 = 0 then 1 else bounds.1) = max bounds.1 1 := by split <;> omega
    have few := sized.sparse _ least
    have some_floor : 0 < max bounds.1 1 := by omega
    have high := ratio_high_iff bounds.2 some_floor (by omega)
    rw [floor, skewed_iff many least below most above]
    split
    · rename_i passed
      exact ⟨_, rfl, by simpa using high.mp passed⟩
    · rename_i kept
      exact ⟨_, rfl, by simpa using fun apart => kept (high.mpr apart)⟩
  · rw [if_neg many]
    refine ⟨_, rfl, ?_⟩
    simp only [Bool.false_eq_true, false_iff]
    exact fun skewed => many skewed.1

/-- What an answer says of the statistics. -/
structure Diagnosed (st : Stats) (r : Response) : Prop where
  unwell : Pressed st ∨ Skewed st → r.status = 503
  well : ¬ (Pressed st ∨ Skewed st) → r.status = 200
  lines : r.writes.length = 3
  memory : ∃ percent ≤ 100,
    (Pressed st → 95 ≤ percent ∧
      text "FAIL " ++ (text "memory_pressure: high (" ++ formatNat percent ++
        text "% of budget)") ++ text "\n" ∈ r.writes) ∧
    (¬ Pressed st → percent ≤ 95 ∧
      text "OK   " ++ (text "memory_pressure: ok (" ++ formatNat percent ++
        text "% of budget)") ++ text "\n" ∈ r.writes)

theorem doctor_diagnosed (sized : Sized st) (uptime : Text) :
    ∃ r, doctorHandler st uptime = some r ∧ Diagnosed st r := by
  obtain ⟨balance,checked,skewed⟩ := balance_checked sized
  obtain ⟨percent,shown,most,high,low⟩ := percent_shown sized
  refine ⟨_, by rw [doctorHandler, checked, Option.map_some], ?_⟩
  by_cases pressed : Pressed st
  · have memory : memoryPressure st =
        ⟨true, text "memory_pressure: high (" ++ formatNat percent ++ text "% of budget)"⟩ := by
      simp only [memoryPressure, shown, if_pos ((pressure_high_iff sized).mpr pressed)]
    refine ⟨?_, ?_, ?_, percent, most, ?_, ?_⟩
    · intro _
      simp [memory]
    · exact fun fine => absurd (Or.inl pressed) fine
    · cases failed : balance.failed <;> simp [memory, failed]
    · intro _
      exact ⟨high pressed, by simp [memory]⟩
    · exact fun calm => absurd pressed calm
  · have memory : memoryPressure st =
        ⟨false, text "memory_pressure: ok (" ++ formatNat percent ++ text "% of budget)"⟩ := by
      simp only [memoryPressure, shown, if_neg (mt (pressure_high_iff sized).mp pressed)]
    refine ⟨?_, ?_, ?_, percent, most, ?_, ?_⟩
    · intro unwell
      have failed := skewed.mpr (unwell.resolve_left pressed)
      simp [memory, failed]
    · intro fine
      have passed : balance.failed = false := by
        rw [← Bool.not_eq_true, skewed]
        exact fun apart => fine (Or.inr apart)
      simp [memory, passed]
    · cases failed : balance.failed <;> simp [memory, failed]
    · exact fun other => absurd other pressed
    · intro _
      refine ⟨low pressed, ?_⟩
      simp [memory]

theorem snapshot_sized {budget : Int} {s : Store} {steps : List SamplingStep}
    (snapshot : Snapshot budget s steps st) (some_shard : s.shards ≠ []) (small : budget ≤ 2 ^ 49) :
    Sized st where
  nonneg := snapshot.nonneg
  within := snapshot.within
  small := snapshot.budget.trans small
  sparse := by
    intro n mem
    have few := snapshot.sparse n mem
    have most := snapshot.budget
    omega
  shards := by
    obtain ⟨cells,size,-,gathers⟩ := snapshot.parts
    rw [gathers.perShard]
    intro none_left
    have empty : cells = [] := by
      simpa using (List.append_eq_nil_iff.mp none_left).1
    rw [empty] at size
    exact some_shard (List.length_eq_zero_iff.mp size.symm)

/-- A request for /doctor is answered while others work on the store, if the budget is at most
    2^49 bytes: with 503 exactly when the sampled bytes are past 95 percent of the budget or one
    shard has more than four times the items of another, which counts as one if empty, and with
    a percentage that agrees with the verdict. -/
theorem doctor_answers_under_load (config : ConfigModel.Config) (accepted : config.validate = none)
    (ranged : Ranged (shardLimits config.store) 250)
    (small : max config.maxMemoryBytes config.shards ≤ 2 ^ 49)
    {works : List StoreStep} {s : Store}
    (run : Run Store.step (Store.new int64 config.store) works s)
    (short : ∀ x ∈ works, ∀ key, x.input.call.key = some key → key.length ≤ 250)
    {steps : List SamplingStep} {p : Sampling} (sampling : Run Sampling.step (.begin s) steps p)
    (named : ShortTurns 250 steps) (done : p.look = none) (uptime : Text) :
    ∃ r, doctorHandler p.out uptime = some r ∧ Diagnosed p.out r := by
  have snapshot := accepted_snapshot accepted ranged (by omega) run short sampling named done
  have shards := (ConfigModel.validate_bounds accepted).2.2.2.2
  have filled : s.shards ≠ [] := by
    intro gone
    have length := accepted_length accepted run
    rw [gone, List.length_nil] at length
    omega
  exact doctor_diagnosed (snapshot_sized snapshot filled small) uptime

theorem three_shards_diagnosed : ∃ steps p r,
    Run Sampling.step (.begin (Store.new int64 threeShards.store)) steps p ∧
      steps.map Step.input = loadedTurns ∧ doctorHandler p.out (text "3s") = some r ∧
      Diagnosed p.out r := by
  have sampled : (exec Sampling.step (.begin (Store.new int64 threeShards.store)) loadedTurns).map
      (fun done => done.2.look.isNone) = some true := by decide
  obtain ⟨steps,p,run,inputs,ended⟩ := exec_shows sampled
  obtain ⟨r,answer,diagnosed⟩ := doctor_answers_under_load threeShards (by decide) (by decide)
    (by decide) Run.nil (fun _ mem => by cases mem) run (loaded_short inputs) (by simpa using ended)
    (text "3s")
  exact ⟨steps, p, r, run, inputs, answer, diagnosed⟩

end DoctorModel
