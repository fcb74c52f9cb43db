import Mathlib.Data.List.Basic

/- A loop given by one turn, which either goes on with a new state or ends with a
   result. Fuel stands for the number of turns; a measure that every turn lowers says
   how much is enough. -/
namespace Loop
variable {σ ρ : Type}

/-- None when the fuel is used up. -/
def run (turn : σ → σ × Option ρ) : Nat → σ → Option (σ × ρ)
  | 0, _ => none
  | fuel + 1, s =>
    match turn s with
    | (t, none) => run turn fuel t
    | (t, some r) => some (t, r)

variable {turn other : σ → σ × Option ρ} {s t : σ} {r : ρ} {fuel : Nat}

theorem run_go (goes : turn s = (t,none)) : run turn (fuel + 1) s = run turn fuel t := by
  rw [run, goes]

theorem run_stop (stops : turn s = (t,some r)) : run turn (fuel + 1) s = some (t,r) := by
  rw [run, stops]

theorem run_more {done : σ × ρ} (ended : run turn fuel s = some done) {more : Nat}
    (enough : fuel ≤ more) : run turn more s = some done := by
  induction fuel generalizing s more with
  | zero => cases ended
  | succ fuel ih =>
    obtain ⟨more,rfl⟩ : ∃ k, more = k + 1 := ⟨more - 1, by omega⟩
    cases turned : turn s with
    | mk t result =>
      cases result with
      | none =>
        rw [run_go turned] at ended ⊢
        exact ih ended (by omega)
      | some r =>
        rw [run_stop turned] at ended ⊢
        exact ended

section Measure
variable {measure : σ → Nat} (down : ∀ s t, turn s = (t,none) → measure t < measure s)
include down

theorem run_ends (enough : measure s < fuel) : ∃ done, run turn fuel s = some done := by
  induction fuel generalizing s with
  | zero => omega
  | succ fuel ih =>
    cases turned : turn s with
    | mk t result =>
      cases result with
      | none =>
        have lower := down s t turned
        rw [run_go turned]
        exact ih (by omega)
      | some r => exact ⟨(t,r), run_stop turned⟩

theorem run_fuel {other : Nat} (enough : measure s < fuel) (also : measure s < other) :
    run turn fuel s = run turn other s := by
  obtain ⟨done,ended⟩ := run_ends down (Nat.lt_succ_self (measure s))
  rw [run_more ended enough, run_more ended also]

theorem run_next (goes : turn s = (t,none)) :
    run turn (measure s + 1) s = run turn (measure t + 1) t := by
  rw [run_go goes]
  exact run_fuel down (down s t goes) (Nat.lt_succ_self _)

end Measure

/-- Two loops whose turns agree on the states they meet. -/
theorem run_congr (good : σ → Prop) (keep : ∀ s t, good s → turn s = (t,none) → good t)
    (same : ∀ s, good s → turn s = other s) (start : good s) :
    run turn fuel s = run other fuel s := by
  induction fuel generalizing s with
  | zero => rfl
  | succ fuel ih =>
    have agreed := same s start
    cases turned : turn s with
    | mk t result =>
      rw [turned] at agreed
      cases result with
      | none =>
        rw [run_go turned, run_go agreed.symm]
        exact ih (keep s t start turned)
      | some r => rw [run_stop turned, run_stop agreed.symm]

/-- A change of the state that every turn carries along, the loop carries along. -/
theorem run_carries (shift : σ → σ)
    (carry : ∀ s, turn (shift s) = (shift (turn s).1, (turn s).2)) (s : σ) :
    run turn fuel (shift s) = (run turn fuel s).map fun done => (shift done.1, done.2) := by
  induction fuel generalizing s with
  | zero => rfl
  | succ fuel ih =>
    have carried := carry s
    cases turned : turn s with
    | mk t result =>
      rw [turned] at carried
      cases result with
      | none => rw [run_go turned, run_go carried, ih]
      | some r => rw [run_stop turned, run_stop carried]; rfl

end Loop
