import Mathlib.Data.List.Forall2
import Mathlib.Data.Option.Basic
import Mathlib.Order.Defs.PartialOrder

/- Finite runs of a deterministic step function. A step that gives none does not
   return, so no run goes past it. Every completed step records the states on
   both sides, which lets a property speak about the whole history. -/
namespace StepRuns
variable {σ ι ρ : Type}

structure Step (σ ι ρ : Type) where
  before : σ
  input : ι
  output : ρ
  after : σ

inductive Run (step : σ → ι → Option (σ × ρ)) (start : σ) : List (Step σ ι ρ) → σ → Prop where
  | nil : Run step start [] start
  | snoc {steps : List (Step σ ι ρ)} {s t : σ} {i : ι} {r : ρ}
      (prior : Run step start steps s) (taken : step s i = some (t,r)) :
      Run step start (steps ++ [⟨s,i,r,t⟩]) t

/-- The executable form of a run, from the inputs alone. -/
def exec (step : σ → ι → Option (σ × ρ)) : σ → List ι → Option (List (Step σ ι ρ) × σ)
  | s, [] => some ([],s)
  | s, i :: rest =>
    match step s i with
    | none => none
    | some (t,r) => (exec step t rest).map fun run => (⟨s,i,r,t⟩ :: run.1, run.2)

variable {step : σ → ι → Option (σ × ρ)}

theorem run_cons {s t u : σ} {i : ι} {r : ρ} {steps : List (Step σ ι ρ)}
    (taken : step s i = some (t,r)) (rest : Run step t steps u) :
    Run step s (⟨s,i,r,t⟩ :: steps) u := by
  induction rest with
  | nil => exact Run.snoc Run.nil taken
  | snoc prior next ih => exact Run.snoc ih next

theorem run_append {s t u : σ} {first second : List (Step σ ι ρ)} (left : Run step s first t)
    (right : Run step t second u) : Run step s (first ++ second) u := by
  induction right with
  | nil => simpa using left
  | snoc prior taken ih =>
    rw [← List.append_assoc]
    exact Run.snoc ih taken

theorem run_mapped {τ κ : Type} {other : τ → κ → Option (τ × ρ)} {s t : σ}
    {steps : List (Step σ ι ρ)} (f : σ → τ) (g : ι → κ)
    (follow : ∀ s i t r, step s i = some (t,r) → other (f s) (g i) = some (f t,r))
    (run : Run step s steps t) :
    Run other (f s) (steps.map fun x => ⟨f x.before,g x.input,x.output,f x.after⟩) (f t) := by
  induction run with
  | nil => exact Run.nil
  | snoc prior taken ih =>
    rw [List.map_append]
    exact Run.snoc ih (follow _ _ _ _ taken)

theorem exec_run {s t : σ} {inputs : List ι} {steps : List (Step σ ι ρ)}
    (done : exec step s inputs = some (steps,t)) :
    Run step s steps t ∧ steps.map Step.input = inputs := by
  induction inputs generalizing s steps with
  | nil =>
    simp only [exec, Option.some.injEq, Prod.mk.injEq] at done
    obtain ⟨rfl,rfl⟩ := done
    exact ⟨Run.nil,rfl⟩
  | cons i rest ih =>
    simp only [exec] at done
    split at done
    · simp at done
    · rename_i m r taken
      simp only [Option.map_eq_some_iff, Prod.exists, Prod.mk.injEq] at done
      obtain ⟨tail,last,more,rfl,rfl⟩ := done
      obtain ⟨run,same⟩ := ih more
      exact ⟨run_cons taken run, by simp [same]⟩

/-- A computed run, with what is observed of it. -/
theorem exec_shows {β : Type} {s : σ} {inputs : List ι} {f : List (Step σ ι ρ) × σ → β} {v : β}
    (done : (exec step s inputs).map f = some v) :
    ∃ steps t, Run step s steps t ∧ steps.map Step.input = inputs ∧ f (steps,t) = v := by
  obtain ⟨⟨steps,t⟩,ended,shown⟩ := Option.map_eq_some_iff.mp done
  obtain ⟨run,same⟩ := exec_run ended
  exact ⟨steps,t,run,same,shown⟩

theorem exec_snoc {s m t : σ} {inputs : List ι} {steps : List (Step σ ι ρ)} {i : ι} {r : ρ}
    (done : exec step s inputs = some (steps,m)) (taken : step m i = some (t,r)) :
    exec step s (inputs ++ [i]) = some (steps ++ [⟨m,i,r,t⟩],t) := by
  induction inputs generalizing s steps with
  | nil =>
    simp only [exec, Option.some.injEq, Prod.mk.injEq] at done
    obtain ⟨rfl,rfl⟩ := done
    simp [exec, taken]
  | cons j rest ih =>
    simp only [exec] at done
    split at done
    · cases done
    · rename_i u q first
      simp only [Option.map_eq_some_iff, Prod.exists, Prod.mk.injEq] at done
      obtain ⟨tail,last,more,rfl,rfl⟩ := done
      simp [exec, first, ih more]

theorem run_exec {s t : σ} {steps : List (Step σ ι ρ)} (run : Run step s steps t) :
    exec step s (steps.map Step.input) = some (steps,t) := by
  induction run with
  | nil => rfl
  | snoc prior taken ih =>
    rw [List.map_append]
    exact exec_snoc ih taken

theorem run_cut {s u : σ} {steps : List (Step σ ι ρ)} (run : Run step s steps u) :
    ∀ first x second, steps = first ++ x :: second →
      Run step s first x.before ∧ step x.before x.input = some (x.after,x.output) ∧
        Run step x.after second u := by
  induction run with
  | nil => intro first x second eq; simp at eq
  | @snoc steps m t i r prior taken ih =>
    intro first x second eq
    rcases List.eq_nil_or_concat second with rfl | ⟨body,last,rfl⟩
    · obtain ⟨rfl,same⟩ := List.append_inj' eq rfl
      simp only [List.cons.injEq, and_true] at same
      subst same
      exact ⟨prior,taken,Run.nil⟩
    · have shape : steps ++ [⟨m,i,r,t⟩] = (first ++ x :: body) ++ [last] := by simpa using eq
      obtain ⟨rfl,same⟩ := List.append_inj' shape rfl
      simp only [List.cons.injEq, and_true] at same
      subst same
      obtain ⟨left,middle,right⟩ := ih first x body rfl
      exact ⟨left,middle,by simpa using Run.snoc right taken⟩

/-- Induction over a run with its history: what holds at the start and is kept by
    one more step holds at the end of every run. -/
theorem run_invariant {start s : σ} {steps : List (Step σ ι ρ)}
    (holds : List (Step σ ι ρ) → σ → Prop) (first : holds [] start)
    (keep : ∀ steps s i t r, Run step start steps s → holds steps s →
      step s i = some (t,r) → holds (steps ++ [⟨s,i,r,t⟩]) t)
    (run : Run step start steps s) : holds steps s := by
  induction run with
  | nil => exact first
  | snoc prior taken ih => exact keep _ _ _ _ _ prior ih taken

theorem run_keeps {s t : σ} {steps : List (Step σ ι ρ)} (holds : σ → Prop)
    (allowed shown : Step σ ι ρ → Prop)
    (keep : ∀ x : Step σ ι ρ, holds x.before → step x.before x.input = some (x.after,x.output) →
      allowed x → holds x.after ∧ shown x)
    (run : Run step s steps t) (first : holds s) (all : ∀ x ∈ steps, allowed x) :
    holds t ∧ ∀ x ∈ steps, shown x := by
  induction run with
  | nil =>
    refine ⟨first, ?_⟩
    intro x mem
    cases mem
  | @snoc steps u v i r prior taken ih =>
    obtain ⟨before,earlier⟩ := ih fun x mem => all x (by simp [mem])
    obtain ⟨after,last⟩ := keep ⟨u,i,r,v⟩ before taken (all _ (by simp))
    refine ⟨after, ?_⟩
    intro x mem
    rcases List.mem_append.mp mem with old | new
    · exact earlier x old
    · rw [List.mem_singleton.mp new]
      exact last

theorem run_stays {s t : σ} {steps : List (Step σ ι ρ)} (holds : σ → Prop)
    (keep : ∀ s i t r, holds s → step s i = some (t,r) → holds t)
    (run : Run step s steps t) (first : holds s) : holds t :=
  (run_keeps holds (fun _ => True) (fun _ => True)
    (fun _ before taken _ => ⟨keep _ _ _ _ before taken,trivial⟩) run first fun _ _ => trivial).1

/-- A relation of every element to all that come after it. -/
theorem pairwise_iff_splits {α : Type} {R : α → α → Prop} {xs : List α} :
    xs.Pairwise R ↔ ∀ first x second, xs = first ++ x :: second → ∀ y ∈ second, R x y := by
  constructor
  · rintro pairs first x second rfl y mem
    exact List.rel_of_pairwise_cons (List.pairwise_append.mp pairs).2.1 mem
  · intro splits
    induction xs with
    | nil => exact List.Pairwise.nil
    | cons z zs ih =>
      apply List.Pairwise.cons
      · intro y mem
        exact splits [] z zs rfl y mem
      · apply ih
        intro first x second same
        exact splits (z :: first) x second (by rw [same]; rfl)

theorem run_nil {s t : σ} (run : Run step s [] t) : t = s := by
  generalize empty : [] = steps at run
  cases run with
  | nil => rfl
  | snoc => simp at empty

/-- A run exists for every list of fit inputs when every such step from a good state
    returns a good state. -/
theorem run_exists (good : σ → Prop) (fit : ι → Prop)
    (returns : ∀ s i, good s → fit i → ∃ t r, step s i = some (t,r) ∧ good t)
    (inputs : List ι) : ∀ s, good s → (∀ i ∈ inputs, fit i) →
      ∃ steps t, Run step s steps t ∧ steps.map Step.input = inputs := by
  induction inputs with
  | nil => intro s hs _; exact ⟨[],s,Run.nil,rfl⟩
  | cons i rest ih =>
    intro s hs all
    obtain ⟨t,r,taken,ht⟩ := returns s i hs (all i (by simp))
    obtain ⟨steps,u,run,same⟩ := ih t ht fun j mem => all j (by simp [mem])
    exact ⟨⟨s,i,r,t⟩ :: steps,u,run_cons taken run,by simp [same]⟩

section Stuttering
variable {τ κ : Type} [Preorder κ] {other : τ → ι → Option (τ × ρ)}

structure Alike (R : κ → σ → τ → Prop) (clock : ι → κ) (x : Step σ ι ρ) (y : Step τ ι ρ) :
    Prop where
  before : R (clock x.input) x.before y.before
  input : x.input = y.input
  output : x.output = y.output

/-- Simulation up to hidden steps. The states are related at a time, and the relation
    only grows with it; a hidden step of the left run is answered by no step. -/
theorem run_stuttering {start s : σ} {start' : τ} {steps : List (Step σ ι ρ)}
    (R : κ → σ → τ → Prop) (clock : ι → κ) (visible : ι → Bool)
    (allowed : σ → ι → Prop) (allowed' : τ → ι → Prop)
    (later : ∀ k k' s t, k ≤ k' → R k s t → R k' s t) (first : ∀ k, R k start start')
    (hidden : ∀ s t i s' r, R (clock i) s t → visible i = false → allowed s i →
      step s i = some (s',r) → R (clock i) s' t)
    (together : ∀ s t i s' t' r r', R (clock i) s t → visible i = true → allowed s i →
      allowed' t i → step s i = some (s',r) → other t i = some (t',r') →
      R (clock i) s' t' ∧ r = r')
    (left : Run step start steps s) : ∀ (steps' : List (Step τ ι ρ)) (t : τ),
      Run other start' steps' t → steps'.map Step.input = (steps.map Step.input).filter visible →
      (steps.map fun x => clock x.input).Pairwise (· ≤ ·) →
      (∀ x ∈ steps, allowed x.before x.input) → (∀ y ∈ steps', allowed' y.before y.input) →
      List.Forall₂ (Alike R clock) (steps.filter fun x => visible x.input) steps' ∧
        ∀ k, (∀ x ∈ steps, clock x.input ≤ k) → R k s t := by
  induction left with
  | nil =>
    intro steps' t right same _ _ _
    obtain rfl : steps' = [] := by simpa using same
    obtain rfl := run_nil right
    exact ⟨List.Forall₂.nil, fun k _ => first k⟩
  | @snoc steps s u i r prior taken ih =>
    intro steps' t right same ordered within within'
    rw [List.map_append, List.pairwise_append] at ordered
    obtain ⟨before,_,upTo⟩ := ordered
    have past : ∀ x ∈ steps, clock x.input ≤ clock i := by
      intro x mem
      exact upTo _ (List.mem_map_of_mem mem) _ (by simp)
    have old : ∀ x ∈ steps, allowed x.before x.input := fun x mem => within x (by simp [mem])
    have here : allowed s i := within ⟨s,i,r,u⟩ (by simp)
    cases shown : visible i with
    | false =>
      have shorter : steps'.map Step.input = (steps.map Step.input).filter visible := by
        simpa [shown] using same
      obtain ⟨pairs,related⟩ := ih steps' t right shorter before old within'
      refine ⟨by simpa [shown] using pairs, ?_⟩
      intro k bound
      have now := hidden s t i u r (related _ past) shown here taken
      exact later _ _ _ _ (bound ⟨s,i,r,u⟩ (by simp)) now
    | true =>
      rcases List.eq_nil_or_concat steps' with rfl | ⟨body,y,rfl⟩
      · simp [shown] at same
      · have shape : body.map Step.input ++ [y.input] =
            (steps.map Step.input).filter visible ++ [i] := by simpa [shown] using same
        obtain ⟨shorter,head⟩ := List.append_inj' shape rfl
        obtain rfl : y.input = i := by simpa using head
        obtain ⟨prior',taken',rest⟩ := run_cut right body y [] (by simp)
        obtain rfl := run_nil rest
        obtain ⟨pairs,related⟩ := ih body y.before prior' shorter before old
          fun z mem => within' z (by simp [mem])
        have now := related _ past
        obtain ⟨after,rfl⟩ := together _ _ _ _ _ _ _ now shown here (within' y (by simp))
          taken taken'
        constructor
        · have both := List.rel_append pairs (List.Forall₂.cons
            (⟨now,rfl,rfl⟩ : Alike R clock ⟨s,y.input,y.output,u⟩ y) List.Forall₂.nil)
          simpa [shown] using both
        · intro k bound
          exact later _ _ _ _ (bound ⟨s,y.input,y.output,u⟩ (by simp)) after

end Stuttering
end StepRuns
