import Mathlib.Algebra.BigOperators.Group.List.Basic
import Mathlib.Algebra.Ring.Nat
import Mathlib.Data.List.Forall2
import Mathlib.Data.List.Perm.Basic
import Mathlib.Data.Option.Basic

/- A state cut into parts of which one at a time takes a step. Parts are compared
   one by one, so a relation between single parts carries over to whole states. -/
namespace Partition
variable {α β ρ : Type}

/-- The chosen part steps, the others stand still. None when no part is chosen, or
    when its step does not return. -/
def stepAt (chosen : Option Nat) (step : α → Option (α × ρ)) (parts : List α) :
    Option (List α × ρ) :=
  match chosen with
  | none => none
  | some i =>
    match parts[i]? with
    | none => none
    | some part => (step part).map fun done => (parts.set i done.1, done.2)

variable {chosen : Option Nat} {step : α → Option (α × ρ)} {parts next : List α} {reply : ρ}

theorem stepAt_some_iff : stepAt chosen step parts = some (next,reply) ↔
    ∃ i part after, chosen = some i ∧ parts[i]? = some part ∧
      step part = some (after,reply) ∧ next = parts.set i after := by
  unfold stepAt
  constructor
  · intro done
    split at done
    · cases done
    · rename_i i
      split at done
      · cases done
      · rename_i part here
        simp only [Option.map_eq_some_iff, Prod.mk.injEq, Prod.exists] at done
        obtain ⟨after,r,taken,same,rfl⟩ := done
        exact ⟨i,part,after,rfl,here,taken,same.symm⟩
  · rintro ⟨i,part,after,rfl,here,taken,rfl⟩
    simp [here, taken]

theorem forall₂_set {R : α → β → Prop} {xs : List α} {ys : List β} {x : α} {y : β}
    (related : List.Forall₂ R xs ys) (i : Nat) (pair : R x y) :
    List.Forall₂ R (xs.set i x) (ys.set i y) := by
  induction related generalizing i with
  | nil => exact List.Forall₂.nil
  | cons first rest ih =>
    cases i with
    | zero => exact List.Forall₂.cons pair rest
    | succ i => exact List.Forall₂.cons first (ih i)

/-- The part that changed is related to what it was, the others to themselves. -/
theorem forall₂_set_right {R : α → α → Prop} {xs : List α} {i : Nat} {x y : α}
    (refl : ∀ x, R x x) (here : xs[i]? = some x) (pair : R x y) :
    List.Forall₂ R xs (xs.set i y) := by
  have same : xs = xs.set i x := by
    obtain ⟨inside,rfl⟩ := List.getElem?_eq_some_iff.mp here
    exact (List.set_getElem_self inside).symm
  nth_rewrite 1 [same]
  exact forall₂_set (List.forall₂_same.mpr fun x _ => refl x) i pair

theorem set_take_drop {xs ys : List α} {k : Nat} (here : k < xs.length) (there : k < ys.length) :
    (ys.take k ++ xs.drop k).set k ys[k] = ys.take (k + 1) ++ xs.drop (k + 1) := by
  have length : (ys.take k).length = k := List.length_take_of_le (Nat.le_of_lt there)
  rw [List.drop_eq_getElem_cons here, List.set_append_right _ _ (by omega), length, Nat.sub_self,
    List.set_cons_zero, List.take_succ_eq_append_getElem there, List.append_assoc,
    List.singleton_append]

theorem sum_at {f : α → Nat} {i : Nat} {part : α} (here : parts[i]? = some part) :
    ∃ rest, (parts.map f).sum = f part + rest ∧
      ∀ other, ((parts.set i other).map f).sum = f other + rest := by
  obtain ⟨inside,rfl⟩ := List.getElem?_eq_some_iff.mp here
  refine ⟨((parts.eraseIdx i).map f).sum, ?_, ?_⟩
  · simpa using ((List.getElem_cons_eraseIdx_perm inside).map f).sum_eq.symm
  · intro other
    simpa using ((List.set_perm_cons_eraseIdx inside other).map f).sum_eq

end Partition
