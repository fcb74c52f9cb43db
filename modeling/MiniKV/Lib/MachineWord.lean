import Mathlib.Algebra.Ring.Int.Defs
import Mathlib.Algebra.Ring.Nat
import Mathlib.Data.UInt

/- Machine integers as Int with an explicit reduction after every operation.
   A word only has to absorb an earlier reduction, so one development serves
   both two's-complement arithmetic and unbounded arithmetic. -/
namespace MachineWord

structure Word where
  wrap : Int → Int
  absorb : ∀ a b, wrap (wrap a + b) = wrap (a + b)

def int64 : Word := ⟨fun x => Int.bmod x (2 ^ 64), fun _ _ => Int.bmod_add_bmod⟩

def unbounded : Word := ⟨id, fun _ _ => rfl⟩

def InRange (x : Int) : Prop := -2 ^ 63 ≤ x ∧ x < 2 ^ 63

instance (x : Int) : Decidable (InRange x) := inferInstanceAs (Decidable (_ ∧ _))

@[simp] theorem unbounded_wrap (x : Int) : unbounded.wrap x = x := rfl

@[simp] theorem wrap_wrap (w : Word) (a : Int) : w.wrap (w.wrap a) = w.wrap a := by
  simpa using w.absorb a 0

theorem wrap_sub (w : Word) (a b : Int) : w.wrap (w.wrap a - b) = w.wrap (a - b) := by
  simpa [Int.sub_eq_add_neg] using w.absorb a (-b)

theorem int64_exact {x : Int} (range : InRange x) : int64.wrap x = x := by
  obtain ⟨lower,upper⟩ := range
  apply Int.bmod_eq_of_le <;> omega

theorem int64_in_range (x : Int) : InRange (int64.wrap x) := by
  have lower := Int.le_bmod (x := x) (m := 2 ^ 64) (by omega)
  have upper := Int.bmod_lt (x := x) (m := 2 ^ 64) (by omega)
  simp only [InRange, int64]
  omega

theorem int64_exact_iff (x : Int) : int64.wrap x = x ↔ InRange x := by
  constructor
  · intro exact
    rw [← exact]
    exact int64_in_range x
  · exact int64_exact

/-- A sum that is reduced after every term is the sum reduced once. -/
theorem running_total {α : Type} (w : Word) (f : α → Int) (xs : List α) (t : Int) :
    xs.foldl (fun total x => w.wrap (total + f x)) (w.wrap t) = w.wrap (t + (xs.map f).sum) := by
  induction xs generalizing t with
  | nil => simp
  | cons x rest ih =>
    rw [List.foldl_cons, w.absorb, ih, List.map_cons, List.sum_cons, Int.add_assoc]

/-- An unsigned counter that is moved on without running over. -/
theorem uint64_advance {a b : Nat} (grown : a ≤ b)
    (room : (UInt64.ofNat a).toNat + (b - a) < 2 ^ 64) :
    (UInt64.ofNat b).toNat = (UInt64.ofNat a).toNat + (b - a) := by
  simp only [UInt64.toNat_ofNat'] at room ⊢
  omega

theorem uint64_sum {α : Type} (f : α → UInt64) {xs : List α}
    (room : (xs.map fun x => (f x).toNat).sum < 2 ^ 64) :
    (xs.map f).sum.toNat = (xs.map fun x => (f x).toNat).sum := by
  induction xs with
  | nil => rfl
  | cons x rest ih =>
    simp only [List.map_cons, List.sum_cons] at room ⊢
    rw [UInt64.toNat_add, ih (by omega), Nat.mod_eq_of_lt room]

end MachineWord
