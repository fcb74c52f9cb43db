import Mathlib.Order.Monotone.Basic
import MiniKV.Benchmark.Runner
import MiniKV.Lib.Slices

/- The keys of a workload: the slices of the workers cut the indices into consecutive
   ranges, and a key tells its run and its index. -/
namespace BenchmarkKeyspace
open MachineWord LruModel Decimal Slices ProtocolModel ServerModel BenchmarkModel

/-- Where the slice of a worker begins. -/
def sliceBound (total concurrency : Int) (w : Nat) : Int :=
  w * total.tdiv concurrency + min (w : Int) (total.tmod concurrency)

/-- The ranges of the workers, one behind the other. No step of the computation leaves the
    numbers up to the total, so the machine's integers give the same. -/
structure Partitions (total concurrency : Int) : Prop where
  first : (workerSlice total concurrency 0).1 = 0
  last : (workerSlice total concurrency (concurrency - 1)).2 = total
  consecutive : ∀ w, 0 ≤ w → w + 1 < concurrency →
    (workerSlice total concurrency w).2 = (workerSlice total concurrency (w + 1)).1
  nonempty : ∀ w, 0 ≤ w → w < concurrency →
    (workerSlice total concurrency w).1 < (workerSlice total concurrency w).2
  even : ∀ v w, 0 ≤ v → v < concurrency → 0 ≤ w → w < concurrency →
    (workerSlice total concurrency v).2 - (workerSlice total concurrency v).1 ≤
      (workerSlice total concurrency w).2 - (workerSlice total concurrency w).1 + 1
  inside : ∀ w, 0 ≤ w → w < concurrency → 0 ≤ w * total.tdiv concurrency ∧
    w * total.tdiv concurrency ≤ (workerSlice total concurrency w).1 ∧
    (workerSlice total concurrency w).2 ≤ total

section Arithmetic
variable {total concurrency : Int}

theorem workerSlice_bounds (total concurrency : Int) (w : Nat) :
    workerSlice total concurrency w =
      (sliceBound total concurrency w,sliceBound total concurrency (w + 1)) := by
  have next : ((w + 1 : Nat) : Int) * total.tdiv concurrency =
      w * total.tdiv concurrency + total.tdiv concurrency := by
    push_cast
    ring
  unfold workerSlice sliceBound
  dsimp only
  rw [next]
  split <;> simp only [Prod.mk.injEq, true_and] <;> omega

theorem sliceBound_succ (total concurrency : Int) (w : Nat) :
    sliceBound total concurrency (w + 1) = sliceBound total concurrency w +
      (total.tdiv concurrency + if (w : Int) < total.tmod concurrency then 1 else 0) := by
  have next : ((w + 1 : Nat) : Int) * total.tdiv concurrency =
      w * total.tdiv concurrency + total.tdiv concurrency := by
    push_cast
    ring
  unfold sliceBound
  rw [next]
  split <;> omega

variable (positive : 1 ≤ concurrency)
include positive

theorem sliceBound_last : sliceBound total concurrency concurrency.toNat = total := by
  have whole := Int.mul_tdiv_add_tmod total concurrency
  have small := Int.tmod_lt_of_pos total (show 0 < concurrency by omega)
  have size : (concurrency.toNat : Int) = concurrency := by omega
  rw [sliceBound, size]
  omega

variable (enough : concurrency ≤ total)
include enough

theorem base_positive : 1 ≤ total.tdiv concurrency := by
  have whole := Int.mul_tdiv_add_tmod total concurrency
  have small := Int.tmod_lt_of_pos total (show 0 < concurrency by omega)
  have sign : 0 ≤ total.tdiv concurrency := Int.tdiv_nonneg (by omega) (by omega)
  by_contra none
  have zero : total.tdiv concurrency = 0 := by omega
  rw [zero, Int.mul_zero] at whole
  omega

theorem sliceBound_first : sliceBound total concurrency 0 = 0 := by
  have sign := Int.tmod_nonneg concurrency (show 0 ≤ total by omega)
  simp only [sliceBound, Nat.cast_zero, Int.zero_mul]
  omega

theorem sliceBound_monotone {v w : Nat} (le : v ≤ w) :
    sliceBound total concurrency v ≤ sliceBound total concurrency w := by
  have base := base_positive positive enough
  refine monotone_nat_of_le_succ ?_ le
  intro w
  rw [sliceBound_succ]
  split <;> omega

theorem workerSlice_partitions : Partitions total concurrency := by
  have base := base_positive positive enough
  have slice : ∀ w : Int, 0 ≤ w → workerSlice total concurrency w =
      (sliceBound total concurrency w.toNat,sliceBound total concurrency (w.toNat + 1)) := by
    intro w sign
    have size : (w.toNat : Int) = w := by omega
    rw [← workerSlice_bounds, size]
  constructor
  · rw [slice 0 (by omega)]
    exact sliceBound_first positive enough
  · have size : (concurrency - 1).toNat + 1 = concurrency.toNat := by omega
    rw [slice _ (by omega), size]
    exact sliceBound_last positive
  · intro w sign _
    have size : (w + 1).toNat = w.toNat + 1 := by omega
    rw [slice w sign, slice _ (by omega), size]
  · intro w sign _
    rw [slice w sign, sliceBound_succ]
    dsimp only
    split <;> omega
  · intro v w signV _ signW _
    rw [slice v signV, slice w signW, sliceBound_succ, sliceBound_succ]
    dsimp only
    split <;> split <;> omega
  · intro w sign small
    have size : (w.toNat : Int) = w := by omega
    have extra := Int.tmod_nonneg concurrency (show 0 ≤ total by omega)
    have last : sliceBound total concurrency concurrency.toNat = total := sliceBound_last positive
    have upTo : sliceBound total concurrency (w.toNat + 1) ≤
        sliceBound total concurrency concurrency.toNat :=
      sliceBound_monotone positive enough (by omega)
    rw [slice w sign]
    refine ⟨Int.mul_nonneg sign (by omega), ?_, by dsimp only; omega⟩
    simp only [sliceBound, size]
    omega

end Arithmetic

/-- Run and index can be read back from a key. -/
theorem workloadKey_inj {keyPrefix : Text} {run run' index index' : Int}
    (same : workloadKey keyPrefix run index = workloadKey keyPrefix run' index') :
    run = run' ∧ index = index' := by
  have colon : text ":" = [58] := by decide
  have absent : ∀ n : Int, (58 : UInt8) ∉ formatInt n := by
    intro n mem
    rcases mem_formatInt mem with sign | digit
    · cases sign
    · cases digit
  simp only [workloadKey, colon, List.append_assoc, List.cons_append,
    List.append_cancel_left_eq, List.cons.injEq, true_and] at same
  obtain ⟨runs,_,indices⟩ :=
    (List.append_cons_inj_of_notMem (absent run) (absent index)).mp same
  exact ⟨formatInt_inj runs,formatInt_inj indices⟩

end BenchmarkKeyspace
