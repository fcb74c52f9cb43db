import MiniKV.Lib.Binary64
import MiniKV.Benchmark.Runner

/- The summary of a phase: least, greatest and mean time of a call, and two percentiles. The
   rank of a percentile is computed in binary64, so its index is that of the exact product
   only as long as the rounding keeps it. -/
namespace BenchmarkModel
open MachineWord LruModel Decimal ProtocolModel ServerModel Binary64

structure Summary where
  count : Int
  min : Duration
  mean : Duration
  p50 : Duration
  p95 : Duration
  max : Duration
  opsPerSec : ℚ
  deriving DecidableEq, Repr

/-- The sample at the rank of a percentile; none is an index out of range. -/
def percentile (sorted : List Duration) (p : ℚ) : Option Duration :=
  let index := ⌈float64 (float64 (p / 100) * float64 sorted.length)⌉ - 1
  let index := if index < 0 then 0 else index
  let index := if index ≥ sorted.length then (sorted.length : Int) - 1 else index
  if index < 0 then none else sorted[index.toNat]?

/-- A duration in seconds, the whole ones apart from the nanoseconds. -/
def seconds (d : Duration) : ℚ :=
  float64 (float64 (d.tdiv 1000000000) + float64 (float64 (d.tmod 1000000000) / 1000000000))

/-- Equal samples are the same number, so every sort gives the same list. -/
def summarize (samples : List Duration) (wallClock : Duration) : Option Summary :=
  if samples = [] then some ⟨0,0,0,0,0,0,0⟩
  else
    let sorted := samples.mergeSort fun a b => decide (a ≤ b)
    let total := sorted.foldl (fun total sample => int64.wrap (total + sample)) 0
    let opsPerSec :=
      if wallClock > 0 then float64 (float64 sorted.length / seconds wallClock) else 0
    match sorted.head?, percentile sorted 50, percentile sorted 95, sorted.getLast? with
    | some min, some p50, some p95, some max =>
      some ⟨sorted.length,min,total.tdiv sorted.length,p50,p95,max,opsPerSec⟩
    | _, _, _, _ => none

structure Result where
  service : Text
  workload : Text
  summary : Summary
  deriving DecidableEq, Repr

/-- What Run returns of the service, the write times and the read times. -/
def results (done : Text × List Duration × List Duration) (writeWall readWall : Duration) :
    Option (List Result) :=
  match summarize done.2.1 writeWall, summarize done.2.2 readWall with
  | some writes, some reads => some [⟨done.1,text "write",writes⟩,⟨done.1,text "read",reads⟩]
  | _, _ => none

end BenchmarkModel

namespace BenchmarkStats
open MachineWord LruModel ServerModel Binary64 BenchmarkModel

/-- At least p percent of the samples do not exceed the value, and no smaller one will do. -/
structure NearestRank (p : Nat) (samples : List Duration) (v : Duration) : Prop where
  mem : v ∈ samples
  reaches : p * samples.length ≤ 100 * samples.countP (· ≤ v)
  least : 100 * samples.countP (· < v) < p * samples.length

structure Describes (samples : List Duration) (s : Summary) : Prop where
  count : s.count = samples.length
  least : s.min ∈ samples ∧ ∀ x ∈ samples, s.min ≤ x
  greatest : s.max ∈ samples ∧ ∀ x ∈ samples, x ≤ s.max
  median : NearestRank 50 samples s.p50
  high : NearestRank 95 samples s.p95
  mean : s.mean = samples.sum.tdiv samples.length
  ordered : s.min ≤ s.p50 ∧ s.p50 ≤ s.p95 ∧ s.p95 ≤ s.max
  between : s.min ≤ s.mean ∧ s.mean ≤ s.max

variable {samples sorted : List Duration} {v : Duration} {k n p : Nat}

/-- The product is rounded to a number on the same side of the integer below it. -/
theorem high_rank (small : n ≤ 2 ^ 48) :
    ⌈float64 (float64 (95 / 100) * float64 n)⌉ = ((95 * n + 99) / 100 : ℕ) := by
  have whole : float64 (n : ℚ) = n := float64_natCast (small.trans_lt (by norm_num))
  rw [whole, float64_ninetyFive]
  obtain ⟨m,rank⟩ : ∃ m, m = (95 * n + 99) / 100 := ⟨_,rfl⟩
  rw [← rank]
  have bound : (n : ℚ) ≤ 2 ^ 48 := by exact_mod_cast small
  have least : (95 * n : ℚ) ≤ 100 * m := by
    have whole : 95 * n ≤ 100 * m := by omega
    exact_mod_cast whole
  -- The share of n is a twentieth or more above the integer below its rank.
  have most : (100 * m : ℚ) ≤ 95 * n + 95 := by
    have whole : 100 * m ≤ 95 * n + 95 := by omega
    exact_mod_cast whole
  rw [Int.ceil_eq_iff]
  constructor
  · have exact_value : Representable ((m : ℚ) - 1 + 1 / 32) := by
      refine ⟨32 * m - 31, -5, ?_, ?_⟩
      · rw [abs_lt]
        constructor <;> omega
      · push_cast
        norm_num
        ring
    have kept := float64_mono (x := (m : ℚ) - 1 + 1 / 32)
      (y := 8556839292003942 / 2 ^ 53 * n) (by linarith)
    rw [float64_exact exact_value] at kept
    push_cast
    linarith
  · have exact_value : float64 (m : ℚ) = m := float64_natCast (by omega)
    have kept := float64_mono (x := 8556839292003942 / 2 ^ 53 * n) (y := (m : ℚ)) (by linarith)
    rw [exact_value] at kept
    exact_mod_cast kept

/-- Half of a whole number is a number of the format. -/
theorem median_rank (small : n ≤ 2 ^ 48) :
    ⌈float64 (float64 (50 / 100) * float64 n)⌉ = ((50 * n + 99) / 100 : ℕ) := by
  have whole : float64 (n : ℚ) = n := float64_natCast (small.trans_lt (by norm_num))
  have half : float64 (50 / 100) = 1 / 2 := by
    rw [float64_exact ⟨1, -1, by norm_num, by norm_num⟩]
    norm_num
  have exact_value : Representable (1 / 2 * (n : ℚ)) := by
    refine ⟨n, -1, ?_, by push_cast; norm_num; ring⟩
    rw [Nat.abs_cast]
    omega
  rw [whole, half, float64_exact exact_value, Int.ceil_eq_iff]
  obtain ⟨m,rank⟩ : ∃ m, m = (50 * n + 99) / 100 := ⟨_,rfl⟩
  rw [← rank]
  have least : (n : ℚ) ≤ 2 * m := by
    have whole : n ≤ 2 * m := by omega
    exact_mod_cast whole
  have most : (2 * m : ℚ) ≤ n + 1 := by
    have whole : 2 * m ≤ n + 1 := by omega
    exact_mod_cast whole
  push_cast
  constructor <;> linarith

/-- In a sorted list the samples before a place do not exceed it, those behind are not
    smaller. -/
theorem place_counts (order : sorted.Pairwise (· ≤ ·)) (here : sorted[k]? = some v) :
    k + 1 ≤ sorted.countP (· ≤ v) ∧ sorted.countP (· < v) ≤ k := by
  obtain ⟨inside,value⟩ := List.getElem?_eq_some_iff.mp here
  have parts : sorted = sorted.take k ++ v :: sorted.drop (k + 1) := by
    rw [← value, ← List.drop_eq_getElem_cons inside, List.take_append_drop]
  have size : (sorted.take k).length = k := by simp [inside.le]
  rw [parts, List.pairwise_append, List.pairwise_cons] at order
  obtain ⟨-,⟨behind,-⟩,before⟩ := order
  have front : (sorted.take k).countP (· ≤ v) = k := by
    rw [List.countP_eq_length.mpr, size]
    intro x mem
    simpa using before x mem v (by simp)
  have back : (v :: sorted.drop (k + 1)).countP (· < v) = 0 := by
    rw [List.countP_eq_zero]
    intro x mem
    rcases List.mem_cons.mp mem with rfl | later
    · simp
    · simpa using behind x later
  constructor
  · rw [parts, List.countP_append, front, List.countP_cons]
    simp
  · rw [parts, List.countP_append, back]
    exact List.countP_le_length.trans size.le

/-- An index that is exact leads to the nearest rank. -/
theorem percentile_nearest (order : sorted.Pairwise (· ≤ ·)) (filled : sorted ≠ [])
    (positive : 0 < p) (share : p ≤ 100)
    (index : ⌈float64 (float64 ((p : ℚ) / 100) * float64 sorted.length)⌉ =
      ((p * sorted.length + 99) / 100 : ℕ)) :
    ∃ v, percentile sorted p = some v ∧ NearestRank p sorted v := by
  have some_sample : 0 < sorted.length := List.length_pos_iff.mpr filled
  have product : 0 < p * sorted.length := Nat.mul_pos positive some_sample
  have room : p * sorted.length ≤ 100 * sorted.length := Nat.mul_le_mul_right _ share
  obtain ⟨k,rank⟩ : ∃ k, (p * sorted.length + 99) / 100 = k + 1 := ⟨_, (Nat.succ_pred (by omega)).symm⟩
  have inside : k < sorted.length := by omega
  have here : sorted[k]? = some sorted[k] := List.getElem?_eq_getElem inside
  obtain ⟨reached,less⟩ := place_counts order here
  refine ⟨sorted[k], ?_, List.getElem_mem inside, by omega, by omega⟩
  rw [rank] at index
  simp only [percentile, index]
  rw [if_neg (by omega), if_neg (by omega), if_neg (by omega)]
  rw [show (((k + 1 : ℕ) : ℤ) - 1).toNat = k by omega, here]

theorem NearestRank.perm (same : sorted.Perm samples)
    (rank : NearestRank p sorted v) : NearestRank p samples v where
  mem := same.mem_iff.mp rank.mem
  reaches := by
    rw [← same.length_eq, ← same.countP_eq]
    exact rank.reaches
  least := by
    rw [← same.length_eq, ← same.countP_eq]
    exact rank.least

theorem ranks_ordered {low high : Nat} {u v : Duration} (below : low ≤ high)
    (left : NearestRank low samples u) (right : NearestRank high samples v) : u ≤ v := by
  by_contra past
  have fewer : samples.countP (· ≤ v) ≤ samples.countP (· < u) := by
    refine List.countP_mono_left fun x _ within => ?_
    simp only [decide_eq_true_eq] at within ⊢
    exact within.trans_lt (lt_of_not_ge past)
  have room : low * samples.length ≤ high * samples.length := Nat.mul_le_mul_right _ below
  have reached := right.reaches
  have least := left.least
  omega

theorem sum_between {low high : Int} (bounds : ∀ x ∈ samples, low ≤ x ∧ x ≤ high) :
    low * samples.length ≤ samples.sum ∧ samples.sum ≤ high * samples.length := by
  induction samples with
  | nil => simp
  | cons x rest ih =>
    obtain ⟨below,above⟩ := ih fun y mem => bounds y (by simp [mem])
    obtain ⟨first,last⟩ := bounds x (by simp)
    simp only [List.sum_cons, List.length_cons, Nat.cast_add, Nat.cast_one, mul_add, mul_one]
    constructor <;> linarith

/-- The mean is cut off towards zero and still between the least and the greatest. -/
theorem mean_between {low high : Int} (filled : samples ≠ [])
    (bounds : ∀ x ∈ samples, low ≤ x ∧ x ≤ high) :
    low ≤ samples.sum.tdiv samples.length ∧ samples.sum.tdiv samples.length ≤ high := by
  have positive : (0 : Int) < samples.length := by exact_mod_cast List.length_pos_iff.mpr filled
  obtain ⟨below,above⟩ := sum_between bounds
  constructor
  · calc low = (low * samples.length).tdiv samples.length := (Int.mul_tdiv_cancel _ positive.ne').symm
      _ ≤ samples.sum.tdiv samples.length := Int.tdiv_le_tdiv positive below
  · calc samples.sum.tdiv samples.length
        ≤ (high * samples.length).tdiv samples.length := Int.tdiv_le_tdiv positive above
      _ = high := Int.mul_tdiv_cancel _ positive.ne'

def sortedSamples (samples : List Duration) : List Duration :=
  samples.mergeSort fun a b => decide (a ≤ b)

theorem sorted_perm (samples : List Duration) : (sortedSamples samples).Perm samples :=
  List.mergeSort_perm _ _

theorem sorted_pairwise (samples : List Duration) :
    (sortedSamples samples).Pairwise (· ≤ ·) := by
  have order : (sortedSamples samples).Pairwise fun a b => decide (a ≤ b) = true :=
    List.pairwise_mergeSort (by simpa using fun a b c => Int.le_trans)
      (by simpa using Int.le_total) samples
  exact order.imp fun below => of_decide_eq_true below

/-- The order in which the samples came does not count. -/
theorem summarize_perm {other : List Duration} (same : samples.Perm other) (wall : Duration) :
    summarize samples wall = summarize other wall := by
  have sorted : sortedSamples samples = sortedSamples other :=
    List.Perm.eq_of_pairwise (fun a b _ _ => Int.le_antisymm) (sorted_pairwise samples)
      (sorted_pairwise other) ((sorted_perm samples).trans (same.trans (sorted_perm other).symm))
  unfold sortedSamples at sorted
  unfold summarize
  by_cases none_taken : samples = []
  · rw [if_pos none_taken, if_pos (by simpa [none_taken] using same)]
  · have taken : other ≠ [] := fun gone => none_taken (by simpa [gone] using same)
    rw [if_neg none_taken, if_neg taken, sorted]

theorem ends_bound {first last : Duration} (order : sorted.Pairwise (· ≤ ·))
    (head : sorted.head? = some first) (tail : sorted.getLast? = some last) :
    (first ∈ sorted ∧ ∀ x ∈ sorted, first ≤ x) ∧ (last ∈ sorted ∧ ∀ x ∈ sorted, x ≤ last) := by
  refine ⟨⟨List.mem_of_mem_head? head, ?_⟩, List.mem_of_getLast? tail, ?_⟩
  · obtain ⟨rest,rfl⟩ := List.head?_eq_some_iff.mp head
    intro x mem
    rcases List.mem_cons.mp mem with rfl | later
    · exact le_refl x
    · exact List.rel_of_pairwise_cons order later
  · obtain ⟨front,rfl⟩ := List.getLast?_eq_some_iff.mp tail
    intro x mem
    rcases List.mem_append.mp mem with earlier | own
    · exact (List.pairwise_append.mp order).2.2 x earlier last (by simp)
    · rw [List.mem_singleton.mp own]

theorem summarize_describes (filled : samples ≠ []) (few : samples.length ≤ 2 ^ 48)
    (range : InRange samples.sum) (wall : Duration) :
    ∃ s, summarize samples wall = some s ∧ Describes samples s := by
  have perm := sorted_perm samples
  have order := sorted_pairwise samples
  obtain ⟨sorted,same⟩ : ∃ sorted, sorted = sortedSamples samples := ⟨_,rfl⟩
  rw [← same] at perm order
  have size : sorted.length = samples.length := perm.length_eq
  have rest : sorted ≠ [] := fun gone => filled (by simpa [gone] using perm)
  obtain ⟨median,p50,middle⟩ := percentile_nearest order rest (p := 50) (by omega) (by omega)
    (median_rank (by omega))
  obtain ⟨high,p95,upper⟩ := percentile_nearest order rest (p := 95) (by omega) (by omega)
    (high_rank (by omega))
  have total := running_total int64 (fun sample => sample) sorted 0
  rw [List.map_id', zero_add, perm.sum_eq, int64_exact range] at total
  obtain ⟨first,head⟩ : ∃ x, sorted.head? = some x := ⟨_, List.head?_eq_some_head rest⟩
  obtain ⟨last,tail⟩ : ∃ x, sorted.getLast? = some x := ⟨_, List.getLast?_eq_some_getLast rest⟩
  obtain ⟨⟨least,below⟩,greatest,above⟩ := ends_bound order head tail
  have bounds : ∀ x ∈ samples, first ≤ x ∧ x ≤ last := fun x mem =>
    ⟨below x (perm.mem_iff.mpr mem), above x (perm.mem_iff.mpr mem)⟩
  refine ⟨⟨sorted.length,first,samples.sum.tdiv sorted.length,median,high,last,
    if wall > 0 then float64 (float64 sorted.length / seconds wall) else 0⟩, ?_, ?_⟩
  · unfold sortedSamples at same
    simp only [summarize, if_neg filled, ← same, head, tail]
    rw [show percentile sorted 50 = some median from p50,
      show percentile sorted 95 = some high from p95]
    simp only [← total]
    rfl
  · exact {
      count := by rw [size]
      least := ⟨perm.mem_iff.mp least, fun x mem => (bounds x mem).1⟩
      greatest := ⟨perm.mem_iff.mp greatest, fun x mem => (bounds x mem).2⟩
      median := middle.perm perm
      high := upper.perm perm
      mean := by rw [size]
      ordered := ⟨below _ middle.mem, ranks_ordered (by omega) middle upper, above _ upper.mem⟩
      between := by
        rw [size]
        exact mean_between filled bounds }

end BenchmarkStats
