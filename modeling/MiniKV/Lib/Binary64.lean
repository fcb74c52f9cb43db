import Mathlib.Data.Int.Log
import Mathlib.Data.Rat.Floor
import Mathlib.Tactic.Linarith
import Mathlib.Tactic.NormNum

/- Numbers of 53 significant bits, as rationals. The result of an operation is the exact one,
   rounded to the nearest such number, to the even one of two that are equally near. The
   exponent is not bounded: what is computed here is a whole number below 2 ^ 64, or a product
   or quotient of two of them. -/
namespace Binary64

/-- The nearest integer, the even one of two. -/
def tieEven (x : ℚ) : ℤ :=
  if x - ⌊x⌋ < 1 / 2 then ⌊x⌋
  else if 1 / 2 < x - ⌊x⌋ then ⌊x⌋ + 1
  else if ⌊x⌋ % 2 = 0 then ⌊x⌋ else ⌊x⌋ + 1

/-- The distance of the numbers around a positive one. -/
def spacing (x : ℚ) : ℚ := 2 ^ (Int.log 2 x - 52)

def magnitude (x : ℚ) : ℚ := tieEven (x / spacing x) * spacing x

def float64 (x : ℚ) : ℚ := if x < 0 then -magnitude (-x) else magnitude x

def Representable (x : ℚ) : Prop := ∃ m e : ℤ, |m| < 2 ^ 53 ∧ x = m * 2 ^ e

variable {x y : ℚ}

theorem tieEven_floor (x : ℚ) : ⌊x⌋ ≤ tieEven x ∧ tieEven x ≤ ⌊x⌋ + 1 := by
  unfold tieEven
  split
  · omega
  · split
    · omega
    · split <;> omega

theorem tieEven_int (m : ℤ) : tieEven m = m := by
  simp [tieEven]

theorem tieEven_mono (below : x ≤ y) : tieEven x ≤ tieEven y := by
  have floors : ⌊x⌋ ≤ ⌊y⌋ := Int.floor_le_floor below
  rcases Int.lt_or_eq_of_le floors with less | same
  · have upper := (tieEven_floor x).2
    have lower := (tieEven_floor y).1
    omega
  · -- Both lie above one integer: the nearer one to it is not rounded past the other.
    unfold tieEven
    rw [same]
    split_ifs <;> first | omega | (exfalso; linarith)

theorem spacing_pos (x : ℚ) : 0 < spacing x := zpow_pos (by norm_num) _

/-- A positive number measured in its spacing has 53 bits. -/
theorem scaled_bounds (positive : 0 < x) : 2 ^ 52 ≤ x / spacing x ∧ x / spacing x < 2 ^ 53 := by
  have lower : (2 : ℚ) ^ Int.log 2 x ≤ x := by
    exact_mod_cast Int.zpow_log_le_self (by norm_num) positive
  have upper : x < (2 : ℚ) ^ (Int.log 2 x + 1) := by
    exact_mod_cast Int.lt_zpow_succ_log_self (by norm_num) x
  have bottom : (2 : ℚ) ^ 52 * spacing x = 2 ^ Int.log 2 x := by
    rw [spacing, ← zpow_natCast, ← zpow_add₀ (by norm_num)]
    congr 1
    push_cast
    ring
  have top : (2 : ℚ) ^ 53 * spacing x = 2 ^ (Int.log 2 x + 1) := by
    rw [spacing, ← zpow_natCast, ← zpow_add₀ (by norm_num)]
    congr 1
    push_cast
    ring
  constructor
  · rw [le_div_iff₀ (spacing_pos x), bottom]
    exact lower
  · rw [div_lt_iff₀ (spacing_pos x), top]
    exact upper

/-- Rounding does not leave the interval between two powers of two. -/
theorem magnitude_bounds (positive : 0 < x) :
    2 ^ 52 * spacing x ≤ magnitude x ∧ magnitude x ≤ 2 ^ 53 * spacing x := by
  obtain ⟨lower,upper⟩ := scaled_bounds positive
  have least : (2 ^ 52 : ℤ) ≤ tieEven (x / spacing x) := by
    have kept := tieEven_mono (x := ((2 ^ 52 : ℤ) : ℚ)) (y := x / spacing x) (by exact_mod_cast lower)
    rwa [tieEven_int] at kept
  have most : tieEven (x / spacing x) ≤ (2 ^ 53 : ℤ) := by
    have kept := tieEven_mono (x := x / spacing x) (y := ((2 ^ 53 : ℤ) : ℚ))
      (by exact_mod_cast upper.le)
    rwa [tieEven_int] at kept
  have least' : (2 : ℚ) ^ 52 ≤ tieEven (x / spacing x) := by exact_mod_cast least
  have most' : (tieEven (x / spacing x) : ℚ) ≤ 2 ^ 53 := by exact_mod_cast most
  exact ⟨mul_le_mul_of_nonneg_right least' (spacing_pos x).le,
    mul_le_mul_of_nonneg_right most' (spacing_pos x).le⟩

theorem magnitude_pos (positive : 0 < x) : 0 < magnitude x := by
  have bound := (magnitude_bounds positive).1
  have room : 0 < 2 ^ 52 * spacing x := mul_pos (by norm_num) (spacing_pos x)
  linarith

theorem magnitude_mono (positive : 0 < x) (below : x ≤ y) : magnitude x ≤ magnitude y := by
  have logs : Int.log 2 x ≤ Int.log 2 y := Int.log_mono_right positive below
  rcases Int.lt_or_eq_of_le logs with less | same
  · -- Between different powers of two both stay on their side of the upper one.
    have upper := (magnitude_bounds positive).2
    have lower := (magnitude_bounds (positive.trans_le below)).1
    have step : (2 : ℚ) ^ 53 * spacing x ≤ 2 ^ 52 * spacing y := by
      have power : (2 : ℚ) ^ (Int.log 2 x - 52 + 1) ≤ 2 ^ (Int.log 2 y - 52) :=
        zpow_le_zpow_right₀ (by norm_num) (by omega)
      rw [zpow_add₀ (by norm_num), zpow_one] at power
      unfold spacing
      linarith
    linarith
  · have equal : spacing x = spacing y := by rw [spacing, spacing, same]
    unfold magnitude
    rw [equal]
    have scaled : x / spacing y ≤ y / spacing y := div_le_div_of_nonneg_right below (spacing_pos y).le
    have rounded : (tieEven (x / spacing y) : ℚ) ≤ tieEven (y / spacing y) := by
      exact_mod_cast tieEven_mono scaled
    exact mul_le_mul_of_nonneg_right rounded (spacing_pos y).le

theorem magnitude_zero : magnitude 0 = 0 := by
  have tie := tieEven_int 0
  simp only [Int.cast_zero] at tie
  simp [magnitude, tie]

theorem magnitude_nonneg (nonneg : 0 ≤ x) : 0 ≤ magnitude x := by
  rcases nonneg.lt_or_eq with positive | zero
  · exact (magnitude_pos positive).le
  · rw [← zero, magnitude_zero]

theorem float64_mono (below : x ≤ y) : float64 x ≤ float64 y := by
  unfold float64
  split
  · rename_i negative
    split
    · rename_i negative'
      have flipped := magnitude_mono (x := -y) (y := -x) (by linarith) (by linarith)
      linarith
    · rename_i nonneg
      have left := magnitude_pos (x := -x) (by linarith)
      have right := magnitude_nonneg (x := y) (by linarith)
      linarith
  · rename_i nonneg
    rw [if_neg (by linarith)]
    rcases (not_lt.mp nonneg).lt_or_eq with positive | zero
    · exact magnitude_mono positive below
    · rw [← zero, magnitude_zero]
      exact magnitude_nonneg (by linarith)

theorem magnitude_exact {m : ℤ} {e : ℤ} (positive : 0 < m) (small : m < 2 ^ 53) :
    magnitude (m * 2 ^ e) = m * 2 ^ e := by
  have power : (0 : ℚ) < 2 ^ e := zpow_pos (by norm_num) _
  have above : (0 : ℚ) < m * 2 ^ e := mul_pos (by exact_mod_cast positive) power
  -- The mantissa is measured in a spacing that is not wider than its own unit.
  have fine : Int.log 2 ((m : ℚ) * 2 ^ e) - 52 ≤ e := by
    have lower : (2 : ℚ) ^ Int.log 2 ((m : ℚ) * 2 ^ e) ≤ m * 2 ^ e := by
      exact_mod_cast Int.zpow_log_le_self (by norm_num) above
    have bits : (m : ℚ) < 2 ^ (53 : ℤ) := by exact_mod_cast small
    have upper : (m : ℚ) * 2 ^ e < 2 ^ (53 + e) := by
      rw [zpow_add₀ (by norm_num)]
      exact mul_lt_mul_of_pos_right bits power
    have exponents := (zpow_lt_zpow_iff_right₀ (by norm_num : (1 : ℚ) < 2)).mp (lower.trans_lt upper)
    omega
  obtain ⟨k,gap⟩ := Int.eq_ofNat_of_zero_le (Int.sub_nonneg.mpr fine)
  have whole : (m : ℚ) * 2 ^ e / spacing (m * 2 ^ e) = ((m * 2 ^ k : ℤ) : ℚ) := by
    rw [spacing, mul_div_assoc, ← zpow_sub₀ (by norm_num), gap]
    push_cast
    rw [zpow_natCast]
  rw [magnitude, whole, tieEven_int, ← whole, div_mul_cancel₀ _ (spacing_pos _).ne']

/-- A number of the format is its own rounding. -/
theorem float64_exact (exact_value : Representable x) : float64 x = x := by
  obtain ⟨m,e,small,rfl⟩ := exact_value
  have power : (0 : ℚ) < 2 ^ e := zpow_pos (by norm_num) _
  rcases lt_trichotomy m 0 with negative | rfl | positive
  · have below : (m : ℚ) * 2 ^ e < 0 := mul_neg_of_neg_of_pos (by exact_mod_cast negative) power
    have flipped := magnitude_exact (m := -m) (e := e) (by omega)
      (by rwa [abs_of_neg negative] at small)
    rw [float64, if_pos below]
    push_cast at flipped
    rw [← neg_mul, flipped]
    ring
  · simp [float64, magnitude_zero]
  · have above : 0 < (m : ℚ) * 2 ^ e := mul_pos (by exact_mod_cast positive) power
    rw [float64, if_neg (not_lt.mpr above.le)]
    exact magnitude_exact positive (by rwa [abs_of_pos positive] at small)

/-- A number is rounded to the one just below it when that is nearer. -/
theorem float64_down {m e : ℤ} (least : 2 ^ 52 ≤ m) (most : m < 2 ^ 53) (below : m * 2 ^ e ≤ x)
    (near : x < (m + 1 / 2) * 2 ^ e) : float64 x = m * 2 ^ e := by
  have power : (0 : ℚ) < 2 ^ e := zpow_pos (by norm_num) _
  have low : (2 : ℚ) ^ (52 : ℤ) ≤ m := by exact_mod_cast least
  have high : (m : ℚ) + 1 ≤ 2 ^ (53 : ℤ) := by exact_mod_cast most
  have positive : 0 < x := by
    have above : (0 : ℚ) < m * 2 ^ e := mul_pos (by linarith [zpow_pos (by norm_num : (0 : ℚ) < 2) 52]) power
    linarith
  have exponent : Int.log 2 x = e + 52 := by
    have lower : (2 : ℚ) ^ (e + 52) ≤ x := by
      rw [zpow_add₀ (by norm_num), mul_comm]
      exact (mul_le_mul_of_nonneg_right low power.le).trans below
    have upper : x < (2 : ℚ) ^ (e + 53) := by
      rw [zpow_add₀ (by norm_num), mul_comm ((2 : ℚ) ^ e)]
      exact near.trans_le (mul_le_mul_of_nonneg_right (by linarith) power.le)
    have floor : (2 : ℚ) ^ Int.log 2 x ≤ x := by
      exact_mod_cast Int.zpow_log_le_self (by norm_num) positive
    have next : x < (2 : ℚ) ^ (Int.log 2 x + 1) := by
      exact_mod_cast Int.lt_zpow_succ_log_self (by norm_num) x
    have first := (zpow_lt_zpow_iff_right₀ (by norm_num : (1 : ℚ) < 2)).mp (floor.trans_lt upper)
    have second := (zpow_lt_zpow_iff_right₀ (by norm_num : (1 : ℚ) < 2)).mp (lower.trans_lt next)
    omega
  have unit : spacing x = 2 ^ e := by rw [spacing, exponent, add_sub_cancel_right]
  have scaled : (m : ℚ) ≤ x / 2 ^ e ∧ x / 2 ^ e < m + 1 / 2 :=
    ⟨(le_div_iff₀ power).mpr below, (div_lt_iff₀ power).mpr near⟩
  have whole : ⌊x / 2 ^ e⌋ = m := Int.floor_eq_iff.mpr ⟨scaled.1, by linarith⟩
  rw [float64, if_neg (not_lt.mpr positive.le), magnitude, unit, tieEven, whole,
    if_pos (by linarith)]

theorem float64_natCast {n : ℕ} (small : n < 2 ^ 53) : float64 n = n := by
  refine float64_exact ⟨n, 0, ?_, by simp⟩
  rw [Nat.abs_cast]
  exact_mod_cast small

/-- 0.95 lies between two numbers of the format and is nearer to the lower one. -/
theorem float64_ninetyFive : float64 (95 / 100) = 8556839292003942 / 2 ^ 53 := by
  have near := float64_down (x := 95 / 100) (m := 8556839292003942) (e := -53) (by norm_num)
    (by norm_num) (by norm_num) (by norm_num)
  rw [near]
  norm_num

end Binary64
