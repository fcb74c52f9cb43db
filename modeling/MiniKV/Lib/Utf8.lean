import Mathlib.Algebra.Ring.Nat
import Mathlib.Data.List.Basic

/- Reading a byte string as runes. A byte that does not start a well-formed sequence
   is a rune of its own with the replacement code, so every byte string can be read,
   and an ASCII byte always stands for itself. -/
namespace Utf8

structure Rune where
  code : Nat
  raw : List UInt8
  deriving DecidableEq, Repr

def runeError : Nat := 0xFFFD

def within (lo hi : Nat) (b : UInt8) : Bool := decide (lo ≤ b.toNat) && decide (b.toNat ≤ hi)

/-- For the first byte of a longer sequence, the number of bytes that follow it and the
    range of the second byte. Overlong forms, surrogates and codes above 10FFFF are
    excluded by the ranges. -/
def leading (b : UInt8) : Option (Nat × Nat × Nat) :=
  if within 0xC2 0xDF b then some (1, 0x80, 0xBF)
  else if within 0xE0 0xE0 b then some (2, 0xA0, 0xBF)
  else if within 0xED 0xED b then some (2, 0x80, 0x9F)
  else if within 0xE1 0xEF b then some (2, 0x80, 0xBF)
  else if within 0xF0 0xF0 b then some (3, 0x90, 0xBF)
  else if within 0xF4 0xF4 b then some (3, 0x80, 0x8F)
  else if within 0xF1 0xF3 b then some (3, 0x80, 0xBF)
  else none

def continues (lo hi : Nat) : List UInt8 → Bool
  | [] => true
  | b :: rest => within lo hi b && rest.all (within 0x80 0xBF)

def firstRune (b : UInt8) (rest : List UInt8) : Rune :=
  if b.toNat < 0x80 then ⟨b.toNat,[b]⟩
  else
    match leading b with
    | none => ⟨runeError,[b]⟩
    | some (more,lo,hi) =>
      let tail := rest.take more
      if tail.length = more && continues lo hi tail then
        ⟨tail.foldl (fun code x => code * 64 + x.toNat % 64) (b.toNat % 2 ^ (6 - more)), b :: tail⟩
      else ⟨runeError,[b]⟩

def readRunes : Nat → List UInt8 → List Rune
  | 0, _ => []
  | _ + 1, [] => []
  | fuel + 1, b :: rest =>
    let rune := firstRune b rest
    rune :: readRunes fuel (rest.drop (rune.raw.length - 1))

def runes (bytes : List UInt8) : List Rune := readRunes bytes.length bytes

variable {b c : UInt8} {xs ys rest : List UInt8} {n m : Nat}

theorem firstRune_ascii (small : b.toNat < 0x80) : firstRune b rest = ⟨b.toNat,[b]⟩ :=
  if_pos small

theorem firstRune_raw (b : UInt8) (rest : List UInt8) :
    ∃ k ≤ rest.length, (firstRune b rest).raw = b :: rest.take k := by
  unfold firstRune
  split
  · exact ⟨0, Nat.zero_le _, rfl⟩
  · split
    · exact ⟨0, Nat.zero_le _, rfl⟩
    · rename_i more lo hi _
      dsimp only
      split
      · rename_i accepted
        simp only [List.length_take, Bool.and_eq_true, decide_eq_true_eq] at accepted
        exact ⟨more, by omega, rfl⟩
      · exact ⟨0, Nat.zero_le _, rfl⟩

theorem within_ascii (small : c.toNat < 0x80) {lo hi : Nat} (high : 0x80 ≤ lo) :
    within lo hi c = false := by
  simp only [within, Bool.and_eq_false_iff, decide_eq_false_iff_not]
  omega

theorem leading_range {more lo hi : Nat} (start : leading b = some (more,lo,hi)) :
    0x80 ≤ lo ∧ hi ≤ 0xBF := by
  unfold leading at start
  repeat' split at start
  all_goals simp only [Option.some.injEq, Prod.mk.injEq, reduceCtorEq] at start
  all_goals omega

theorem within_narrow {lo hi : Nat} (range : 0x80 ≤ lo ∧ hi ≤ 0xBF)
    (starts : within 0x80 0xBF c = false) : within lo hi c = false := by
  simp only [within, Bool.and_eq_false_iff, decide_eq_false_iff_not] at starts ⊢
  omega

theorem continues_start {lo hi : Nat} (range : 0x80 ≤ lo ∧ hi ≤ 0xBF)
    (starts : within 0x80 0xBF c = false) : continues lo hi (xs ++ c :: ys) = false := by
  cases xs with
  | nil => simp [continues, within_narrow range starts]
  | cons x xs => simp [continues, starts]

/-- What stands behind a byte that continues no sequence does not change the rune before
    it. -/
theorem firstRune_append (starts : within 0x80 0xBF c = false) :
    firstRune b (xs ++ c :: ys) = firstRune b xs := by
  unfold firstRune
  split
  · rfl
  · cases start : leading b with
    | none => rfl
    | some sequence =>
      obtain ⟨more,lo,hi⟩ := sequence
      dsimp only
      by_cases long : more ≤ xs.length
      · rw [List.take_append_of_le_length long]
      · obtain ⟨k,rfl⟩ : ∃ k, more = xs.length + (k + 1) := ⟨more - xs.length - 1, by omega⟩
        have shape : (xs ++ c :: ys).take (xs.length + (k + 1)) = xs ++ c :: ys.take k := by
          rw [List.take_append, List.take_of_length_le (by omega)]
          simp
        rw [shape, continues_start (leading_range start) starts]
        simp

/-- A rune that is not an error is complete: bytes behind it do not change it. -/
theorem firstRune_complete (valid : (firstRune b xs).code ≠ runeError) :
    firstRune b (xs ++ ys) = firstRune b xs := by
  unfold firstRune at valid ⊢
  split
  · rfl
  · rename_i high
    rw [if_neg high] at valid
    cases start : leading b with
    | none => rfl
    | some sequence =>
      obtain ⟨more,lo,hi⟩ := sequence
      simp only [start] at valid
      dsimp only
      split at valid
      · rename_i accepted
        simp only [List.length_take, Bool.and_eq_true, decide_eq_true_eq] at accepted
        rw [List.take_append_of_le_length (by omega)]
      · exact absurd rfl valid

theorem firstRune_starts (valid : (firstRune b xs).code ≠ runeError) :
    within 0x80 0xBF b = false := by
  by_contra continuation
  simp only [Bool.not_eq_false, within, Bool.and_eq_true, decide_eq_true_eq] at continuation
  have none : leading b = none := by
    unfold leading
    repeat rw [if_neg (by simp only [within, Bool.and_eq_true, decide_eq_true_eq]; omega)]
  rw [firstRune, if_neg (by omega), none] at valid
  exact valid rfl

theorem readRunes_fuel (enough : xs.length ≤ n) : readRunes n xs = readRunes xs.length xs := by
  induction n using Nat.strongRecOn generalizing xs with
  | ind n ih =>
    cases xs with
    | nil => cases n <;> rfl
    | cons b rest =>
      cases n with
      | zero => simp at enough
      | succ n =>
        have short : (rest.drop ((firstRune b rest).raw.length - 1)).length ≤ rest.length := by
          simp
        simp only [List.length_cons] at enough
        simp only [readRunes, List.length_cons]
        rw [ih n (by omega) (by omega), ← ih rest.length (by omega) short]

theorem runes_cons (b : UInt8) (rest : List UInt8) :
    runes (b :: rest) =
      firstRune b rest :: runes (rest.drop ((firstRune b rest).raw.length - 1)) := by
  have short : (rest.drop ((firstRune b rest).raw.length - 1)).length ≤ rest.length := by simp
  simp only [runes, List.length_cons, readRunes]
  rw [readRunes_fuel short]

theorem runes_ascii_cons (small : c.toNat < 0x80) (ys : List UInt8) :
    runes (c :: ys) = ⟨c.toNat,[c]⟩ :: runes ys := by
  rw [runes_cons, firstRune_ascii small]
  rfl

theorem rune_width {k : Nat} (inside : k ≤ rest.length)
    (raw : (firstRune b rest).raw = b :: rest.take k) : (firstRune b rest).raw.length - 1 = k := by
  rw [raw]
  simp [inside]

/-- Induction rune by rune: what holds of the rest behind the first rune has to hold with
    that rune in front. -/
theorem runes_induction {motive : List UInt8 → Prop} (nil : motive [])
    (rune : ∀ b rest k, k ≤ rest.length → (firstRune b rest).raw = b :: rest.take k →
      runes (b :: rest) = firstRune b rest :: runes (rest.drop k) → motive (rest.drop k) →
      motive (b :: rest)) (xs : List UInt8) : motive xs := by
  induction length : xs.length using Nat.strongRecOn generalizing xs with
  | ind n ih =>
    cases xs with
    | nil => exact nil
    | cons b rest =>
      obtain ⟨k,inside,raw⟩ := firstRune_raw b rest
      have shorter : (rest.drop k).length < n := by
        simp only [List.length_cons, List.length_drop] at length ⊢
        omega
      have read := runes_cons b rest
      rw [rune_width inside raw] at read
      exact rune b rest k inside raw read (ih _ shorter (rest.drop k) rfl)

theorem runes_append_start (starts : within 0x80 0xBF c = false) (xs ys : List UInt8) :
    runes (xs ++ c :: ys) = runes xs ++ runes (c :: ys) := by
  induction xs using runes_induction with
  | nil => rfl
  | rune b rest k inside raw read ih =>
    rw [List.cons_append, runes_cons, firstRune_append starts, rune_width inside raw,
      List.drop_append_of_le_length inside, ih, read, List.cons_append]

/-- An ASCII byte separates: both sides are read as if they stood alone. -/
theorem runes_append_ascii (small : c.toNat < 0x80) (xs ys : List UInt8) :
    runes (xs ++ c :: ys) = runes xs ++ ⟨c.toNat,[c]⟩ :: runes ys := by
  rw [runes_append_start (within_ascii small (Nat.le_refl _)), runes_ascii_cons small]

/-- Bytes without an error are read alike with anything behind them. -/
theorem runes_append_valid (valid : ∀ rune ∈ runes xs, rune.code ≠ runeError) (ys : List UInt8) :
    runes (xs ++ ys) = runes xs ++ runes ys := by
  induction xs using runes_induction with
  | nil => rfl
  | rune b rest k inside raw read ih =>
    rw [read] at valid
    have first := valid (firstRune b rest) (by simp)
    rw [List.cons_append, runes_cons, firstRune_complete first, rune_width inside raw,
      List.drop_append_of_le_length inside, ih fun rune mem => valid rune (by simp [mem]), read,
      List.cons_append]

theorem runes_raw (xs : List UInt8) : (runes xs).flatMap Rune.raw = xs := by
  induction xs using runes_induction with
  | nil => rfl
  | rune b rest k inside raw read ih =>
    rw [read, List.flatMap_cons, ih, raw, List.cons_append, List.take_append_drop]

theorem runes_nonempty {rune : Rune} (mem : rune ∈ runes xs) : rune.raw ≠ [] := by
  induction xs using runes_induction with
  | nil => cases mem
  | rune b rest k inside raw read ih =>
    rw [read] at mem
    rcases List.mem_cons.mp mem with rfl | later
    · rw [raw]
      simp
    · exact ih later

/-- The first rune is told by its own bytes: what is cut off behind them does not matter. -/
theorem firstRune_part (inside : n ≤ xs.length)
    (raw : (firstRune b (xs ++ ys)).raw = b :: (xs ++ ys).take n) :
    firstRune b xs = firstRune b (xs ++ ys) := by
  have width : (firstRune b (xs ++ ys)).raw.length = n + 1 := by
    rw [raw, List.take_append_of_le_length inside]
    simp [inside]
  clear raw
  unfold firstRune at width ⊢
  split
  · rfl
  · rename_i high
    rw [if_neg high] at width
    cases start : leading b with
    | none => rfl
    | some sequence =>
      obtain ⟨more,lo,hi⟩ := sequence
      simp only [start] at width
      dsimp only
      by_cases long : more ≤ xs.length
      · rw [List.take_append_of_le_length long]
      · -- A sequence that is cut short is no sequence, so it was none before.
        have short : ¬ ((xs.take more).length = more && continues lo hi (xs.take more)) = true := by
          simp only [Bool.and_eq_true, decide_eq_true_eq, List.length_take]
          omega
        rw [if_neg short]
        split at width
        · rename_i accepted
          simp only [Bool.and_eq_true, decide_eq_true_eq] at accepted
          rw [List.length_cons, accepted.1] at width
          omega
        · rename_i refused
          rw [if_neg refused]

theorem runes_suffix {as bs : List Rune} (read : runes xs = as ++ bs) :
    runes (bs.flatMap Rune.raw) = bs := by
  induction xs using runes_induction generalizing as with
  | nil =>
    obtain ⟨_,rfl⟩ := List.append_eq_nil_iff.mp read.symm
    rfl
  | rune b rest k inside raw first ih =>
    cases as with
    | nil =>
      rw [List.nil_append] at read
      rw [← read, runes_raw]
    | cons a as =>
      rw [first, List.cons_append, List.cons.injEq] at read
      exact ih read.2

theorem runes_initial {as bs : List Rune} (read : runes xs = as ++ bs) :
    runes (as.flatMap Rune.raw) = as := by
  induction xs using runes_induction generalizing as with
  | nil =>
    obtain ⟨rfl,_⟩ := List.append_eq_nil_iff.mp read.symm
    rfl
  | rune b rest k inside raw first ih =>
    cases as with
    | nil => rfl
    | cons a as =>
      rw [first, List.cons_append, List.cons.injEq] at read
      obtain ⟨rfl,later⟩ := read
      have bytes : as.flatMap Rune.raw ++ bs.flatMap Rune.raw = rest.drop k := by
        rw [← List.flatMap_append, ← later, runes_raw]
      have whole : (rest.take k ++ as.flatMap Rune.raw) ++ bs.flatMap Rune.raw = rest := by
        rw [List.append_assoc, bytes, List.take_append_drop]
      have size : (rest.take k).length = k := List.length_take_of_le inside
      have same : firstRune b (rest.take k ++ as.flatMap Rune.raw) = firstRune b rest := by
        have part : firstRune b (rest.take k ++ as.flatMap Rune.raw) =
            firstRune b ((rest.take k ++ as.flatMap Rune.raw) ++ bs.flatMap Rune.raw) := by
          refine firstRune_part (n := k) ?_ ?_
          · rw [List.length_append]
            omega
          · rw [whole]
            exact raw
        rw [whole] at part
        exact part
      have skip : (firstRune b rest).raw.length - 1 = k := rune_width inside raw
      rw [List.flatMap_cons, raw, List.cons_append, runes_cons, same, skip, List.drop_left' size,
        ih later]

/-- Runes that stand together are read again when their bytes stand alone. -/
theorem runes_part {as bs cs : List Rune} (read : runes xs = as ++ (bs ++ cs)) :
    runes (bs.flatMap Rune.raw) = bs := runes_initial (runes_suffix read)

theorem runes_length (xs : List UInt8) : (runes xs).length ≤ xs.length := by
  induction xs using runes_induction with
  | nil => exact Nat.le_refl _
  | rune b rest k inside raw read ih =>
    rw [List.length_drop] at ih
    rw [read, List.length_cons, List.length_cons]
    omega

theorem mem_runes_ascii (small : c.toNat < 0x80) (mem : c ∈ xs) : ⟨c.toNat,[c]⟩ ∈ runes xs := by
  obtain ⟨before,after,rfl⟩ := List.append_of_mem mem
  rw [runes_append_ascii small]
  simp

theorem runes_all_ascii (small : ∀ b ∈ xs, b.toNat < 0x80) :
    runes xs = xs.map fun b => ⟨b.toNat,[b]⟩ := by
  induction xs with
  | nil => rfl
  | cons b rest ih =>
    rw [runes_ascii_cons (small b (by simp)), ih fun x mem => small x (by simp [mem]), List.map_cons]

end Utf8
