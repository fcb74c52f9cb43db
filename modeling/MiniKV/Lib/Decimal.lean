import Mathlib.Data.Nat.Digits.Lemmas

/- Decimal text of 64-bit numbers, as bytes. Parsing accepts leading zeros and refuses
   an empty text, any other byte, and a value of 2^64 or more; signed parsing also
   accepts a sign, and tells the two reasons of a refusal apart. Formatting writes the
   canonical text. -/
namespace Decimal

def isDigit (b : UInt8) : Bool := decide (48 ≤ b.toNat) && decide (b.toNat ≤ 57)

def digitByte (d : Nat) : UInt8 := UInt8.ofNat (48 + d)

def decimalValue (text : List UInt8) : Nat :=
  text.foldl (fun acc b => acc * 10 + (b.toNat - 48)) 0

def parseUint (text : List UInt8) : Option UInt64 :=
  if text ≠ [] ∧ text.all isDigit ∧ decimalValue text < 2 ^ 64 then
    some (UInt64.ofNat (decimalValue text))
  else none

inductive NumError where
  | malformed
  | outOfRange
  deriving DecidableEq, Repr

/-- The digits of a magnitude; the first fault in reading order decides. -/
def magnitudeFrom (n : Nat) : List UInt8 → Except NumError Nat
  | [] => .ok n
  | b :: rest =>
    if isDigit b then
      if n * 10 + (b.toNat - 48) < 2 ^ 64 then magnitudeFrom (n * 10 + (b.toNat - 48)) rest
      else .error .outOfRange
    else .error .malformed

def magnitude (text : List UInt8) : Except NumError Nat :=
  if text = [] then .error .malformed else magnitudeFrom 0 text

/-- Atoi: a signed number in the range of an int. -/
def atoi (text : List UInt8) : Except NumError Int :=
  match text with
  | 45 :: digits => do
    let n ← magnitude digits
    if n > 2 ^ 63 then .error .outOfRange else .ok (-n)
  | 43 :: digits => do
    let n ← magnitude digits
    if n ≥ 2 ^ 63 then .error .outOfRange else .ok n
  | digits => do
    let n ← magnitude digits
    if n ≥ 2 ^ 63 then .error .outOfRange else .ok n

def formatNat (n : Nat) : List UInt8 :=
  if n = 0 then [48] else (Nat.digits 10 n).reverse.map digitByte

def formatUint (n : UInt64) : List UInt8 := formatNat n.toNat

def formatInt (n : Int) : List UInt8 :=
  if n < 0 then 45 :: formatNat n.natAbs else formatNat n.natAbs

theorem digitByte_toNat {d : Nat} (small : d < 10) : (digitByte d).toNat = 48 + d := by
  simp only [digitByte, UInt8.toNat_ofNat']
  omega

theorem isDigit_digitByte {d : Nat} (small : d < 10) : isDigit (digitByte d) = true := by
  simp only [isDigit, digitByte_toNat small, Bool.and_eq_true, decide_eq_true_eq]
  omega

theorem digits_small {n d : Nat} (mem : d ∈ Nat.digits 10 n) : d < 10 :=
  Nat.digits_lt_base (by omega) mem

theorem formatNat_digit {d : Nat} (small : d < 10) : formatNat d = [digitByte d] := by
  unfold formatNat
  split
  · rename_i zero
    rw [zero]
    rfl
  · rename_i nonzero
    rw [Nat.digits_of_lt 10 d nonzero small]
    rfl

theorem formatNat_digits (n : Nat) : (formatNat n).all isDigit = true := by
  unfold formatNat
  split
  · decide
  · simp only [List.all_eq_true, List.mem_map, List.mem_reverse]
    rintro b ⟨d,mem,rfl⟩
    exact isDigit_digitByte (digits_small mem)

theorem formatNat_nonempty (n : Nat) : formatNat n ≠ [] := by
  unfold formatNat
  split
  · simp
  · rename_i positive
    simpa [Nat.digits_ne_nil_iff_ne_zero] using positive

theorem decimalValue_digits (ds : List Nat) (small : ∀ d ∈ ds, d < 10) :
    decimalValue (ds.reverse.map digitByte) = Nat.ofDigits 10 ds := by
  induction ds with
  | nil => rfl
  | cons d rest ih =>
    have tail := ih fun x mem => small x (by simp [mem])
    have here := digitByte_toNat (small d (by simp))
    unfold decimalValue at tail
    simp only [decimalValue, List.reverse_cons, List.map_append, List.map_cons, List.map_nil,
      List.foldl_append, List.foldl_cons, List.foldl_nil, tail, here, Nat.ofDigits_cons]
    omega

theorem decimalValue_formatNat (n : Nat) : decimalValue (formatNat n) = n := by
  unfold formatNat
  split
  · rename_i zero; subst zero; rfl
  · rw [decimalValue_digits _ fun d mem => digits_small mem]
    exact Nat.ofDigits_digits 10 n

/-- Formatting is undone by parsing over the whole 64-bit range. -/
theorem parseUint_formatUint (n : UInt64) : parseUint (formatUint n) = some n := by
  have bound := n.toNat_lt
  have value := decimalValue_formatNat n.toNat
  have accepted : formatNat n.toNat ≠ [] ∧ (formatNat n.toNat).all isDigit ∧
      decimalValue (formatNat n.toNat) < 2 ^ 64 := by
    rw [value]
    exact ⟨formatNat_nonempty _, formatNat_digits _, bound⟩
  change parseUint (formatNat n.toNat) = some n
  rw [parseUint, if_pos accepted, value, UInt64.ofNat_toNat]

theorem parseUint_some {text : List UInt8} {n : UInt64} (ok : parseUint text = some n) :
    text ≠ [] ∧ text.all isDigit = true ∧ n.toNat = decimalValue text := by
  unfold parseUint at ok
  split at ok
  · rename_i accepted
    obtain rfl := Option.some.inj ok
    refine ⟨accepted.1, accepted.2.1, ?_⟩
    simpa using Nat.mod_eq_of_lt accepted.2.2
  · cases ok

theorem foldl_digits_ge (n : Nat) (text : List UInt8) :
    n ≤ text.foldl (fun acc b => acc * 10 + (b.toNat - 48)) n := by
  induction text generalizing n with
  | nil => exact Nat.le_refl n
  | cons b rest ih =>
    have later := ih (n * 10 + (b.toNat - 48))
    rw [List.foldl_cons]
    omega

theorem magnitudeFrom_digits {text : List UInt8} (digits : text.all isDigit = true) {n : Nat}
    (small : text.foldl (fun acc b => acc * 10 + (b.toNat - 48)) n < 2 ^ 64) :
    magnitudeFrom n text = .ok (text.foldl (fun acc b => acc * 10 + (b.toNat - 48)) n) := by
  induction text generalizing n with
  | nil => rfl
  | cons b rest ih =>
    rw [List.all_cons, Bool.and_eq_true] at digits
    rw [List.foldl_cons] at small ⊢
    have here := foldl_digits_ge (n * 10 + (b.toNat - 48)) rest
    rw [magnitudeFrom, if_pos digits.1, if_pos (by omega), ih digits.2 small]

theorem magnitude_formatNat {n : Nat} (small : n < 2 ^ 64) : magnitude (formatNat n) = .ok n := by
  have value : (formatNat n).foldl (fun acc b => acc * 10 + (b.toNat - 48)) 0 = n :=
    decimalValue_formatNat n
  rw [magnitude, if_neg (formatNat_nonempty n),
    magnitudeFrom_digits (formatNat_digits n) (by rw [value]; exact small), value]

/-- Formatting is undone by signed parsing in the range of an int. -/
theorem atoi_formatNat {n : Nat} (small : n < 2 ^ 63) : atoi (formatNat n) = .ok (n : Int) := by
  have digits := formatNat_digits n
  have read : magnitude (formatNat n) = .ok n := magnitude_formatNat (by omega)
  unfold atoi
  split
  · rename_i rest sign
    rw [sign] at digits
    cases digits
  · rename_i rest sign
    rw [sign] at digits
    cases digits
  · rw [read]
    exact if_neg (by omega)

theorem formatNat_inj {m n : Nat} (same : formatNat m = formatNat n) : m = n := by
  rw [← decimalValue_formatNat m, same, decimalValue_formatNat]

theorem formatNat_no_sign (n : Nat) : 45 ∉ formatNat n := by
  intro mem
  have digit := List.all_eq_true.mp (formatNat_digits n) 45 mem
  cases digit

theorem formatInt_inj {m n : Int} (same : formatInt m = formatInt n) : m = n := by
  unfold formatInt at same
  split at same
  · split at same
    · have size := formatNat_inj (List.cons.inj same).2
      omega
    · exact absurd (same ▸ List.mem_cons_self) (formatNat_no_sign n.natAbs)
  · split at same
    · exact absurd (same.symm ▸ List.mem_cons_self) (formatNat_no_sign m.natAbs)
    · have size := formatNat_inj same
      omega

theorem mem_formatInt {n : Int} {b : UInt8} (mem : b ∈ formatInt n) : b = 45 ∨ isDigit b = true := by
  have digits : ∀ c ∈ formatNat n.natAbs, isDigit c = true :=
    List.all_eq_true.mp (formatNat_digits n.natAbs)
  unfold formatInt at mem
  split at mem
  · rcases List.mem_cons.mp mem with sign | later
    · exact Or.inl sign
    · exact Or.inr (digits b later)
  · exact Or.inr (digits b mem)

theorem decimalValue_snoc (text : List UInt8) (b : UInt8) :
    decimalValue (text ++ [b]) = decimalValue text * 10 + (b.toNat - 48) := by
  simp [decimalValue]

theorem decimalValue_lt {text : List UInt8} (digits : text.all isDigit = true) :
    decimalValue text < 10 ^ text.length := by
  induction text using List.reverseRecOn with
  | nil => simp [decimalValue]
  | append_singleton text b ih =>
    rw [List.all_append, Bool.and_eq_true] at digits
    have own : isDigit b = true := by simpa using digits.2
    simp only [isDigit, Bool.and_eq_true, decide_eq_true_eq] at own
    have before := ih digits.1
    rw [decimalValue_snoc, List.length_append, List.length_singleton, Nat.pow_succ]
    omega

theorem formatNat_length {n size : Nat} (small : n < 10 ^ size) (positive : 0 < size) :
    (formatNat n).length ≤ size := by
  unfold formatNat
  split
  · exact positive
  · rw [List.length_map, List.length_reverse]
    exact (Nat.digits_length_le_iff (by omega) _).mpr small

/-- The canonical text of a number is the shortest. -/
theorem formatNat_shortest {text : List UInt8} (nonempty : text ≠ [])
    (digits : text.all isDigit = true) : (formatNat (decimalValue text)).length ≤ text.length :=
  formatNat_length (decimalValue_lt digits) (List.length_pos_iff.mpr nonempty)

end Decimal
