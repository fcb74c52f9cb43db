import MiniKV.Lib.Decimal
import MiniKV.Lib.Loop
import MiniKV.Lib.MachineWord

/- Durations as text: a sign and a sequence of decimal numbers, each with a unit. The
   share of a fraction is computed in floating point, so it is a parameter here: a
   function of the digits behind the point, their number and the unit. Everything else
   is integer arithmetic with the overflow checks of the library. -/
namespace Durations
open MachineWord Decimal

inductive DurationError where
  | invalid
  | missingUnit
  | unknownUnit (unit : List UInt8)
  deriving DecidableEq, Repr

def point : UInt8 := 46

/-- The digits at the front; none is an overflow. -/
def leadingInt (x : Nat) : List UInt8 → Option (Nat × List UInt8)
  | [] => some (x, [])
  | c :: rest =>
    if !isDigit c then some (x, c :: rest)
    else if x > 2 ^ 63 / 10 then none
    else if x * 10 + (c.toNat - 48) > 2 ^ 63 then none
    else leadingInt (x * 10 + (c.toNat - 48)) rest

/-- The digits behind a point and their number; digits that overflow are passed by. -/
def leadingFraction (x count : Nat) (overflow : Bool) : List UInt8 → Nat × Nat × List UInt8
  | [] => (x, count, [])
  | c :: rest =>
    if !isDigit c then (x, count, c :: rest)
    else if overflow || decide (x > (2 ^ 63 - 1) / 10) ||
      decide (x * 10 + (c.toNat - 48) > 2 ^ 63) then leadingFraction x count true rest
    else leadingFraction (x * 10 + (c.toNat - 48)) (count + 1) false rest

/-- The names of the units with their nanoseconds; the micro sign has two codes. -/
def unitMap : List (List UInt8 × Nat) :=
  [([110,115],1), ([117,115],1000), ([0xC2,0xB5,115],1000), ([0xCE,0xBC,115],1000),
    ([109,115],1000000), ([115],1000000000), ([109],60 * 1000000000), ([104],3600 * 1000000000)]

def unitByte (c : UInt8) : Bool := !(c == point || isDigit c)

def fractionPart : List UInt8 → Nat × Nat × Bool × List UInt8
  | c :: rest =>
    if c == point then
      let read := leadingFraction 0 0 false rest
      (read.1, read.2.1, decide (read.2.2.length ≠ rest.length), read.2.2)
    else (0, 0, false, c :: rest)
  | [] => (0, 0, false, [])

def scaled (fraction : Nat → Nat → Nat → Nat) (v f count unit : Nat) : Except DurationError Nat :=
  if v > 2 ^ 63 / unit then .error .invalid
  else if f > 0 then
    let sum := (v * unit + fraction f count unit) % 2 ^ 64
    if sum > 2 ^ 63 then .error .invalid else .ok sum
  else .ok (v * unit)

/-- One number with its unit, and what follows. -/
def term (fraction : Nat → Nat → Nat → Nat) (s : List UInt8) :
    Except DurationError (Nat × List UInt8) :=
  if !(s.head?.any fun c => c == point || isDigit c) then .error .invalid
  else
    match leadingInt 0 s with
    | none => .error .invalid
    | some (v, more) =>
      let part := fractionPart more
      if decide (more.length = s.length) && !part.2.2.1 then .error .invalid
      else
        let rest := part.2.2.2
        let unit := rest.takeWhile unitByte
        if unit = [] then .error .missingUnit
        else
          match unitMap.find? fun entry => entry.1 = unit with
          | none => .error (.unknownUnit unit)
          | some entry => do
            let v ← scaled fraction v part.1 part.2.1 entry.2
            .ok (v, rest.dropWhile unitByte)

def turn (fraction : Nat → Nat → Nat → Nat) (x : Nat × List UInt8) :
    (Nat × List UInt8) × Option (Except DurationError Nat) :=
  if x.2 = [] then (x, some (.ok x.1))
  else
    match term fraction x.2 with
    | .error err => (x, some (.error err))
    | .ok (v, rest) =>
      let d := (x.1 + v) % 2 ^ 64
      if d > 2 ^ 63 then (x, some (.error .invalid)) else ((d, rest), none)

variable {fraction : Nat → Nat → Nat → Nat} {s rest : List UInt8} {x v : Nat}

theorem leadingInt_length (read : leadingInt x s = some (v,rest)) : rest.length ≤ s.length := by
  induction s generalizing x with
  | nil =>
    obtain ⟨_,rfl⟩ := Prod.mk.inj (Option.some.inj read)
    exact Nat.le_refl _
  | cons c more ih =>
    unfold leadingInt at read
    split at read
    · obtain ⟨_,rfl⟩ := Prod.mk.inj (Option.some.inj read)
      exact Nat.le_refl _
    · split at read
      · cases read
      · split at read
        · cases read
        · exact (ih read).trans (Nat.le_succ _)

theorem leadingFraction_length (x count : Nat) (overflow : Bool) (s : List UInt8) :
    (leadingFraction x count overflow s).2.2.length ≤ s.length := by
  induction s generalizing x count overflow with
  | nil => exact Nat.le_refl _
  | cons c more ih =>
    unfold leadingFraction
    split
    · exact Nat.le_refl _
    · split
      · exact (ih x count true).trans (Nat.le_succ _)
      · exact (ih _ _ _).trans (Nat.le_succ _)

theorem fractionPart_length (s : List UInt8) : (fractionPart s).2.2.2.length ≤ s.length := by
  unfold fractionPart
  split
  · split
    · exact (leadingFraction_length 0 0 false _).trans (Nat.le_succ _)
    · exact Nat.le_refl _
  · exact Nat.le_refl _

theorem term_shorter (read : term fraction s = .ok (v,rest)) : rest.length < s.length := by
  -- A term has a unit, so it takes at least one byte.
  unfold term at read
  split at read
  · cases read
  · split at read
    · cases read
    · rename_i w more first
      dsimp only at read
      split at read
      · cases read
      · split at read
        · cases read
        · rename_i named
          split at read
          · cases read
          · rename_i entry _
            cases amount : scaled fraction w (fractionPart more).1 (fractionPart more).2.1 entry.2 with
            | error err =>
              rw [amount] at read
              cases read
            | ok n =>
              rw [amount] at read
              obtain ⟨_,rfl⟩ := Prod.mk.inj (Except.ok.inj read)
              have front := leadingInt_length first
              have behind := fractionPart_length more
              have split := congrArg List.length
                (List.takeWhile_append_dropWhile (p := unitByte) (l := (fractionPart more).2.2.2))
              have taken := List.length_pos_iff.mpr named
              rw [List.length_append] at split
              omega

theorem turn_down (x y : Nat × List UInt8) (goes : turn fraction x = (y,none)) :
    y.2.length < x.2.length := by
  unfold turn at goes
  split at goes
  · cases goes
  · split at goes
    · cases goes
    · rename_i v rest read
      dsimp only at goes
      split at goes
      · cases goes
      · obtain ⟨rfl,_⟩ := Prod.mk.inj goes
        exact term_shorter read

theorem turns_end (fraction : Nat → Nat → Nat → Nat) (s : List UInt8) :
    (Loop.run (turn fraction) (s.length + 1) (0,s)).isSome = true := by
  have down : ∀ x y, turn fraction x = (y,none) → y.2.length < x.2.length := turn_down
  obtain ⟨done,ended⟩ := Loop.run_ends down (s := (0,s)) (Nat.lt_succ_self s.length)
  rw [ended]
  rfl

/-- The loop over the terms; every one takes a byte, so the turns suffice. -/
def terms (fraction : Nat → Nat → Nat → Nat) (s : List UInt8) : Except DurationError Nat :=
  (Option.get _ (turns_end fraction s)).2

def parseDuration (fraction : Nat → Nat → Nat → Nat) (text : List UInt8) :
    Except DurationError Int :=
  let neg := text.head? == some 45
  let s := if neg || text.head? == some 43 then text.drop 1 else text
  if s = [48] then .ok 0
  else if s = [] then .error .invalid
  else
    match terms fraction s with
    | .error err => .error err
    | .ok d =>
      if neg then .ok (int64.wrap (-d))
      else if d > 2 ^ 63 - 1 then .error .invalid
      else .ok d

/-- An hour and a half, and the smallest duration of all. -/
example : parseDuration (fun _ _ _ => 0) [49,104,51,48,109] = .ok 5400000000000 := by decide

example : parseDuration (fun _ _ _ => 0)
    [45,57,50,50,51,51,55,50,48,51,54,56,53,52,55,55,53,56,48,56,110,115] =
      .ok (-9223372036854775808) := by decide

end Durations
