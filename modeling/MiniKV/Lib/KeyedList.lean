import Mathlib.Data.List.Induction
import Mathlib.Data.List.Nodup
import Mathlib.Data.List.Perm.Basic
import Mathlib.Algebra.BigOperators.Group.List.Basic
import Mathlib.Algebra.Ring.Int.Defs

/- Sequences whose elements carry a key, at most one element a key. The order of
   the sequence is meaningful, so an element is removed by filtering and never by
   sorting. The second half trims a sequence from its back. -/
namespace KeyedList
variable {α κ : Type} {key : α → κ} {k l : κ} {xs ys : List α} {x : α}

def Distinct (key : α → κ) (xs : List α) : Prop := (xs.map key).Nodup

theorem same_key_same (distinct : Distinct key xs) {x y : α} (mx : x ∈ xs) (my : y ∈ xs)
    (same : key x = key y) : x = y :=
  List.inj_on_of_nodup_map distinct mx my same

theorem distinct_sublist (sub : ys.Sublist xs) (distinct : Distinct key xs) :
    Distinct key ys :=
  distinct.sublist (sub.map key)

theorem distinct_cons : Distinct key (x :: xs) ↔ (∀ y ∈ xs, key y ≠ key x) ∧ Distinct key xs := by
  simp [Distinct]

variable [DecidableEq κ]

def find (key : α → κ) (k : κ) (xs : List α) : Option α := xs.find? fun x => key x = k

def without (key : α → κ) (k : κ) (xs : List α) : List α := xs.filter fun x => key x ≠ k

theorem find_some (hit : find key k xs = some x) : x ∈ xs ∧ key x = k := by
  have sound := List.find?_some hit
  exact ⟨List.mem_of_find?_eq_some hit, by simpa using sound⟩

theorem find_none_iff : find key k xs = none ↔ ∀ x ∈ xs, key x ≠ k := by
  simp [find]

@[simp] theorem mem_without : x ∈ without key k xs ↔ x ∈ xs ∧ key x ≠ k := by
  simp [without]

theorem find_eq_some_iff (distinct : Distinct key xs) :
    find key k xs = some x ↔ x ∈ xs ∧ key x = k := by
  constructor
  · exact find_some
  · rintro ⟨mem,same⟩
    cases hit : find key k xs with
    | none => exact absurd same (find_none_iff.mp hit x mem)
    | some y =>
      obtain ⟨my,hy⟩ := find_some hit
      rw [same_key_same distinct my mem (hy.trans same.symm)]

theorem without_sublist (key : α → κ) (k : κ) (xs : List α) : (without key k xs).Sublist xs :=
  List.filter_sublist

theorem without_distinct (distinct : Distinct key xs) : Distinct key (without key k xs) :=
  distinct_sublist (without_sublist key k xs) distinct

theorem without_of_absent (absent : ∀ x ∈ xs, key x ≠ k) : without key k xs = xs := by
  simpa [without] using absent

@[simp] theorem find_without_self : find key k (without key k xs) = none := by
  rw [find_none_iff]
  intro x mem
  exact (mem_without.mp mem).2

theorem find_without_ne (other : l ≠ k) : find key l (without key k xs) = find key l xs := by
  induction xs with
  | nil => rfl
  | cons a rest ih =>
    simp only [find, without] at ih ⊢
    by_cases here : key a = k
    · have off : ¬ key a = l := fun h => other (h.symm.trans here)
      simpa [List.filter_cons, here, Ne.symm other] using ih
    · by_cases hit : key a = l
      · simp [hit, other]
      · simpa [List.filter_cons, here, hit] using ih

theorem find_cons_self (same : key x = k) : find key k (x :: xs) = some x := by
  simp [find, same]

theorem find_cons_ne (other : key x ≠ k) : find key k (x :: xs) = find key k xs := by
  simp [find, other]

theorem find_of_sublist (distinct : Distinct key xs) (sub : ys.Sublist xs)
    (hit : find key k ys = some x) : find key k xs = some x := by
  obtain ⟨mem,same⟩ := find_some hit
  exact (find_eq_some_iff distinct).mpr ⟨sub.subset mem,same⟩

/-- Taking the keyed element out splits off its share of any sum. -/
theorem perm_cons_without (distinct : Distinct key xs) (hit : find key k xs = some x) :
    xs.Perm (x :: without key k xs) := by
  induction xs with
  | nil => simp [find] at hit
  | cons a rest ih =>
    obtain ⟨fresh,tail⟩ := distinct_cons.mp distinct
    by_cases here : key a = k
    · rw [find_cons_self here] at hit
      obtain rfl := Option.some.inj hit
      have untouched : without key k rest = rest :=
        without_of_absent (by intro y my; rw [← here]; exact fresh y my)
      have dropped : without key k (a :: rest) = rest := by
        simpa [without, here] using untouched
      rw [dropped]
    · rw [find_cons_ne here] at hit
      have kept : without key k (a :: rest) = a :: without key k rest := by
        simp [without, here]
      rw [kept]
      exact ((ih tail hit).cons a).trans (List.Perm.swap x a _)

theorem sum_split (f : α → Int) (distinct : Distinct key xs) (hit : find key k xs = some x) :
    (xs.map f).sum = f x + ((without key k xs).map f).sum := by
  simpa using ((perm_cons_without distinct hit).map f).sum_eq

theorem count_split (p : α → Bool) (distinct : Distinct key xs) (hit : find key k xs = some x) :
    xs.countP p = (without key k xs).countP p + (if p x then 1 else 0) := by
  rw [(perm_cons_without distinct hit).countP_eq, List.countP_cons]

section Trim
variable {α : Type}

def trimReversed (fits : List α → Bool) : List α → List α
  | [] => []
  | x :: rest => if fits (x :: rest).reverse then x :: rest else trimReversed fits rest

def trimBack (fits : List α → Bool) (xs : List α) : List α :=
  (trimReversed fits xs.reverse).reverse

variable {fits : List α → Bool} {xs ys : List α} {x : α}

theorem trimBack_of_fits (ok : fits xs = true) : trimBack fits xs = xs := by
  unfold trimBack
  cases reversed : xs.reverse with
  | nil => simpa [trimReversed] using reversed.symm
  | cons x rest =>
    have same : (x :: rest).reverse = xs := by rw [← reversed, List.reverse_reverse]
    rw [trimReversed, same, if_pos ok, same]

theorem trimBack_snoc (excess : fits (xs ++ [x]) = false) :
    trimBack fits (xs ++ [x]) = trimBack fits xs := by
  simp [trimBack, trimReversed, excess]

/-- One dropped element at a time, as the recursion of the back-to-front walk. -/
theorem trimBack_induction {motive : List α → List α → Prop}
    (empty : motive [] []) (fit : ∀ xs, fits xs = true → motive xs xs)
    (drop : ∀ xs x, fits (xs ++ [x]) = false → motive xs (trimBack fits xs) →
      motive (xs ++ [x]) (trimBack fits xs)) : ∀ xs, motive xs (trimBack fits xs) := by
  intro xs
  induction xs using List.reverseRecOn with
  | nil => exact empty
  | append_singleton xs x ih =>
    cases ok : fits (xs ++ [x]) with
    | true =>
      rw [trimBack_of_fits ok]
      exact fit _ ok
    | false =>
      rw [trimBack_snoc ok]
      exact drop xs x ok ih

theorem trimBack_initial (fits : List α → Bool) (xs : List α) : trimBack fits xs <+: xs := by
  apply trimBack_induction (motive := fun xs kept => kept <+: xs)
  · exact List.prefix_rfl
  · intro xs _; exact List.prefix_rfl
  · intro xs x _ ih; exact ih.trans (List.prefix_append _ _)

theorem trimBack_sublist (fits : List α → Bool) (xs : List α) : (trimBack fits xs).Sublist xs :=
  (trimBack_initial fits xs).sublist

theorem trimBack_fits (bottom : fits [] = true) (xs : List α) : fits (trimBack fits xs) = true := by
  apply trimBack_induction (motive := fun _ kept => fits kept = true)
  · exact bottom
  · intro _ ok; exact ok
  · intro _ _ _ ih; exact ih

/-- The initial segment that passes and that no longer passing one extends. -/
structure LongestInitial (ok : List α → Prop) (xs kept : List α) : Prop where
  initial : kept <+: xs
  passes : ok kept
  longest : ∀ ys, ys <+: xs → ok ys → ys <+: kept

theorem trimBack_longest (bottom : fits [] = true) (xs : List α) :
    LongestInitial (fun ys => fits ys = true) xs (trimBack fits xs) := by
  refine ⟨trimBack_initial fits xs, trimBack_fits bottom xs, ?_⟩
  apply trimBack_induction (motive := fun xs kept =>
    ∀ ys, ys <+: xs → fits ys = true → ys <+: kept)
  · intro ys shorter _
    exact shorter
  · intro xs _ ys shorter _
    exact shorter
  · intro xs x excess ih ys shorter ok
    rcases List.prefix_concat_iff.mp shorter with rfl | inside
    · rw [excess] at ok
      cases ok
    · exact ih ys inside ok

/-- The turns of the trimming: the element dropped and the sequence it leaves; the
    argument is reversed. -/
def trimTurnsReversed (fits : List α → Bool) : List α → List (α × List α)
  | [] => []
  | x :: rest =>
    if fits (x :: rest).reverse then [] else (x,rest.reverse) :: trimTurnsReversed fits rest

def trimTurns (fits : List α → Bool) (xs : List α) : List (α × List α) :=
  trimTurnsReversed fits xs.reverse

theorem trimTurns_of_fits (ok : fits xs = true) : trimTurns fits xs = [] := by
  unfold trimTurns
  cases reversed : xs.reverse with
  | nil => rfl
  | cons x rest =>
    have same : (x :: rest).reverse = xs := by rw [← reversed, List.reverse_reverse]
    rw [trimTurnsReversed, same, if_pos ok]

theorem trimTurns_snoc (excess : fits (xs ++ [x]) = false) :
    trimTurns fits (xs ++ [x]) = (x,xs) :: trimTurns fits xs := by
  simp [trimTurns, trimTurnsReversed, excess]

theorem trimTurns_initial (fits : List α → Bool) (xs : List α) :
    ∀ turn ∈ trimTurns fits xs, turn.2 <+: xs := by
  induction xs using List.reverseRecOn with
  | nil => simp [trimTurns, trimTurnsReversed]
  | append_singleton xs x ih =>
    cases ok : fits (xs ++ [x]) with
    | true => simp [trimTurns_of_fits ok]
    | false =>
      rw [trimTurns_snoc ok]
      intro turn mem
      rcases List.mem_cons.mp mem with rfl | mem
      · exact List.prefix_append _ _
      · exact (ih turn mem).trans (List.prefix_append _ _)

/-- Trimming only asks about the sequences it meets. -/
theorem trim_congr {other : List α → Bool} (same : ∀ ys, ys <+: xs → fits ys = other ys) :
    trimBack fits xs = trimBack other xs ∧ trimTurns fits xs = trimTurns other xs := by
  induction xs using List.reverseRecOn with
  | nil => exact ⟨rfl,rfl⟩
  | append_singleton xs x ih =>
    have here := same (xs ++ [x]) List.prefix_rfl
    cases ok : fits (xs ++ [x]) with
    | true =>
      rw [ok] at here
      rw [trimBack_of_fits ok, trimBack_of_fits here.symm, trimTurns_of_fits ok,
        trimTurns_of_fits here.symm]
      exact ⟨rfl,rfl⟩
    | false =>
      rw [ok] at here
      obtain ⟨back,steps⟩ := ih fun ys pre => same ys (pre.trans (List.prefix_append _ _))
      rw [trimBack_snoc ok, trimBack_snoc here.symm, trimTurns_snoc ok,
        trimTurns_snoc here.symm, back, steps]
      exact ⟨rfl,rfl⟩

end Trim
end KeyedList
