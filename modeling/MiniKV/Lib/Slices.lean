import Mathlib.Data.Int.Range
import Mathlib.Data.List.Induction
import Mathlib.Data.List.Nodup

/- Consecutive ranges of integers: slice number w goes from one bound up to the next,
   without it. What lies between the first bound and the last is in exactly one slice. -/
namespace Slices
variable {α : Type} {bound : Nat → Int} {v w n : Nat} {i lo hi : Int}

def InSlice (bound : Nat → Int) (w : Nat) (i : Int) : Prop := bound w ≤ i ∧ i < bound (w + 1)

theorem slice_exists (low : bound 0 ≤ i) (high : i < bound n) : ∃ w, w < n ∧ InSlice bound w i := by
  induction n with
  | zero => omega
  | succ n ih =>
    by_cases before : i < bound n
    · obtain ⟨w,small,inside⟩ := ih before
      exact ⟨w, by omega, inside⟩
    · exact ⟨n, by omega, by omega, high⟩

theorem slice_unique (ordered : ∀ {v w}, v ≤ w → bound v ≤ bound w) (left : InSlice bound v i)
    (right : InSlice bound w i) : v = w := by
  obtain ⟨lowLeft,highLeft⟩ := left
  obtain ⟨lowRight,highRight⟩ := right
  rcases Nat.lt_trichotomy v w with less | same | more
  · have between : bound (v + 1) ≤ bound w := ordered less
    omega
  · exact same
  · have between : bound (w + 1) ≤ bound v := ordered more
    omega

/-- Parts as long as the slices are as long together as all slices. -/
theorem flatten_length (parts : List (List α))
    (fit : ∀ w part, parts[w]? = some part → (part.length : Int) = bound (w + 1) - bound w) :
    (parts.flatten.length : Int) = bound parts.length - bound 0 := by
  induction parts using List.reverseRecOn with
  | nil => simp
  | append_singleton parts part ih =>
    have before : (parts.flatten.length : Int) = bound parts.length - bound 0 := by
      refine ih fun w other here => fit w other ?_
      obtain ⟨inside,_⟩ := List.getElem?_eq_some_iff.mp here
      rw [List.getElem?_append_left inside, here]
    have last := fit parts.length part (by simp)
    rw [List.flatten_append, List.length_append, List.length_append]
    simp only [List.flatten_cons, List.flatten_nil, List.append_nil, List.length_singleton]
    push_cast
    omega

theorem range_empty (n : Int) : Int.range n n = [] := by simp [Int.range]

theorem range_snoc (ordered : lo ≤ hi) : Int.range lo (hi + 1) = Int.range lo hi ++ [hi] := by
  have longer : (hi + 1 - lo).toNat = (hi - lo).toNat + 1 := by omega
  have last : lo + ((hi - lo).toNat : Int) = hi := by omega
  rw [Int.range, longer, List.range_succ, List.map_append, List.map_singleton, last, Int.range]

theorem range_nodup (lo hi : Int) : (Int.range lo hi).Nodup := by
  refine List.Nodup.map ?_ List.nodup_range
  intro a b same
  exact Int.ofNat_inj.mp (Int.add_left_cancel same)

/-- A filter that lets less through gives a part of what the other gives. -/
theorem filter_sublist_filter {p q : α → Bool} {xs : List α}
    (narrow : ∀ x ∈ xs.filter p, q x = true) : (xs.filter p).Sublist (xs.filter q) := by
  have both : (xs.filter q).filter p = xs.filter p := by
    rw [List.filter_comm, List.filter_eq_self.mpr narrow]
  rw [← both]
  exact List.filter_sublist

end Slices
