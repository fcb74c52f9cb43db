import Mathlib.Data.Finset.Card
import Mathlib.Data.List.Induction

/- Parties that move from place to place, each on its own. A count of the parties at some
   of the places follows every move, and so does a register of their numbers. -/
namespace Census
variable {α : Type} {places : List α} {i : Nat} {old new : α}

theorem count_set (new : α) (stands : α → Bool) (here : places[i]? = some old) :
    (places.set i new).countP stands + (stands old).toNat = places.countP stands + (stands new).toNat := by
  obtain ⟨inside,same⟩ := List.getElem?_eq_some_iff.mp here
  have counted : (stands old).toNat ≤ places.countP stands := by
    cases present : stands old with
    | false => simp
    | true =>
      have member : old ∈ places := List.mem_of_getElem? here
      exact List.countP_pos_iff.mpr ⟨old,member,present⟩
  rw [List.countP_set inside, same]
  cases before : stands old <;> cases after : stands new <;> simp_all

/-- A quantity goes up when the party enters the places, and down when it leaves them. -/
def follow {β : Type} (up down : β → β) (stands : α → Bool) (old new : α) (q : β) : β :=
  match stands old, stands new with
  | false, true => up q
  | true, false => down q
  | _, _ => q

/-- A quantity that encodes the count still does so after the move. -/
theorem follow_count {β : Type} {up down : β → β} {stands : α → Bool} {q : β} (encode : Nat → β)
    (raise : ∀ k, up (encode k) = encode (k + 1)) (lower : ∀ k, down (encode (k + 1)) = encode k)
    (new : α) (here : places[i]? = some old) (exact : q = encode (places.countP stands)) :
    follow up down stands old new q = encode ((places.set i new).countP stands) := by
  have moved := count_set new stands here
  unfold follow
  cases left : stands old with
  | false =>
    cases right : stands new with
    | false =>
      rw [left, right] at moved
      rw [exact, Nat.add_right_cancel moved]
    | true =>
      rw [left, right] at moved
      rw [exact, raise]
      exact congrArg encode moved.symm
  | true =>
    cases right : stands new with
    | false =>
      rw [left, right] at moved
      have before : places.countP stands = (places.set i new).countP stands + 1 := moved.symm
      rw [exact, before, lower]
    | true =>
      rw [left, right] at moved
      rw [exact, Nat.add_right_cancel moved]

theorem count_join (stands : α → Bool) (places : List α) (new : α) :
    (places ++ [new]).countP stands = places.countP stands + (stands new).toNat := by
  rw [List.countP_append, List.countP_singleton]
  cases stands new <;> rfl

def Registered (stands : α → Bool) (places : List α) (register : Finset Nat) : Prop :=
  ∀ i, i ∈ register ↔ ∃ place, places[i]? = some place ∧ stands place = true

theorem registered_card {stands : α → Bool} {register : Finset Nat}
    (registered : Registered stands places register) : register.card = places.countP stands := by
  induction places using List.reverseRecOn generalizing register with
  | nil =>
    have empty : register = ∅ := by
      apply Finset.eq_empty_of_forall_notMem
      intro i mem
      obtain ⟨place,here,_⟩ := (registered i).mp mem
      cases here
    rw [empty]
    rfl
  | append_singleton places last ih =>
    have before : Registered stands places (register.erase places.length) := by
      intro i
      rw [Finset.mem_erase, registered i]
      constructor
      · rintro ⟨other,place,here,present⟩
        obtain ⟨inside,_⟩ := List.getElem?_eq_some_iff.mp here
        rw [List.length_append, List.length_singleton] at inside
        rw [List.getElem?_append_left (by omega)] at here
        exact ⟨place,here,present⟩
      · rintro ⟨place,here,present⟩
        obtain ⟨inside,_⟩ := List.getElem?_eq_some_iff.mp here
        rw [← List.getElem?_append_left inside] at here
        exact ⟨by omega,place,here,present⟩
    have own : places.length ∈ register ↔ stands last = true := by
      rw [registered places.length]
      simp
    rw [count_join, ← ih before]
    cases present : stands last with
    | false =>
      rw [present] at own
      rw [Finset.erase_eq_of_notMem (by simpa using own)]
      rfl
    | true =>
      have mem := own.mpr present
      have positive := Finset.card_pos.mpr ⟨_,mem⟩
      rw [Finset.card_erase_of_mem mem]
      simp only [Bool.toNat_true]
      omega

theorem registered_follow {stands : α → Bool} {register : Finset Nat}
    (registered : Registered stands places register) (new : α) (here : places[i]? = some old) :
    Registered stands (places.set i new)
      (follow (insert i) (Finset.erase · i) stands old new register) := by
  obtain ⟨inside,_⟩ := List.getElem?_eq_some_iff.mp here
  have own : i ∈ register ↔ stands old = true := by
    rw [registered i, here]
    simp
  intro j
  by_cases same : j = i
  · subst same
    rw [List.getElem?_set_self inside]
    cases left : stands old <;> cases right : stands new <;> simp_all [follow]
  · rw [List.getElem?_set_ne (Ne.symm same), ← registered j]
    cases left : stands old <;> cases right : stands new <;> simp [follow, left, right, same]

theorem registered_join {stands : α → Bool} {register : Finset Nat}
    (registered : Registered stands places register) (outside : stands new = false) :
    Registered stands (places ++ [new]) register := by
  intro i
  rw [registered i]
  by_cases inside : i < places.length
  · rw [List.getElem?_append_left inside]
  · rw [List.getElem?_eq_none (by omega), List.getElem?_append_right (by omega)]
    constructor
    · rintro ⟨place,here,_⟩
      cases here
    · rintro ⟨place,here,present⟩
      rw [List.getElem?_singleton] at here
      split at here
      · obtain rfl := Option.some.inj here
        rw [outside] at present
        cases present
      · cases here

end Census
