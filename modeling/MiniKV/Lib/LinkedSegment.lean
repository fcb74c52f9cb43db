import Mathlib.Data.List.Induction
import Mathlib.Data.List.Nodup

/- Doubly linked sequences over arbitrary addresses. A segment fixes both link
   functions on its own nodes only, so a write elsewhere never disturbs it. -/
namespace LinkedSegment
variable {P : Type}

structure Links (P : Type) where
  prev : P → Option P
  next : P → Option P

/-- The nodes in order, the first one preceded by `before` and the last one
    followed by `after`. -/
def Segment (links : Links P) : Option P → List P → Option P → Prop
  | _, [], _ => True
  | before, x :: rest, after =>
    links.prev x = before ∧ links.next x = rest.head?.or after ∧
      Segment links (some x) rest after

/-- A whole list: both ends are known, both chains end in nil, no node repeats. -/
structure Represents (links : Links P) (head tail : Option P) (xs : List P) : Prop where
  head : head = xs.head?
  tail : tail = xs.getLast?
  segment : Segment links none xs none
  nodup : xs.Nodup

def follow (step : P → Option P) : Nat → Option P → List P
  | 0, _ => []
  | _ + 1, none => []
  | fuel + 1, some x => x :: follow step fuel (step x)

/-- The way along a link up to nil; none when the fuel ends first. -/
def walk (step : P → Option P) : Nat → Option P → Option (List P)
  | _, none => some []
  | 0, some _ => none
  | fuel + 1, some x => (walk step fuel (step x)).map (x :: ·)

variable {links other : Links P} {before after : Option P} {xs ys : List P} {x : P}

theorem segment_frame (same : ∀ x ∈ xs, other.prev x = links.prev x ∧ other.next x = links.next x)
    (segment : Segment links before xs after) : Segment other before xs after := by
  induction xs generalizing before with
  | nil => trivial
  | cons x rest ih =>
    obtain ⟨hp,hn,tail⟩ := segment
    obtain ⟨sp,sn⟩ := same x (by simp)
    exact ⟨sp.trans hp, sn.trans hn, ih (fun y my => same y (by simp [my])) tail⟩

/-- A segment leaves no choice for the links of its nodes. -/
theorem segment_unique (one : Segment links before xs after) (two : Segment other before xs after) :
    ∀ x ∈ xs, links.prev x = other.prev x ∧ links.next x = other.next x := by
  induction xs generalizing before with
  | nil => simp
  | cons y rest ih =>
    obtain ⟨prevOne,nextOne,tailOne⟩ := one
    obtain ⟨prevTwo,nextTwo,tailTwo⟩ := two
    intro x mem
    rcases List.mem_cons.mp mem with rfl | later
    · exact ⟨prevOne.trans prevTwo.symm, nextOne.trans nextTwo.symm⟩
    · exact ih tailOne tailTwo x later

theorem segment_append : Segment links before (xs ++ ys) after ↔
    Segment links before xs (ys.head?.or after) ∧
      Segment links (xs.getLast?.or before) ys after := by
  induction xs generalizing before with
  | nil => simp [Segment]
  | cons x rest ih =>
    have last : (x :: rest).getLast?.or before = rest.getLast?.or (some x) := by
      cases rest with
      | nil => simp
      | cons y tail => simp [List.getLast?_cons]
    have first : (rest ++ ys).head?.or after = rest.head?.or (ys.head?.or after) := by
      cases rest <;> simp
    simp only [List.cons_append, Segment, ih, last, first, and_assoc]

theorem segment_concat : Segment links before (xs ++ [x]) after ↔
    Segment links before xs (some x) ∧ links.prev x = xs.getLast?.or before ∧
      links.next x = after := by
  rw [segment_append]
  simp [Segment]

theorem segment_relink_last [DecidableEq P] {after' : Option P} (nodup : xs.Nodup)
    (prevs : ∀ q ∈ xs, other.prev q = links.prev q)
    (nexts : ∀ q ∈ xs, other.next q = if xs.getLast? = some q then after' else links.next q)
    (segment : Segment links before xs after) : Segment other before xs after' := by
  rcases List.eq_nil_or_concat xs with rfl | ⟨body,last,rfl⟩
  · trivial
  · simp only [List.concat_eq_append] at *
    obtain ⟨prior,prevLast,_⟩ := segment_concat.mp segment
    refine segment_concat.mpr ⟨segment_frame ?_ prior, ?_, ?_⟩
    · intro q mq
      have inner : (body ++ [last]).getLast? ≠ some q := by
        intro same
        obtain rfl : last = q := by simpa using same
        exact (List.nodup_append.mp nodup).2.2 last mq last (by simp) rfl
      have next := nexts q (by simp [mq])
      rw [if_neg inner] at next
      exact ⟨prevs q (by simp [mq]), next⟩
    · exact (prevs last (by simp)).trans prevLast
    · have next := nexts last (by simp)
      rw [if_pos (by simp)] at next
      exact next

theorem segment_relink_first [DecidableEq P] {before' : Option P} (nodup : xs.Nodup)
    (prevs : ∀ q ∈ xs, other.prev q = if xs.head? = some q then before' else links.prev q)
    (nexts : ∀ q ∈ xs, other.next q = links.next q)
    (segment : Segment links before xs after) : Segment other before' xs after := by
  cases xs with
  | nil => trivial
  | cons first rest =>
    obtain ⟨_,nextFirst,more⟩ := segment
    refine ⟨?_, (nexts first (by simp)).trans nextFirst, segment_frame ?_ more⟩
    · have prev := prevs first (by simp)
      rw [if_pos (by simp)] at prev
      exact prev
    · intro q mq
      have inner : (first :: rest).head? ≠ some q := by
        intro same
        obtain rfl : first = q := by simpa using same
        exact (List.nodup_cons.mp nodup).1 mq
      have prev := prevs q (by simp [mq])
      rw [if_neg inner] at prev
      exact ⟨prev, nexts q (by simp [mq])⟩

theorem follow_next (segment : Segment links before xs none) (fuel : Nat)
    (enough : xs.length ≤ fuel) : follow links.next fuel xs.head? = xs := by
  induction xs generalizing before fuel with
  | nil => cases fuel <;> rfl
  | cons x rest ih =>
    cases fuel with
    | zero => simp at enough
    | succ fuel =>
      obtain ⟨_,hn,tail⟩ := segment
      have short : rest.length ≤ fuel := by simpa using enough
      simp only [List.head?_cons, follow, hn, Option.or_none, ih tail fuel short]

/-- From the last node the links lead back over the whole segment, and end. -/
theorem walk_prev (segment : Segment links none xs after) (fuel : Nat)
    (enough : xs.length ≤ fuel) : walk links.prev fuel xs.getLast? = some xs.reverse := by
  induction xs using List.reverseRecOn generalizing after fuel with
  | nil => cases fuel <;> rfl
  | append_singleton body last ih =>
    obtain ⟨prior,prev,_⟩ := segment_concat.mp segment
    rw [Option.or_none] at prev
    cases fuel with
    | zero => simp at enough
    | succ fuel =>
      have short : body.length ≤ fuel := by simpa using enough
      rw [List.getLast?_concat, walk, prev, ih prior fuel short]
      simp

end LinkedSegment
