import MiniKV.Lib.LinkedSegment

/- Stored items on an explicit heap, and the intrusive recency list over them.
   A pointer is an address; nil is none. Go strings and byte slices are lists of
   bytes, and an instant counts nanoseconds from the zero time. -/
namespace LruModel
open LinkedSegment

abbrev Bytes := List UInt8
abbrev Time := Int
abbrev Duration := Int
abbrev Ptr := Nat

/-- The part of a stored item that is not a link. -/
structure Entry where
  key : Bytes
  value : Bytes
  expiresAt : Time
  size : Int
  cas : UInt64
  deriving DecidableEq, Repr

structure StoredItem extends Entry where
  prev : Option Ptr
  next : Option Ptr
  deriving DecidableEq, Repr

/-- The zero instant means that the entry never expires. -/
def Entry.expired (e : Entry) (now : Time) : Bool :=
  decide (e.expiresAt ≠ 0) && !decide (now < e.expiresAt)

abbrev Heap := Ptr → StoredItem

def modify (h : Heap) (p : Ptr) (f : StoredItem → StoredItem) : Heap :=
  fun q => if q = p then f (h q) else h q

structure LruList where
  head : Option Ptr
  tail : Option Ptr
  deriving DecidableEq, Repr

def pushFront (h : Heap) (l : LruList) (item : Ptr) : Heap × LruList :=
  let h := modify h item fun node => { node with prev := none, next := l.head }
  let h := match l.head with
    | some first => modify h first fun node => { node with prev := some item }
    | none => h
  (h, ⟨some item, if l.tail = none then some item else l.tail⟩)

def remove (h : Heap) (l : LruList) (item : Ptr) : Heap × LruList :=
  let (h, l) := match (h item).prev with
    | some p => (modify h p fun node => { node with next := (h item).next }, l)
    | none => (h, { l with head := (h item).next })
  let (h, l) := match (h item).next with
    | some n => (modify h n fun node => { node with prev := (h item).prev }, l)
    | none => (h, { l with tail := (h item).prev })
  (modify h item fun node => { node with prev := none, next := none }, l)

def moveToFront (h : Heap) (l : LruList) (item : Ptr) : Heap × LruList :=
  if l.head = some item then (h, l)
  else
    let (h, l) := remove h l item
    pushFront h l item

def back (l : LruList) : Option Ptr := l.tail

def linksOf (h : Heap) : Links Ptr := ⟨fun p => (h p).prev, fun p => (h p).next⟩

def Lists (h : Heap) (l : LruList) (xs : List Ptr) : Prop :=
  Represents (linksOf h) l.head l.tail xs

variable {h : Heap} {l : LruList} {xs before after : List Ptr} {x : Ptr}

@[simp] theorem modify_same (h : Heap) (p : Ptr) (f : StoredItem → StoredItem) :
    modify h p f p = f (h p) := by simp [modify]

theorem modify_ne (h : Heap) {p q : Ptr} (f : StoredItem → StoredItem) (other : q ≠ p) :
    modify h p f q = h q := by simp [modify, other]

theorem modify_data (h : Heap) (p q : Ptr) (f : StoredItem → StoredItem)
    (keeps : ∀ node, (f node).toEntry = node.toEntry) :
    (modify h p f q).toEntry = (h q).toEntry := by
  unfold modify
  split
  · exact keeps _
  · rfl

theorem pushFront_data (h : Heap) (l : LruList) (item q : Ptr) :
    ((pushFront h l item).1 q).toEntry = (h q).toEntry := by
  unfold pushFront
  cases l.head <;> simp [modify_data]

theorem remove_data (h : Heap) (l : LruList) (item q : Ptr) :
    ((remove h l item).1 q).toEntry = (h q).toEntry := by
  unfold remove
  cases (h item).prev with
  | none =>
    dsimp only
    split <;> simp [modify_data]
  | some p =>
    dsimp only
    split <;> simp [modify_data]

theorem moveToFront_data (h : Heap) (l : LruList) (item q : Ptr) :
    ((moveToFront h l item).1 q).toEntry = (h q).toEntry := by
  unfold moveToFront
  split
  · rfl
  · exact (pushFront_data _ _ item q).trans (remove_data h l item q)

theorem remove_links (offPrev : (h x).prev ≠ some x) (offNext : (h x).next ≠ some x) :
    (∀ q, ((remove h l x).1 q).prev =
      if q = x then none else if (h x).next = some q then (h x).prev else (h q).prev) ∧
    (∀ q, ((remove h l x).1 q).next =
      if q = x then none else if (h x).prev = some q then (h x).next else (h q).next) ∧
    (remove h l x).2.head = (if (h x).prev = none then (h x).next else l.head) ∧
    (remove h l x).2.tail = (if (h x).next = none then (h x).prev else l.tail) := by
  -- Every link and both ends after a removal, read off the node's old neighbours.
  unfold remove
  cases hp : (h x).prev with
  | none =>
    cases hn : (h x).next with
    | none =>
      simp only [hp, hn]
      refine ⟨?_, ?_, by simp, by simp⟩ <;> intro q <;> by_cases qx : q = x <;> simp [modify, qx]
    | some n =>
      have nx : n ≠ x := fun e => offNext (by rw [hn, e])
      simp only [hp, hn]
      refine ⟨?_, ?_, by simp, by simp⟩ <;> intro q <;> by_cases qx : q = x <;>
        by_cases qn : q = n <;> simp_all [modify, eq_comm]
  | some p =>
    have px : p ≠ x := fun e => offPrev (by rw [hp, e])
    have px' : x ≠ p := Ne.symm px
    cases hn : (h x).next with
    | none =>
      simp only [hp, hn, modify, px', if_false]
      refine ⟨?_, ?_, by simp, by simp⟩ <;> intro q <;> by_cases qx : q = x <;>
        by_cases qp : q = p <;> simp_all [eq_comm]
    | some n =>
      have nx : n ≠ x := fun e => offNext (by rw [hn, e])
      simp only [hp, hn, modify, px', if_false]
      refine ⟨?_, ?_, by simp, by simp⟩ <;> intro q <;> by_cases qx : q = x <;>
        by_cases qp : q = p <;> by_cases qn : q = n <;> simp_all [eq_comm]

theorem pushFront_lists (listed : Lists h l xs) (fresh : x ∉ xs) :
    Lists (pushFront h l x).1 (pushFront h l x).2 (x :: xs) := by
  obtain ⟨head,tail,segment,nodup⟩ := listed
  cases xs with
  | nil =>
    simp only [List.head?_nil, List.getLast?_nil] at head tail
    refine ⟨rfl, ?_, ?_, by simp⟩
    · simp [pushFront, tail]
    · simp [pushFront, head, linksOf, Segment]
  | cons y rest =>
    simp only [List.head?_cons] at head
    obtain ⟨_,nexty,more⟩ := segment
    have xy : x ≠ y := fun e => fresh (by simp [e])
    have offRest : ∀ z ∈ rest, z ≠ x ∧ z ≠ y := by
      intro z mz
      refine ⟨fun e => fresh (by simp [← e, mz]), fun e => ?_⟩
      exact (List.nodup_cons.mp nodup).1 (e ▸ mz)
    refine ⟨rfl, ?_, ⟨?_, ?_, ?_, ?_, ?_⟩, List.nodup_cons.mpr ⟨fresh,nodup⟩⟩
    · simp [pushFront, tail]
    · simp [pushFront, head, linksOf, modify, xy]
    · simp [pushFront, head, linksOf, modify, xy]
    · simp [pushFront, head, linksOf, modify]
    · simpa [pushFront, head, linksOf, modify, Ne.symm xy] using nexty
    · refine segment_frame ?_ more
      intro z mz
      obtain ⟨zx,zy⟩ := offRest z mz
      simp [pushFront, head, linksOf, modify, zx, zy]

theorem stored_same {a b : StoredItem} (data : a.toEntry = b.toEntry) (prev : a.prev = b.prev)
    (next : a.next = b.next) : a = b := by
  obtain ⟨_,_,_⟩ := a
  obtain ⟨_,_,_⟩ := b
  obtain rfl := data
  obtain rfl := prev
  obtain rfl := next
  rfl

theorem listed_neighbours (listed : Lists h l (before ++ x :: after)) :
    (h x).prev = before.getLast? ∧ (h x).next = after.head? := by
  have around := (segment_append.mp listed.segment).2
  obtain ⟨hp,hn,_⟩ := around
  exact ⟨by simpa [linksOf] using hp, by simpa [linksOf] using hn⟩

/-- A removed node points nowhere, and a node outside the list is not written. -/
theorem remove_outside (listed : Lists h l (before ++ x :: after)) :
    (remove h l x).1 x = ⟨(h x).toEntry,none,none⟩ ∧
      ∀ q, q ∉ before ++ x :: after → (remove h l x).1 q = h q := by
  obtain ⟨hp,hn⟩ := listed_neighbours listed
  obtain ⟨_,nodupCons,apart⟩ := List.nodup_append.mp listed.nodup
  have lastBefore : ∀ q, (h x).prev = some q → q ∈ before :=
    fun q same => List.mem_of_getLast? (hp ▸ same)
  have firstAfter : ∀ q, (h x).next = some q → q ∈ after :=
    fun q same => List.mem_of_head? (hn ▸ same)
  have offPrev : (h x).prev ≠ some x := fun same => apart x (lastBefore x same) x (by simp) rfl
  have offNext : (h x).next ≠ some x :=
    fun same => (List.nodup_cons.mp nodupCons).1 (firstAfter x same)
  obtain ⟨prevs,nexts,_⟩ := remove_links (l := l) offPrev offNext
  constructor
  · refine stored_same (remove_data h l x x) ?_ ?_
    · rw [prevs, if_pos rfl]
    · rw [nexts, if_pos rfl]
  · intro q off
    have other : q ≠ x := fun same => off (by simp [same])
    have notNext : (h x).next ≠ some q := fun same => off (by simp [firstAfter q same])
    have notPrev : (h x).prev ≠ some q := fun same => off (by simp [lastBefore q same])
    apply stored_same (remove_data h l x q)
    · rw [prevs, if_neg other, if_neg notNext]
    · rw [nexts, if_neg other, if_neg notPrev]

theorem remove_lists (listed : Lists h l (before ++ x :: after)) :
    Lists (remove h l x).1 (remove h l x).2 (before ++ after) := by
  -- Unlinking a node closes the gap, wherever the node stands.
  obtain ⟨hp,hn⟩ := listed_neighbours listed
  obtain ⟨head,tail,segment,nodup⟩ := listed
  obtain ⟨left,_,_,right⟩ := segment_append.mp segment
  obtain ⟨nodupLeft,nodupCons,apart⟩ := List.nodup_append.mp nodup
  obtain ⟨xAfter,nodupRight⟩ := List.nodup_cons.mp nodupCons
  have xBefore : x ∉ before := fun mem => apart x mem x (by simp) rfl
  have disjoint : ∀ q ∈ before, q ∉ after := fun q mq ma => apart q mq q (by simp [ma]) rfl
  have lastBefore : ∀ q, before.getLast? = some q → q ∈ before := fun q => List.mem_of_getLast?
  have firstAfter : ∀ q, after.head? = some q → q ∈ after := fun q => List.mem_of_head?
  have offPrev : (h x).prev ≠ some x := fun e => xBefore (lastBefore x (hp ▸ e))
  have offNext : (h x).next ≠ some x := fun e => xAfter (firstAfter x (hn ▸ e))
  obtain ⟨prevs,nexts,newHead,newTail⟩ := remove_links (l := l) offPrev offNext
  rw [hp, hn] at newHead newTail
  simp only [hp, hn] at prevs nexts
  refine ⟨?_, ?_, segment_append.mpr ⟨?_, ?_⟩, ?_⟩
  · rw [newHead, head]
    cases before with
    | nil => simp
    | cons y rest => simp
  · rw [newTail, tail]
    cases after with
    | nil => simp
    | cons y rest => simp
  · -- only the last node before x gets another successor
    refine segment_relink_last nodupLeft ?_ ?_ left
    · intro q mq
      have qx : q ≠ x := fun e => xBefore (e ▸ mq)
      have inner : after.head? ≠ some q := fun e => disjoint q mq (firstAfter q e)
      simp [linksOf, prevs, qx, inner]
    · intro q mq
      have qx : q ≠ x := fun e => xBefore (e ▸ mq)
      simp [linksOf, nexts, qx]
  · -- and only the first node after x another predecessor
    refine segment_relink_first nodupRight ?_ ?_ right
    · intro q mq
      have qx : q ≠ x := fun e => xAfter (e ▸ mq)
      simp [linksOf, prevs, qx]
    · intro q mq
      have qx : q ≠ x := fun e => xAfter (e ▸ mq)
      have inner : before.getLast? ≠ some q := fun e => disjoint q (lastBefore q e) mq
      simp [linksOf, nexts, qx, inner]
  · exact List.nodup_append.mpr ⟨nodupLeft,nodupRight,fun a ma b mb => apart a ma b (by simp [mb])⟩

theorem erase_listed (listed : Lists h l (before ++ x :: after)) :
    (before ++ x :: after).erase x = before ++ after := by
  have apart := (List.nodup_append.mp listed.nodup).2.2
  have xBefore : x ∉ before := fun mem => apart x mem x (by simp) rfl
  rw [List.erase_append_right _ xBefore, List.erase_cons_head]

theorem remove_lists_erase (listed : Lists h l xs) (mem : x ∈ xs) :
    Lists (remove h l x).1 (remove h l x).2 (xs.erase x) := by
  obtain ⟨before,after,rfl⟩ := List.append_of_mem mem
  rw [erase_listed listed]
  exact remove_lists listed

theorem moveToFront_lists (listed : Lists h l xs) (mem : x ∈ xs) :
    Lists (moveToFront h l x).1 (moveToFront h l x).2 (x :: xs.erase x) := by
  unfold moveToFront
  split
  · rename_i first
    rw [listed.head] at first
    cases xs with
    | nil => simp at mem
    | cons y rest =>
      simp only [List.head?_cons, Option.some.injEq] at first
      subst y
      simpa using listed
  · exact pushFront_lists (remove_lists_erase listed mem) listed.nodup.not_mem_erase

theorem pushFront_outside {q : Ptr} (listed : Lists h l xs) (off : q ∉ x :: xs) :
    (pushFront h l x).1 q = h q := by
  have other : q ≠ x := fun same => off (by simp [same])
  unfold pushFront
  cases first : l.head with
  | none =>
    dsimp only
    rw [modify_ne _ _ other]
  | some y =>
    have inside : y ∈ xs := List.mem_of_head? (listed.head ▸ first)
    have apart : q ≠ y := fun same => off (by simp [same, inside])
    dsimp only
    rw [modify_ne _ _ apart, modify_ne _ _ other]

theorem moveToFront_outside {q : Ptr} (listed : Lists h l xs) (mem : x ∈ xs) (off : q ∉ xs) :
    (moveToFront h l x).1 q = h q := by
  unfold moveToFront
  split
  · rfl
  · have apart : q ∉ x :: xs.erase x := by
      intro inside
      rcases List.mem_cons.mp inside with rfl | later
      · exact off mem
      · exact off (List.mem_of_mem_erase later)
    have pushed := pushFront_outside (remove_lists_erase listed mem) apart
    obtain ⟨before,after,rfl⟩ := List.append_of_mem mem
    exact pushed.trans ((remove_outside listed).2 q off)

/-- What the operations do to a list that stands for the sequence. The last part is the way
    of the eviction: back along the links from the tail, until there is no node left. -/
structure ImplementsSequence (h : Heap) (l : LruList) (xs : List Ptr) : Prop where
  pushed : ∀ x, x ∉ xs →
    Lists (pushFront h l x).1 (pushFront h l x).2 (x :: xs) ∧
      ∀ q, q ∉ x :: xs → (pushFront h l x).1 q = h q
  removed : ∀ x, x ∈ xs →
    Lists (remove h l x).1 (remove h l x).2 (xs.erase x) ∧
      (remove h l x).1 x = ⟨(h x).toEntry,none,none⟩ ∧
      ∀ q, q ∉ xs → (remove h l x).1 q = h q
  moved : ∀ x, x ∈ xs →
    Lists (moveToFront h l x).1 (moveToFront h l x).2 (x :: xs.erase x) ∧
      ∀ q, q ∉ xs → (moveToFront h l x).1 q = h q
  last : back l = xs.getLast?
  backwards : ∀ fuel, xs.length ≤ fuel →
    walk (fun p => (h p).prev) fuel (back l) = some xs.reverse

theorem list_implements_sequence (listed : Lists h l xs) : ImplementsSequence h l xs where
  pushed := fun _ fresh => ⟨pushFront_lists listed fresh, fun _ => pushFront_outside listed⟩
  removed := by
    intro x mem
    refine ⟨remove_lists_erase listed mem, ?_⟩
    obtain ⟨before,after,rfl⟩ := List.append_of_mem mem
    exact remove_outside listed
  moved := by
    intro x mem
    exact ⟨moveToFront_lists listed mem, fun _ => moveToFront_outside listed mem⟩
  last := listed.tail
  backwards := by
    intro fuel enough
    have tail : back l = xs.getLast? := listed.tail
    rw [tail]
    exact walk_prev listed.segment fuel enough

/-- Three nodes, pushed in turn onto a heap whose links are all stale. -/
def pushedThree : Heap × LruList :=
  let h : Heap := fun _ => ⟨⟨[],[],0,0,0⟩,some 7,some 7⟩
  let one := pushFront h ⟨none,none⟩ 3
  let two := pushFront one.1 one.2 2
  pushFront two.1 two.2 1

theorem pushedThree_implements : Lists pushedThree.1 pushedThree.2 [1,2,3] ∧
    ImplementsSequence pushedThree.1 pushedThree.2 [1,2,3] ∧
    (moveToFront pushedThree.1 pushedThree.2 2).2 = ⟨some 2,some 3⟩ := by
  have empty : Lists (fun _ => ⟨⟨[],[],0,0,0⟩,some 7,some 7⟩) ⟨none,none⟩ [] :=
    ⟨rfl,rfl,trivial,List.nodup_nil⟩
  have one := pushFront_lists (x := 3) empty (by simp)
  have two := pushFront_lists (x := 2) one (by simp)
  have listed : Lists pushedThree.1 pushedThree.2 [1,2,3] := pushFront_lists two (by simp)
  exact ⟨listed, list_implements_sequence listed, by decide⟩

end LruModel
