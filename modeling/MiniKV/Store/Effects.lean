import MiniKV.Store.Cache

/- All that one call can do to a cache, said once. Every invariant of a run below
   is a case analysis over these six effects and never opens the calls again. -/
namespace CacheEffects
open KeyedList LruModel Decimal ShardModel CacheModel

variable {limits : Limits} {c : Cache} {cas : UInt64} {now : Time} {call : Call} {reply : Reply}
  {key : Bytes} {e : Entry} {es : List Entry} {size : Int}

/-- The entry that a successful write stores over what it found, with its reply. -/
inductive Stores (limits : Limits) (found : Option Entry) (cas : UInt64) (now : Time) :
    Call → Entry → Reply → Prop where
  | set (key value : Bytes) (ttl : Duration) :
      Stores limits found cas now (.set key value ttl)
        ⟨key,value,expiresAt now ttl,limits.itemSize key value.length,cas + 1⟩ (.wrote none)
  | cas {old : Entry} (key value : Bytes) (ttl : Duration)
      (hit : found = some old) (live : old.expired now = false) :
      Stores limits found cas now (.cas key value ttl old.cas)
        ⟨key,value,expiresAt now ttl,limits.itemSize key value.length,cas + 1⟩ (.wrote none)
  | incr {old : Entry} {delta next : UInt64} (key : Bytes)
      (hit : found = some old) (live : old.expired now = false)
      (count : nextCount old.value delta = .ok next) :
      Stores limits found cas now (.incr key delta)
        ⟨key,formatUint next,old.expiresAt,limits.itemSize key (formatUint next).length,cas + 1⟩
        (.counted (.ok next))

inductive Effect (limits : Limits) (c : Cache) (cas : UInt64) (now : Time) :
    Call → Cache → UInt64 → Reply → Prop where
  | refused {call : Call} {reply : Reply} (keyed : call ≠ .cleanupExpired)
      (failed : reply.success = false) : Effect limits c cas now call c cas reply
  | lapsed {call : Call} {reply : Reply} {key : Bytes} {e : Entry} (named : call.key = some key)
      (hit : lookup key c.entries = some e) (dead : e.expired now = true)
      (failed : reply.success = false) : Effect limits c cas now call (c.drop key) cas reply
  | touched {key : Bytes} {e : Entry} (hit : lookup key c.entries = some e)
      (live : e.expired now = false) :
      Effect limits c cas now (.get key) (c.touch e) cas (.found (some ⟨e.value,e.cas⟩))
  | removed {key : Bytes} {e : Entry} (hit : lookup key c.entries = some e)
      (live : e.expired now = false) :
      Effect limits c cas now (.delete key) (c.drop key) cas (.deleted true)
  | written {call : Call} {reply : Reply} {e : Entry}
      (stores : Stores limits (lookup e.key c.entries) cas now call e reply)
      (short : (e.value.length : Int) ≤ limits.maxValueBytes)
      (small : e.size ≤ limits.maxMemoryBytes) :
      Effect limits c cas now call (c.write limits now e) (cas + 1) reply
  | swept : Effect limits c cas now .cleanupExpired (c.cleanupExpired now).1 cas
      (.swept (c.cleanupExpired now).2)

theorem stores_facts {found : Option Entry} (stores : Stores limits found cas now call e reply) :
    call.key = some e.key ∧ call.writes = true ∧ reply.success = true ∧ e.cas = cas + 1 ∧
      e.size = limits.itemSize e.key e.value.length := by
  cases stores <;> exact ⟨rfl,rfl,rfl,rfl,rfl⟩

@[simp] theorem others_others (key : Bytes) (es : List Entry) :
    others key (others key es) = others key es := by
  simp [others, without]

theorem write_dropExpired (limits : Limits) (c : Cache) (now : Time) (e : Entry) :
    (c.dropExpired now e.key).write limits now e = c.write limits now e := by
  unfold Cache.dropExpired
  split
  · split
    · simp [Cache.write, Cache.drop]
    · rfl
  · rfl

theorem set_effect (value : Bytes) (ttl : Duration) :
    Effect limits c cas now (.set key value ttl) (c.set limits cas now key value ttl).1
      (c.set limits cas now key value ttl).2.1 (.wrote (c.set limits cas now key value ttl).2.2) := by
  unfold Cache.set
  split
  · exact Effect.refused (by simp) rfl
  · rename_i short
    dsimp only
    split
    · unfold Cache.dropExpired
      split
      · rename_i e hit
        split
        · rename_i dead
          exact Effect.lapsed rfl hit dead rfl
        · exact Effect.refused (by simp) rfl
      · exact Effect.refused (by simp) rfl
    · rename_i small
      let e : Entry := ⟨key,value,expiresAt now ttl,limits.itemSize key value.length,cas + 1⟩
      have same := write_dropExpired limits c now e
      rw [same]
      exact Effect.written (Stores.set key value ttl) (Int.not_lt.mp short) (Int.not_lt.mp small)

theorem get_effect :
    Effect limits c cas now (.get key) (c.get now key).1 cas (.found (c.get now key).2) := by
  unfold Cache.get
  split
  · exact Effect.refused (by simp) rfl
  · rename_i e hit
    split
    · rename_i dead
      exact Effect.lapsed rfl hit dead rfl
    · rename_i live
      exact Effect.touched hit (by simpa using live)

theorem cas_effect (value : Bytes) (ttl : Duration) (expected : UInt64) :
    Effect limits c cas now (.cas key value ttl expected)
      (c.cas limits cas now key value ttl expected).1
      (c.cas limits cas now key value ttl expected).2.1
      (.wrote (c.cas limits cas now key value ttl expected).2.2) := by
  unfold Cache.cas
  split
  · exact Effect.refused (by simp) rfl
  · rename_i short
    split
    · exact Effect.refused (by simp) rfl
    · rename_i old hit
      split
      · rename_i dead
        exact Effect.lapsed rfl hit dead rfl
      · rename_i live
        split
        · exact Effect.refused (by simp) rfl
        · rename_i same
          dsimp only
          split
          · exact Effect.refused (by simp) rfl
          · rename_i small
            obtain rfl : old.cas = expected := by simpa using same
            exact Effect.written (Stores.cas key value ttl hit (by simpa using live))
              (Int.not_lt.mp short) (Int.not_lt.mp small)

theorem delete_effect :
    Effect limits c cas now (.delete key) (c.delete now key).1 cas (.deleted (c.delete now key).2) := by
  unfold Cache.delete
  split
  · exact Effect.refused (by simp) rfl
  · rename_i e hit
    cases dead : e.expired now with
    | true => exact Effect.lapsed rfl hit dead rfl
    | false => exact Effect.removed hit dead

theorem incr_effect (delta : UInt64) :
    Effect limits c cas now (.incr key delta) (c.incr limits cas now key delta).1
      (c.incr limits cas now key delta).2.1 (.counted (c.incr limits cas now key delta).2.2) := by
  unfold Cache.incr
  split
  · exact Effect.refused (by simp) rfl
  · rename_i old hit
    split
    · rename_i dead
      exact Effect.lapsed rfl hit dead rfl
    · rename_i live
      split
      · exact Effect.refused (by simp) rfl
      · rename_i next count
        unfold Cache.incrTo
        by_cases short : ((formatUint next).length : Int) > limits.maxValueBytes
        · rw [if_pos short]
          exact Effect.refused (by simp) rfl
        · rw [if_neg short]
          dsimp only
          split
          · exact Effect.refused (by simp) rfl
          · rename_i small
            exact Effect.written (Stores.incr key hit (by simpa using live) count)
              (Int.not_lt.mp short) (Int.not_lt.mp small)

/-- The inversion of a call: one of the six effects, with its reply. -/
theorem step_effect (limits : Limits) (c : Cache) (cas : UInt64) (now : Time) (call : Call) :
    Effect limits c cas now call (c.step limits cas now call).1
      (c.step limits cas now call).2.1 (c.step limits cas now call).2.2 := by
  cases call with
  | set key value ttl => exact set_effect value ttl
  | get key => exact get_effect
  | cas key value ttl expected => exact cas_effect value ttl expected
  | delete key => exact delete_effect
  | incr key delta => exact incr_effect delta
  | cleanupExpired => exact Effect.swept

theorem makeRoom_sublist (limits : Limits) (now : Time) (size : Int) (es : List Entry) :
    (makeRoom limits now size es).kept.Sublist es := by
  unfold makeRoom
  split
  · exact List.Sublist.refl es
  · exact (trimBack_sublist _ _).trans List.filter_sublist

theorem makeRoom_fits (now : Time) (es : List Entry) (alone : fits limits size [] = true) :
    fits limits size (makeRoom limits now size es).kept = true := by
  unfold makeRoom
  split
  · rename_i fit
    exact fit
  · exact trimBack_fits alone _

theorem makeRoom_lookup (now : Time) (distinct : Distinct Entry.key es) (key : Bytes) :
    lookup key (makeRoom limits now size es).kept = lookup key es ∨
      (lookup key (makeRoom limits now size es).kept = none ∧ fits limits size es = false) := by
  -- What room making removes was expired, or was evicted because the write did not fit.
  cases hit : lookup key (makeRoom limits now size es).kept with
  | some e => exact Or.inl (find_of_sublist distinct (makeRoom_sublist limits now size es) hit).symm
  | none =>
    cases fit : fits limits size es with
    | true =>
      left
      simpa [makeRoom, fit] using hit.symm
    | false => exact Or.inr ⟨rfl,rfl⟩

theorem write_lookup_self (limits : Limits) (c : Cache) (now : Time) (e : Entry) :
    lookup e.key (c.write limits now e).entries = some e := find_cons_self rfl

theorem write_lookup_other (limits : Limits) (now : Time) {e : Entry}
    (distinct : Distinct Entry.key c.entries) (other : e.key ≠ key) :
    lookup key (c.write limits now e).entries = lookup key c.entries ∨
      (lookup key (c.write limits now e).entries = none ∧
        fits limits e.size (others e.key c.entries) = false) := by
  have behind : lookup key (c.write limits now e).entries =
      lookup key (makeRoom limits now e.size (others e.key c.entries)).kept := find_cons_ne other
  have old : lookup key (others e.key c.entries) = lookup key c.entries :=
    find_without_ne (Ne.symm other)
  have rest : Distinct Entry.key (others e.key c.entries) := without_distinct distinct
  rw [behind, ← old]
  exact makeRoom_lookup now rest key

theorem touch_lookup (hit : lookup e.key c.entries = some e) (key : Bytes) :
    lookup key (c.touch e).entries = lookup key c.entries := by
  by_cases own : e.key = key
  · subst own
    exact (find_cons_self rfl).trans hit.symm
  · exact (find_cons_ne own).trans (find_without_ne (Ne.symm own))

theorem drop_lookup_other {name : Bytes} (other : key ≠ name) :
    lookup key (c.drop name).entries = lookup key c.entries := find_without_ne other

theorem drop_lookup_self (c : Cache) (key : Bytes) : lookup key (c.drop key).entries = none :=
  find_without_self

theorem alive_lookup (now : Time) (distinct : Distinct Entry.key es) (key : Bytes) :
    lookup key (alive now es) = lookup key es ∨
      ∃ e, lookup key es = some e ∧ e.expired now = true ∧ lookup key (alive now es) = none := by
  cases hit : lookup key (alive now es) with
  | some e => exact Or.inl (find_of_sublist distinct List.filter_sublist hit).symm
  | none =>
    cases found : lookup key es with
    | none => exact Or.inl rfl
    | some e =>
      right
      obtain ⟨mem,same⟩ := find_some found
      refine ⟨e, rfl, ?_, rfl⟩
      cases dead : e.expired now with
      | true => rfl
      | false =>
        have stays : e ∈ alive now es := List.mem_filter.mpr ⟨mem, by simp [dead]⟩
        exact absurd same (find_none_iff.mp hit e stays)

end CacheEffects
