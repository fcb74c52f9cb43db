import MiniKV.Store.Invariant

/- The list of a shard is the history of its uses: from head to tail, the keys
   present stand in the order of their last successful use, the latest first. -/
namespace ShardRecency
open MachineWord LinkedSegment KeyedList LruModel ShardModel CacheModel CacheEffects
  ShardRefinement ShardSimulation ShardInvariant StoreModel StepRuns

abbrev ShardStep := Step Shard Visit Reply

/-- The keys met by following the next links from the head. -/
def recency (sh : Shard) : List Bytes :=
  (follow (linksOf sh.heap).next sh.items.keys.length sh.lru.head).map fun p => (sh.heap p).key

def touches : Call → Bool
  | .set .. | .get _ | .cas .. | .incr .. => true
  | .delete _ | .cleanupExpired => false

def uses (key : Bytes) (x : ShardStep) : Bool :=
  touches x.input.call && x.output.success && decide (x.input.call.key = some key)

/-- The position, counted from one, of the last step that used the key; zero if none did. -/
def lastUse (key : Bytes) (steps : List ShardStep) : Nat :=
  (steps.zipIdx 1).foldl (fun last x => if uses key x.1 then x.2 else last) 0

/-- A use puts its key in front and keeps the order of the rest; without a use the
    whole order is kept. Keys may leave in both cases. -/
def KeepsOrder (x : ShardStep) : Prop :=
  ((∀ key, uses key x = false) → (recency x.after).Sublist (recency x.before)) ∧
    ∀ key, uses key x = true → ∃ rest, recency x.after = key :: rest ∧
      rest.Sublist ((recency x.before).filter (· ≠ key))

variable {sh : Shard} {c d : Cache} {xs : List Ptr} {key : Bytes} {es fs : List Entry}
  {steps : List ShardStep}

theorem lastUse_snoc (key : Bytes) (steps : List ShardStep) (x : ShardStep) :
    lastUse key (steps ++ [x]) = if uses key x then steps.length + 1 else lastUse key steps := by
  simp [lastUse, List.zipIdx_append, Nat.add_comm]

theorem lastUse_le (key : Bytes) (steps : List ShardStep) : lastUse key steps ≤ steps.length := by
  induction steps using List.reverseRecOn with
  | nil => simp [lastUse]
  | append_singleton steps x ih =>
    rw [lastUse_snoc, List.length_append, List.length_singleton]
    split <;> omega

theorem followed_nodes (ref : Refines sh c xs) :
    follow (linksOf sh.heap).next sh.items.keys.length sh.lru.head = xs := by
  have spelled := follow_next ref.listed.segment sh.items.keys.length (length_le_items ref)
  rw [← ref.listed.head] at spelled
  exact spelled

theorem recency_refined (ref : Refines sh c xs) : recency sh = c.entries.map Entry.key := by
  rw [recency, followed_nodes ref, ref.entries, List.map_map]
  rfl

theorem recency_present (ref : Refines sh c xs) : key ∈ recency sh ↔ key ∈ sh.items := by
  rw [recency_refined ref, ← AList.lookup_isSome]
  constructor
  · intro listed
    obtain ⟨e,me,rfl⟩ := List.mem_map.mp listed
    exact AList.lookup_isSome.mpr (entry_mapped ref me)
  · intro present
    obtain ⟨p,hit⟩ := Option.isSome_iff_exists.mp present
    obtain ⟨mem,same⟩ := find_some (lookup_some ref hit).2.2
    exact List.mem_map.mpr ⟨_,mem,same⟩

/-- What a call does to the order: a use puts its key in front of a part of the
    others, and anything else leaves a part of the sequence. -/
theorem effect_order {limits : Limits} {cas counter : UInt64} {now : Time} {call : Call}
    {reply : Reply} (effect : Effect limits c cas now call d counter reply) :
    (touches call = true ∧ reply.success = true ∧ ∃ e rest, call.key = some e.key ∧
        d.entries = e :: rest ∧ rest.Sublist (others e.key c.entries)) ∨
      ((touches call && reply.success) = false ∧ d.entries.Sublist c.entries) := by
  cases effect with
  | refused _ failed => exact Or.inr ⟨by simp [failed], List.Sublist.refl _⟩
  | lapsed _ _ _ failed => exact Or.inr ⟨by simp [failed], without_sublist _ _ _⟩
  | @touched key e hit live =>
    refine Or.inl ⟨rfl, rfl, e, _, ?_, rfl, List.Sublist.refl _⟩
    rw [(find_some hit).2]
    rfl
  | removed => exact Or.inr ⟨rfl, without_sublist _ _ _⟩
  | @written call reply e stores short small =>
    obtain ⟨named,_,success,_,_⟩ := stores_facts stores
    have use : touches call = true := by cases stores <;> rfl
    exact Or.inl ⟨use, success, e, _, named, rfl, makeRoom_sublist _ _ _ _⟩
  | swept => exact Or.inr ⟨rfl, List.filter_sublist⟩

/-- Every entry was used, and an entry nearer to the front was used later. -/
def Ranked (steps : List ShardStep) (es : List Entry) : Prop :=
  (∀ e ∈ es, 0 < lastUse e.key steps) ∧
    es.Pairwise fun a b => lastUse b.key steps < lastUse a.key steps

theorem ranked_sublist (sub : es.Sublist fs) (ranked : Ranked steps fs) : Ranked steps es :=
  ⟨fun e me => ranked.1 e (sub.subset me), ranked.2.sublist sub⟩

theorem ranked_snoc {x : ShardStep} (unused : ∀ e ∈ es, uses e.key x = false)
    (ranked : Ranked steps es) : Ranked (steps ++ [x]) es := by
  have same : ∀ e ∈ es, lastUse e.key (steps ++ [x]) = lastUse e.key steps := by
    intro e me
    rw [lastUse_snoc, unused e me]
    rfl
  constructor
  · intro e me
    rw [same e me]
    exact ranked.1 e me
  · refine ranked.2.imp_of_mem ?_
    intro a b ma mb later
    rw [same a ma, same b mb]
    exact later

theorem ranked_step {limits : Limits} {cas counter : UInt64} {now : Time} {x : ShardStep}
    (effect : Effect limits c cas now x.input.call d counter x.output)
    (ranked : Ranked steps c.entries) : Ranked (steps ++ [x]) d.entries := by
  rcases effect_order effect with ⟨use,success,e,rest,named,front,sub⟩ | ⟨idle,sub⟩
  · have older : Ranked (steps ++ [x]) rest := by
      apply ranked_snoc
      · intro y my
        have other := (mem_without.mp (sub.subset my)).2
        simp [uses, named, Ne.symm other]
      · exact ranked_sublist (sub.trans (without_sublist _ _ _)) ranked
    have newest : lastUse e.key (steps ++ [x]) = steps.length + 1 := by
      rw [lastUse_snoc, if_pos (by simp [uses, use, success, named])]
    rw [front]
    constructor
    · intro y my
      rcases List.mem_cons.mp my with rfl | my
      · omega
      · exact older.1 y my
    · refine List.pairwise_cons.mpr ⟨?_, older.2⟩
      intro y my
      have other := (mem_without.mp (sub.subset my)).2
      have bound := lastUse_le y.key steps
      rw [newest, lastUse_snoc, if_neg (by simp [uses, named, Ne.symm other])]
      omega
  · refine ranked_snoc (fun e _ => ?_) (ranked_sublist sub ranked)
    simp [uses, idle]

theorem step_order {x : ShardStep} {limits : Limits} {cas counter : UInt64} {now : Time}
    {ys : List Ptr} (before : Refines x.before c xs) (after : Refines x.after d ys)
    (effect : Effect limits c cas now x.input.call d counter x.output) :
    KeepsOrder x := by
  rw [KeepsOrder, recency_refined before, recency_refined after]
  rcases effect_order effect with ⟨use,success,e,rest,named,front,sub⟩ | ⟨idle,sub⟩
  · have used : uses e.key x = true := by simp [uses, use, success, named]
    constructor
    · intro unused
      rw [unused e.key] at used
      cases used
    · intro key same
      obtain rfl : e.key = key := by
        simpa [uses, use, success, named] using same
      refine ⟨rest.map Entry.key, by rw [front, List.map_cons], ?_⟩
      rw [List.filter_map]
      exact sub.map Entry.key
  · constructor
    · intro _
      exact sub.map Entry.key
    · intro key used
      simp [uses, idle] at used

theorem run_ranked {config : Config} (run : Run Shard.visit (freshShard config) steps sh) :
    (∃ c xs, Refines sh c xs ∧ Ranked steps c.entries) ∧ ∀ x ∈ steps, KeepsOrder x := by
  refine run_invariant (fun steps sh => (∃ c xs, Refines sh c xs ∧ Ranked steps c.entries) ∧
    ∀ x ∈ steps, KeepsOrder x) ?_ ?_ run
  · refine ⟨⟨CacheModel.empty, [], newShard_refines int64 (by decide) _ _, ?_⟩, by simp⟩
    exact ⟨by simp [CacheModel.empty], List.Pairwise.nil⟩
  · intro steps sh v next reply _ held taken
    obtain ⟨⟨c,xs,ref,ranked⟩,orders⟩ := held
    obtain ⟨d,ys,counter,refined,_,effect⟩ := visit_refined_effect ref taken
    refine ⟨⟨d, ys, refined, ranked_step effect ranked⟩, ?_⟩
    intro x mem
    rcases List.mem_append.mp mem with old | new
    · exact orders x old
    · obtain rfl := List.mem_singleton.mp new
      exact step_order ref refined effect

/-- Exact LRU order: the list holds the keys present by decreasing last use, and only
    a use moves a key. -/
theorem lru_order_is_last_use (config : Config) {steps : List ShardStep} {sh : Shard}
    (run : Run Shard.visit (freshShard config) steps sh) :
    (∀ key, key ∈ recency sh ↔ key ∈ sh.items) ∧
      ((recency sh).Pairwise fun a b => lastUse b steps < lastUse a steps) ∧
      (∀ key ∈ recency sh, 0 < lastUse key steps) ∧ ∀ x ∈ steps, KeepsOrder x := by
  obtain ⟨⟨c,xs,ref,used,sorted⟩,orders⟩ := run_ranked run
  refine ⟨fun key => recency_present ref, ?_, ?_, orders⟩
  · rw [recency_refined ref, List.pairwise_map]
    exact sorted
  · intro key mem
    rw [recency_refined ref] at mem
    obtain ⟨e,me,rfl⟩ := List.mem_map.mp mem
    exact used e me

def readVisits : List Visit :=
  [⟨.set [97] [49] 0,0,1,.asListed⟩, ⟨.set [98] [50] 5,1,2,.asListed⟩,
    ⟨.get [97],2,3,.asListed⟩]

theorem read_makes_most_recent : ∃ steps sh,
    Run Shard.visit (freshShard sampleConfig) steps sh ∧ steps.map Step.input = readVisits ∧
      recency sh = [[97],[98]] ∧ lastUse [98] steps < lastUse [97] steps := by
  have done : (exec Shard.visit (freshShard sampleConfig) readVisits).map
      (fun done => recency done.2) = some [[97],[98]] := by decide
  obtain ⟨steps,sh,run,inputs,order⟩ := exec_shows done
  have sorted := (lru_order_is_last_use sampleConfig run).2.1
  dsimp only at order
  rw [order] at sorted
  exact ⟨steps, sh, run, inputs, order, by simpa using sorted⟩

end ShardRecency
