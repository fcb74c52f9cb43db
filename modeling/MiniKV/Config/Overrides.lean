import Mathlib.Logic.Relation
import MiniKV.Config.Load

/- What loading is for: the defaults, overridden field by field by the last assignment to
   each key. The loop over the lines is compared with that reading, and the reading says
   what the order and the layout of a file can change; an error tells where it ends. -/
namespace ConfigOverrides
open LruModel Decimal Utf8 Fields Durations ProtocolModel ConfigModel

/-- How the value of a key is written. -/
inductive Kind where
  | plain
  | number
  | duration
  deriving DecidableEq, Repr

@[reducible] def Kind.Value : Kind → Type
  | .plain => Text
  | .number => Int
  | .duration => Duration

def Kind.parse (fraction : Nat → Nat → Nat → Nat) : (kind : Kind) → Text → Option kind.Value
  | .plain, value => some value
  | .number, value => (atoi value).toOption
  | .duration, value => (parseDuration fraction value).toOption

def kindOf : Key → Kind
  | .addr => .plain
  | .pprofAddr => .plain
  | .shards => .number
  | .maxValueBytes => .number
  | .maxMemoryBytes => .number
  | .itemOverheadBytes => .number
  | .cleanupInterval => .duration
  | .tlsCert => .plain
  | .tlsKey => .plain
  | .authToken => .plain
  | .idleTimeout => .duration
  | .maxConnections => .number
  | .shutdownTimeout => .duration

def field (c : Config) : (key : Key) → (kindOf key).Value
  | .addr => c.addr
  | .pprofAddr => c.pprofAddr
  | .shards => c.shards
  | .maxValueBytes => c.maxValueBytes
  | .maxMemoryBytes => c.maxMemoryBytes
  | .itemOverheadBytes => c.itemOverheadBytes
  | .cleanupInterval => c.cleanupInterval
  | .tlsCert => c.tlsCert
  | .tlsKey => c.tlsKey
  | .authToken => c.authToken
  | .idleTimeout => c.idleTimeout
  | .maxConnections => c.maxConnections
  | .shutdownTimeout => c.shutdownTimeout

/-- Some of the values of a configuration. -/
abbrev Settings := (key : Key) → Option (kindOf key).Value

def overridden (c : Config) (settings : Settings) : Config where
  addr := (settings .addr).getD c.addr
  pprofAddr := (settings .pprofAddr).getD c.pprofAddr
  shards := (settings .shards).getD c.shards
  maxValueBytes := (settings .maxValueBytes).getD c.maxValueBytes
  maxMemoryBytes := (settings .maxMemoryBytes).getD c.maxMemoryBytes
  itemOverheadBytes := (settings .itemOverheadBytes).getD c.itemOverheadBytes
  cleanupInterval := (settings .cleanupInterval).getD c.cleanupInterval
  tlsCert := (settings .tlsCert).getD c.tlsCert
  tlsKey := (settings .tlsKey).getD c.tlsKey
  authToken := (settings .authToken).getD c.authToken
  idleTimeout := (settings .idleTimeout).getD c.idleTimeout
  maxConnections := (settings .maxConnections).getD c.maxConnections
  shutdownTimeout := (settings .shutdownTimeout).getD c.shutdownTimeout

def Ignored (line : Text) : Prop := trimSpace line = [] ∨ (trimSpace line).head? = some hash

instance (line : Text) : Decidable (Ignored line) := inferInstanceAs (Decidable (_ ∨ _))

/-- Key and value of a line, split at its first equals sign. -/
def assignment (line : Text) : Option (Text × Text) :=
  if Ignored line ∨ equalsSign ∉ trimSpace line then none
  else
    some (trimSpace ((trimSpace line).takeWhile fun b => b != equalsSign),
      trimSpace (((trimSpace line).dropWhile fun b => b != equalsSign).drop 1))

/-- What an assignment sets. -/
def setting (fraction : Nat → Nat → Nat → Nat) (name value : Text) : Settings := fun key =>
  if name = ascii key.name then (kindOf key).parse fraction value else none

def assigned (fraction : Nat → Nat → Nat → Nat) (line : Text) : Settings := fun key =>
  (assignment line).bind fun pair => setting fraction pair.1 pair.2 key

def Accepted (fraction : Nat → Nat → Nat → Nat) (line : Text) : Prop :=
  Ignored line ∨ ∃ key value, assignment line = some (ascii key.name,value) ∧
    ((kindOf key).parse fraction value).isSome = true

def lastAssigned (fraction : Nat → Nat → Nat → Nat) (lines : List Text) : Settings := fun key =>
  (lines.filterMap fun line => assigned fraction line key).getLast?

/-- The defaults with the last assignment to each key. -/
def declared (fraction : Nat → Nat → Nat → Nat) (lines : List Text) : Config :=
  overridden Config.default (lastAssigned fraction lines)

def linesOf (bytes : Text) : List Text := bytes.splitOn lf

/-- Every line, without its line feed, is shorter than the scanner's limit. -/
def Short (bytes : Text) : Prop := ∀ line ∈ linesOf bytes, line.length < maxScanTokenSize

instance (bytes : Text) : Decidable (Short bytes) :=
  inferInstanceAs (Decidable (∀ line ∈ linesOf bytes, line.length < maxScanTokenSize))

/-- White space for the places of an assignment that the parser trims. -/
structure Spacing where
  indent : Text
  behindKey : Text
  beforeValue : Text
  trailing : Text
  blank : Blank indent ∧ Blank behindKey ∧ Blank beforeValue ∧ Blank trailing

def Spacing.line (s : Spacing) (key value : Text) : Text :=
  (s.indent ++ (key ++ s.behindKey)) ++ equalsSign :: (s.beforeValue ++ (value ++ s.trailing))

/-- No two of the lines assign to one key. -/
def DistinctKeys (lines : List Text) : Prop := lines.Pairwise fun a b =>
  ∀ name value other, assignment a = some (name,value) → assignment b ≠ some (name,other)

/-- The changes of a file that do not matter. -/
inductive Edit : List Text → List Text → Prop where
  | ignored (before after : List Text) {line : Text} (skipped : Ignored line) :
      Edit (before ++ after) (before ++ line :: after)
  | spacing (before after : List Text) (s t : Spacing) {key : Text} (plain : equalsSign ∉ key)
      (value : Text) : Edit (before ++ s.line key value :: after) (before ++ t.line key value :: after)
  | permuted (before after : List Text) {block other : List Text} (perm : block.Perm other)
      (distinct : DistinctKeys block) :
      Edit (before ++ (block ++ after)) (before ++ (other ++ after))

variable {fraction : Nat → Nat → Nat → Nat} {c d cfg done : Config} {key : Key}
  {line name value left right bytes begun path : Text} {lines : List Text}

theorem field_overridden (c : Config) (settings : Settings) (key : Key) :
    field (overridden c settings) key = (settings key).getD (field c key) := by
  cases key <;> rfl

theorem config_ext (same : ∀ key, field c key = field d key) : c = d := by
  obtain ⟨_,_,_,_,_,_,_,_,_,_,_,_,_⟩ := c
  obtain ⟨_,_,_,_,_,_,_,_,_,_,_,_,_⟩ := d
  rw [Config.mk.injEq]
  exact ⟨same .addr,same .pprofAddr,same .shards,same .maxValueBytes,same .maxMemoryBytes,
    same .itemOverheadBytes,same .cleanupInterval,same .tlsCert,same .tlsKey,same .authToken,
    same .idleTimeout,same .maxConnections,same .shutdownTimeout⟩

theorem overridden_none (c : Config) : overridden c (fun _ => none) = c := rfl

theorem overridden_twice (c : Config) (first second : Settings) :
    overridden (overridden c first) second =
      overridden c fun key => (second key).or (first key) := by
  apply config_ext
  intro key
  rw [field_overridden, field_overridden, field_overridden]
  cases second key <;> rfl

theorem key_listed (key : Key) : key ∈ Key.all := by cases key <;> decide

theorem name_inj {other : Key} (same : ascii key.name = ascii other.name) : key = other := by
  have distinct : (Key.all.map fun key => ascii key.name).Nodup := by decide
  exact List.inj_on_of_nodup_map distinct (key_listed key) (key_listed other) same

theorem bind_ok_error {ε α β : Type} {x : Except ε α} {f : α → β} {e : ε}
    (failed : (x >>= fun a => .ok (f a)) = .error e) : x = .error e := by
  cases x with
  | error cause => exact congrArg Except.error (Except.error.inj failed)
  | ok a => cases failed

theorem parseInt_ok_iff {n : Int} :
    parseInt value key = .ok n ↔ (atoi value).toOption = some n := by
  unfold parseInt
  cases atoi value <;> simp [Except.toOption]

theorem parseDurationOf_ok_iff {n : Duration} :
    parseDurationOf fraction value key = .ok n ↔
      (parseDuration fraction value).toOption = some n := by
  unfold parseDurationOf
  cases parseDuration fraction value <;> simp [Except.toOption]

theorem assign_parsed {v : (kindOf key).Value} (parsed : (kindOf key).parse fraction value = some v)
    (cfg : Config) : ∃ done, cfg.assign fraction key value = .ok done ∧ field done key = v ∧
      ∀ other, other ≠ key → field done other = field cfg other := by
  cases key with
  | addr | pprofAddr | tlsCert | tlsKey | authToken =>
    obtain rfl := Option.some.inj parsed
    refine ⟨_, rfl, rfl, ?_⟩
    intro other apart
    cases other <;> first | rfl | exact absurd rfl apart
  | shards | maxValueBytes | maxMemoryBytes | itemOverheadBytes | maxConnections =>
    simp only [Config.assign, parseInt_ok_iff.mpr parsed]
    refine ⟨_, rfl, rfl, ?_⟩
    intro other apart
    cases other <;> first | rfl | exact absurd rfl apart
  | cleanupInterval | idleTimeout | shutdownTimeout =>
    simp only [Config.assign, parseDurationOf_ok_iff.mpr parsed]
    refine ⟨_, rfl, rfl, ?_⟩
    intro other apart
    cases other <;> first | rfl | exact absurd rfl apart

theorem assign_ok (done : cfg.assign fraction key value = .ok d) :
    ((kindOf key).parse fraction value).isSome = true := by
  cases key with
  | addr | pprofAddr | tlsCert | tlsKey | authToken => rfl
  | shards | maxValueBytes | maxMemoryBytes | itemOverheadBytes | maxConnections =>
    obtain ⟨n,read,_⟩ := bind_ok done
    exact Option.isSome_of_eq_some (parseInt_ok_iff.mp read)
  | cleanupInterval | idleTimeout | shutdownTimeout =>
    obtain ⟨n,read,_⟩ := bind_ok done
    exact Option.isSome_of_eq_some (parseDurationOf_ok_iff.mp read)

theorem assign_overrides (parses : ((kindOf key).parse fraction value).isSome = true)
    (cfg : Config) : cfg.assign fraction key value =
      .ok (overridden cfg (setting fraction (ascii key.name) value)) := by
  obtain ⟨v,parsed⟩ := Option.isSome_iff_exists.mp parses
  obtain ⟨done,assigned,own,others⟩ := assign_parsed parsed cfg
  have same : done = overridden cfg (setting fraction (ascii key.name) value) := by
    apply config_ext
    intro other
    rw [field_overridden, setting]
    by_cases this : other = key
    · subst this
      rw [if_pos rfl, parsed, own]
      rfl
    · have apart : ascii key.name ≠ ascii other.name := fun same => this (name_inj same).symm
      rw [if_neg apart, others other this]
      rfl
  rw [assigned, same]

/-- The switch: a known key with a value that parses, and only its own field changes. -/
theorem setField_ok_iff : cfg.setField fraction name value = .ok done ↔
    (∃ key : Key, name = ascii key.name ∧ ((kindOf key).parse fraction value).isSome = true) ∧
      done = overridden cfg (setting fraction name value) := by
  unfold Config.setField
  cases found : Key.all.find? fun known => ascii known.name = name with
  | none =>
    have unknown : ∀ key : Key, name ≠ ascii key.name := by
      intro key same
      simpa [same] using List.find?_eq_none.mp found key (key_listed key)
    constructor
    · intro done
      cases done
    · rintro ⟨⟨key,same,_⟩,_⟩
      exact absurd same (unknown key)
  | some known =>
    obtain rfl : ascii known.name = name := by simpa using List.find?_some found
    dsimp only
    constructor
    · intro assigned
      have parses := assign_ok assigned
      rw [assign_overrides parses] at assigned
      exact ⟨⟨known,rfl,parses⟩,(Except.ok.inj assigned).symm⟩
    · rintro ⟨⟨key,same,parses⟩,rfl⟩
      obtain rfl := name_inj same
      exact assign_overrides parses cfg

/-- A message names a key: a known one in front, and any other one in quotes. -/
def Names (quote : Text → Text) (name message : Text) : Prop :=
  name <+: message ∨ quote name <:+ message

theorem parseInt_names {e : FieldError} (failed : parseInt value key = .error e)
    (quote : Text → Text) : ascii key.name <+: e.message quote := by
  unfold parseInt at failed
  split at failed
  · obtain rfl := Except.error.inj failed
    simp [FieldError.message]
  · cases failed

theorem parseDurationOf_names {e : FieldError}
    (failed : parseDurationOf fraction value key = .error e) (quote : Text → Text) :
    ascii key.name <+: e.message quote := by
  unfold parseDurationOf at failed
  split at failed
  · obtain rfl := Except.error.inj failed
    simp [FieldError.message]
  · cases failed

theorem assign_names {e : FieldError} (failed : cfg.assign fraction key value = .error e)
    (quote : Text → Text) : ascii key.name <+: e.message quote := by
  cases key with
  | addr | pprofAddr | tlsCert | tlsKey | authToken => cases failed
  | shards | maxValueBytes | maxMemoryBytes | itemOverheadBytes | maxConnections =>
    exact parseInt_names (bind_ok_error failed) quote
  | cleanupInterval | idleTimeout | shutdownTimeout =>
    exact parseDurationOf_names (bind_ok_error failed) quote

theorem setField_names {e : FieldError} (failed : cfg.setField fraction name value = .error e)
    (quote : Text → Text) : Names quote name (e.message quote) := by
  unfold Config.setField at failed
  cases found : Key.all.find? fun known => ascii known.name = name with
  | none =>
    rw [found] at failed
    obtain rfl := Except.error.inj failed
    exact Or.inr ⟨_, rfl⟩
  | some known =>
    rw [found] at failed
    obtain rfl : ascii known.name = name := by simpa using List.find?_some found
    exact Or.inl (assign_names failed quote)

theorem cutAssignment_first (plain : equalsSign ∉ left) (right : Text) :
    cutAssignment (left ++ equalsSign :: right) = some (left,right) := by
  have here : (left ++ equalsSign :: right).findIdx? (fun b => b == equalsSign) =
      some left.length := by
    rw [List.findIdx?_append, List.findIdx?_eq_none_iff.mpr]
    · simp [List.findIdx?_cons]
    · intro b mem
      exact beq_false_of_ne fun same => plain (same ▸ mem)
  rw [cutAssignment, here]
  simp

theorem cutAssignment_none (absent : equalsSign ∉ bytes) : cutAssignment bytes = none := by
  have nowhere : bytes.findIdx? (fun b => b == equalsSign) = none := by
    rw [List.findIdx?_eq_none_iff]
    intro b mem
    exact beq_false_of_ne fun same => absent (same ▸ mem)
  rw [cutAssignment, nowhere]

theorem assignment_ignored (ignored : Ignored line) : assignment line = none := by
  rw [assignment, if_pos (Or.inl ignored)]

theorem assignment_split (counts : ¬ Ignored line) (plain : equalsSign ∉ left)
    (form : trimSpace line = left ++ equalsSign :: right) :
    assignment line = some (trimSpace left,trimSpace right) := by
  have before : ∀ b ∈ left, (b != equalsSign) = true := by
    intro b mem
    exact bne_iff_ne.mpr fun same => plain (same ▸ mem)
  have present : ¬ (Ignored line ∨ equalsSign ∉ trimSpace line) := by
    rw [form]
    simp [counts]
  rw [assignment, if_neg present, form, List.takeWhile_append_of_pos before,
    List.dropWhile_append_of_pos before]
  simp

theorem loadLine_ignored (ignored : Ignored line) (cfg : Config) :
    cfg.loadLine fraction line = .ok cfg := by
  rw [Config.loadLine]
  exact if_pos (by simpa [Ignored] using ignored)

theorem loadLine_unsplit (counts : ¬ Ignored line) (unpaired : assignment line = none)
    (cfg : Config) : cfg.loadLine fraction line = .error .expectedKeyValue := by
  have absent : equalsSign ∉ trimSpace line := by
    intro present
    rw [assignment, if_neg (by simp [counts, present])] at unpaired
    cases unpaired
  rw [Config.loadLine, if_neg (by simpa [Ignored] using counts), cutAssignment_none absent]

theorem loadLine_assignment (pair : assignment line = some (name,value)) (cfg : Config) :
    cfg.loadLine fraction line = (cfg.setField fraction name value).mapError LineError.field := by
  have counts : ¬ Ignored line := by
    intro ignored
    cases (assignment_ignored ignored).symm.trans pair
  have present : equalsSign ∈ trimSpace line := by
    by_contra absent
    rw [assignment, if_pos (Or.inr absent)] at pair
    cases pair
  obtain ⟨left,right,form,plain⟩ := List.eq_append_cons_of_mem present
  obtain ⟨rfl,rfl⟩ := Prod.mk.inj
    (Option.some.inj ((assignment_split counts plain form).symm.trans pair))
  rw [Config.loadLine, if_neg (by simpa [Ignored] using counts), form, cutAssignment_first plain]
  dsimp only
  cases cfg.setField fraction (trimSpace left) (trimSpace right) <;> rfl

/-- One turn of the loop over the lines. -/
theorem loadLine_ok_iff : cfg.loadLine fraction line = .ok done ↔
    Accepted fraction line ∧ done = overridden cfg (assigned fraction line) := by
  by_cases ignored : Ignored line
  · have sets : assigned fraction line = fun _ => none := by
      funext key
      rw [assigned, assignment_ignored ignored]
      rfl
    rw [loadLine_ignored ignored, sets, overridden_none]
    constructor
    · intro same
      exact ⟨Or.inl ignored, (Except.ok.inj same).symm⟩
    · rintro ⟨_,rfl⟩
      rfl
  · cases pair : assignment line with
    | none =>
      rw [loadLine_unsplit ignored pair]
      simp [Accepted, ignored, pair]
    | some both =>
      obtain ⟨name,value⟩ := both
      have sets : assigned fraction line = setting fraction name value := by
        funext key
        rw [assigned, pair]
        rfl
      have turned : cfg.loadLine fraction line = .ok done ↔
          cfg.setField fraction name value = .ok done := by
        rw [loadLine_assignment pair]
        cases cfg.setField fraction name value <;> simp [Except.mapError]
      have accepted : Accepted fraction line ↔ ∃ key : Key, name = ascii key.name ∧
          ((kindOf key).parse fraction value).isSome = true := by
        simp [Accepted, ignored, pair]
      rw [turned, setField_ok_iff, sets, accepted]

theorem lastAssigned_cons (fraction : Nat → Nat → Nat → Nat) (line : Text) (rest : List Text)
    (key : Key) : lastAssigned fraction (line :: rest) key =
      (lastAssigned fraction rest key).or (assigned fraction line key) := by
  unfold lastAssigned
  cases own : assigned fraction line key with
  | none => simp [own]
  | some v =>
    rw [List.filterMap_cons, own]
    dsimp only
    rw [List.getLast?_cons]
    cases (rest.filterMap fun line => assigned fraction line key).getLast? <;> rfl

/-- The whole loop: the line read last has the last word on its key. -/
theorem loadLines_ok_iff {lineNo : Nat} :
    Config.loadLines fraction path lineNo lines cfg = .ok done ↔
      (∀ line ∈ lines, Accepted fraction line) ∧
        done = overridden cfg (lastAssigned fraction lines) := by
  induction lines generalizing cfg lineNo with
  | nil =>
    have none : lastAssigned fraction [] = fun _ => none := rfl
    rw [none, overridden_none]
    simp [Config.loadLines, eq_comm]
  | cons line rest ih =>
    have last : lastAssigned fraction (line :: rest) =
        fun key => (lastAssigned fraction rest key).or (assigned fraction line key) :=
      funext (lastAssigned_cons fraction line rest)
    rw [List.forall_mem_cons, last, ← overridden_twice]
    cases turned : cfg.loadLine fraction line with
    | error cause =>
      have refused : ¬ Accepted fraction line := by
        intro accepted
        cases turned.symm.trans (loadLine_ok_iff.mpr ⟨accepted,rfl⟩)
      simp [Config.loadLines, turned, refused]
    | ok next =>
      obtain ⟨accepted,rfl⟩ := loadLine_ok_iff.mp turned
      simp only [Config.loadLines, turned, ih, accepted, true_and]

/-- A message gives the number of a line, and then names the key that the line assigns to. -/
def Locates (quote : Text → Text) (path : Text) (lineNo : Nat) (line message : Text) : Prop :=
  ∃ reason, message = path ++ say ":" ++ formatNat lineNo ++ say ": " ++ reason ∧
    ∀ name value, assignment line = some (name,value) → Names quote name reason

theorem loadLine_locates {cause : LineError} (failed : cfg.loadLine fraction line = .error cause)
    (quote : Text → Text) (readError path : Text) (lineNo : Nat) :
    Locates quote path lineNo line
      (LoadError.message quote readError (.lineAt path lineNo cause)) := by
  refine ⟨_, rfl, ?_⟩
  intro name value pair
  rw [loadLine_assignment pair] at failed
  cases assigned : cfg.setField fraction name value with
  | error e =>
    rw [assigned] at failed
    obtain rfl := Except.error.inj failed
    exact setField_names assigned quote
  | ok next =>
    rw [assigned] at failed
    cases failed

/-- The loop stops at the first line that is not accepted, and its error says which. -/
theorem loadLines_error {lineNo : Nat} {err : LoadError}
    (failed : Config.loadLines fraction path lineNo lines cfg = .error err)
    (quote : Text → Text) (readError : Text) : ∃ before line, before ++ [line] <+: lines ∧
      (∀ earlier ∈ before, Accepted fraction earlier) ∧ ¬ Accepted fraction line ∧
      Locates quote path (lineNo + before.length + 1) line (err.message quote readError) := by
  induction lines generalizing cfg lineNo with
  | nil => cases failed
  | cons line rest ih =>
    cases turned : cfg.loadLine fraction line with
    | error cause =>
      rw [Config.loadLines, turned] at failed
      obtain rfl := Except.error.inj failed
      have refused : ¬ Accepted fraction line := by
        intro accepted
        cases turned.symm.trans (loadLine_ok_iff.mpr ⟨accepted,rfl⟩)
      exact ⟨[], line, ⟨rest,rfl⟩, by simp, refused,
        loadLine_locates turned quote readError path (lineNo + 1)⟩
    | ok next =>
      rw [Config.loadLines, turned] at failed
      obtain ⟨before,refused,stands,earlier,unaccepted,located⟩ := ih failed
      refine ⟨line :: before, refused, List.cons_prefix_cons.mpr ⟨rfl,stands⟩, ?_, unaccepted, ?_⟩
      · exact List.forall_mem_cons.mpr ⟨(loadLine_ok_iff.mp turned).1,earlier⟩
      · have place : lineNo + 1 + before.length + 1 = lineNo + (line :: before).length + 1 := by
          rw [List.length_cons]
          omega
        rw [← place]
        exact located

/-- Two lines that the parser reads alike. -/
structure Alike (line other : Text) : Prop where
  ignored : Ignored line ↔ Ignored other
  assignment : assignment line = assignment other

/-- Two lists of lines that come to the same. -/
structure SameReading (fraction : Nat → Nat → Nat → Nat) (lines others : List Text) : Prop where
  accepted : (∀ line ∈ lines, Accepted fraction line) ↔ ∀ line ∈ others, Accepted fraction line
  last : lastAssigned fraction lines = lastAssigned fraction others

theorem alike_trimmed {other : Text} (same : trimSpace line = trimSpace other) :
    Alike line other := by
  have ignored : Ignored line ↔ Ignored other := by rw [Ignored, Ignored, same]
  refine ⟨ignored, ?_⟩
  simp only [assignment, ignored, same]

theorem alike_accepted {other : Text} (alike : Alike line other) :
    Accepted fraction line ↔ Accepted fraction other := by
  rw [Accepted, Accepted, alike.ignored, alike.assignment]

theorem alike_assigned {other : Text} (alike : Alike line other) :
    assigned fraction line = assigned fraction other := by
  funext key
  rw [assigned, assigned, alike.assignment]

theorem lastAssigned_append (fraction : Nat → Nat → Nat → Nat) (lines others : List Text)
    (key : Key) : lastAssigned fraction (lines ++ others) key =
      (lastAssigned fraction others key).or (lastAssigned fraction lines key) := by
  rw [lastAssigned, List.filterMap_append, List.getLast?_append]
  rfl

/-- A part of the file may be replaced by one that reads the same. -/
theorem SameReading.within {lines others : List Text} (same : SameReading fraction lines others)
    (before after : List Text) :
    SameReading fraction (before ++ (lines ++ after)) (before ++ (others ++ after)) := by
  constructor
  · simp only [List.forall_mem_append, same.accepted]
  · funext key
    simp only [lastAssigned_append, same.last]

theorem SameReading.refl (lines : List Text) : SameReading fraction lines lines :=
  ⟨Iff.rfl,rfl⟩

theorem SameReading.symm {lines others : List Text} (same : SameReading fraction lines others) :
    SameReading fraction others lines := ⟨same.accepted.symm,same.last.symm⟩

theorem SameReading.trans {lines others more : List Text}
    (first : SameReading fraction lines others) (second : SameReading fraction others more) :
    SameReading fraction lines more :=
  ⟨first.accepted.trans second.accepted,first.last.trans second.last⟩

theorem ignored_reading (ignored : Ignored line) : SameReading fraction [] [line] := by
  constructor
  · simp [Accepted, ignored]
  · funext key
    simp [lastAssigned, assigned, assignment_ignored ignored]

theorem alike_reading {other : Text} (alike : Alike line other) :
    SameReading fraction [line] [other] := by
  constructor
  · simp only [List.forall_mem_singleton, alike_accepted alike]
  · funext key
    rw [lastAssigned_cons, lastAssigned_cons, alike_assigned alike]

theorem map_reading {f : Text → Text} (alike : ∀ line, Alike line (f line)) (lines : List Text) :
    SameReading fraction lines (lines.map f) := by
  induction lines with
  | nil => exact SameReading.refl []
  | cons line rest ih =>
    have own : SameReading fraction [line] [f line] := alike_reading (alike line)
    have first := own.within [] rest
    have later := ih.within [f line] []
    simp only [List.append_nil] at later
    exact first.trans later

theorem split_ignored (left right : Text) :
    Ignored (left ++ equalsSign :: right) ↔ (trimSpace left).head? = some hash := by
  rw [Ignored, trimSpace_around (by decide) (by decide), ← head_trimLeft]
  cases trimLeft left with
  | nil => simp [equalsSign, ConfigModel.hash]
  | cons b rest => simp

theorem split_assignment (plain : equalsSign ∉ left)
    (counts : ¬ Ignored (left ++ equalsSign :: right)) :
    assignment (left ++ equalsSign :: right) = some (trimSpace left,trimSpace right) := by
  have fresh : equalsSign ∉ trimLeft left := fun mem => plain (mem_trimLeft mem)
  rw [assignment_split counts fresh (trimSpace_around (by decide) (by decide)),
    trimSpace_trimLeft, trimSpace_trimRight]

theorem blank_no_equals (spaces : Blank bytes) : equalsSign ∉ bytes := by
  intro mem
  have space := spaces _ (mem_runes_ascii (by decide) mem)
  cases space

/-- The space around key and value is not part of them. -/
theorem Spacing.reads (s : Spacing) {name : Text} (plain : equalsSign ∉ name) (value : Text) :
    (Ignored (s.line name value) ↔ (trimSpace name).head? = some hash) ∧
      (¬ Ignored (s.line name value) →
        assignment (s.line name value) = some (trimSpace name,trimSpace value)) := by
  obtain ⟨indent,behindKey,beforeValue,trailing⟩ := s.blank
  have fresh : equalsSign ∉ s.indent ++ (name ++ s.behindKey) := by
    simp [blank_no_equals indent, plain, blank_no_equals behindKey]
  have key : trimSpace (s.indent ++ (name ++ s.behindKey)) = trimSpace name :=
    trimSpace_padded indent behindKey name
  have rest : trimSpace (s.beforeValue ++ (value ++ s.trailing)) = trimSpace value :=
    trimSpace_padded beforeValue trailing value
  unfold Spacing.line
  constructor
  · rw [split_ignored, key]
  · intro counts
    rw [split_assignment fresh counts, key, rest]

theorem Spacing.alike (s t : Spacing) {name : Text} (plain : equalsSign ∉ name) (value : Text) :
    Alike (s.line name value) (t.line name value) := by
  obtain ⟨skips,pair⟩ := s.reads plain value
  obtain ⟨skips',pair'⟩ := t.reads plain value
  have ignored := skips.trans skips'.symm
  refine ⟨ignored, ?_⟩
  by_cases comment : Ignored (s.line name value)
  · rw [assignment_ignored comment, assignment_ignored (ignored.mp comment)]
  · rw [pair comment, pair' fun other => comment (ignored.mpr other)]

theorem assigned_some {v : (kindOf key).Value} (sets : assigned fraction line key = some v) :
    ∃ value, assignment line = some (ascii key.name,value) := by
  obtain ⟨⟨name,value⟩,pair,own⟩ := Option.bind_eq_some_iff.mp sets
  dsimp only [setting] at own
  split at own
  · rename_i same
    exact ⟨value, by rw [pair, same]⟩
  · cases own

theorem permuted_reading {block other : List Text} (perm : block.Perm other)
    (distinct : DistinctKeys block) : SameReading fraction block other := by
  constructor
  · simp only [perm.mem_iff]
  · funext key
    -- Of the lines of the block at most one is about the key.
    have alone : (block.filterMap fun line => assigned fraction line key).Pairwise
        fun _ _ => False := by
      rw [List.pairwise_filterMap]
      refine distinct.imp ?_
      intro a b apart v sets w also
      obtain ⟨value,first⟩ := assigned_some sets
      obtain ⟨other,second⟩ := assigned_some also
      exact apart _ value other first second
    have moved := perm.filterMap fun line => assigned fraction line key
    unfold lastAssigned
    cases settings : block.filterMap fun line => assigned fraction line key with
    | nil =>
      rw [settings] at moved
      rw [moved.symm.eq_nil]
    | cons v rest =>
      rw [settings] at moved alone
      have single : rest = [] := by
        cases rest with
        | nil => rfl
        | cons w more => exact absurd (List.rel_of_pairwise_cons alone List.mem_cons_self) id
      rw [single] at moved ⊢
      rw [List.perm_singleton.mp moved.symm]

theorem edit_reading {lines others : List Text} (edit : Edit lines others) :
    SameReading fraction lines others := by
  cases edit with
  | ignored before after skipped => exact (ignored_reading skipped).within before after
  | @spacing before after s t name plain value =>
    exact (alike_reading (s.alike t plain value)).within before after
  | permuted before after perm distinct => exact (permuted_reading perm distinct).within before after

theorem edits_reading {lines others : List Text} (edits : Relation.EqvGen Edit lines others) :
    SameReading fraction lines others := by
  induction edits with
  | rel _ _ edit => exact edit_reading edit
  | refl lines => exact SameReading.refl lines
  | symm _ _ _ ih => exact ih.symm
  | trans _ _ _ _ _ first second => exact first.trans second

theorem linesOf_line (plain : lf ∉ left) (right : Text) :
    linesOf (left ++ lf :: right) = left :: linesOf right :=
  List.splitOn_append_cons_self_of_not_mem plain right

theorem linesOf_single (plain : lf ∉ left) : linesOf left = [left] :=
  List.splitOn_eq_singleton plain

theorem linesOf_begun (plain : lf ∉ begun) (bytes : Text) :
    ∃ line ∈ linesOf (begun ++ bytes), begun.length ≤ line.length := by
  by_cases ends : lf ∈ bytes
  · obtain ⟨rest,later,rfl,fresh⟩ := List.eq_append_cons_of_mem ends
    have whole : linesOf ((begun ++ rest) ++ lf :: later) = (begun ++ rest) :: linesOf later :=
      linesOf_line (by simp [plain, fresh]) later
    rw [← List.append_assoc, whole]
    exact ⟨begun ++ rest, by simp, by simp⟩
  · rw [linesOf_single (by simp [plain, ends])]
    exact ⟨begun ++ bytes, by simp, by simp⟩

/-- Of short lines the scanner loses none, but for an empty one at the end. -/
theorem scanLines_short (plain : lf ∉ begun) (short : Short (begun ++ bytes)) :
    ∃ raw, (linesOf (begun ++ bytes) = raw ∨ linesOf (begun ++ bytes) = raw ++ [[]]) ∧
      scanLines .eof begun bytes = (raw.map dropCR,none) := by
  induction bytes generalizing begun with
  | nil =>
    rw [List.append_nil, linesOf_single plain, scanLines]
    by_cases empty : begun = []
    · exact ⟨[], Or.inr (by rw [empty]; rfl), by rw [if_pos empty]; rfl⟩
    · exact ⟨[begun], Or.inl rfl, by rw [if_neg empty]; rfl⟩
  | cons b rest ih =>
    by_cases ends : b = lf
    · subst ends
      have whole := linesOf_line plain rest
      have later : Short ([] ++ rest) := by
        intro line mem
        refine short line ?_
        rw [whole]
        exact List.mem_cons_of_mem begun mem
      obtain ⟨raw,lines,scanned⟩ := ih (by simp) later
      refine ⟨begun :: raw, ?_, ?_⟩
      · rw [whole]
        rcases lines with same | same <;> rw [List.nil_append] at same <;> simp [same]
      · rw [scanLines, if_pos (by simp), scanned]
        rfl
    · have fresh : lf ∉ begun ++ [b] := by
        simp only [List.mem_append, List.mem_singleton, not_or]
        exact ⟨plain, fun same => ends same.symm⟩
      have joined : begun ++ b :: rest = (begun ++ [b]) ++ rest := by simp
      rw [joined] at short ⊢
      obtain ⟨line,mem,longer⟩ := linesOf_begun fresh rest
      have room : begun.length + 1 < maxScanTokenSize := by
        have bound := short line mem
        rw [List.length_append, List.length_singleton] at longer
        omega
      obtain ⟨raw,lines,scanned⟩ := ih fresh short
      refine ⟨raw, lines, ?_⟩
      rw [scanLines, if_neg (by simpa using ends), if_neg (by omega), scanned]

theorem dropCR_alike (line : Text) : Alike line (dropCR line) := by
  apply alike_trimmed
  unfold dropCR
  split
  · rename_i ends
    obtain ⟨body,rfl⟩ := List.getLast?_eq_some_iff.mp ends
    have spaces : Blank [cr] := by decide
    have padded : trimSpace ([] ++ (body ++ [cr])) = trimSpace body :=
      trimSpace_padded (by decide) spaces body
    rw [List.dropLast_concat]
    exact padded
  · rfl

theorem scanned_reading (short : Short bytes) : ∃ lines,
    scanLines .eof [] bytes = (lines,none) ∧ SameReading fraction lines (linesOf bytes) := by
  have whole : Short ([] ++ bytes) := short
  obtain ⟨raw,same,scanned⟩ := scanLines_short (by simp) whole
  rw [List.nil_append] at same
  refine ⟨raw.map dropCR, scanned, (map_reading dropCR_alike raw).symm.trans ?_⟩
  rcases same with all | butLast
  · rw [all]
    exact SameReading.refl raw
  · rw [butLast]
    have empty : SameReading fraction [] [[]] := ignored_reading (Or.inl rfl)
    have longer := empty.within raw []
    simpa using longer

theorem load_ok_iff {disk : Text → Except Text Reader} (opened : disk path = .ok ⟨bytes,.eof⟩)
    (short : Short bytes) : load fraction disk path = .ok cfg ↔
      (∀ line ∈ linesOf bytes, Accepted fraction line) ∧
        (declared fraction (linesOf bytes)).validate = none ∧
        cfg = declared fraction (linesOf bytes) := by
  obtain ⟨lines,scanned,same⟩ : ∃ lines, scanLines .eof [] bytes = (lines,none) ∧
      SameReading fraction lines (linesOf bytes) := scanned_reading short
  rw [load, opened]
  dsimp only
  rw [scanned]
  dsimp only
  cases looped : Config.loadLines fraction path 0 lines Config.default with
  | error err =>
    have refused : ¬ ∀ line ∈ linesOf bytes, Accepted fraction line := by
      intro accepted
      cases looped.symm.trans (loadLines_ok_iff.mpr ⟨same.accepted.mpr accepted,rfl⟩)
    simp [refused]
  | ok c =>
    obtain ⟨accepted,rfl⟩ := loadLines_ok_iff.mp looped
    rw [same.last, ← declared]
    have all := same.accepted.mp accepted
    cases checked : (declared fraction (linesOf bytes)).validate with
    | none =>
      simp only [checked, true_and, Except.ok.injEq]
      exact ⟨fun same => ⟨all,same.symm⟩, fun same => same.2.symm⟩
    | some message => simp [checked]

/-- A file without assignments leaves the defaults. -/
theorem load_ignored {disk : Text → Except Text Reader} (opened : disk path = .ok ⟨bytes,.eof⟩)
    (short : Short bytes) (ignored : ∀ line ∈ linesOf bytes, Ignored line) :
    load fraction disk path = .ok Config.default := by
  have unset : lastAssigned fraction (linesOf bytes) = fun _ => none := by
    funext key
    have none : (linesOf bytes).filterMap (fun line => assigned fraction line key) = [] := by
      rw [List.filterMap_eq_nil_iff]
      intro line mem
      rw [assigned, assignment_ignored (ignored line mem)]
      rfl
    rw [lastAssigned, none]
    rfl
  have defaults : declared fraction (linesOf bytes) = Config.default := by
    rw [declared, unset, overridden_none]
  refine (load_ok_iff opened short).mpr ⟨fun line mem => Or.inl (ignored line mem), ?_, ?_⟩
  · rw [defaults]
    exact default_accepted
  · exact defaults.symm

/-- What the error of a file that was read to its end says: the first refused line, or the
    first check that the settings fail. -/
theorem load_error {disk : Text → Except Text Reader} {file : Reader} {err : LoadError}
    (opened : disk path = .ok file) (scanned : scanLines file.ending [] file.bytes = (lines,none))
    (failed : load fraction disk path = .error err) (quote : Text → Text) (readError : Text) :
    (∃ before line, before ++ [line] <+: lines ∧
      (∀ earlier ∈ before, Accepted fraction earlier) ∧ ¬ Accepted fraction line ∧
      Locates quote path (before.length + 1) line (err.message quote readError)) ∨
    (∀ line ∈ lines, Accepted fraction line) ∧
      ∃ check, (declared fraction lines).validate = some check ∧
        err.message quote readError = path ++ say ": " ++ say check := by
  rw [load, opened] at failed
  dsimp only at failed
  rw [scanned] at failed
  dsimp only at failed
  cases looped : Config.loadLines fraction path 0 lines Config.default with
  | error cause =>
    rw [looped] at failed
    obtain rfl := Except.error.inj failed
    left
    simpa only [Nat.zero_add] using loadLines_error looped quote readError
  | ok cfg =>
    rw [looped] at failed
    obtain ⟨accepted,rfl⟩ := loadLines_ok_iff.mp looped
    rw [← declared] at failed
    dsimp only at failed
    right
    refine ⟨accepted, ?_⟩
    cases checked : (declared fraction lines).validate with
    | none =>
      rw [checked] at failed
      cases failed
    | some check =>
      rw [checked] at failed
      obtain rfl := Except.error.inj failed
      exact ⟨check, rfl, rfl⟩

/-- Load on a file whose lines fit the scanner: when it succeeds and with what, and the
    edits that change neither. -/
theorem load_last_assignments (fraction : Nat → Nat → Nat → Nat)
    (disk : Text → Except Text Reader) (path : Text) (opened : disk path = .ok ⟨bytes,.eof⟩)
    (short : Short bytes) :
    (∀ cfg, load fraction disk path = .ok cfg ↔
      (∀ line ∈ linesOf bytes, Accepted fraction line) ∧
        (declared fraction (linesOf bytes)).validate = none ∧
        cfg = declared fraction (linesOf bytes)) ∧
    ∀ (other : Text → Except Text Reader) (name edited : Text),
      other name = .ok ⟨edited,.eof⟩ → Short edited →
      Relation.EqvGen Edit (linesOf bytes) (linesOf edited) →
      (load fraction other name).toOption = (load fraction disk path).toOption := by
  refine ⟨fun cfg => load_ok_iff opened short, ?_⟩
  intro other name edited opened' short' edits
  have same : SameReading fraction (linesOf bytes) (linesOf edited) := edits_reading edits
  have loads : ∀ cfg, load fraction other name = .ok cfg ↔ load fraction disk path = .ok cfg := by
    intro cfg
    rw [load_ok_iff opened short, load_ok_iff opened' short', same.accepted, declared, declared,
      same.last]
  cases loaded : load fraction disk path with
  | error err =>
    cases again : load fraction other name with
    | error err' => rfl
    | ok cfg => cases loaded.symm.trans ((loads cfg).mp again)
  | ok cfg => rw [(loads cfg).mpr loaded]

def tight : Spacing := ⟨[],[],[],[],by decide⟩

def loose : Spacing := ⟨[9],[0x20],[0x20],[cr],by decide⟩

/-- A file that assigns to one key twice, and the same settings in another layout. -/
def sampleFile : Text := say "# sizes\nshards=4\n\tshards = 8\r\nmax-connections=7"

def tidyFile : Text := say "shards=4\nmax-connections=7\nshards=8"

theorem sample_edits : Relation.EqvGen Edit (linesOf sampleFile) (linesOf tidyFile) := by
  let four := tight.line (say "shards") (say "4")
  let eight := tight.line (say "shards") (say "8")
  let seven := tight.line (say "max-connections") (say "7")
  have sample : linesOf sampleFile =
      [say "# sizes",four,loose.line (say "shards") (say "8"),seven] := by decide
  have tidy : linesOf tidyFile = [four,seven,eight] := by decide
  have apart : DistinctKeys [eight,seven] := by
    have shards : assignment eight = some (say "shards",say "8") := by decide
    have connections : assignment seven = some (say "max-connections",say "7") := by decide
    have differ : say "shards" ≠ say "max-connections" := by decide
    refine List.pairwise_pair.mpr ?_
    intro name value other first second
    rw [shards] at first
    rw [connections] at second
    simp only [Option.some.injEq, Prod.mk.injEq] at first second
    exact differ (first.1.trans second.1.symm)
  have uncommented : Edit [four,loose.line (say "shards") (say "8"),seven]
      [say "# sizes",four,loose.line (say "shards") (say "8"),seven] :=
    Edit.ignored [] _ (by decide)
  have respaced : Edit [four,loose.line (say "shards") (say "8"),seven] [four,eight,seven] :=
    Edit.spacing [four] [seven] loose tight (by decide) (say "8")
  have swapped : Edit [four,eight,seven] [four,seven,eight] :=
    Edit.permuted [four] [] (List.Perm.swap seven eight []) apart
  rw [sample, tidy]
  exact .trans _ _ _ (.symm _ _ (.rel _ _ uncommented))
    (.trans _ _ _ (.rel _ _ respaced) (.rel _ _ swapped))

theorem sample_loads : Short sampleFile ∧ Short tidyFile ∧
    Relation.EqvGen Edit (linesOf sampleFile) (linesOf tidyFile) ∧
    (load (fun _ _ _ => 0) (fun _ => .ok ⟨tidyFile,.eof⟩) []).toOption =
      (load (fun _ _ _ => 0) (fun _ => .ok ⟨sampleFile,.eof⟩) []).toOption ∧
    (load (fun _ _ _ => 0) (fun _ => .ok ⟨sampleFile,.eof⟩) []).toOption.map
      (fun cfg => (cfg.shards,cfg.maxConnections)) = some (8,7) := by
  have short : Short sampleFile := by decide
  have short' : Short tidyFile := by decide
  obtain ⟨_,edited⟩ := load_last_assignments (fun _ _ _ => 0) (fun _ => .ok ⟨sampleFile,.eof⟩) []
    rfl short
  exact ⟨short, short', sample_edits, edited _ [] tidyFile rfl short' sample_edits, rfl⟩

end ConfigOverrides
