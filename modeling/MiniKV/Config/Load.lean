import MiniKV.Config.Config
import MiniKV.Lib.Durations

/- Load: the configuration file, line by line, over the defaults. A file is a reader of
   its bytes; the scanner cuts it into lines and refuses one that its buffer cannot hold.
   Errors carry what their messages print. -/
namespace ConfigModel
open LruModel Decimal Fields Durations ProtocolModel

/-- The keys of the file, in the order of the switch in setField. -/
inductive Key where
  | addr
  | pprofAddr
  | shards
  | maxValueBytes
  | maxMemoryBytes
  | itemOverheadBytes
  | cleanupInterval
  | tlsCert
  | tlsKey
  | authToken
  | idleTimeout
  | maxConnections
  | shutdownTimeout
  deriving DecidableEq, Repr

def Key.all : List Key :=
  [.addr, .pprofAddr, .shards, .maxValueBytes, .maxMemoryBytes, .itemOverheadBytes,
    .cleanupInterval, .tlsCert, .tlsKey, .authToken, .idleTimeout, .maxConnections,
    .shutdownTimeout]

def Key.name : Key → List Char
  | .addr => ['a','d','d','r']
  | .pprofAddr => ['p','p','r','o','f','-','a','d','d','r']
  | .shards => ['s','h','a','r','d','s']
  | .maxValueBytes => ['m','a','x','-','v','a','l','u','e','-','b','y','t','e','s']
  | .maxMemoryBytes => ['m','a','x','-','m','e','m','o','r','y','-','b','y','t','e','s']
  | .itemOverheadBytes =>
    ['i','t','e','m','-','o','v','e','r','h','e','a','d','-','b','y','t','e','s']
  | .cleanupInterval => ['c','l','e','a','n','u','p','-','i','n','t','e','r','v','a','l']
  | .tlsCert => ['t','l','s','-','c','e','r','t']
  | .tlsKey => ['t','l','s','-','k','e','y']
  | .authToken => ['a','u','t','h','-','t','o','k','e','n']
  | .idleTimeout => ['i','d','l','e','-','t','i','m','e','o','u','t']
  | .maxConnections => ['m','a','x','-','c','o','n','n','e','c','t','i','o','n','s']
  | .shutdownTimeout => ['s','h','u','t','d','o','w','n','-','t','i','m','e','o','u','t']

inductive FieldError where
  | number (key : Key) (value : Text) (cause : NumError)
  | duration (key : Key) (value : Text) (cause : DurationError)
  | unknownKey (key : Text)
  deriving DecidableEq, Repr

inductive LineError where
  | expectedKeyValue
  | field (cause : FieldError)
  deriving DecidableEq, Repr

inductive ScanError where
  | tooLong
  | fault
  deriving DecidableEq, Repr

inductive LoadError where
  | opened (cause : Text)
  | lineAt (path : Text) (lineNo : Nat) (cause : LineError)
  | scan (cause : ScanError)
  | invalid (path : Text) (message : String)
  deriving DecidableEq, Repr

def say (words : String) : Text := ascii words.toList

def FieldError.message (quote : Text → Text) : FieldError → Text
  | .number key value cause =>
    ascii key.name ++ say ": strconv.Atoi: parsing " ++ quote value ++
      (match cause with
        | .malformed => say ": invalid syntax"
        | .outOfRange => say ": value out of range")
  | .duration key value cause =>
    ascii key.name ++ say ": time: " ++
      (match cause with
        | .invalid => say "invalid duration " ++ quote value
        | .missingUnit => say "missing unit in duration " ++ quote value
        | .unknownUnit unit => say "unknown unit " ++ quote unit ++ say " in duration " ++ quote value)
  | .unknownKey key => say "unknown key " ++ quote key

/-- The text of an error, from the quoting of strings and the text of a failed read. -/
def LoadError.message (quote : Text → Text) (readError : Text) : LoadError → Text
  | .opened cause => cause
  | .lineAt path lineNo cause =>
    path ++ say ":" ++ formatNat lineNo ++ say ": " ++
      (match cause with
        | .expectedKeyValue => say "expected key = value"
        | .field cause => cause.message quote)
  | .scan .tooLong => say "bufio.Scanner: token too long"
  | .scan .fault => readError
  | .invalid path message => path ++ say ": " ++ say message

def parseInt (value : Text) (key : Key) : Except FieldError Int :=
  match atoi value with
  | .error cause => .error (.number key value cause)
  | .ok n => .ok n

def parseDurationOf (fraction : Nat → Nat → Nat → Nat) (value : Text) (key : Key) :
    Except FieldError Duration :=
  match parseDuration fraction value with
  | .error cause => .error (.duration key value cause)
  | .ok d => .ok d

/-- The case of the switch for a known key. -/
def Config.assign (fraction : Nat → Nat → Nat → Nat) (cfg : Config) (key : Key) (value : Text) :
    Except FieldError Config :=
  match key with
  | .addr => .ok { cfg with addr := value }
  | .pprofAddr => .ok { cfg with pprofAddr := value }
  | .shards => do .ok { cfg with shards := ← parseInt value key }
  | .maxValueBytes => do .ok { cfg with maxValueBytes := ← parseInt value key }
  | .maxMemoryBytes => do .ok { cfg with maxMemoryBytes := ← parseInt value key }
  | .itemOverheadBytes => do .ok { cfg with itemOverheadBytes := ← parseInt value key }
  | .cleanupInterval => do
    .ok { cfg with cleanupInterval := ← parseDurationOf fraction value key }
  | .tlsCert => .ok { cfg with tlsCert := value }
  | .tlsKey => .ok { cfg with tlsKey := value }
  | .authToken => .ok { cfg with authToken := value }
  | .idleTimeout => do .ok { cfg with idleTimeout := ← parseDurationOf fraction value key }
  | .maxConnections => do .ok { cfg with maxConnections := ← parseInt value key }
  | .shutdownTimeout => do
    .ok { cfg with shutdownTimeout := ← parseDurationOf fraction value key }

def Config.setField (fraction : Nat → Nat → Nat → Nat) (cfg : Config) (key value : Text) :
    Except FieldError Config :=
  match Key.all.find? fun known => ascii known.name = key with
  | none => .error (.unknownKey key)
  | some known => cfg.assign fraction known value

def equalsSign : UInt8 := 61

def hash : UInt8 := 35

def cutAssignment (line : Text) : Option (Text × Text) :=
  match line.findIdx? fun b => b == equalsSign with
  | none => none
  | some i => some (line.take i, line.drop (i + 1))

/-- The body of the loop over the lines. -/
def Config.loadLine (fraction : Nat → Nat → Nat → Nat) (cfg : Config) (scanned : Text) :
    Except LineError Config :=
  let line := trimSpace scanned
  if line = [] || line.head? == some hash then .ok cfg
  else
    match cutAssignment line with
    | none => .error .expectedKeyValue
    | some (key, value) =>
      match cfg.setField fraction (trimSpace key) (trimSpace value) with
      | .error cause => .error (.field cause)
      | .ok cfg => .ok cfg

def Config.loadLines (fraction : Nat → Nat → Nat → Nat) (path : Text) :
    Nat → List Text → Config → Except LoadError Config
  | _, [], cfg => .ok cfg
  | lineNo, scanned :: rest, cfg =>
    match cfg.loadLine fraction scanned with
    | .error cause => .error (.lineAt path (lineNo + 1) cause)
    | .ok cfg => Config.loadLines fraction path (lineNo + 1) rest cfg

/-- The limit of bufio.Scanner for a line. -/
def maxScanTokenSize : Nat := 64 * 1024

def dropCR (line : Text) : Text := if line.getLast? = some cr then line.dropLast else line

def scanEnding : Ending → Option ScanError
  | .eof => none
  | .fault => some .fault

/-- The lines from the scanner, with the line begun so far; the last one needs no line
    feed, also when reading fails behind it. A line has to leave room for one more byte
    in the buffer. -/
def scanLines (ending : Ending) : Text → Text → List Text × Option ScanError
  | begun, [] => (if begun = [] then [] else [dropCR begun], scanEnding ending)
  | begun, b :: rest =>
    if b == lf then
      let later := scanLines ending [] rest
      (dropCR begun :: later.1, later.2)
    else if begun.length + 1 ≥ maxScanTokenSize then ([], some .tooLong)
    else scanLines ending (begun ++ [b]) rest

/-- Load, on a disk that opens a path or fails with a message. -/
def load (fraction : Nat → Nat → Nat → Nat) (disk : Text → Except Text Reader) (path : Text) :
    Except LoadError Config :=
  match disk path with
  | .error cause => .error (.opened cause)
  | .ok file =>
    let scanned := scanLines file.ending [] file.bytes
    match Config.loadLines fraction path 0 scanned.1 Config.default with
    | .error err => .error err
    | .ok cfg =>
      match scanned.2 with
      | some err => .error (.scan err)
      | none =>
        match cfg.validate with
        | some message => .error (.invalid path message)
        | none => .ok cfg

variable {fraction : Nat → Nat → Nat → Nat} {cfg done : Config} {ending : Ending}
  {begun bytes path scanned value : Text} {lines : List Text} {b : UInt8} {key : Key}

theorem assign_token (assigned : cfg.assign fraction key value = .ok done) :
    done.authToken = cfg.authToken ∨ done.authToken = value := by
  cases key with
  | addr | pprofAddr | tlsCert | tlsKey =>
    obtain rfl := Except.ok.inj assigned
    exact Or.inl rfl
  | authToken =>
    obtain rfl := Except.ok.inj assigned
    exact Or.inr rfl
  | shards | maxValueBytes | maxMemoryBytes | itemOverheadBytes | maxConnections | cleanupInterval |
    idleTimeout | shutdownTimeout =>
    obtain ⟨n,_,same⟩ := bind_ok assigned
    obtain rfl := Except.ok.inj same
    exact Or.inl rfl

theorem cutAssignment_value {name : Text} (cut : cutAssignment bytes = some (name,value))
    (mem : b ∈ value) : b ∈ bytes := by
  unfold cutAssignment at cut
  split at cut
  · cases cut
  · obtain ⟨_,rfl⟩ := Prod.mk.inj (Option.some.inj cut)
    exact List.mem_of_mem_drop mem

/-- A line can bring only its own bytes into the token. -/
theorem loadLine_token (loaded : cfg.loadLine fraction scanned = .ok done)
    (mem : b ∈ done.authToken) : b ∈ cfg.authToken ∨ b ∈ scanned := by
  unfold Config.loadLine at loaded
  dsimp only at loaded
  split at loaded
  · obtain rfl := Except.ok.inj loaded
    exact Or.inl mem
  · split at loaded
    · cases loaded
    · rename_i name value cut
      split at loaded
      · cases loaded
      · rename_i next field
        obtain rfl := Except.ok.inj loaded
        unfold Config.setField at field
        split at field
        · cases field
        · rcases assign_token field with old | new
          · rw [old] at mem
            exact Or.inl mem
          · rw [new] at mem
            exact Or.inr (mem_trimSpace (cutAssignment_value cut (mem_trimSpace mem)))

theorem loadLines_token {lineNo : Nat} (loaded : Config.loadLines fraction path lineNo lines cfg = .ok done)
    (mem : b ∈ done.authToken) : b ∈ cfg.authToken ∨ ∃ line ∈ lines, b ∈ line := by
  induction lines generalizing cfg lineNo with
  | nil =>
    obtain rfl := Except.ok.inj loaded
    exact Or.inl mem
  | cons scanned rest ih =>
    unfold Config.loadLines at loaded
    split at loaded
    · cases loaded
    · rename_i next first
      rcases ih loaded with old | ⟨later,member,held⟩
      · rcases loadLine_token first old with before | here
        · exact Or.inl before
        · exact Or.inr ⟨scanned,by simp,here⟩
      · exact Or.inr ⟨later,by simp [member],held⟩

theorem dropCR_mem (mem : b ∈ dropCR bytes) : b ∈ bytes := by
  unfold dropCR at mem
  split at mem
  · exact List.mem_of_mem_dropLast mem
  · exact mem

theorem scanLines_plain (plain : lf ∉ begun) :
    ∀ line ∈ (scanLines ending begun bytes).1, lf ∉ line := by
  induction bytes generalizing begun with
  | nil =>
    intro line mem held
    unfold scanLines at mem
    split at mem
    · cases mem
    · obtain rfl := List.mem_singleton.mp mem
      exact plain (dropCR_mem held)
  | cons c rest ih =>
    intro line mem held
    unfold scanLines at mem
    split at mem
    · rcases List.mem_cons.mp mem with rfl | later
      · exact plain (dropCR_mem held)
      · exact ih (by simp) line later held
    · rename_i other
      split at mem
      · cases mem
      · refine ih ?_ line mem held
        simp only [List.mem_append, List.mem_singleton, not_or]
        refine ⟨plain, ?_⟩
        intro same
        exact other (by rw [← same]; rfl)

/-- The token of an accepted file stands on one line. -/
theorem load_token_plain {disk : Text → Except Text Reader}
    (accepted : load fraction disk path = .ok done) : lf ∉ done.authToken := by
  intro mem
  unfold load at accepted
  split at accepted
  · cases accepted
  · rename_i file _
    dsimp only at accepted
    split at accepted
    · cases accepted
    · rename_i cfg loaded
      have same : cfg = done := by
        split at accepted
        · cases accepted
        · split at accepted
          · cases accepted
          · exact Except.ok.inj accepted
      subst same
      rcases loadLines_token loaded mem with preset | ⟨scanned,member,held⟩
      · cases preset
      · exact scanLines_plain (by simp) scanned member held

end ConfigModel
