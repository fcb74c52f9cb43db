import MiniKV.Lib.Decimal
import MiniKV.Lib.Fields
import MiniKV.Lib.MachineWord

/- ReadCommand over a buffered reader. A reader is the bytes still to come and what
   happens after them; how the network cuts them into packets is not visible through
   the buffer. Every index expression and the allocation keep their run-time checks,
   and a failed check is a panic. -/
namespace ProtocolModel
open MachineWord Decimal Utf8 Fields

abbrev Text := List UInt8

def cr : UInt8 := 0x0D

def lf : UInt8 := 0x0A

def maxKeyBytes : Nat := 250

/-- The buffer size of bufio.NewReader. -/
def bufferSize : Nat := 4096

inductive Op where
  | get
  | set
  | delete
  | incr
  | ping
  | auth
  | mget
  | gets
  | cas
  | stats
  deriving DecidableEq, Repr

def Op.name : Op → List Char
  | .get => ['g','e','t']
  | .set => ['s','e','t']
  | .delete => ['d','e','l','e','t','e']
  | .incr => ['i','n','c','r']
  | .ping => ['p','i','n','g']
  | .auth => ['a','u','t','h']
  | .mget => ['m','g','e','t']
  | .gets => ['g','e','t','s']
  | .cas => ['c','a','s']
  | .stats => ['s','t','a','t','s']

structure Command where
  op : Op
  key : Text := []
  keys : List Text := []
  value : Text := []
  ttlSeconds : UInt64 := 0
  delta : UInt64 := 0
  token : Text := []
  cas : UInt64 := 0
  deriving DecidableEq, Repr

/-- What the connection does after its last byte: it ends, or reading fails, as it does
    when a deadline passes. -/
inductive Ending where
  | eof
  | fault
  deriving DecidableEq, Repr

structure Reader where
  bytes : Text
  ending : Ending
  deriving DecidableEq, Repr

/-- How ReadCommand fails: io.EOF, an error of the reader passed on, an ErrProtocol with
    its message, or a panic. -/
inductive Failure where
  | eof
  | fault
  | protocol (message : String)
  | panic
  deriving DecidableEq, Repr

def Reader.skip (r : Reader) (n : Nat) : Reader := { r with bytes := r.bytes.drop n }

def Ending.failure : Ending → Failure
  | .eof => .eof
  | .fault => .fault

/-- ReadSlice of a line: the line feed has to come within the buffer. A line that the
    stream leaves incomplete is dropped with the error of the stream. -/
def readLineSlice (r : Reader) : Except Failure Text × Reader :=
  match (r.bytes.take bufferSize).findIdx? fun b => b == lf with
  | some i => (.ok (r.bytes.take (i + 1)), r.skip (i + 1))
  | none =>
    if bufferSize ≤ r.bytes.length then
      (.error (.protocol "command line too long"), r.skip bufferSize)
    else (.error r.ending.failure, r.skip r.bytes.length)

/-- ReadFull into a buffer of this length; a short stream is used up. -/
def readFull (n : Nat) (r : Reader) : Option Text × Reader :=
  if n ≤ r.bytes.length then (some (r.bytes.take n), r.skip n)
  else (none, r.skip r.bytes.length)

def validKey (key : Text) : Bool :=
  if key = [] || decide (maxKeyBytes < key.length) then false
  else (runes key).all fun rune => !(decide (rune.code ≤ 0x20) || rune.code == 0x7F)

def validToken (token : Text) : Bool := validKey token

def parseUintToken (token : Text) (name : String) : Except String UInt64 :=
  if token = [] then .error (name ++ " must be an unsigned integer")
  else if (runes token).all fun rune => decide (0x30 ≤ rune.code) && decide (rune.code ≤ 0x39) then
    match parseUint token with
    | none => .error (name ++ " is too large")
    | some value => .ok value
  else .error (name ++ " must be an unsigned integer")

def parseByteCount (token : Text) : Except String Nat :=
  match parseUintToken token "byte count" with
  | .error message => .error message
  | .ok value =>
    if value.toNat > 2 ^ 63 - 1 then .error "byte count is too large" else .ok value.toNat

def keysFromFields (fields : List Text) : Except String (List Text) :=
  if fields = [] then .error "at least one key is required"
  else if fields.all validKey then .ok fields
  else .error "invalid key"

/-- A command read from its line. With a size, the value of that many bytes follows. -/
abbrev Request := Command × Option Nat

def bare (usage : String) (command : Command) : List Text → Except String Request
  | [] => .ok (command, none)
  | _ => .error usage

def oneWord (usage : String) (valid : Text → Bool) (command : Text → Command) :
    List Text → Except String Request
  | [word] => if valid word then .ok (command word, none) else .error usage
  | _ => .error usage

def manyKeys (command : List Text → Command) (args : List Text) : Except String Request := do
  let keys ← keysFromFields args
  .ok (command keys, none)

def parsePing : List Text → Except String Request := bare "usage: ping" { op := .ping }

def parseStats : List Text → Except String Request := bare "usage: stats" { op := .stats }

def parseAuth : List Text → Except String Request :=
  oneWord "usage: auth <token>" validToken fun token => { op := .auth, token := token }

def parseGet : List Text → Except String Request :=
  oneWord "usage: get <key>" validKey fun key => { op := .get, key := key }

def parseDelete : List Text → Except String Request :=
  oneWord "usage: delete <key>" validKey fun key => { op := .delete, key := key }

def parseMget : List Text → Except String Request :=
  manyKeys fun keys => { op := .mget, keys := keys }

def parseGets : List Text → Except String Request :=
  manyKeys fun keys => { op := .gets, keys := keys }

def parseIncr : List Text → Except String Request
  | [key, count] =>
    if validKey key then do
      let delta ← parseUintToken count "delta"
      .ok ({ op := .incr, key := key, delta := delta }, none)
    else .error "usage: incr <key> <delta>"
  | _ => .error "usage: incr <key> <delta>"

/-- The line of a set; the shorter form has no expiry. -/
def parseSet : List Text → Except String Request
  | [key, sizeToken] =>
    if validKey key then do
      let size ← parseByteCount sizeToken
      .ok ({ op := .set, key := key }, some size)
    else .error "usage: set <key> [ttl-seconds] <bytes>"
  | [key, ttlToken, sizeToken] =>
    if validKey key then do
      let ttl ← parseUintToken ttlToken "TTL"
      let size ← parseByteCount sizeToken
      .ok ({ op := .set, key := key, ttlSeconds := ttl }, some size)
    else .error "usage: set <key> [ttl-seconds] <bytes>"
  | _ => .error "usage: set <key> [ttl-seconds] <bytes>"

def parseCas : List Text → Except String Request
  | [key, versionToken, sizeToken] =>
    if validKey key then do
      let version ← parseUintToken versionToken "cas-version"
      let size ← parseByteCount sizeToken
      .ok ({ op := .cas, key := key, cas := version }, some size)
    else .error "usage: cas <key> [<ttl-seconds>] <cas-version> <bytes>"
  | [key, ttlToken, versionToken, sizeToken] =>
    if validKey key then do
      let ttl ← parseUintToken ttlToken "TTL"
      let version ← parseUintToken versionToken "cas-version"
      let size ← parseByteCount sizeToken
      .ok ({ op := .cas, key := key, ttlSeconds := ttl, cas := version }, some size)
    else .error "usage: cas <key> [<ttl-seconds>] <cas-version> <bytes>"
  | _ => .error "usage: cas <key> [<ttl-seconds>] <cas-version> <bytes>"

/-- The cases of the switch, in the order of the source. -/
def dispatch : List (Op × (List Text → Except String Request)) :=
  [(.ping,parsePing), (.auth,parseAuth), (.get,parseGet), (.set,parseSet), (.delete,parseDelete),
    (.incr,parseIncr), (.stats,parseStats), (.mget,parseMget), (.gets,parseGets), (.cas,parseCas)]

def parseFields : List Text → Except String Request
  | [] => .error "empty command"
  | verb :: args =>
    match dispatch.find? fun entry => decide (entry.1.name.map Char.toNat = lower verb) with
    | none => .error "unknown command"
    | some entry => entry.2 args

/-- The value behind the line of a set or a cas: the buffer is made before anything of
    the value has been read. The runtime refuses a negative length and one above its
    limit for an allocation. -/
def readValue (maxAlloc : Nat) (size : Nat) (r : Reader) : Except Failure Text × Reader :=
  let length := int64.wrap (size + 2)
  if length < 0 ∨ maxAlloc < length then (.error .panic, r)
  else
    match readFull length.toNat r with
    | (none, r) => (.error (.protocol "incomplete value"), r)
    | (some value, r) =>
      match value[size]? with
      | none => (.error .panic, r)
      | some first =>
        if first ≠ cr then (.error (.protocol "value must end with CRLF"), r)
        else
          match value[size + 1]? with
          | none => (.error .panic, r)
          | some second =>
            if second ≠ lf then (.error (.protocol "value must end with CRLF"), r)
            else (.ok (value.take size), r)

def commandLine (lineBytes : Text) : Except Failure Text :=
  if lineBytes.length < 2 then .error (.protocol "command line must end with CRLF")
  else
    match lineBytes[lineBytes.length - 2]? with
    | none => .error .panic
    | some b =>
      if b ≠ cr then .error (.protocol "command line must end with CRLF")
      else .ok (lineBytes.take (lineBytes.length - 2))

def readRequest (r : Reader) : Except Failure Request × Reader :=
  match readLineSlice r with
  | (.error failure, r) => (.error failure, r)
  | (.ok lineBytes, r) =>
    match commandLine lineBytes with
    | .error failure => (.error failure, r)
    | .ok line =>
      match parseFields (fields line) with
      | .error message => (.error (.protocol message), r)
      | .ok request => (.ok request, r)

def Command.withValue (command : Command) :
    Except Failure Text × Reader → Except Failure Command × Reader
  | (.error failure, r) => (.error failure, r)
  | (.ok value, r) => (.ok { command with value := value }, r)

def readCommand (maxAlloc : Nat) (r : Reader) : Except Failure Command × Reader :=
  match readRequest r with
  | (.error failure, r) => (.error failure, r)
  | (.ok (command, none), r) => (.ok command, r)
  | (.ok (command, some size), r) => command.withValue (readValue maxAlloc size r)

def settled {α : Type} : Except Failure α → Bool
  | .ok _ => true
  | .error .eof => true
  | .error (.protocol _) => true
  | .error .fault => false
  | .error .panic => false

/-- The size of the value that the first line of the input announces, if that line is a
    well-formed set or cas. -/
def announcedSize (input : Text) : Option Nat :=
  match (readRequest ⟨input,.eof⟩).1 with
  | .error _ => none
  | .ok request => request.2

variable {maxAlloc size n : Nat} {r : Reader} {args : List Text} {token : Text}
  {request : Request} {c : Command}

theorem bind_ok {ε α β : Type} {x : Except ε α} {f : α → Except ε β} {y : β}
    (done : (x >>= f) = .ok y) : ∃ a, x = .ok a ∧ f a = .ok y := by
  cases x with
  | error message => cases done
  | ok a => exact ⟨a,rfl,done⟩

theorem validKey_length {key : Text} (valid : validKey key = true) :
    key.length ≤ maxKeyBytes := by
  unfold validKey at valid
  split at valid
  · cases valid
  · rename_i inside
    simp only [Bool.or_eq_true, decide_eq_true_eq, not_or, Nat.not_lt] at inside
    exact inside.2

theorem parseByteCount_lt (counted : parseByteCount token = .ok n) : n < 2 ^ 63 := by
  unfold parseByteCount at counted
  split at counted
  · cases counted
  · split at counted
    · cases counted
    · rename_i small
      obtain rfl := Except.ok.inj counted
      omega

theorem sized_lt {command : Command}
    (parsed : (do let size ← parseByteCount token; .ok (command,some size)) =
      (.ok (c,some n) : Except String Request)) : n < 2 ^ 63 := by
  obtain ⟨size,counted,same⟩ := bind_ok parsed
  obtain rfl := Option.some.inj (congrArg Prod.snd (Except.ok.inj same))
  exact parseByteCount_lt counted

theorem parseSet_size (parsed : parseSet args = .ok (c,some n)) : n < 2 ^ 63 := by
  unfold parseSet at parsed
  split at parsed
  · split at parsed
    · exact sized_lt parsed
    · cases parsed
  · split at parsed
    · obtain ⟨_,_,rest⟩ := bind_ok parsed
      exact sized_lt rest
    · cases parsed
  · cases parsed

theorem parseCas_size (parsed : parseCas args = .ok (c,some n)) : n < 2 ^ 63 := by
  unfold parseCas at parsed
  split at parsed
  · split at parsed
    · obtain ⟨_,_,rest⟩ := bind_ok parsed
      exact sized_lt rest
    · cases parsed
  · split at parsed
    · obtain ⟨_,_,more⟩ := bind_ok parsed
      obtain ⟨_,_,rest⟩ := bind_ok more
      exact sized_lt rest
    · cases parsed
  · cases parsed

theorem bare_alone {usage : String} {command : Command}
    (parsed : bare usage command args = .ok request) : request.2 = none := by
  unfold bare at parsed
  split at parsed
  · exact (Except.ok.inj parsed) ▸ rfl
  · cases parsed

theorem oneWord_alone {usage : String} {valid : Text → Bool} {command : Text → Command}
    (parsed : oneWord usage valid command args = .ok request) : request.2 = none := by
  unfold oneWord at parsed
  split at parsed
  · split at parsed
    · exact (Except.ok.inj parsed) ▸ rfl
    · cases parsed
  · cases parsed

theorem manyKeys_alone {command : List Text → Command}
    (parsed : manyKeys command args = .ok request) : request.2 = none := by
  obtain ⟨keys,_,same⟩ := bind_ok parsed
  exact (Except.ok.inj same) ▸ rfl

theorem parseIncr_alone (parsed : parseIncr args = .ok request) : request.2 = none := by
  unfold parseIncr at parsed
  split at parsed
  · split at parsed
    · obtain ⟨_,_,same⟩ := bind_ok parsed
      exact (Except.ok.inj same) ▸ rfl
    · cases parsed
  · cases parsed

theorem parseFields_size (parsed : parseFields args = .ok (c,some n)) : n < 2 ^ 63 := by
  unfold parseFields at parsed
  split at parsed
  · cases parsed
  · split at parsed
    · cases parsed
    · rename_i entry found
      have member := List.mem_of_find?_eq_some found
      simp only [dispatch, List.mem_cons, List.not_mem_nil, or_false] at member
      rcases member with rfl | rfl | rfl | rfl | rfl | rfl | rfl | rfl | rfl | rfl
      · cases bare_alone parsed
      · cases oneWord_alone parsed
      · cases oneWord_alone parsed
      · exact parseSet_size parsed
      · cases oneWord_alone parsed
      · cases parseIncr_alone parsed
      · cases bare_alone parsed
      · cases manyKeys_alone parsed
      · cases manyKeys_alone parsed
      · exact parseCas_size parsed

/-- Where the length is not wrapped and within the limit, the runtime checks pass. -/
theorem readValue_allocated (range : size + 2 < 2 ^ 63) (room : size + 2 ≤ maxAlloc) :
    readValue maxAlloc size r =
      if size + 2 ≤ r.bytes.length then
        if r.bytes[size]? = some cr ∧ r.bytes[size + 1]? = some lf then
          (.ok (r.bytes.take size), r.skip (size + 2))
        else (.error (.protocol "value must end with CRLF"), r.skip (size + 2))
      else (.error (.protocol "incomplete value"), r.skip r.bytes.length) := by
  have exact : int64.wrap ((size : Int) + 2) = size + 2 := int64_exact ⟨by omega, by omega⟩
  have fine : ¬ ((size : Int) + 2 < 0 ∨ (maxAlloc : Int) < size + 2) := by omega
  have length : ((size : Int) + 2).toNat = size + 2 := by omega
  unfold readValue
  rw [exact]
  dsimp only
  rw [if_neg fine, length, readFull]
  by_cases enough : size + 2 ≤ r.bytes.length
  · have first : (r.bytes.take (size + 2))[size]? = r.bytes[size]? :=
      List.getElem?_take_of_lt (by omega)
    have second : (r.bytes.take (size + 2))[size + 1]? = r.bytes[size + 1]? :=
      List.getElem?_take_of_lt (by omega)
    have value : (r.bytes.take (size + 2)).take size = r.bytes.take size := by
      rw [List.take_take, Nat.min_eq_left (by omega)]
    have here : r.bytes[size]? = some r.bytes[size] := List.getElem?_eq_getElem (by omega)
    have next : r.bytes[size + 1]? = some r.bytes[size + 1] := List.getElem?_eq_getElem (by omega)
    rw [if_pos enough, if_pos enough]
    dsimp only
    rw [first, second, value, here, next]
    dsimp only
    by_cases a : r.bytes[size] = cr
    · by_cases b : r.bytes[size + 1] = lf
      · rw [if_neg (not_not.mpr a), if_neg (not_not.mpr b), if_pos ⟨congrArg some a, congrArg some b⟩]
      · rw [if_neg (not_not.mpr a), if_pos b, if_neg fun both => b (Option.some.inj both.2)]
    · rw [if_pos a, if_neg fun both => a (Option.some.inj both.1)]
  · rw [if_neg enough, if_neg enough]

theorem readValue_refused (int : size < 2 ^ 63)
    (refused : ¬ (size + 2 < 2 ^ 63 ∧ size + 2 ≤ maxAlloc)) :
    readValue maxAlloc size r = (.error .panic, r) := by
  have bad : int64.wrap ((size : Int) + 2) < 0 ∨
      (maxAlloc : Int) < int64.wrap ((size : Int) + 2) := by
    by_cases range : size + 2 < 2 ^ 63
    · rw [int64_exact ⟨by omega, by omega⟩]
      omega
    · have wrapped : int64.wrap ((size : Int) + 2) = size + 2 - 2 ^ 64 := by
        simp only [int64]
        rw [Int.bmod_def]
        omega
      omega
  simp only [readValue, if_pos bad]

theorem readValue_settled_iff (maxAlloc : Nat) (r : Reader) (int : size < 2 ^ 63) :
    settled (readValue maxAlloc size r).1 = true ↔ size + 2 < 2 ^ 63 ∧ size + 2 ≤ maxAlloc := by
  by_cases allocated : size + 2 < 2 ^ 63 ∧ size + 2 ≤ maxAlloc
  · rw [readValue_allocated allocated.1 allocated.2]
    constructor
    · intro _
      exact allocated
    · intro _
      split
      · split <;> rfl
      · rfl
  · rw [readValue_refused int allocated]
    constructor
    · intro done
      cases done
    · intro able
      exact absurd able allocated

theorem readLineSlice_settled (input : Text) :
    settled (readLineSlice ⟨input,.eof⟩).1 = true := by
  unfold readLineSlice
  split
  · rfl
  · split <;> rfl

theorem commandLine_settled (lineBytes : Text) : settled (commandLine lineBytes) = true := by
  -- The check of the length guards the index.
  unfold commandLine
  split
  · rfl
  · rename_i long
    have inside : lineBytes.length - 2 < lineBytes.length := by omega
    rw [List.getElem?_eq_getElem inside]
    dsimp only
    split <;> rfl

theorem withValue_settled (command : Command) (result : Except Failure Text × Reader) :
    settled (command.withValue result).1 = settled result.1 := by
  obtain ⟨result,r⟩ := result
  cases result with
  | error failure => cases failure <;> rfl
  | ok value => rfl

/-- Reading and parsing the line never panics, and announces no size beyond an int. -/
theorem readRequest_settled (input : Text) :
    settled (readRequest ⟨input,.eof⟩).1 = true ∧
      ∀ c n, (readRequest ⟨input,.eof⟩).1 = .ok (c,some n) → n < 2 ^ 63 := by
  have line := readLineSlice_settled input
  unfold readRequest
  generalize readLineSlice ⟨input,.eof⟩ = read at line ⊢
  obtain ⟨read,r⟩ := read
  cases read with
  | error failure => cases failure <;> simp_all [settled]
  | ok lineBytes =>
    have ends := commandLine_settled lineBytes
    dsimp only
    cases whole : commandLine lineBytes with
    | error failure =>
      rw [whole] at ends
      cases failure <;> simp_all [settled]
    | ok line =>
      dsimp only
      cases parsed : parseFields (fields line) with
      | error message => simp [settled]
      | ok request =>
        refine ⟨rfl, ?_⟩
        intro c n done
        obtain rfl := Except.ok.inj done
        exact parseFields_size parsed

/-- ReadCommand ends in a command, io.EOF or a protocol error exactly on the inputs whose
    announced value can be allocated. -/
theorem readCommand_settled_iff (maxAlloc : Nat) (input : Text) :
    settled (readCommand maxAlloc ⟨input,.eof⟩).1 = true ↔
      ∀ n, announcedSize input = some n → n + 2 < 2 ^ 63 ∧ n + 2 ≤ maxAlloc := by
  obtain ⟨line,small⟩ := readRequest_settled input
  unfold readCommand announcedSize
  generalize readRequest ⟨input,.eof⟩ = read at line small ⊢
  obtain ⟨read,r⟩ := read
  cases read with
  | error failure => cases failure <;> simp_all [settled]
  | ok request =>
    obtain ⟨command,size⟩ := request
    cases size with
    | none => simp [settled]
    | some size =>
      have value := readValue_settled_iff maxAlloc r (small command size rfl)
      dsimp only
      rw [withValue_settled, value]
      constructor
      · intro able n announced
        exact Option.some.inj announced ▸ able
      · intro all
        exact all size rfl

def ascii (text : List Char) : Text := text.map fun c => UInt8.ofNat c.toNat

/-- The largest count that parseByteCount accepts. The limit is the one of the runtime
    on 64-bit Linux; any limit would do. -/
theorem largest_count_panics :
    (readCommand (2 ^ 48) ⟨ascii ['s','e','t',' ','k',' ','9','2','2','3','3','7','2','0','3','6','8',
      '5','4','7','7','5','8','0','7','\r','\n'],.eof⟩).1 = .error .panic := by decide

end ProtocolModel
