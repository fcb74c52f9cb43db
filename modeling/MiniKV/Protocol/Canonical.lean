import MiniKV.Protocol.Framing

/- What ReadCommand can return, and the one canonical way of writing each of it. A command
   that was read has only the fields of its operation, its keys are words of the tokenizer,
   and its canonical text is no longer than the text it was read from. -/
namespace ProtocolCanonical
open Decimal Utf8 Fields ProtocolModel ProtocolEncoding ProtocolFraming

/-- A key or token as the parser returns it. -/
structure Tokenized (word : Text) : Prop where
  nonempty : 1 ≤ word.length
  short : word.length ≤ 250
  plain : ∀ rune ∈ runes word, 0x20 < rune.code ∧ rune.code ≠ 0x7F ∧ isSpace rune.code = false

inductive Formed : Command → Prop where
  | ping : Formed { op := .ping }
  | stats : Formed { op := .stats }
  | auth {token : Text} (word : Tokenized token) : Formed { op := .auth, token := token }
  | get {key : Text} (word : Tokenized key) : Formed { op := .get, key := key }
  | delete {key : Text} (word : Tokenized key) : Formed { op := .delete, key := key }
  | incr {key : Text} (word : Tokenized key) (delta : UInt64) :
      Formed { op := .incr, key := key, delta := delta }
  | mget {keys : List Text} (nonempty : keys ≠ []) (words : ∀ key ∈ keys, Tokenized key) :
      Formed { op := .mget, keys := keys }
  | gets {keys : List Text} (nonempty : keys ≠ []) (words : ∀ key ∈ keys, Tokenized key) :
      Formed { op := .gets, keys := keys }
  | set {key : Text} (word : Tokenized key) (ttlSeconds : UInt64) (value : Text) :
      Formed { op := .set, key := key, value := value, ttlSeconds := ttlSeconds }
  | cas {key : Text} (word : Tokenized key) (ttlSeconds version : UInt64) (value : Text) :
      Formed { op := .cas, key := key, value := value, ttlSeconds := ttlSeconds, cas := version }

/-- A value follows the line. -/
def valued : Op → Bool
  | .set => true
  | .cas => true
  | _ => false

/-- The arguments of a command and the size of its value; without a TTL in the short form. -/
def arguments (c : Command) (size : Nat) : List Text :=
  match c.op with
  | .ping => []
  | .stats => []
  | .auth => [c.token]
  | .get => [c.key]
  | .delete => [c.key]
  | .incr => [c.key, formatUint c.delta]
  | .mget => c.keys
  | .gets => c.keys
  | .set =>
    if c.ttlSeconds = 0 then [c.key, formatNat size]
    else [c.key, formatUint c.ttlSeconds, formatNat size]
  | .cas =>
    if c.ttlSeconds = 0 then [c.key, formatUint c.cas, formatNat size]
    else [c.key, formatUint c.ttlSeconds, formatUint c.cas, formatNat size]

def canonicalLine (c : Command) : Text :=
  unwords (ascii c.op.name :: arguments c c.value.length)

def trailer (c : Command) : Text := if valued c.op then c.value ++ [cr,lf] else []

/-- The lower-case verb, single blanks, numbers without leading zeros. -/
def render (c : Command) : Text := canonicalLine c ++ cr :: lf :: trailer c

/-- The commands that can be sent: on a line that the buffer holds, with a value that can be
    allocated. -/
structure WellFormed (maxAlloc : Nat) (c : Command) : Prop where
  formed : Formed c
  line : (canonicalLine c).length + 2 ≤ 4096
  room : valued c.op = true → c.value.length + 2 ≤ maxAlloc ∧ c.value.length + 2 < 2 ^ 63

/-- What reading a command takes from the stream: one line and, with set and cas only, the
    value. -/
def Consumes (bytes : Text) (c : Command) (rest : Text) : Prop :=
  ∃ line, bytes = line ++ cr :: lf :: (trailer c ++ rest) ∧ lf ∉ line ∧ line.length + 2 ≤ 4096

variable {maxAlloc size n : Nat} {bytes line rest value word token : Text} {ending : Ending}
  {r r' : Reader} {words args : List Text} {op : Op} {request : Request} {c : Command}

theorem tokenized_iff (word : Text) :
    Tokenized word ↔ validKey word = true ∧ ∀ rune ∈ runes word, isSpace rune.code = false := by
  have accepted : validKey word = true ↔ (word ≠ [] ∧ word.length ≤ 250) ∧
      ∀ rune ∈ runes word, 0x20 < rune.code ∧ rune.code ≠ 0x7F := by
    by_cases fits : word ≠ [] ∧ word.length ≤ 250
    · have guard : ¬ (word = [] || decide (maxKeyBytes < word.length)) = true := by
        simp only [Bool.or_eq_true, decide_eq_true_eq, not_or, Nat.not_lt]
        exact fits
      rw [validKey, if_neg guard]
      simp [fits]
    · have guard : (word = [] || decide (maxKeyBytes < word.length)) = true := by
        simp only [Bool.or_eq_true, decide_eq_true_eq]
        by_contra neither
        exact fits ⟨fun empty => neither (.inl empty), Nat.not_lt.mp fun long => neither (.inr long)⟩
      rw [validKey, if_pos guard]
      simp [fits]
  rw [accepted]
  constructor
  · intro t
    refine ⟨⟨⟨List.length_pos_iff.mp t.nonempty, t.short⟩, ?_⟩, ?_⟩
    · intro rune mem
      exact ⟨(t.plain rune mem).1, (t.plain rune mem).2.1⟩
    · intro rune mem
      exact (t.plain rune mem).2.2
  · rintro ⟨⟨⟨nonempty,short⟩,plain⟩,whole⟩
    refine ⟨List.length_pos_iff.mpr nonempty, short, ?_⟩
    intro rune mem
    exact ⟨(plain rune mem).1, (plain rune mem).2, whole rune mem⟩

theorem tokenized_of (isWord : IsWord word) (valid : validKey word = true) : Tokenized word :=
  (tokenized_iff word).mpr ⟨valid,isWord.2⟩

theorem tokenized_isWord (t : Tokenized word) : IsWord word :=
  ⟨List.length_pos_iff.mp t.nonempty, ((tokenized_iff word).mp t).2⟩

/-- The word of the encoding that a key is. -/
def Tokenized.toWord (t : Tokenized word) : Word :=
  ⟨word, ((tokenized_iff word).mp t).1, ((tokenized_iff word).mp t).2⟩

theorem parseUintToken_shortest {name : String} {number : UInt64}
    (read : parseUintToken token name = .ok number) :
    (formatUint number).length ≤ token.length := by
  unfold parseUintToken at read
  split at read
  · cases read
  · split at read
    · split at read
      · cases read
      · rename_i accepted
        obtain rfl := Except.ok.inj read
        obtain ⟨nonempty,digits,value⟩ := parseUint_some accepted
        rw [formatUint, value]
        exact formatNat_shortest nonempty digits
    · cases read

theorem parseByteCount_shortest (read : parseByteCount token = .ok n) :
    (formatNat n).length ≤ token.length := by
  unfold parseByteCount at read
  split at read
  · cases read
  · rename_i number counted
    split at read
    · cases read
    · obtain rfl := Except.ok.inj read
      exact parseUintToken_shortest counted

/-- A request that was read from the arguments of its operation. -/
structure FromArgs (op : Op) (args : List Text) (request : Request) : Prop where
  own : request.1.op = op
  formed : Formed request.1
  empty : request.1.value = []
  sized : request.2.isSome = valued op
  shortest : spaced (arguments request.1 (request.2.getD 0)) ≤ spaced args

theorem bare_from {usage : String} {command : Command} (parsed : bare usage command args = .ok request)
    (own : command.op = op) (formed : Formed command) (empty : command.value = [])
    (alone : valued op = false) (plain : arguments command 0 = []) : FromArgs op args request := by
  unfold bare at parsed
  split at parsed
  · obtain rfl := Except.ok.inj parsed
    refine ⟨own, formed, empty, alone.symm, ?_⟩
    exact Nat.le_of_eq (congrArg spaced plain)
  · cases parsed

theorem oneWord_from {usage : String} {command : Text → Command}
    (parsed : oneWord usage validKey command args = .ok request)
    (areWords : ∀ word ∈ args, IsWord word) (own : ∀ word, (command word).op = op)
    (formed : ∀ word, Tokenized word → Formed (command word))
    (empty : ∀ word, (command word).value = []) (alone : valued op = false)
    (plain : ∀ word, arguments (command word) 0 = [word]) : FromArgs op args request := by
  unfold oneWord at parsed
  split at parsed
  · rename_i word
    split at parsed
    · rename_i valid
      obtain rfl := Except.ok.inj parsed
      have tokenized := tokenized_of (areWords word (by simp)) valid
      refine ⟨own word, formed word tokenized, empty word, alone.symm, ?_⟩
      exact Nat.le_of_eq (congrArg spaced (plain word))
    · cases parsed
  · cases parsed

theorem manyKeys_from {command : List Text → Command}
    (parsed : manyKeys command args = .ok request)
    (areWords : ∀ word ∈ args, IsWord word) (own : ∀ keys, (command keys).op = op)
    (formed : ∀ keys, keys ≠ [] → (∀ key ∈ keys, Tokenized key) → Formed (command keys))
    (empty : ∀ keys, (command keys).value = []) (alone : valued op = false)
    (plain : ∀ keys, arguments (command keys) 0 = keys) : FromArgs op args request := by
  obtain ⟨keys,accepted,same⟩ := bind_ok parsed
  obtain rfl := Except.ok.inj same
  unfold keysFromFields at accepted
  split at accepted
  · cases accepted
  · rename_i nonempty
    split at accepted
    · rename_i valid
      obtain rfl := Except.ok.inj accepted
      have tokenized : ∀ key ∈ args, Tokenized key := by
        intro key mem
        exact tokenized_of (areWords key mem) (List.all_eq_true.mp valid key mem)
      refine ⟨own args, formed args nonempty tokenized, empty args, alone.symm, ?_⟩
      exact Nat.le_of_eq (congrArg spaced (plain args))
    · cases accepted

theorem parseIncr_from (parsed : parseIncr args = .ok request)
    (areWords : ∀ word ∈ args, IsWord word) : FromArgs .incr args request := by
  unfold parseIncr at parsed
  split at parsed
  · rename_i key count
    split at parsed
    · rename_i valid
      obtain ⟨delta,read,same⟩ := bind_ok parsed
      obtain rfl := Except.ok.inj same
      have less := parseUintToken_shortest read
      refine ⟨rfl, .incr (tokenized_of (areWords key (by simp)) valid) delta, rfl, rfl, ?_⟩
      simp only [arguments, spaced, List.map_cons, List.map_nil, List.sum_cons, List.sum_nil]
      omega
    · cases parsed
  · cases parsed

/-- Leaving out a TTL of zero only shortens the arguments. -/
theorem parseSet_from (parsed : parseSet args = .ok request)
    (areWords : ∀ word ∈ args, IsWord word) : FromArgs .set args request := by
  unfold parseSet at parsed
  split at parsed
  · rename_i key sizeToken
    split at parsed
    · rename_i valid
      obtain ⟨size,counted,same⟩ := bind_ok parsed
      obtain rfl := Except.ok.inj same
      have less := parseByteCount_shortest counted
      refine ⟨rfl, .set (tokenized_of (areWords key (by simp)) valid) 0 [], rfl, rfl, ?_⟩
      simp only [arguments, spaced, if_true, Option.getD_some, List.map_cons, List.map_nil,
        List.sum_cons, List.sum_nil]
      omega
    · cases parsed
  · rename_i key ttlToken sizeToken
    split at parsed
    · rename_i valid
      obtain ⟨ttl,read,later⟩ := bind_ok parsed
      obtain ⟨size,counted,same⟩ := bind_ok later
      obtain rfl := Except.ok.inj same
      have lessTtl := parseUintToken_shortest read
      have less := parseByteCount_shortest counted
      refine ⟨rfl, .set (tokenized_of (areWords key (by simp)) valid) ttl [], rfl, rfl, ?_⟩
      simp only [arguments, spaced, Option.getD_some]
      split <;> simp only [List.map_cons, List.map_nil, List.sum_cons, List.sum_nil] <;> omega
    · cases parsed
  · cases parsed

theorem parseCas_from (parsed : parseCas args = .ok request)
    (areWords : ∀ word ∈ args, IsWord word) : FromArgs .cas args request := by
  unfold parseCas at parsed
  split at parsed
  · rename_i key versionToken sizeToken
    split at parsed
    · rename_i valid
      obtain ⟨version,read,later⟩ := bind_ok parsed
      obtain ⟨size,counted,same⟩ := bind_ok later
      obtain rfl := Except.ok.inj same
      have lessVersion := parseUintToken_shortest read
      have less := parseByteCount_shortest counted
      refine ⟨rfl, .cas (tokenized_of (areWords key (by simp)) valid) 0 version [], rfl, rfl, ?_⟩
      simp only [arguments, spaced, if_true, Option.getD_some, List.map_cons, List.map_nil,
        List.sum_cons, List.sum_nil]
      omega
    · cases parsed
  · rename_i key ttlToken versionToken sizeToken
    split at parsed
    · rename_i valid
      obtain ⟨ttl,readTtl,next⟩ := bind_ok parsed
      obtain ⟨version,read,later⟩ := bind_ok next
      obtain ⟨size,counted,same⟩ := bind_ok later
      obtain rfl := Except.ok.inj same
      have lessTtl := parseUintToken_shortest readTtl
      have lessVersion := parseUintToken_shortest read
      have less := parseByteCount_shortest counted
      refine ⟨rfl, .cas (tokenized_of (areWords key (by simp)) valid) ttl version [], rfl, rfl, ?_⟩
      simp only [arguments, spaced, Option.getD_some]
      split <;> simp only [List.map_cons, List.map_nil, List.sum_cons, List.sum_nil] <;> omega
    · cases parsed
  · cases parsed

theorem parseArgs_from (parsed : parseArgs op args = .ok request)
    (areWords : ∀ word ∈ args, IsWord word) : FromArgs op args request := by
  cases op with
  | ping => exact bare_from parsed rfl .ping rfl rfl rfl
  | stats => exact bare_from parsed rfl .stats rfl rfl rfl
  | auth =>
    exact oneWord_from parsed areWords (fun _ => rfl) (fun _ word => .auth word) (fun _ => rfl) rfl
      fun _ => rfl
  | get =>
    exact oneWord_from parsed areWords (fun _ => rfl) (fun _ word => .get word) (fun _ => rfl) rfl
      fun _ => rfl
  | delete =>
    exact oneWord_from parsed areWords (fun _ => rfl) (fun _ word => .delete word) (fun _ => rfl) rfl
      fun _ => rfl
  | incr => exact parseIncr_from parsed areWords
  | mget =>
    exact manyKeys_from parsed areWords (fun _ => rfl) (fun _ some words => .mget some words)
      (fun _ => rfl) rfl fun _ => rfl
  | gets =>
    exact manyKeys_from parsed areWords (fun _ => rfl) (fun _ some words => .gets some words)
      (fun _ => rfl) rfl fun _ => rfl
  | set => exact parseSet_from parsed areWords
  | cas => exact parseCas_from parsed areWords

theorem parseFields_inverted (parsed : parseFields words = .ok request) :
    ∃ op verb args, words = verb :: args ∧ op.name.map Char.toNat = lower verb ∧
      parseArgs op args = .ok request := by
  unfold parseFields at parsed
  split at parsed
  · cases parsed
  · rename_i verb args
    split at parsed
    · cases parsed
    · rename_i entry found
      have named := List.find?_some found
      have member := List.mem_of_find?_eq_some found
      refine ⟨entry.1, verb, args, rfl, of_decide_eq_true named, ?_⟩
      simp only [dispatch, List.mem_cons, List.not_mem_nil, or_false] at member
      rcases member with rfl | rfl | rfl | rfl | rfl | rfl | rfl | rfl | rfl | rfl <;> exact parsed

/-- A verb takes at least one byte a letter, whatever runes are lowered to its name. -/
theorem verb_length (named : op.name.map Char.toNat = lower word) :
    (ascii op.name).length ≤ word.length := by
  have letters := congrArg List.length named
  rw [List.length_map, lower, List.length_map] at letters
  rw [ascii, List.length_map, letters]
  exact runes_length word

/-- A line that was parsed, and the canonical words of its request. -/
theorem parseFields_from (parsed : parseFields (fields line) = .ok request) :
    FromArgs request.1.op (fields line).tail request ∧
      (unwords (ascii request.1.op.name :: arguments request.1 (request.2.getD 0))).length ≤
        line.length := by
  obtain ⟨op,verb,args,cut,named,own⟩ := parseFields_inverted parsed
  have areWords : ∀ word ∈ args, IsWord word := by
    intro word mem
    exact fields_areWords line word (by simp [cut, mem])
  have made := parseArgs_from own areWords
  obtain rfl := made.own
  refine ⟨by rw [cut]; exact made, ?_⟩
  have whole := fields_spaced line
  have verbs := verb_length named
  have shortest := made.shortest
  have size := unwords_length (ascii request.1.op.name) (arguments request.1 (request.2.getD 0))
  rw [cut] at whole
  simp only [spaced, List.map_cons, List.sum_cons] at whole shortest size
  omega

theorem commandLine_ok (ended : commandLine bytes = .ok line) :
    ∃ last, bytes = line ++ [cr,last] := by
  unfold commandLine at ended
  split at ended
  · cases ended
  · rename_i long
    split at ended
    · cases ended
    · rename_i b at2
      split at ended
      · cases ended
      · rename_i isCr
        obtain rfl := Except.ok.inj ended
        obtain rfl := not_not.mp isCr
        obtain ⟨k,size⟩ : ∃ k, bytes.length = k + 2 := ⟨bytes.length - 2, by omega⟩
        rw [size, Nat.add_sub_cancel] at at2 ⊢
        have inside : k + 1 < bytes.length := by omega
        obtain ⟨_,here⟩ := List.getElem?_eq_some_iff.mp at2
        refine ⟨bytes[k + 1], ?_⟩
        have ends : bytes.drop k = [cr, bytes[k + 1]] := by
          rw [List.drop_eq_getElem_cons (by omega), List.drop_eq_getElem_cons inside, here,
            List.drop_of_length_le (by omega)]
        rw [← ends, List.take_append_drop]

/-- What ReadSlice takes is everything up to the first line feed. -/
theorem findIdx_cut {i : Nat} (found : (bytes.take n).findIdx? (fun b => b == lf) = some i) :
    bytes.take (i + 1) = bytes.take i ++ [lf] ∧ (bytes.take i).length = i ∧ lf ∉ bytes.take i ∧
      i < n := by
  obtain ⟨below,here,before⟩ := List.findIdx?_eq_some_iff_getElem.mp found
  rw [List.getElem_take, beq_iff_eq] at here
  rw [List.length_take] at below
  have inside : i < bytes.length := by omega
  refine ⟨?_, List.length_take_of_le (by omega), ?_, by omega⟩
  · rw [List.take_succ_eq_append_getElem inside, here]
  · intro mem
    obtain ⟨j,small,same⟩ := List.getElem_of_mem mem
    rw [List.length_take] at small
    rw [List.getElem_take] at same
    have other := before j (by omega)
    rw [List.getElem_take, same] at other
    exact other rfl

/-- The line that was read, without its end. -/
theorem readRequest_line_of (read : readRequest r = (.ok request,r')) :
    ∃ line, r.bytes = line ++ cr :: lf :: r'.bytes ∧ r'.ending = r.ending ∧ lf ∉ line ∧
      line.length + 2 ≤ 4096 ∧ parseFields (fields line) = .ok request := by
  obtain ⟨bytes,line,sliced,ended,parsed⟩ := readRequest_ok read
  obtain ⟨i,found,taken,rfl⟩ := readLineSlice_ok sliced
  obtain ⟨last,whole⟩ := commandLine_ok ended
  obtain ⟨cut,size,plain,inside⟩ := findIdx_cut found
  have ends : r.bytes.take i ++ [lf] = (line ++ [cr]) ++ [last] := by
    rw [← cut, ← taken, whole]
    simp
  obtain ⟨before,isLf⟩ := List.append_inj' ends rfl
  obtain rfl := List.singleton_injective isLf
  rw [before] at size plain
  rw [List.length_append, List.length_singleton] at size
  have buffer : bufferSize = 4096 := rfl
  refine ⟨line, ?_, rfl, fun mem => plain (List.mem_append_left _ mem), by omega, parsed⟩
  calc r.bytes = r.bytes.take (i + 1) ++ r.bytes.drop (i + 1) := (List.take_append_drop _ _).symm
    _ = line ++ cr :: lf :: r.bytes.drop (i + 1) := by
      rw [← taken, whole]
      simp

theorem readValue_taken (int : size < 2 ^ 63) (read : readValue maxAlloc size r = (.ok value,r')) :
    r.bytes = value ++ cr :: lf :: r'.bytes ∧ r'.ending = r.ending ∧ value.length = size ∧
      size + 2 ≤ maxAlloc ∧ size + 2 < 2 ^ 63 := by
  by_cases allocated : size + 2 < 2 ^ 63 ∧ size + 2 ≤ maxAlloc
  · rw [readValue_allocated allocated.1 allocated.2] at read
    split at read
    · rename_i enough
      split at read
      · rename_i ends
        obtain ⟨same,rfl⟩ := Prod.mk.inj read
        obtain rfl := Except.ok.inj same
        obtain ⟨_,first⟩ := List.getElem?_eq_some_iff.mp ends.1
        obtain ⟨_,second⟩ := List.getElem?_eq_some_iff.mp ends.2
        refine ⟨?_, rfl, List.length_take_of_le (by omega), allocated.2, allocated.1⟩
        have tail : r.bytes.drop size = cr :: lf :: r.bytes.drop (size + 2) := by
          rw [List.drop_eq_getElem_cons (by omega), List.drop_eq_getElem_cons (by omega), first,
            second]
        rw [Reader.skip, ← tail, List.take_append_drop]
      · cases read
    · cases read
  · rw [readValue_refused int allocated] at read
    cases read

theorem formed_withValue (formed : Formed c) (takes : valued c.op = true) (value : Text) :
    Formed { c with value := value } := by
  cases formed with
  | set word ttl _ => exact .set word ttl value
  | cas word ttl version _ => exact .cas word ttl version value
  | _ => cases takes

/-- Every command that is read is well formed, and what was read is its line and value. -/
theorem readCommand_wellFormed (read : readCommand maxAlloc r = (.ok c,r')) :
    WellFormed maxAlloc c ∧ Consumes r.bytes c r'.bytes ∧ r'.ending = r.ending := by
  rcases readCommand_ok read with requested | ⟨command,size,middle,value,requested,valued',rfl⟩
  · obtain ⟨line,split,same,plain,short,parsed⟩ := readRequest_line_of requested
    obtain ⟨made,shorter⟩ := parseFields_from parsed
    have alone : valued c.op = false := made.sized.symm
    have empty : c.value = [] := made.empty
    refine ⟨⟨made.formed, ?_, ?_⟩, ⟨line, ?_, plain, short⟩, same⟩
    · rw [canonicalLine, empty]
      exact Nat.le_trans (Nat.add_le_add_right shorter 2) short
    · intro takes
      cases alone.symm.trans takes
    · rw [split, trailer, alone]
      rfl
  · obtain ⟨line,split,same,plain,short,parsed⟩ := readRequest_line_of requested
    obtain ⟨made,shorter⟩ := parseFields_from parsed
    obtain ⟨rest,kept,length,room,int⟩ := readValue_taken (parseFields_size parsed) valued'
    have takes : valued command.op = true := made.sized.symm
    subst length
    refine ⟨⟨formed_withValue made.formed takes value, ?_, fun _ => ⟨room,int⟩⟩,
      ⟨line, ?_, plain, short⟩, kept.trans same⟩
    · exact Nat.le_trans (Nat.add_le_add_right shorter 2) short
    · rw [split, rest]
      simp [trailer, takes]

/-- The message of the encoding that says a command. -/
theorem formed_message (formed : Formed c) : ∃ m : Message, m.command = c ∧ m.op = c.op ∧
    m.args = arguments c c.value.length ∧
      m.payload = if valued c.op then some c.value else none := by
  have keysOf {keys : List Text} (nonempty : keys ≠ []) (words : ∀ key ∈ keys, Tokenized key) :
      ∃ first more, keys = (first :: more).map Word.text := by
    have all : keys.attach.map (fun key => (words key.1 key.2).toWord.text) = keys :=
      List.attach_map_subtype_val keys
    cases split : keys.attach.map fun key => (words key.1 key.2).toWord with
    | nil => exact absurd (List.attach_eq_nil_iff.mp (List.map_eq_nil_iff.mp split)) nonempty
    | cons first more =>
      refine ⟨first, more, ?_⟩
      rw [← split, List.map_map]
      exact all.symm
  cases formed with
  | ping => exact ⟨.ping, rfl, rfl, rfl, rfl⟩
  | stats => exact ⟨.stats, rfl, rfl, rfl, rfl⟩
  | auth word => exact ⟨.auth word.toWord, rfl, rfl, rfl, rfl⟩
  | get word => exact ⟨.get word.toWord, rfl, rfl, rfl, rfl⟩
  | delete word => exact ⟨.delete word.toWord, rfl, rfl, rfl, rfl⟩
  | incr word delta => exact ⟨.incr word.toWord delta, rfl, rfl, rfl, rfl⟩
  | mget nonempty words =>
    obtain ⟨first,more,rfl⟩ := keysOf nonempty words
    exact ⟨.mget first more, rfl, rfl, rfl, rfl⟩
  | gets nonempty words =>
    obtain ⟨first,more,rfl⟩ := keysOf nonempty words
    exact ⟨.gets first more, rfl, rfl, rfl, rfl⟩
  | set word ttl value =>
    by_cases zero : ttl = 0
    · subst zero
      exact ⟨.set word.toWord none value, rfl, rfl, rfl, rfl⟩
    · refine ⟨.set word.toWord (some ttl) value, rfl, rfl, ?_, rfl⟩
      exact (if_neg zero).symm
  | cas word ttl version value =>
    by_cases zero : ttl = 0
    · subst zero
      exact ⟨.cas word.toWord none version value, rfl, rfl, rfl, rfl⟩
    · refine ⟨.cas word.toWord (some ttl) version value, rfl, rfl, ?_, rfl⟩
      exact (if_neg zero).symm

theorem name_lower (op : Op) : (ascii op.name).map asciiLower = ascii op.name := by
  cases op <;> rfl

theorem render_read (ok : WellFormed maxAlloc c) (rest : Text) (ending : Ending) :
    readCommand maxAlloc ⟨render c ++ rest,ending⟩ = (.ok c,⟨rest,ending⟩) := by
  obtain ⟨m,rfl,sameOp,sameArgs,payload⟩ := formed_message ok.formed
  have spelled : (ascii m.command.op.name).map asciiLower = ascii m.op.name := by
    rw [sameOp]
    exact name_lower _
  have short : (unwords (ascii m.command.op.name :: m.args)).length + 2 ≤ bufferSize := by
    rw [sameArgs]
    exact ok.line
  let e : Encoded := ⟨m, ascii m.command.op.name, spelled, short⟩
  have same : e.bytes = render m.command := by
    have args : e.message.args = arguments m.command m.command.value.length := sameArgs
    have carried : e.message.payload = if valued m.command.op then some m.command.value else none :=
      payload
    rw [Encoded.bytes, Encoded.line, args, carried, render, canonicalLine, trailer]
    cases valued m.command.op <;> rfl
  have allocates (limit : Nat)
      (fits : valued m.command.op = true → m.command.value.length + 2 ≤ limit) :
      e.Allocates limit := by
    intro value carried
    have held : m.payload = some value := carried
    rw [payload] at held
    split at held
    · rename_i takes
      obtain rfl := Option.some.inj held
      exact fits takes
    · cases held
  rw [← same]
  refine readCommand_framed e (allocates maxAlloc fun takes => (ok.room takes).1) ?_ rest ending
  refine allocates _ fun takes => ?_
  have := (ok.room takes).2
  omega

/-- What is read is well formed and read again from its canonical form with the same rest, and
    the commands that can be read are exactly the well-formed ones. -/
theorem parser_image_canonical (maxAlloc : Nat) :
    (∀ r c r', readCommand maxAlloc r = (.ok c,r') →
      WellFormed maxAlloc c ∧ Consumes r.bytes c r'.bytes ∧ r'.ending = r.ending ∧
        readCommand maxAlloc ⟨render c ++ r'.bytes,r'.ending⟩ = (.ok c,r')) ∧
    ∀ c, (∃ r r', readCommand maxAlloc r = (.ok c,r')) ↔ WellFormed maxAlloc c := by
  constructor
  · intro r c r' read
    obtain ⟨ok,taken,same⟩ := readCommand_wellFormed read
    exact ⟨ok, taken, same, render_read ok r'.bytes r'.ending⟩
  · intro c
    constructor
    · rintro ⟨r,r',read⟩
      exact (readCommand_wellFormed read).1
    · intro ok
      exact ⟨_, _, render_read ok [] .eof⟩

theorem loose_gets_canonical :
    let loose := ascii ['G','e','T','s','\t','k',' ',' ','j','\r','\n','x']
    let command : Command := { op := .gets, keys := [ascii ['k'], ascii ['j']] }
    readCommand 0 ⟨loose,.fault⟩ = (.ok command,⟨ascii ['x'],.fault⟩) ∧
      render command = ascii ['g','e','t','s',' ','k',' ','j','\r','\n'] ∧
      readCommand 0 ⟨render command ++ ascii ['x'],.fault⟩ =
        (.ok command,⟨ascii ['x'],.fault⟩) := by
  intro loose command
  have read : readCommand 0 ⟨loose,.fault⟩ = (.ok command,⟨ascii ['x'],.fault⟩) := by decide
  exact ⟨read, by decide, ((parser_image_canonical 0).1 _ _ _ read).2.2.2⟩

/-- The commands with one key and no TTL, apart from cas. -/
inductive Carries (key : Text) : Command → Prop where
  | get : Carries key { op := .get, key := key }
  | delete : Carries key { op := .delete, key := key }
  | incr (delta : UInt64) : Carries key { op := .incr, key := key, delta := delta }
  | set (value : Text) : Carries key { op := .set, key := key, value := value }

theorem formed_key (formed : Formed c) (carries : Carries word c) : Tokenized word := by
  cases carries with
  | get => cases formed with | get word => exact word
  | delete => cases formed with | delete word => exact word
  | incr delta => cases formed with | incr word _ => exact word
  | set value => cases formed with | set word _ _ => exact word

theorem carries_formed (carries : Carries word c) (tokenized : Tokenized word) : Formed c := by
  cases carries with
  | get => exact .get tokenized
  | delete => exact .delete tokenized
  | incr delta => exact .incr tokenized delta
  | set value => exact .set tokenized 0 value

theorem carries_spaced (carries : Carries word c)
    (room : valued c.op = true → c.value.length + 2 < 2 ^ 63) :
    spaced (arguments c c.value.length) ≤ word.length + 22 := by
  cases carries with
  | get => simp [arguments, spaced]
  | delete => simp [arguments, spaced]
  | incr delta =>
    have digits : (formatUint delta).length ≤ 20 :=
      formatNat_length (Nat.lt_trans delta.toNat_lt (by decide)) (by decide)
    simp only [arguments, spaced, List.map_cons, List.map_nil, List.sum_cons, List.sum_nil]
    omega
  | set value =>
    have int : value.length + 2 < 2 ^ 63 := room rfl
    have digits : (formatNat value.length).length ≤ 20 := formatNat_length (by omega) (by decide)
    simp only [arguments, spaced, if_true, List.map_cons, List.map_nil, List.sum_cons, List.sum_nil]
    omega

/-- A line with one key is short, whatever its numbers are. -/
theorem carries_short (carries : Carries word c) (short : word.length ≤ 250)
    (room : valued c.op = true → c.value.length + 2 < 2 ^ 63) :
    (canonicalLine c).length + 2 ≤ 4096 := by
  have verb : (ascii c.op.name).length ≤ 6 := by cases c.op <;> decide
  have args := carries_spaced carries room
  have total := unwords_length (ascii c.op.name) (arguments c c.value.length)
  rw [canonicalLine]
  simp only [spaced, List.map_cons, List.sum_cons] at total args
  omega

theorem carries_read (runtime : maxAlloc < 2 ^ 63) (carries : Carries word c)
    (tokenized : Tokenized word) (room : valued c.op = true → c.value.length + 2 ≤ maxAlloc)
    (rest : Text) (ending : Ending) :
    readCommand maxAlloc ⟨render c ++ rest,ending⟩ = (.ok c,⟨rest,ending⟩) := by
  have int (takes : valued c.op = true) : c.value.length + 2 < 2 ^ 63 := by
    have := room takes
    omega
  refine render_read ⟨carries_formed carries tokenized, ?_, ?_⟩ rest ending
  · exact carries_short carries tokenized.short int
  · intro takes
    exact ⟨room takes, int takes⟩

/-- A key that the check accepts is read back from its line exactly if the tokenizer does
    not split it: the check lets white space beyond U+0020 pass. -/
theorem keys_kept_iff_unsplit (maxAlloc : Nat) (runtime : maxAlloc < 2 ^ 63) (key : Text)
    (valid : validKey key = true) (c : Command) (carries : Carries key c)
    (room : valued c.op = true → c.value.length + 2 ≤ maxAlloc) (rest : Text) (ending : Ending) :
    readCommand maxAlloc ⟨render c ++ rest,ending⟩ = (.ok c,⟨rest,ending⟩) ↔
      ∀ rune ∈ runes key, isSpace rune.code = false := by
  constructor
  · intro read
    have tokenized := formed_key (readCommand_wellFormed read).1.formed carries
    exact ((tokenized_iff key).mp tokenized).2
  · intro whole
    exact carries_read runtime carries ((tokenized_iff key).mpr ⟨valid,whole⟩) room rest ending

theorem plain_key_kept :
    let command : Command := { op := .incr, key := ascii ['n'], delta := 7 }
    validKey (ascii ['n']) = true ∧
      readCommand 0 ⟨render command ++ ascii ['x'],.eof⟩ = (.ok command,⟨ascii ['x'],.eof⟩) := by
  intro command
  refine ⟨by decide, ?_⟩
  have kept := keys_kept_iff_unsplit 0 (by decide) (ascii ['n']) (by decide) command (.incr 7)
    (fun takes => by cases takes) (ascii ['x']) .eof
  exact kept.mpr (by decide)

/-- A letter and a digit with a no-break space between them. -/
def brokenKey : Text := [0x61,0xC2,0xA0,0x35]

/-- The end of the key is read as a TTL. -/
theorem broken_key_split :
    validKey brokenKey = true ∧
      render { op := .set, key := brokenKey, value := ascii ['v'] } =
        ascii ['s','e','t',' '] ++ brokenKey ++ ascii [' ','1','\r','\n','v','\r','\n'] ∧
      readCommand (2 ^ 48) ⟨render { op := .set, key := brokenKey, value := ascii ['v'] },.eof⟩ =
        (.ok { op := .set, key := ascii ['a'], value := ascii ['v'], ttlSeconds := 5 },⟨[],.eof⟩) := by
  have text : render { op := .set, key := brokenKey, value := ascii ['v'] } =
      ascii ['s','e','t',' '] ++ brokenKey ++ ascii [' ','1','\r','\n','v','\r','\n'] := by
    change unwords [ascii ['s','e','t'], brokenKey, formatNat 1] ++ cr :: lf :: (ascii ['v'] ++ [cr,lf]) = _
    rw [formatNat_digit (by decide)]
    decide
  refine ⟨by decide, text, ?_⟩
  rw [text]
  decide

end ProtocolCanonical
