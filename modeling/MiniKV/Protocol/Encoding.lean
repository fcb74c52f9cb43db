import MiniKV.Protocol.Parser

/- The wire encoding that the protocol documents, and that ReadCommand undoes it with
   exact framing: whatever follows a command stays unread. -/
namespace ProtocolEncoding
open MachineWord Decimal Utf8 Fields ProtocolModel

/-- A key or token that the tokenizer keeps in one piece. -/
structure Word where
  text : Text
  valid : validKey text = true
  whole : ∀ rune ∈ runes text, isSpace rune.code = false

/-- The ten commands. A set or cas without a TTL is in its short form. -/
inductive Message where
  | ping
  | stats
  | auth (token : Word)
  | get (key : Word)
  | delete (key : Word)
  | incr (key : Word) (delta : UInt64)
  | mget (first : Word) (more : List Word)
  | gets (first : Word) (more : List Word)
  | set (key : Word) (ttlSeconds : Option UInt64) (value : Text)
  | cas (key : Word) (ttlSeconds : Option UInt64) (version : UInt64) (value : Text)

def Message.op : Message → Op
  | .ping => .ping
  | .stats => .stats
  | .auth _ => .auth
  | .get _ => .get
  | .delete _ => .delete
  | .incr _ _ => .incr
  | .mget _ _ => .mget
  | .gets _ _ => .gets
  | .set _ _ _ => .set
  | .cas _ _ _ _ => .cas

def Message.command : Message → Command
  | .ping => { op := .ping }
  | .stats => { op := .stats }
  | .auth token => { op := .auth, token := token.text }
  | .get key => { op := .get, key := key.text }
  | .delete key => { op := .delete, key := key.text }
  | .incr key delta => { op := .incr, key := key.text, delta := delta }
  | .mget first more => { op := .mget, keys := (first :: more).map Word.text }
  | .gets first more => { op := .gets, keys := (first :: more).map Word.text }
  | .set key ttl value =>
    { op := .set, key := key.text, value := value, ttlSeconds := ttl.getD 0 }
  | .cas key ttl version value =>
    { op := .cas, key := key.text, value := value, ttlSeconds := ttl.getD 0, cas := version }

def Message.args : Message → List Text
  | .ping => []
  | .stats => []
  | .auth token => [token.text]
  | .get key => [key.text]
  | .delete key => [key.text]
  | .incr key delta => [key.text, formatUint delta]
  | .mget first more => (first :: more).map Word.text
  | .gets first more => (first :: more).map Word.text
  | .set key none value => [key.text, formatNat value.length]
  | .set key (some ttl) value => [key.text, formatUint ttl, formatNat value.length]
  | .cas key none version value => [key.text, formatUint version, formatNat value.length]
  | .cas key (some ttl) version value =>
    [key.text, formatUint ttl, formatUint version, formatNat value.length]

def Message.payload : Message → Option Text
  | .set _ _ value => some value
  | .cas _ _ _ value => some value
  | _ => none

def asciiLower (b : UInt8) : UInt8 :=
  if 0x41 ≤ b.toNat ∧ b.toNat ≤ 0x5A then UInt8.ofNat (b.toNat + 0x20) else b

/-- A message with its verb in some casing, on a line that the buffer holds. -/
structure Encoded where
  message : Message
  verb : Text
  spelled : verb.map asciiLower = ascii message.op.name
  short : (unwords (verb :: message.args)).length + 2 ≤ bufferSize

def Encoded.line (e : Encoded) : Text := unwords (e.verb :: e.message.args)

def Encoded.bytes (e : Encoded) : Text :=
  e.line ++ cr :: lf :: (match e.message.payload with
    | none => []
    | some value => value ++ [cr,lf])

def Encoded.Allocates (maxAlloc : Nat) (e : Encoded) : Prop :=
  ∀ value, e.message.payload = some value → value.length + 2 ≤ maxAlloc

def readAll (maxAlloc : Nat) : Nat → Reader → List Command × Option Failure
  | 0, _ => ([], none)
  | fuel + 1, r =>
    match readCommand maxAlloc r with
    | (.error failure, _) => ([], some failure)
    | (.ok command, r) =>
      let later := readAll maxAlloc fuel r
      (command :: later.1, later.2)

variable {maxAlloc n : Nat} {body rest value : Text} {ending : Ending} {word : Text} {op : Op}

theorem isWord_ascii (nonempty : word ≠ [])
    (plain : ∀ b ∈ word, b.toNat < 0x80 ∧ isSpace b.toNat = false) : IsWord word := by
  refine ⟨nonempty, ?_⟩
  rw [runes_all_ascii fun b mem => (plain b mem).1]
  intro rune mem
  obtain ⟨b,mb,rfl⟩ := List.mem_map.mp mem
  exact (plain b mb).2

theorem word_isWord (key : Word) : IsWord key.text := by
  refine ⟨?_, key.whole⟩
  intro empty
  have valid := key.valid
  rw [empty] at valid
  cases valid

theorem isDigit_range {b : UInt8} (digit : isDigit b = true) :
    48 ≤ b.toNat ∧ b.toNat ≤ 57 := by
  simpa [isDigit] using digit

theorem plain_of_visible {b : UInt8} (low : 0x20 < b.toNat) (high : b.toNat < 0x80) :
    isSpace b.toNat = false := by
  simp only [isSpace, Bool.or_eq_false_iff, Bool.and_eq_false_iff, decide_eq_false_iff_not,
    beq_eq_false_iff_ne]
  omega

theorem number_isWord (n : Nat) : IsWord (formatNat n) := by
  refine isWord_ascii (formatNat_nonempty n) ?_
  intro b mem
  have range := isDigit_range (List.all_eq_true.mp (formatNat_digits n) b mem)
  exact ⟨by omega, plain_of_visible (by omega) (by omega)⟩

theorem word_no_lf (isWord : IsWord word) : lf ∉ word := by
  intro mem
  have space := isWord.2 _ (mem_runes_ascii (by decide) mem)
  cases space

theorem name_letters (op : Op) : ∀ b ∈ ascii op.name, 97 ≤ b.toNat ∧ b.toNat ≤ 122 := by
  have all : ((ascii op.name).all fun b => decide (97 ≤ b.toNat ∧ b.toNat ≤ 122)) = true := by
    cases op <;> rfl
  intro b mem
  exact of_decide_eq_true (List.all_eq_true.mp all b mem)

theorem verb_letters (spelled : word.map asciiLower = ascii op.name) :
    ∀ b ∈ word, 0x20 < b.toNat ∧ b.toNat < 0x80 := by
  intro b mem
  have lowered : asciiLower b ∈ ascii op.name := spelled ▸ List.mem_map_of_mem mem
  have range := name_letters op _ lowered
  unfold asciiLower at range
  split at range
  · omega
  · omega

theorem verb_isWord (spelled : word.map asciiLower = ascii op.name) : IsWord word := by
  refine isWord_ascii ?_ ?_
  · rintro rfl
    cases op <;> cases spelled
  · intro b mem
    obtain ⟨low,high⟩ := verb_letters spelled b mem
    exact ⟨high, plain_of_visible low high⟩

theorem lowerCode_ascii {b : UInt8} (high : b.toNat < 0x80) :
    lowerCode b.toNat = (asciiLower b).toNat := by
  unfold lowerCode asciiLower
  by_cases upper : 0x41 ≤ b.toNat ∧ b.toNat ≤ 0x5A
  · rw [if_pos upper, if_pos upper, UInt8.toNat_ofNat']
    omega
  · rw [if_neg upper, if_neg upper, if_neg (by omega), if_neg (by omega)]

theorem name_codes (op : Op) : (ascii op.name).map UInt8.toNat = op.name.map Char.toNat := by
  cases op <;> rfl

/-- The switch does not see the casing of a verb. -/
theorem lower_verb (spelled : word.map asciiLower = ascii op.name) :
    lower word = op.name.map Char.toNat := by
  rw [lower_ascii fun b mem => (verb_letters spelled b mem).2, ← name_codes, ← spelled,
    List.map_map]
  apply List.map_congr_left
  intro b mem
  exact lowerCode_ascii (verb_letters spelled b mem).2

theorem args_areWords (m : Message) : ∀ arg ∈ m.args, IsWord arg := by
  have keys (first : Word) (more : List Word) : ∀ arg ∈ (first :: more).map Word.text, IsWord arg := by
    intro arg mem
    obtain ⟨key,_,rfl⟩ := List.mem_map.mp mem
    exact word_isWord key
  cases m with
  | ping => simp [Message.args]
  | stats => simp [Message.args]
  | auth token => simp [Message.args, word_isWord]
  | get key => simp [Message.args, word_isWord]
  | delete key => simp [Message.args, word_isWord]
  | incr key delta => simp [Message.args, word_isWord, formatUint, number_isWord]
  | mget first more => exact keys first more
  | gets first more => exact keys first more
  | set key ttl value =>
    cases ttl <;> simp [Message.args, word_isWord, formatUint, number_isWord]
  | cas key ttl version value =>
    cases ttl <;> simp [Message.args, word_isWord, formatUint, number_isWord]

theorem line_areWords (e : Encoded) : ∀ word ∈ e.verb :: e.message.args, IsWord word := by
  intro word mem
  rcases List.mem_cons.mp mem with rfl | arg
  · exact verb_isWord e.spelled
  · exact args_areWords e.message word arg

theorem line_fields (e : Encoded) : fields e.line = e.verb :: e.message.args :=
  fields_unwords (line_areWords e)

theorem unwords_no_lf {words : List Text} (areWords : ∀ word ∈ words, IsWord word) :
    lf ∉ unwords words := by
  intro mem
  rcases mem_unwords mem with blank | ⟨word,member,held⟩
  · cases blank
  · exact word_no_lf (areWords word member) held

theorem line_no_lf (e : Encoded) : lf ∉ e.line := unwords_no_lf (line_areWords e)

/-- The first line feed of a line stands behind its carriage return. -/
theorem findIdx_line (plain : lf ∉ body) (rest : Text) :
    (body ++ cr :: lf :: rest).findIdx? (fun b => b == lf) = some (body.length + 1) := by
  have before : (body ++ [cr]).findIdx? (fun b => b == lf) = none := by
    rw [List.findIdx?_eq_none_iff]
    intro b mem
    rcases List.mem_append.mp mem with own | last
    · refine beq_eq_false_iff_ne.mpr ?_
      rintro rfl
      exact plain own
    · obtain rfl := List.mem_singleton.mp last
      rfl
  have split : body ++ cr :: lf :: rest = (body ++ [cr]) ++ lf :: rest := by simp
  rw [split, List.findIdx?_append, before]
  simp [List.findIdx?_cons]

theorem readLineSlice_line (plain : lf ∉ body) (short : body.length + 2 ≤ bufferSize) :
    readLineSlice ⟨body ++ cr :: lf :: rest,ending⟩ =
      (.ok (body ++ [cr,lf]), ⟨rest,ending⟩) := by
  have window : (body ++ cr :: lf :: rest).take bufferSize =
      body ++ cr :: lf :: rest.take (bufferSize - (body.length + 2)) := by
    obtain ⟨more,size⟩ := Nat.exists_eq_add_of_le short
    rw [size, List.take_append, List.take_of_length_le (by omega)]
    have inside : body.length + 2 + more - body.length = more + 2 := by omega
    have left : body.length + 2 + more - (body.length + 2) = more := by omega
    rw [inside, left, List.take_succ_cons, List.take_succ_cons]
  have found : ((body ++ cr :: lf :: rest).take bufferSize).findIdx? (fun b => b == lf) =
      some (body.length + 1) := by
    rw [window]
    exact findIdx_line plain _
  have split : body ++ cr :: lf :: rest = (body ++ [cr,lf]) ++ rest := by simp
  have size : (body ++ [cr,lf]).length = body.length + 1 + 1 := by simp
  rw [readLineSlice, found]
  dsimp only [Reader.skip]
  rw [split, List.take_left' size, List.drop_left' size]

theorem commandLine_ended (body : Text) : commandLine (body ++ [cr,lf]) = .ok body := by
  have size : (body ++ [cr,lf]).length = body.length + 2 := by simp
  have last : (body ++ [cr,lf])[body.length]? = some cr := by simp
  unfold commandLine
  rw [size, if_neg (by omega), Nat.add_sub_cancel, last]
  dsimp only
  rw [if_neg (by simp), List.take_left]

/-- The value is taken by its length, whatever its bytes are. -/
theorem readValue_framed (room : value.length + 2 ≤ maxAlloc) (int : value.length + 2 < 2 ^ 63) :
    readValue maxAlloc value.length ⟨value ++ cr :: lf :: rest,ending⟩ =
      (.ok value, ⟨rest,ending⟩) := by
  have split : value ++ cr :: lf :: rest = (value ++ [cr,lf]) ++ rest := by simp
  have size : (value ++ [cr,lf]).length = value.length + 2 := by simp
  rw [readValue_allocated int room]
  dsimp only [Reader.skip]
  rw [if_pos (by simp), if_pos ⟨by simp, by simp⟩, List.take_left, split, List.drop_left' size]

theorem parseUintToken_formatUint (n : UInt64) (name : String) :
    parseUintToken (formatUint n) name = .ok n := by
  have digits := List.all_eq_true.mp (formatNat_digits n.toNat)
  have low : ∀ b ∈ formatUint n, b.toNat < 0x80 := by
    intro b mem
    have range := isDigit_range (digits b mem)
    omega
  have all : ((runes (formatUint n)).all fun rune =>
      decide (0x30 ≤ rune.code) && decide (rune.code ≤ 0x39)) = true := by
    rw [runes_all_ascii low, List.all_map]
    exact List.all_eq_true.mpr digits
  have nonempty : formatUint n ≠ [] := formatNat_nonempty n.toNat
  rw [parseUintToken, if_neg nonempty, if_pos all, parseUint_formatUint]

theorem parseByteCount_formatNat (int : n < 2 ^ 63) : parseByteCount (formatNat n) = .ok n := by
  have same : (UInt64.ofNat n).toNat = n := by
    rw [UInt64.toNat_ofNat']
    omega
  have token := parseUintToken_formatUint (UInt64.ofNat n) "byte count"
  rw [formatUint, same] at token
  rw [parseByteCount, token]
  dsimp only
  rw [same, if_neg (by omega)]

theorem keysFromFields_words (first : Word) (more : List Word) :
    keysFromFields ((first :: more).map Word.text) = .ok ((first :: more).map Word.text) := by
  have all : ((first :: more).map Word.text).all validKey = true := by
    rw [List.all_map, List.all_eq_true]
    intro key _
    exact key.valid
  rw [keysFromFields, if_neg (by simp), if_pos all]

def parseArgs : Op → List Text → Except String Request
  | .get => parseGet
  | .set => parseSet
  | .delete => parseDelete
  | .incr => parseIncr
  | .ping => parsePing
  | .auth => parseAuth
  | .mget => parseMget
  | .gets => parseGets
  | .cas => parseCas
  | .stats => parseStats

theorem parseFields_spelled (spelled : word.map asciiLower = ascii op.name) (args : List Text) :
    parseFields (word :: args) = parseArgs op args := by
  rw [parseFields, lower_verb spelled]
  cases op <;> rfl

theorem oneWord_valid (usage : String) (command : Text → Command) {valid : Text → Bool}
    (accepted : valid word = true) :
    oneWord usage valid command [word] = .ok (command word, none) := if_pos accepted

theorem manyKeys_words (command : List Text → Command) (first : Word) (more : List Word) :
    manyKeys command ((first :: more).map Word.text) =
      .ok (command ((first :: more).map Word.text), none) := by
  rw [manyKeys, keysFromFields_words]
  rfl

def Message.request (m : Message) : Request :=
  ({ m.command with value := [] }, m.payload.map List.length)

theorem parseArgs_message (m : Message)
    (int : ∀ value, m.payload = some value → value.length < 2 ^ 63) :
    parseArgs m.op m.args = .ok m.request := by
  cases m with
  | ping => rfl
  | stats => rfl
  | auth token =>
    have accepted : validToken token.text = true := token.valid
    exact oneWord_valid _ (fun word => { op := .auth, token := word }) accepted
  | get key => exact oneWord_valid _ (fun word => { op := .get, key := word }) key.valid
  | delete key => exact oneWord_valid _ (fun word => { op := .delete, key := word }) key.valid
  | incr key delta =>
    dsimp only [Message.op, Message.args, parseArgs, parseIncr]
    rw [if_pos key.valid, parseUintToken_formatUint]
    rfl
  | mget first more => exact manyKeys_words _ first more
  | gets first more => exact manyKeys_words _ first more
  | set key ttl value =>
    have count := parseByteCount_formatNat (int value rfl)
    cases ttl with
    | none =>
      dsimp only [Message.op, Message.args, parseArgs, parseSet]
      rw [if_pos key.valid, count]
      rfl
    | some ttl =>
      dsimp only [Message.op, Message.args, parseArgs, parseSet]
      rw [if_pos key.valid, parseUintToken_formatUint, count]
      rfl
  | cas key ttl version value =>
    have count := parseByteCount_formatNat (int value rfl)
    cases ttl with
    | none =>
      dsimp only [Message.op, Message.args, parseArgs, parseCas]
      rw [if_pos key.valid, parseUintToken_formatUint, count]
      rfl
    | some ttl =>
      dsimp only [Message.op, Message.args, parseArgs, parseCas]
      rw [if_pos key.valid, parseUintToken_formatUint, parseUintToken_formatUint, count]
      rfl

theorem command_without_value {m : Message} (alone : m.payload = none) :
    { m.command with value := [] } = m.command := by
  cases m with
  | set key ttl held => cases alone
  | cas key ttl version held => cases alone
  | _ => rfl

theorem command_with_value {m : Message} (carried : m.payload = some value) :
    { m.command with value := value } = m.command := by
  cases m with
  | set key ttl held =>
    obtain rfl := Option.some.inj carried
    rfl
  | cas key ttl version held =>
    obtain rfl := Option.some.inj carried
    rfl
  | _ => cases carried

theorem readRequest_line (e : Encoded)
    (int : ∀ value, e.message.payload = some value → value.length < 2 ^ 63) :
    readRequest ⟨e.line ++ cr :: lf :: rest,ending⟩ = (.ok e.message.request, ⟨rest,ending⟩) := by
  have parsed : parseFields (fields e.line) = .ok e.message.request := by
    rw [line_fields, parseFields_spelled e.spelled, parseArgs_message e.message int]
  rw [readRequest, readLineSlice_line (line_no_lf e) e.short]
  dsimp only
  rw [commandLine_ended]
  dsimp only
  rw [parsed]

/-- One command is read back, and nothing behind it is touched. -/
theorem readCommand_framed (e : Encoded) (room : e.Allocates maxAlloc)
    (within : e.Allocates (2 ^ 63 - 1)) (rest : Text) (ending : Ending) :
    readCommand maxAlloc ⟨e.bytes ++ rest,ending⟩ = (.ok e.message.command, ⟨rest,ending⟩) := by
  have int : ∀ value, e.message.payload = some value → value.length < 2 ^ 63 := by
    intro value carried
    have := within value carried
    omega
  unfold Encoded.bytes
  cases carried : e.message.payload with
  | none =>
    rw [List.append_assoc, List.cons_append, List.cons_append, List.nil_append, readCommand,
      readRequest_line e int]
    dsimp only [Message.request]
    rw [carried]
    dsimp only [Option.map]
    rw [command_without_value carried]
  | some value =>
    dsimp only
    rw [List.append_assoc, List.cons_append, List.cons_append, List.append_assoc, readCommand,
      readRequest_line e int]
    dsimp only [Message.request]
    rw [carried]
    dsimp only [Option.map]
    have short := within value carried
    rw [List.cons_append, List.cons_append, List.nil_append,
      readValue_framed (room value carried) (by omega)]
    dsimp only [Command.withValue]
    rw [command_with_value carried]

/-- The limit of the runtime for an allocation is an int. -/
theorem readCommand_encoded (runtime : maxAlloc < 2 ^ 63) (e : Encoded)
    (room : e.Allocates maxAlloc) (rest : Text) (ending : Ending) :
    readCommand maxAlloc ⟨e.bytes ++ rest,ending⟩ = (.ok e.message.command, ⟨rest,ending⟩) := by
  refine readCommand_framed e room ?_ rest ending
  intro value carried
  have := room value carried
  omega

theorem readAll_encoded (runtime : maxAlloc < 2 ^ 63) (es : List Encoded)
    (room : ∀ e ∈ es, e.Allocates maxAlloc) :
    readAll maxAlloc (es.length + 1) ⟨es.flatMap Encoded.bytes,.eof⟩ =
      (es.map fun e => e.message.command, some .eof) := by
  -- By induction on the commands: each one leaves exactly the later ones unread.
  induction es with
  | nil => rfl
  | cons e later ih =>
    have own := readCommand_encoded runtime e (room e (by simp)) (later.flatMap Encoded.bytes) .eof
    have rest := ih fun other mem => room other (by simp [mem])
    rw [List.flatMap_cons, List.length_cons, readAll, own]
    dsimp only
    rw [rest]
    rfl

/-- Parsing undoes the encoding with exact framing, for one command before any bytes and
    for any sequence of commands. -/
theorem parsing_undoes_encoding (maxAlloc : Nat) (runtime : maxAlloc < 2 ^ 63) :
    (∀ (e : Encoded) (rest : Text) (ending : Ending), e.Allocates maxAlloc →
      readCommand maxAlloc ⟨e.bytes ++ rest,ending⟩ = (.ok e.message.command, ⟨rest,ending⟩)) ∧
    ∀ es : List Encoded, (∀ e ∈ es, e.Allocates maxAlloc) →
      readAll maxAlloc (es.length + 1) ⟨es.flatMap Encoded.bytes,.eof⟩ =
        (es.map fun e => e.message.command, some .eof) := by
  constructor
  · intro e rest ending room
    exact readCommand_encoded runtime e room rest ending
  · intro es room
    exact readAll_encoded runtime es room

def someKey : Word := ⟨ascii ['k'], by decide, by decide⟩

/-- A value that looks like a command. -/
def trickyValue : Text := ascii ['\r','\n','g','e','t']

def trickySet : Encoded where
  message := .set someKey none trickyValue
  verb := ascii ['S','e','T']
  spelled := by decide
  short := by
    change (unwords [_,_,formatNat 5]).length + 2 ≤ bufferSize
    rw [formatNat_digit (by decide)]
    decide

def plainGet : Encoded where
  message := .get someKey
  verb := ascii ['g','e','t']
  spelled := by decide
  short := by decide

theorem tricky_value_read_back :
    trickySet.bytes = ascii ['S','e','T',' ','k',' ','5','\r','\n','\r','\n','g','e','t','\r','\n'] ∧
    readAll (2 ^ 48) 3 ⟨trickySet.bytes ++ plainGet.bytes,.eof⟩ =
      ([{ op := .set, key := ascii ['k'], value := trickyValue }, { op := .get, key := ascii ['k'] }],
        some .eof) := by
  constructor
  · change unwords [_,_,formatNat 5] ++ _ = _
    rw [formatNat_digit (by decide)]
    decide
  · have room : ∀ e ∈ [trickySet, plainGet], e.Allocates (2 ^ 48) := by
      intro e mem value carried
      rcases List.mem_cons.mp mem with rfl | mem
      · obtain rfl := Option.some.inj carried
        decide
      · obtain rfl := List.mem_singleton.mp mem
        cases carried
    have read := (parsing_undoes_encoding (2 ^ 48) (by decide)).2 [trickySet, plainGet] room
    rw [List.flatMap_cons, List.flatMap_cons, List.flatMap_nil, List.append_nil] at read
    exact read

end ProtocolEncoding
