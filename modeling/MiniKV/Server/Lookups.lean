import MiniKV.Protocol.Canonical
import MiniKV.Server.Lines
import MiniKV.Server.Session

/- The lookups of many keys. An mget is the gets of its keys one after the other with one END
   behind them, a gets is the same with the version in each header, and a reader that goes
   by the announced lengths finds every value, whatever its bytes are. -/
namespace ServerLookups
open LruModel Decimal Utf8 Fields ShardModel StoreModel StoreFate ProtocolModel ProtocolEncoding
  ProtocolCanonical ServerModel ServerLines ServerResponses ServerSession

/-- The response to a get without its END. -/
def blocksOf (response : Text) : Text :=
  response.take (response.length - (writeLine (text "END")).length)

/-- A get for each key in turn, up to one that panics, with the blocks they write. -/
def getEach (env : Env) : List Text → Server → Execution
  | [], s => ⟨s,[],.ok⟩
  | key :: keys, s =>
    let first := s.execute env { op := .get, key := key }
    match first.status with
    | .ok =>
      let rest := getEach env keys first.server
      { rest with written := blocksOf first.written ++ rest.written }
    | _ => { first with written := blocksOf first.written }

/-- The items that the store gives for the keys. -/
def hits (env : Env) : List Text → Server → List (Text × Item)
  | [], _ => []
  | key :: keys, s =>
    match s.call env (.get key) with
    | some (s, .found none) => hits env keys s
    | some (s, .found (some item)) => (key,item) :: hits env keys s
    | _ => []

def blocks (line : Text → Item → Text) (found : List (Text × Item)) : Text :=
  found.flatMap fun hit => block (line hit.1 hit.2) hit.2.value

/-- The END of a response that is complete. -/
def ending : Status → Text
  | .ok => writeLine (text "END")
  | _ => []

/-- One item of a response, with its version if the header has one. -/
structure Hit where
  key : Text
  value : Text
  version : Option UInt64
  deriving DecidableEq, Repr

/-- The key, the length and the version of a header. -/
def readHeader (line : Text) : Option (Text × Nat × Option UInt64) :=
  match fields line with
  | [verb, key, size] =>
    if verb = text "VALUE" ∧ size.all isDigit then some (key,decimalValue size,none) else none
  | [verb, key, size, version] =>
    if verb = text "VALUE" ∧ size.all isDigit then
      (parseUint version).map fun version => (key,decimalValue size,some version)
    else none
  | _ => none

/-- That many bytes and a line end. -/
def readPayload (size : Nat) (bytes : Text) : Option (Text × Text) :=
  if bytes[size]? = some cr ∧ bytes[size + 1]? = some lf then
    some (bytes.take size,bytes.drop (size + 2))
  else none

/-- A header line, the bytes it announces, and so on until END; with what is left unread. -/
def readHits : Nat → Text → Option (List Hit × Text)
  | 0, _ => none
  | fuel + 1, bytes =>
    match readLine bytes with
    | none => none
    | some (line,rest) =>
      if line = text "END" then some ([],rest)
      else do
        let (key,size,version) ← readHeader line
        let (value,rest) ← readPayload size rest
        let (more,rest) ← readHits fuel rest
        some (⟨key,value,version⟩ :: more,rest)

def readResponse (bytes : Text) : Option (List Hit × Text) := readHits (bytes.length + 1) bytes

def plainHit (hit : Text × Item) : Hit := ⟨hit.1,hit.2.value,none⟩

def versionedHit (hit : Text × Item) : Hit := ⟨hit.1,hit.2.value,some hit.2.cas⟩

variable {env : Env} {s : Server} {key : Text} {keys : List Text} {found : List (Text × Item)}
  {line : Text → Item → Text}

theorem blocksOf_end (bytes : Text) : blocksOf (bytes ++ writeLine (text "END")) = bytes := by
  simp [blocksOf]

/-- A get has no item, has one, or panics, and the loops do alike with its key. -/
theorem get_cases (env : Env) (s : Server) (key : Text) :
    (∃ t, s.call env (.get key) = some (t,.found none)) ∨
    (∃ t item, s.call env (.get key) = some (t,.found (some item))) ∨
    ∀ keys line, s.values env line (key :: keys) = ⟨s,[],.panicked⟩ ∧
      getEach env (key :: keys) s = ⟨s,[],.panicked⟩ ∧ hits env (key :: keys) s = [] := by
  cases called : s.call env (.get key) with
  | none =>
    refine Or.inr (Or.inr fun keys line => ?_)
    simp [Server.values, getEach, hits, Server.execute, called, blocksOf]
  | some done =>
    obtain ⟨t,reply⟩ := done
    cases reply with
    | found item =>
      cases item with
      | none => exact Or.inl ⟨t,rfl⟩
      | some item => exact Or.inr (Or.inl ⟨t,item,rfl⟩)
    | _ =>
      refine Or.inr (Or.inr fun keys line => ?_)
      simp [Server.values, getEach, hits, Server.execute, called, blocksOf]

/-- The loop writes the blocks of the hits, and its lookups do not depend on the header. -/
theorem values_blocks (env : Env) (line : Text → Item → Text) (keys : List Text) (s : Server) :
    s.values env line keys =
      ⟨(getEach env keys s).server,
        blocks line (hits env keys s) ++ ending (getEach env keys s).status,
        (getEach env keys s).status⟩ := by
  induction keys generalizing s with
  | nil => rfl
  | cons key keys ih =>
    rcases get_cases env s key with ⟨t,called⟩ | ⟨t,item,called⟩ | panics
    · simp only [Server.values, getEach, hits, Server.execute, called, answer]
      rw [ih t]
    · simp only [Server.values, getEach, hits, Server.execute, called]
      rw [ih t]
      simp [blocks]
    · obtain ⟨loop,each,none⟩ := panics keys line
      rw [loop, each, none]
      rfl

theorem getEach_written (env : Env) (keys : List Text) (s : Server) :
    (getEach env keys s).written = blocks valueLine (hits env keys s) := by
  induction keys generalizing s with
  | nil => rfl
  | cons key keys ih =>
    have alone : blocksOf (writeLine (text "END")) = [] := blocksOf_end []
    rcases get_cases env s key with ⟨t,called⟩ | ⟨t,item,called⟩ | panics
    · simp only [getEach, hits, Server.execute, called, answer]
      rw [ih t, alone, List.nil_append]
    · simp only [getEach, hits, Server.execute, called]
      rw [ih t, blocksOf_end]
      rfl
    · obtain ⟨_,each,none⟩ := panics keys valueLine
      rw [each, none]
      rfl

theorem hits_keys (env : Env) (keys : List Text) (s : Server) :
    ∀ hit ∈ hits env keys s, hit.1 ∈ keys := by
  induction keys generalizing s with
  | nil => simp [hits]
  | cons key keys ih =>
    intro hit mem
    unfold hits at mem
    split at mem
    · exact List.mem_cons_of_mem _ (ih _ hit mem)
    · rcases List.mem_cons.mp mem with rfl | later
      · exact List.mem_cons_self
      · exact List.mem_cons_of_mem _ (ih _ hit later)
    · cases mem

/-- A header that is made of words and says what the hit is. -/
structure Announces (line : Text → Item → Text) (hit : Text × Item) (read : Hit) : Prop where
  words : ∃ words, (∀ word ∈ words, IsWord word) ∧ line hit.1 hit.2 = unwords words
  header : readHeader (line hit.1 hit.2) = some (read.key,hit.2.value.length,read.version)
  value : read.value = hit.2.value

theorem plain_announces {hit : Text × Item} (isWord : IsWord hit.1) :
    Announces valueLine hit (plainHit hit) := by
  have areWords := header_areWords isWord hit.2.value.length
  refine ⟨⟨_, areWords, valueLine_unwords hit.1 hit.2⟩, ?_, rfl⟩
  rw [readHeader, valueLine_unwords, fields_unwords areWords]
  dsimp only
  rw [if_pos ⟨rfl,formatNat_digits _⟩, decimalValue_formatNat]
  rfl

theorem valueCasLine_unwords (key : Text) (item : Item) :
    valueCasLine key item =
      unwords [text "VALUE", key, formatNat item.value.length, formatUint item.cas] := by
  have blank : text " " = [0x20] := by decide
  simp [valueCasLine, valueLine_unwords, blank, unwords]

theorem versioned_announces {hit : Text × Item} (isWord : IsWord hit.1) :
    Announces valueCasLine hit (versionedHit hit) := by
  have areWords : ∀ word ∈ [text "VALUE", hit.1, formatNat hit.2.value.length,
      formatUint hit.2.cas], IsWord word := by
    simp [value_isWord, isWord, number_isWord, formatUint]
  refine ⟨⟨_, areWords, valueCasLine_unwords hit.1 hit.2⟩, ?_, rfl⟩
  rw [readHeader, valueCasLine_unwords, fields_unwords areWords]
  dsimp only
  rw [if_pos ⟨rfl,formatNat_digits _⟩, decimalValue_formatNat, parseUint_formatUint]
  rfl

theorem readPayload_framed (value rest : Text) :
    readPayload value.length (value ++ cr :: lf :: rest) = some (value,rest) := by
  have whole : value ++ cr :: lf :: rest = (value ++ [cr,lf]) ++ rest := by simp
  have size : (value ++ [cr,lf]).length = value.length + 2 := by simp
  rw [readPayload, if_pos ⟨by simp, by simp⟩, List.take_left, whole, List.drop_left' size]

/-- By induction on the hits: each block is taken by its length, so no byte of a value is
    read as a header. -/
theorem readHits_blocks (read : Text × Item → Hit) (fuel : Nat) (enough : found.length < fuel)
    (announced : ∀ hit ∈ found, Announces line hit (read hit)) (rest : Text) :
    readHits fuel (blocks line found ++ writeLine (text "END") ++ rest) =
      some (found.map read,rest) := by
  induction found generalizing fuel with
  | nil =>
    obtain ⟨fuel,rfl⟩ : ∃ n, fuel = n + 1 := ⟨fuel - 1, by simp at enough; omega⟩
    have bytes : blocks line [] ++ writeLine (text "END") ++ rest =
        text "END" ++ cr :: lf :: rest := by simp [blocks, writeLine]
    rw [bytes, readHits, readLine_line (by decide)]
    dsimp only
    rw [if_pos rfl]
    rfl
  | cons hit later ih =>
    obtain ⟨fuel,rfl⟩ : ∃ n, fuel = n + 1 := ⟨fuel - 1, by simp at enough; omega⟩
    have own := announced hit (by simp)
    obtain ⟨words,areWords,spelled⟩ := own.words
    have plain : lf ∉ line hit.1 hit.2 := by
      rw [spelled]
      exact unwords_no_lf areWords
    have other : line hit.1 hit.2 ≠ text "END" := by
      intro same
      have header := own.header
      rw [same] at header
      cases header
    have bytes : blocks line (hit :: later) ++ writeLine (text "END") ++ rest =
        line hit.1 hit.2 ++ cr :: lf :: (hit.2.value ++ cr :: lf ::
          (blocks line later ++ writeLine (text "END") ++ rest)) := by
      simp [blocks, block, writeLine]
    have behind := ih fuel (by simpa using enough) fun h mem => announced h (by simp [mem])
    rw [bytes, readHits, readLine_line plain]
    dsimp only
    rw [if_neg other, own.header]
    dsimp only [bind, Option.bind]
    rw [readPayload_framed]
    dsimp only
    rw [behind, ← own.value]
    rfl

theorem blocks_length (line : Text → Item → Text) (found : List (Text × Item)) :
    found.length ≤ (blocks line found).length := by
  induction found with
  | nil => exact Nat.le_refl _
  | cons hit later ih =>
    have split : blocks line (hit :: later) =
        block (line hit.1 hit.2) hit.2.value ++ blocks line later := rfl
    rw [split, List.length_append, List.length_cons]
    simp only [block, writeLine, List.length_append, List.length_cons, List.length_nil]
    omega

theorem readResponse_blocks (read : Text × Item → Hit)
    (announced : ∀ hit ∈ found, Announces line hit (read hit)) (rest : Text) :
    readResponse (blocks line found ++ writeLine (text "END") ++ rest) =
      some (found.map read,rest) := by
  refine readHits_blocks read _ ?_ announced rest
  have long := blocks_length line found
  simp only [List.length_append]
  omega

/-- The gets return on every store whose keys find a shard. -/
theorem getEach_status (reached : Reachable s) (env : Env) (keys : List Text) :
    (getEach env keys s).status = .ok ↔ s.store.shards.length % 2 ^ 32 ≠ 0 ∨ keys = [] := by
  obtain ⟨config,steps,run⟩ := reached
  have same : (getEach env keys s).status = (s.values env valueLine keys).status := by
    rw [values_blocks]
  rw [same]
  constructor
  · intro answered
    by_contra neither
    rw [not_or, not_not] at neither
    cases keys with
    | nil => exact neither.2 rfl
    | cons key more =>
      rw [values_panic _ key more rfl neither.1] at answered
      cases answered
  · intro routed
    exact (values_answers valueLine keys ⟨run_sound run,rfl⟩ routed).1.status

/-- The lookups of keys that the parser accepts: mget and gets against get. -/
theorem lookups_fold_get (env : Env) (s : Server) (keys : List Text)
    (words : ∀ key ∈ keys, Tokenized key) :
    (getEach env keys s).written = blocks valueLine (hits env keys s) ∧
    s.execute env { op := .mget, keys := keys } =
      { getEach env keys s with
        written := (getEach env keys s).written ++ ending (getEach env keys s).status } ∧
    s.execute env { op := .gets, keys := keys } =
      { getEach env keys s with
        written := blocks valueCasLine (hits env keys s) ++ ending (getEach env keys s).status } ∧
    ((getEach env keys s).status = .ok → ∀ rest,
      readResponse ((s.execute env { op := .mget, keys := keys }).written ++ rest) =
          some ((hits env keys s).map plainHit,rest) ∧
        readResponse ((s.execute env { op := .gets, keys := keys }).written ++ rest) =
          some ((hits env keys s).map versionedHit,rest)) ∧
    (Reachable s → ((getEach env keys s).status = .ok ↔
      s.store.shards.length % 2 ^ 32 ≠ 0 ∨ keys = [])) := by
  have written := getEach_written env keys s
  have isWord : ∀ hit ∈ hits env keys s, IsWord hit.1 := by
    intro hit mem
    exact tokenized_isWord (words hit.1 (hits_keys env keys s hit mem))
  have mget : s.execute env { op := .mget, keys := keys } = s.values env valueLine keys := rfl
  have gets : s.execute env { op := .gets, keys := keys } = s.values env valueCasLine keys := rfl
  rw [mget, gets, values_blocks, values_blocks, written]
  refine ⟨rfl, rfl, rfl, ?_, fun reached => getEach_status reached env keys⟩
  intro answered rest
  dsimp only
  rw [answered]
  exact ⟨readResponse_blocks plainHit (fun hit mem => plain_announces (isWord hit mem)) rest,
    readResponse_blocks versionedHit (fun hit mem => versioned_announces (isWord hit mem)) rest⟩

/-- A value that looks like the end of a response. -/
def endValue : Text := ascii ['E','N','D','\r','\n']

def heldServer : Server :=
  ((freshServer .default []).execute stillEnv
    { op := .set, key := ascii ['k'], value := endValue }).server

theorem repeated_mget_read :
    hits stillEnv [ascii ['k'], ascii ['j'], ascii ['k']] heldServer =
        [(ascii ['k'],⟨endValue,1⟩), (ascii ['k'],⟨endValue,1⟩)] ∧
      readResponse ((heldServer.execute stillEnv
          { op := .mget, keys := [ascii ['k'], ascii ['j'], ascii ['k']] }).written ++ []) =
        some ([⟨ascii ['k'],endValue,none⟩, ⟨ascii ['k'],endValue,none⟩],[]) := by
  have found : hits stillEnv [ascii ['k'], ascii ['j'], ascii ['k']] heldServer =
      [(ascii ['k'],⟨endValue,1⟩), (ascii ['k'],⟨endValue,1⟩)] := by decide
  have words : ∀ key ∈ [ascii ['k'], ascii ['j'], ascii ['k']], Tokenized key := by
    intro key mem
    simp only [List.mem_cons, List.not_mem_nil, or_false] at mem
    rcases mem with rfl | rfl | rfl <;> exact (tokenized_iff _).mpr (by decide)
  obtain ⟨_,_,_,read,_⟩ := lookups_fold_get stillEnv heldServer _ words
  have back := (read (by decide) []).1
  rw [found] at back
  exact ⟨found, back⟩

end ServerLookups
