import MiniKV.Protocol.Canonical
import MiniKV.Server.Lines

/- The benchmark's client of the server: the bytes it writes for a set and a get, and how it
   reads the responses. Its connection is a reader as the server's is; the deadline of a
   call shows as a stream that ends in a fault. -/
namespace BenchmarkModel
open MachineWord Decimal Utf8 Fields ProtocolModel ProtocolEncoding ServerModel ServerLines

/-- How a call fails, with the texts that its message quotes. -/
inductive ClientError where
  | eof
  | unexpectedEOF
  | fault
  /-- line does not end with CRLF -/
  | lineEnd (line : Text)
  /-- value does not end with CRLF -/
  | valueEnd
  /-- minikv set returned another line -/
  | setReturned (key line : Text)
  /-- unexpected minikv get header -/
  | header (line : Text)
  /-- invalid minikv value size -/
  | valueSize (token : Text)
  /-- unexpected minikv get terminator -/
  | terminator (line : Text)
  | panic
  deriving DecidableEq, Repr

def lineFailure : Ending → ClientError
  | .eof => .eof
  | .fault => .fault

/-- ReadFull passes on the end of the stream only if it has read nothing. -/
def fullFailure (r : Reader) : ClientError :=
  match r.ending with
  | .eof => if r.bytes = [] then .eof else .unexpectedEOF
  | .fault => .fault

def readCRLFLine (r : Reader) : Except ClientError Text × Reader :=
  match readString r.bytes with
  | none => (.error (lineFailure r.ending), r.skip r.bytes.length)
  | some (line,rest) =>
    if [cr,lf] <:+ line then (.ok (line.take (line.length - 2)), ⟨rest,r.ending⟩)
    else (.error (.lineEnd line), ⟨rest,r.ending⟩)

def readSizedValue (maxAlloc : Nat) (size : Nat) (r : Reader) : Except ClientError Text × Reader :=
  let length := int64.wrap (size + 2)
  if length < 0 ∨ maxAlloc < length then (.error .panic, r)
  else
    match readFull length.toNat r with
    | (none, rest) => (.error (fullFailure r), rest)
    | (some value, r) =>
      match value[size]? with
      | none => (.error .panic, r)
      | some first =>
        if first ≠ cr then (.error .valueEnd, r)
        else
          match value[size + 1]? with
          | none => (.error .panic, r)
          | some second =>
            if second ≠ lf then (.error .valueEnd, r) else (.ok (value.take size), r)

def setRequest (key value : Text) : Text :=
  text "set " ++ key ++ text " " ++ formatNat value.length ++ [cr,lf] ++ value ++ [cr,lf]

def getRequest (key : Text) : Text := text "get " ++ key ++ [cr,lf]

/-- What Set makes of the response. -/
def readMiniKVSet (r : Reader) (key : Text) : Except ClientError Unit × Reader :=
  match readCRLFLine r with
  | (.error err, r) => (.error err, r)
  | (.ok line, r) => if line ≠ text "STORED" then (.error (.setReturned key line), r) else (.ok (), r)

/-- None is a key that was not found. -/
def readMiniKVGet (maxAlloc : Nat) (r : Reader) (key : Text) :
    Except ClientError (Option Text) × Reader :=
  match readCRLFLine r with
  | (.error err, r) => (.error err, r)
  | (.ok line, r) =>
    if line = text "END" then (.ok none, r)
    else
      match fields line with
      | [verb, name, token] =>
        if verb ≠ text "VALUE" ∨ name ≠ key then (.error (.header line), r)
        else
          match atoi token with
          | .error _ => (.error (.valueSize token), r)
          | .ok size =>
            if size < 0 then (.error (.valueSize token), r)
            else
              match readSizedValue maxAlloc size.toNat r with
              | (.error err, r) => (.error err, r)
              | (.ok value, r) =>
                match readCRLFLine r with
                | (.error err, r) => (.error err, r)
                | (.ok last, r) =>
                  if last ≠ text "END" then (.error (.terminator last), r) else (.ok (some value), r)
      | _ => (.error (.header line), r)

variable {maxAlloc : Nat} {body rest value key : Text} {ending : Ending}

theorem readCRLFLine_line (plain : lf ∉ body) (rest : Text) (ending : Ending) :
    readCRLFLine ⟨body ++ cr :: lf :: rest,ending⟩ = (.ok body, ⟨rest,ending⟩) := by
  rw [readCRLFLine, readString_line plain]
  dsimp only
  rw [if_pos (List.suffix_append _ _), ended_trimmed]

theorem readSizedValue_framed (room : value.length + 2 ≤ maxAlloc)
    (int : value.length + 2 < 2 ^ 63) (rest : Text) (ending : Ending) :
    readSizedValue maxAlloc value.length ⟨value ++ cr :: lf :: rest,ending⟩ =
      (.ok value, ⟨rest,ending⟩) := by
  have exact : int64.wrap ((value.length : Int) + 2) = value.length + 2 :=
    int64_exact ⟨by omega, by omega⟩
  have fine : ¬ ((value.length : Int) + 2 < 0 ∨ (maxAlloc : Int) < value.length + 2) := by omega
  have length : ((value.length : Int) + 2).toNat = value.length + 2 := by omega
  have whole : value ++ cr :: lf :: rest = (value ++ [cr,lf]) ++ rest := by simp
  have size : (value ++ [cr,lf]).length = value.length + 2 := by simp
  have filled : readFull (value.length + 2) ⟨value ++ cr :: lf :: rest,ending⟩ =
      (some (value ++ [cr,lf]), ⟨rest,ending⟩) := by
    rw [readFull, if_pos (by simp)]
    dsimp only [Reader.skip]
    rw [whole, List.take_left' size, List.drop_left' size]
  have first : (value ++ [cr,lf])[value.length]? = some cr := by simp
  have second : (value ++ [cr,lf])[value.length + 1]? = some lf := by simp
  unfold readSizedValue
  rw [exact]
  dsimp only
  rw [if_neg fine, length, filled]
  dsimp only
  rw [first, second]
  dsimp only
  rw [if_neg (not_not.mpr rfl), if_neg (not_not.mpr rfl), List.take_left]

/-- The response to a get of a key that is found gives its value back. -/
theorem readMiniKVGet_found (isWord : IsWord key) (item : ShardModel.Item)
    (room : item.value.length + 2 ≤ maxAlloc) (int : item.value.length + 2 < 2 ^ 63)
    (rest : Text) (ending : Ending) :
    readMiniKVGet maxAlloc
        ⟨block (valueLine key item) item.value ++ writeLine (text "END") ++ rest,ending⟩ key =
      (.ok (some item.value), ⟨rest,ending⟩) := by
  have areWords := header_areWords isWord item.value.length
  have bytes : block (valueLine key item) item.value ++ writeLine (text "END") ++ rest =
      valueLine key item ++ cr :: lf ::
        (item.value ++ cr :: lf :: (text "END" ++ cr :: lf :: rest)) := by
    simp [block, writeLine]
  have plain : lf ∉ valueLine key item := by
    rw [valueLine_unwords]
    exact unwords_no_lf areWords
  have cut : fields (valueLine key item) = [text "VALUE", key, formatNat item.value.length] := by
    rw [valueLine_unwords, fields_unwords areWords]
  have other : valueLine key item ≠ text "END" := by
    intro same
    rw [same] at cut
    cases (List.cons.inj cut).2
  have ended : lf ∉ text "END" := by decide
  rw [bytes, readMiniKVGet, readCRLFLine_line plain]
  dsimp only
  rw [if_neg other, cut]
  dsimp only
  rw [if_neg (by simp), atoi_formatNat (by omega)]
  dsimp only
  rw [if_neg (by omega), Int.toNat_natCast, readSizedValue_framed room int]
  dsimp only
  rw [readCRLFLine_line ended]
  dsimp only
  rw [if_neg (not_not.mpr rfl)]

theorem readMiniKVGet_missing (maxAlloc : Nat) (key rest : Text) (ending : Ending) :
    readMiniKVGet maxAlloc ⟨writeLine (text "END") ++ rest,ending⟩ key =
      (.ok none, ⟨rest,ending⟩) := by
  have ended : lf ∉ text "END" := by decide
  have bytes : writeLine (text "END") ++ rest = text "END" ++ cr :: lf :: rest := by
    simp [writeLine]
  rw [bytes, readMiniKVGet, readCRLFLine_line ended]
  dsimp only
  rw [if_pos rfl]

theorem readMiniKVSet_stored (key rest : Text) (ending : Ending) :
    readMiniKVSet ⟨writeLine (text "STORED") ++ rest,ending⟩ key = (.ok (), ⟨rest,ending⟩) := by
  have plain : lf ∉ text "STORED" := by decide
  have bytes : writeLine (text "STORED") ++ rest = text "STORED" ++ cr :: lf :: rest := by
    simp [writeLine]
  rw [bytes, readMiniKVSet, readCRLFLine_line plain]
  dsimp only
  rw [if_neg (not_not.mpr rfl)]

end BenchmarkModel
