import MiniKV.Protocol.Encoding

/- What ReadCommand takes from the stream. A command that has been read was decided by
   its own bytes: more bytes behind it change nothing, and every command takes some. -/
namespace ProtocolFraming
open Utf8 Fields ProtocolModel ProtocolEncoding

variable {maxAlloc size : Nat} {p q rest line value : Text} {ending : Ending} {r r' : Reader}
  {request : Request} {c : Command} {cs : List Command}

theorem readLineSlice_ok (read : readLineSlice r = (.ok line,r')) :
    ∃ i, (r.bytes.take bufferSize).findIdx? (fun b => b == lf) = some i ∧
      line = r.bytes.take (i + 1) ∧ r' = r.skip (i + 1) := by
  unfold readLineSlice at read
  split at read
  · rename_i i found
    obtain ⟨same,rfl⟩ := Prod.mk.inj read
    exact ⟨i,found,(Except.ok.inj same).symm,rfl⟩
  · split at read <;> cases read

theorem readLineSlice_append (read : readLineSlice ⟨p,ending⟩ = (.ok line,⟨q,ending⟩))
    (rest : Text) (other : Ending) :
    readLineSlice ⟨p ++ rest,other⟩ = (.ok line,⟨q ++ rest,other⟩) := by
  obtain ⟨i,found,rfl,skipped⟩ := readLineSlice_ok read
  have left : q = p.drop (i + 1) := congrArg Reader.bytes skipped
  have inside : i < p.length := by
    obtain ⟨below,_⟩ := List.findIdx?_eq_some_iff_getElem.mp found
    exact Nat.lt_of_lt_of_le below (List.length_take_le' _ _)
  have again : ((p ++ rest).take bufferSize).findIdx? (fun b => b == lf) = some i := by
    rw [List.take_append, List.findIdx?_append, found]
    rfl
  rw [readLineSlice, again]
  dsimp only [Reader.skip]
  rw [List.take_append_of_le_length (by omega), List.drop_append_of_le_length (by omega), left]

theorem readLineSlice_shorter (read : readLineSlice r = (.ok line,r')) :
    r'.bytes.length < r.bytes.length ∧ r'.ending = r.ending := by
  obtain ⟨i,found,_,rfl⟩ := readLineSlice_ok read
  obtain ⟨below,_⟩ := List.findIdx?_eq_some_iff_getElem.mp found
  rw [List.length_take] at below
  refine ⟨?_, rfl⟩
  simp only [Reader.skip, List.length_drop]
  omega

theorem readRequest_ok (read : readRequest r = (.ok request,r')) :
    ∃ bytes line, readLineSlice r = (.ok bytes,r') ∧ commandLine bytes = .ok line ∧
      parseFields (fields line) = .ok request := by
  unfold readRequest at read
  split at read
  · cases read
  · rename_i bytes next sliced
    split at read
    · cases read
    · rename_i line ended
      split at read
      · cases read
      · rename_i found parsed
        obtain ⟨same,rfl⟩ := Prod.mk.inj read
        obtain rfl := Except.ok.inj same
        exact ⟨bytes,line,sliced,ended,parsed⟩

theorem readRequest_append (read : readRequest ⟨p,ending⟩ = (.ok request,⟨q,ending⟩))
    (rest : Text) (other : Ending) :
    readRequest ⟨p ++ rest,other⟩ = (.ok request,⟨q ++ rest,other⟩) := by
  obtain ⟨bytes,line,sliced,ended,parsed⟩ := readRequest_ok read
  rw [readRequest, readLineSlice_append sliced rest other]
  dsimp only
  rw [ended]
  dsimp only
  rw [parsed]

theorem readFull_ok {n : Nat} (read : readFull n r = (some value,r')) :
    n ≤ r.bytes.length ∧ value = r.bytes.take n ∧ r' = r.skip n := by
  unfold readFull at read
  split at read
  · rename_i enough
    obtain ⟨same,rfl⟩ := Prod.mk.inj read
    exact ⟨enough,(Option.some.inj same).symm,rfl⟩
  · cases read

def valueOf (size : Nat) (bytes : Text) : Except Failure Text :=
  match bytes[size]?, bytes[size + 1]? with
  | none, _ => .error .panic
  | some first, second =>
    if first ≠ cr then .error (.protocol "value must end with CRLF")
    else
      match second with
      | none => .error .panic
      | some second =>
        if second ≠ lf then .error (.protocol "value must end with CRLF")
        else .ok (bytes.take size)

theorem readValue_filled {n : Nat} (length : MachineWord.int64.wrap (size + 2) = n)
    (room : n ≤ maxAlloc) (filled : readFull n r = (some filling,r')) :
    readValue maxAlloc size r = (valueOf size filling,r') := by
  unfold readValue
  rw [length]
  dsimp only
  rw [if_neg (by omega), Int.toNat_natCast, filled]
  dsimp only [valueOf]
  cases filling[size]? with
  | none => rfl
  | some first =>
    dsimp only
    split
    · rfl
    · cases filling[size + 1]? with
      | none => rfl
      | some second =>
        dsimp only
        split <;> rfl

/-- The three ways of reading a value: the allocation panics, the stream is short, or the
    buffer decides. -/
theorem readValue_cases (maxAlloc size : Nat) (r : Reader) :
    readValue maxAlloc size r = (.error .panic,r) ∨
      ∃ n : Nat, MachineWord.int64.wrap (size + 2) = n ∧ n ≤ maxAlloc ∧
        ((∃ next, next = (readFull n r).2 ∧
            readValue maxAlloc size r = (.error (.protocol "incomplete value"),next)) ∨
          ∃ bytes next, readFull n r = (some bytes,next) ∧
            readValue maxAlloc size r = (valueOf size bytes,next)) := by
  by_cases refused : MachineWord.int64.wrap ((size : Int) + 2) < 0 ∨
      (maxAlloc : Int) < MachineWord.int64.wrap ((size : Int) + 2)
  · left
    simp only [readValue, if_pos refused]
  · obtain ⟨n,length⟩ : ∃ n : Nat, MachineWord.int64.wrap ((size : Int) + 2) = n :=
      ⟨_, (Int.toNat_of_nonneg (by omega)).symm⟩
    have room : n ≤ maxAlloc := by omega
    refine Or.inr ⟨n, length, room, ?_⟩
    cases filled : readFull n r with
    | mk bytes next =>
      cases bytes with
      | none =>
        refine Or.inl ⟨next, rfl, ?_⟩
        unfold readValue
        rw [length]
        dsimp only
        rw [if_neg (by omega), Int.toNat_natCast, filled]
      | some bytes => exact Or.inr ⟨bytes,next,rfl,readValue_filled length room filled⟩

theorem readValue_ok (read : readValue maxAlloc size r = (.ok value,r')) :
    ∃ (n : Nat) (bytes : Text), MachineWord.int64.wrap (size + 2) = n ∧ n ≤ maxAlloc ∧
      readFull n r = (some bytes,r') ∧ valueOf size bytes = .ok value := by
  rcases readValue_cases maxAlloc size r with panics | ⟨n,length,room,⟨next,_,short⟩ | more⟩
  · rw [panics] at read
    cases read
  · rw [short] at read
    cases read
  · obtain ⟨bytes,next,filled,decided⟩ := more
    rw [decided] at read
    obtain ⟨accepted,rfl⟩ := Prod.mk.inj read
    exact ⟨n,bytes,length,room,filled,accepted⟩

theorem readValue_append (read : readValue maxAlloc size ⟨p,ending⟩ = (.ok value,⟨q,ending⟩))
    (rest : Text) (other : Ending) :
    readValue maxAlloc size ⟨p ++ rest,other⟩ = (.ok value,⟨q ++ rest,other⟩) := by
  obtain ⟨n,bytes,length,room,filled,accepted⟩ := readValue_ok read
  obtain ⟨enough,rfl,skipped⟩ := readFull_ok filled
  have left : q = p.drop n := congrArg Reader.bytes skipped
  dsimp only at enough accepted
  have again : readFull n ⟨p ++ rest,other⟩ = (some (p.take n),⟨q ++ rest,other⟩) := by
    rw [readFull, if_pos (by rw [List.length_append]; omega)]
    dsimp only [Reader.skip]
    rw [List.take_append_of_le_length enough, List.drop_append_of_le_length enough, left]
  rw [readValue_filled length room again, accepted]

theorem readValue_shorter (read : readValue maxAlloc size r = (.ok value,r')) :
    r'.bytes.length ≤ r.bytes.length ∧ r'.ending = r.ending := by
  obtain ⟨n,bytes,_,_,filled,_⟩ := readValue_ok read
  obtain ⟨_,_,rfl⟩ := readFull_ok filled
  refine ⟨?_, rfl⟩
  simp only [Reader.skip, List.length_drop]
  omega

theorem withValue_ok {result : Except Failure Text × Reader} {command : Command}
    (done : command.withValue result = (.ok c,r')) :
    ∃ value, result = (.ok value,r') ∧ c = { command with value := value } := by
  obtain ⟨result,r⟩ := result
  cases result with
  | error failure => cases done
  | ok value =>
    obtain ⟨same,rfl⟩ := Prod.mk.inj done
    exact ⟨value,rfl,(Except.ok.inj same).symm⟩

/-- A command that was read: its line, and the value the line announces. -/
theorem readCommand_ok (read : readCommand maxAlloc r = (.ok c,r')) :
    readRequest r = (.ok (c,none),r') ∨
      ∃ command size middle value, readRequest r = (.ok (command,some size),middle) ∧
        readValue maxAlloc size middle = (.ok value,r') ∧ c = { command with value := value } := by
  unfold readCommand at read
  split at read
  · cases read
  · rename_i command next requested
    left
    obtain ⟨same,rfl⟩ := Prod.mk.inj read
    rw [requested, Except.ok.inj same]
  · rename_i command size middle requested
    right
    obtain ⟨value,valued,same⟩ := withValue_ok read
    exact ⟨command,size,middle,value,requested,valued,same⟩

/-- Every command takes bytes, and reading does not change how the stream ends. -/
theorem readCommand_shorter (read : readCommand maxAlloc r = (.ok c,r')) :
    r'.bytes.length < r.bytes.length ∧ r'.ending = r.ending := by
  rcases readCommand_ok read with requested | ⟨command,size,middle,value,requested,valued,_⟩
  · obtain ⟨bytes,line,sliced,_,_⟩ := readRequest_ok requested
    exact readLineSlice_shorter sliced
  · obtain ⟨bytes,line,sliced,_,_⟩ := readRequest_ok requested
    obtain ⟨less,same⟩ := readLineSlice_shorter sliced
    obtain ⟨atMost,kept⟩ := readValue_shorter valued
    exact ⟨by omega, kept.trans same⟩

/-- Bytes behind a command do not change it, and stay unread. -/
theorem readCommand_append (read : readCommand maxAlloc ⟨p,ending⟩ = (.ok c,⟨q,ending⟩))
    (rest : Text) (other : Ending) :
    readCommand maxAlloc ⟨p ++ rest,other⟩ = (.ok c,⟨q ++ rest,other⟩) := by
  rcases readCommand_ok read with requested | ⟨command,size,middle,value,requested,valued,rfl⟩
  · rw [readCommand, readRequest_append requested rest other]
  · obtain ⟨bytes,line,sliced,_,_⟩ := readRequest_ok requested
    have same : middle.ending = ending := (readLineSlice_shorter sliced).2
    obtain ⟨left,_⟩ := middle
    obtain rfl : _ = ending := same
    rw [readCommand, readRequest_append requested rest other]
    dsimp only
    rw [readValue_append valued rest other]
    rfl

theorem valueOf_no_fault (size : Nat) (bytes : Text) : valueOf size bytes ≠ .error .fault := by
  unfold valueOf
  split
  · simp
  · split
    · simp
    · split
      · simp
      · split <;> simp

theorem readValue_no_fault (maxAlloc size : Nat) (r : Reader) :
    (readValue maxAlloc size r).1 ≠ .error .fault := by
  rcases readValue_cases maxAlloc size r with panics | ⟨n,_,_,⟨next,_,short⟩ | ⟨bytes,next,_,decided⟩⟩
  · rw [panics]
    simp
  · rw [short]
    simp
  · rw [decided]
    exact valueOf_no_fault size bytes

theorem readCommand_no_fault (maxAlloc : Nat) (regular : r.ending = .eof) :
    (readCommand maxAlloc r).1 ≠ .error .fault := by
  obtain ⟨input,_⟩ := r
  obtain rfl : _ = Ending.eof := regular
  have line := (readRequest_settled input).1
  unfold readCommand
  split
  · rename_i failure next read
    rw [read] at line
    intro fault
    rw [Except.error.inj fault] at line
    cases line
  · simp
  · rename_i command size next read
    have value := readValue_no_fault maxAlloc size next
    generalize readValue maxAlloc size next = done at value ⊢
    obtain ⟨result,left⟩ := done
    cases result with
    | error failure =>
      intro fault
      rw [Except.error.inj fault] at value
      exact value rfl
    | ok bytes => simp [Command.withValue]

theorem readLineSlice_suffix (r : Reader) : (readLineSlice r).2.bytes <:+ r.bytes := by
  unfold readLineSlice
  split
  · exact List.drop_suffix _ _
  · split <;> exact List.drop_suffix _ _

theorem readRequest_suffix (r : Reader) : (readRequest r).2.bytes <:+ r.bytes := by
  have sliced := readLineSlice_suffix r
  unfold readRequest
  generalize readLineSlice r = read at sliced ⊢
  obtain ⟨read,left⟩ := read
  cases read with
  | error failure => exact sliced
  | ok bytes =>
    dsimp only
    split
    · exact sliced
    · split <;> exact sliced

theorem readValue_suffix (maxAlloc size : Nat) (r : Reader) :
    (readValue maxAlloc size r).2.bytes <:+ r.bytes := by
  have filled (n : Nat) : (readFull n r).2.bytes <:+ r.bytes := by
    unfold readFull
    split <;> exact List.drop_suffix _ _
  rcases readValue_cases maxAlloc size r with
    panics | ⟨n,_,_,⟨next,left,short⟩ | ⟨bytes,next,full,decided⟩⟩
  · rw [panics]
  · rw [short, left]
    exact filled n
  · rw [decided]
    have left := filled n
    rw [full] at left
    exact left

theorem readCommand_suffix (maxAlloc : Nat) (r : Reader) :
    (readCommand maxAlloc r).2.bytes <:+ r.bytes := by
  have requested := readRequest_suffix r
  unfold readCommand
  generalize readRequest r = read at requested ⊢
  obtain ⟨read,left⟩ := read
  cases read with
  | error failure => exact requested
  | ok request =>
    obtain ⟨command,size⟩ := request
    cases size with
    | none => exact requested
    | some size =>
      have valued := readValue_suffix maxAlloc size left
      dsimp only
      generalize readValue maxAlloc size left = done at valued ⊢
      obtain ⟨result,rest⟩ := done
      cases result <;> exact valued.trans requested

/-- A concatenation of complete commands, each read to its end. -/
inductive Commands (maxAlloc : Nat) : Text → List Command → Prop where
  | nil : Commands maxAlloc [] []
  | cons {bytes rest : Text} {c : Command} {cs : List Command}
      (read : readCommand maxAlloc ⟨bytes,.eof⟩ = (.ok c,⟨[],.eof⟩))
      (more : Commands maxAlloc rest cs) : Commands maxAlloc (bytes ++ rest) (c :: cs)

end ProtocolFraming
