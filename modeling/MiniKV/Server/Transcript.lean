import MiniKV.Server.Conversation
import MiniKV.Server.Lookups

/- The client's side of a conversation. Responses are not framed: a client has to know what it
   asked to find where an answer ends. A reader that knows only the operations of its commands
   takes the stream apart again, whatever the values are that it carries. -/
namespace ServerTranscript
open MachineWord LruModel Decimal Utf8 Fields ShardModel ProtocolModel ProtocolEncoding
  ProtocolCanonical ProtocolFraming ServerModel ServerLines ServerResponses ServerLookups
  ServerConversation

inductive Response where
  | line (line : Text)
  | values (hits : List Hit)
  | stats (entries : List (Text × Text))
  deriving DecidableEq, Repr

/-- The lines of statistics up to END. -/
def readStats : Nat → Text → Option (List (Text × Text) × Text)
  | 0, _ => none
  | fuel + 1, bytes => do
    let (line,rest) ← readLine bytes
    if line = text "END" then some ([],rest)
    else
      match fields line with
      | [verb, name, value] =>
        if verb = text "STAT" then
          let (more,rest) ← readStats fuel rest
          some ((name,value) :: more,rest)
        else none
      | _ => none

/-- A response that is neither items nor statistics is a line. -/
def readAnswer (op : Op) (bytes : Text) : Option (Response × Text) :=
  let line := (readLine bytes).map fun done => (Response.line done.1,done.2)
  match op with
  | .get | .mget | .gets =>
    ((readResponse bytes).map fun done => (Response.values done.1,done.2)).or line
  | .stats =>
    ((readStats (bytes.length + 1) bytes).map fun done => (Response.stats done.1,done.2)).or line
  | _ => line

/-- The answers to these operations, and what is left. -/
def readAnswers : List Op → Text → Option (List Response × Text)
  | [], bytes => some ([],bytes)
  | op :: ops, bytes => do
    let (first,rest) ← readAnswer op bytes
    let (more,rest) ← readAnswers ops rest
    some (first :: more,rest)

/-- The lines that answer an operation on an admitted connection. -/
def statusLines : Op → List String
  | .ping => ["PONG"]
  | .set => "STORED" :: writeErrors
  | .cas => "STORED" :: "EXISTS" :: "NOT_FOUND" :: writeErrors
  | .delete => ["DELETED", "NOT_FOUND"]
  | .incr => "NOT_FOUND" :: "CLIENT_ERROR value is not an unsigned integer" ::
      "CLIENT_ERROR increment would overflow uint64" :: writeErrors
  | .auth => ["AUTHENTICATED", "CLIENT_ERROR auth failed", "CLIENT_ERROR auth not configured"]
  | .get | .mget | .gets | .stats => []

/-- The keys that a command looks up. -/
def lookedUp (c : Command) : List Text :=
  match c.op with
  | .get => [c.key]
  | .mget | .gets => c.keys
  | _ => []

/-- An answer that a client can take for one to its command. -/
def Fits (c : Command) : Response → Prop
  | .line line =>
    (∃ known ∈ "CLIENT_ERROR auth required" :: statusLines c.op, line = text known) ∨
      c.op = .incr ∧ ∃ n : UInt64, line = text "VALUE " ++ formatUint n
  | .values hits => (hits.map Hit.key).Sublist (lookedUp c) ∧
      ∀ hit ∈ hits, hit.version.isSome = decide (c.op = .gets)
  | .stats entries => c.op = .stats ∧ entries.map Prod.fst = statNames.map text

/-- The header that announced an item. -/
def headerOf (hit : Hit) : Text :=
  match hit.version with
  | none => valueLine hit.key ⟨hit.value,0⟩
  | some version => valueCasLine hit.key ⟨hit.value,version⟩

/-- The bytes of an answer. -/
def Response.bytes : Response → Text
  | .line words => writeLine words
  | .values hits => (hits.flatMap fun hit => block (headerOf hit) hit.value) ++ writeLine (text "END")
  | .stats entries => (entries.flatMap fun entry =>
      writeLine (unwords [text "STAT", entry.1, entry.2])) ++ writeLine (text "END")

/-- An answer that is read back, whatever follows it. -/
def Legible (c : Command) (bytes : Text) : Prop :=
  ∃ answer : Response, answer.bytes = bytes ∧ Fits c answer ∧
    ∀ rest, readAnswer c.op (bytes ++ rest) = some (answer,rest)

variable {c : Command} {line bytes rest : Text} {known : String} {entries : List (Text × Text)}

theorem readLine_written (plain : lf ∉ line) (rest : Text) :
    readLine (writeLine line ++ rest) = some (line,rest) := by
  have spelled : writeLine line ++ rest = line ++ cr :: lf :: rest := by simp [writeLine]
  rw [spelled, readLine_line plain]

/-- A line that is no header is left to the reader of lines. -/
theorem readResponse_line (plain : lf ∉ line) (other : line ≠ text "END")
    (headless : readHeader line = none) (rest : Text) :
    readResponse (writeLine line ++ rest) = none := by
  have spelled : writeLine line ++ rest = line ++ cr :: lf :: rest := by simp [writeLine]
  rw [spelled, readResponse, readHits, readLine_line plain]
  dsimp only
  rw [if_neg other, headless]
  rfl

theorem refusal_legible (c : Command) : Legible c (writeLine (text "CLIENT_ERROR auth required")) := by
  have plain : lf ∉ text "CLIENT_ERROR auth required" := by decide
  have headless := readResponse_line plain (by decide) (by decide)
  refine ⟨.line (text "CLIENT_ERROR auth required"), rfl, Or.inl ⟨_, List.mem_cons_self, rfl⟩, ?_⟩
  intro rest
  have read := readLine_written plain rest
  have unstated (fuel : Nat) : readStats (fuel + 1)
      (writeLine (text "CLIENT_ERROR auth required") ++ rest) = none := by
    rw [readStats, read]
    rfl
  cases op : c.op <;> simp [readAnswer, read, headless rest, unstated]

/-- The operations whose answers are one line. -/
theorem line_legible (single : lookedUp c = [] ∧ c.op ≠ .stats ∧ c.op ≠ .mget ∧ c.op ≠ .gets)
    (plain : lf ∉ line) (fits : Fits c (.line line)) : Legible c (writeLine line) := by
  refine ⟨.line line, rfl, fits, ?_⟩
  intro rest
  have read := readLine_written plain rest
  cases op : c.op <;> simp_all [readAnswer, lookedUp]

theorem status_legible (listed : known ∈ statusLines c.op) : Legible c (writeLine (text known)) := by
  have plain : lf ∉ text known := by
    have all : ∀ op, ∀ known ∈ statusLines op, lf ∉ text known := by
      intro op
      cases op <;> decide
    exact all c.op known listed
  refine line_legible ?_ plain (Or.inl ⟨known, List.mem_cons_of_mem _ listed, rfl⟩)
  cases op : c.op <;> simp_all [statusLines, lookedUp]

theorem incr_legible (op : c.op = .incr) (n : UInt64) :
    Legible c (writeLine (text "VALUE " ++ formatUint n)) := by
  have digits : lf ∉ formatUint n := word_no_lf (number_isWord n.toNat)
  have plain : lf ∉ text "VALUE " ++ formatUint n := by
    intro mem
    rcases List.mem_append.mp mem with first | second
    · exact absurd first (by decide)
    · exact digits second
  exact line_legible (by simp [op, lookedUp]) plain (Or.inr ⟨op, n, rfl⟩)

/-- The items of some of the keys. -/
theorem values_legible {header : Text → Item → Text} (read : Text × Item → Hit)
    (announced : ∀ hit, IsWord hit.1 → Announces header hit (read hit))
    (own : ∀ hit, (read hit).key = hit.1 ∧ headerOf (read hit) = header hit.1 hit.2)
    (version : ∀ hit, (read hit).version.isSome = decide (c.op = .gets))
    (lookup : c.op = .get ∨ c.op = .mget ∨ c.op = .gets)
    (words : ∀ key ∈ lookedUp c, Tokenized key) (blocks : Blocks header (lookedUp c) bytes) :
    Legible c bytes := by
  obtain ⟨found,among,rfl⟩ := blocks
  have areWords : ∀ hit ∈ found, IsWord hit.1 := by
    intro hit mem
    exact tokenized_isWord (words hit.1 (among.subset (List.mem_map_of_mem mem)))
  refine ⟨.values (found.map read), ?_, ⟨?_, ?_⟩, ?_⟩
  · have value (hit : Text × Item) (isWord : IsWord hit.1) : (read hit).value = hit.2.value :=
      (announced hit isWord).value
    simp only [Response.bytes, List.flatMap_map]
    congr 1
    refine List.flatMap_congr ?_
    intro hit mem
    rw [(own hit).2, value hit (areWords hit mem)]
  · have same : (found.map read).map Hit.key = found.map Prod.fst := by
      rw [List.map_map]
      exact List.map_congr_left fun hit _ => (own hit).1
    rw [same]
    exact among
  · intro hit mem
    obtain ⟨x,_,rfl⟩ := List.mem_map.mp mem
    exact version x
  · intro rest
    have back : readResponse ((found.flatMap fun hit => block (header hit.1 hit.2) hit.2.value) ++
        writeLine (text "END") ++ rest) = some (found.map read,rest) :=
      readResponse_blocks read (fun hit mem => announced hit (areWords hit mem)) rest
    rcases lookup with op | op | op <;> simp only [readAnswer, op, back] <;> rfl

theorem formatInt_isWord (n : Int) : IsWord (formatInt n) := by
  unfold formatInt
  split
  · refine isWord_ascii (by simp) ?_
    intro b mem
    rcases List.mem_cons.mp mem with rfl | digit
    · decide
    · have range := isDigit_range (List.all_eq_true.mp (formatNat_digits _) b digit)
      exact ⟨by omega, plain_of_visible (by omega) (by omega)⟩
  · exact number_isWord _

/-- By induction on the entries, each of them a line of three words. -/
theorem readStats_lines (fuel : Nat) (enough : entries.length < fuel)
    (words : ∀ entry ∈ entries, IsWord entry.1 ∧ IsWord entry.2) (rest : Text) :
    readStats fuel ((Response.stats entries).bytes ++ rest) = some (entries,rest) := by
  induction entries generalizing fuel with
  | nil =>
    obtain ⟨fuel,rfl⟩ : ∃ n, fuel = n + 1 := ⟨fuel - 1, by simp at enough; omega⟩
    have spelled : (Response.stats []).bytes ++ rest = writeLine (text "END") ++ rest := rfl
    rw [spelled, readStats, readLine_written (by decide)]
    rfl
  | cons entry later ih =>
    obtain ⟨fuel,rfl⟩ : ∃ n, fuel = n + 1 := ⟨fuel - 1, by simp at enough; omega⟩
    obtain ⟨name,value⟩ := words entry (by simp)
    have areWords : ∀ word ∈ [text "STAT", entry.1, entry.2], IsWord word := by
      have verb : IsWord (text "STAT") := by decide
      simp [verb, name, value]
    have spelled : (Response.stats (entry :: later)).bytes ++ rest =
        writeLine (unwords [text "STAT", entry.1, entry.2]) ++
          ((Response.stats later).bytes ++ rest) := by
      simp [Response.bytes]
    have other : unwords [text "STAT", entry.1, entry.2] ≠ text "END" := by
      intro same
      have cut := fields_unwords areWords
      rw [same] at cut
      cases cut
    have behind := ih fuel (by simpa using enough) fun e mem => words e (by simp [mem])
    rw [spelled, readStats, readLine_written (unwords_no_lf areWords)]
    dsimp only [bind, Option.bind]
    rw [if_neg other, fields_unwords areWords]
    dsimp only
    rw [if_pos rfl, behind]

theorem stats_length (entries : List (Text × Text)) :
    entries.length ≤ (Response.stats entries).bytes.length := by
  induction entries with
  | nil => exact Nat.zero_le _
  | cons entry later ih =>
    simp only [Response.bytes, List.flatMap_cons, writeLine, List.length_append, List.length_cons,
      List.length_nil] at ih ⊢
    omega

theorem stats_legible (op : c.op = .stats) {numbers : List Int}
    (length : numbers.length = statNames.length)
    (spelled : bytes = writeStats (statNames.zip (numbers.map formatInt))) : Legible c bytes := by
  have names : ∀ name ∈ statNames, IsWord (text name) := by decide
  let entries := (statNames.zip (numbers.map formatInt)).map fun entry => (text entry.1,entry.2)
  have words : ∀ entry ∈ entries, IsWord entry.1 ∧ IsWord entry.2 := by
    intro entry mem
    obtain ⟨pair,inside,rfl⟩ := List.mem_map.mp mem
    obtain ⟨left,right⟩ := List.of_mem_zip inside
    obtain ⟨n,_,same⟩ := List.mem_map.mp right
    exact ⟨names _ left, same ▸ formatInt_isWord n⟩
  have head : text "STAT " = text "STAT" ++ [0x20] := by decide
  have blank : text " " = [0x20] := by decide
  have same : (Response.stats entries).bytes = bytes := by
    rw [spelled]
    simp [Response.bytes, entries, writeStats, List.flatMap_map, unwords, head, blank]
  refine ⟨.stats entries, same, ⟨op, ?_⟩, ?_⟩
  · simp only [entries, List.map_map]
    have firsts : (statNames.zip (numbers.map formatInt)).map Prod.fst = statNames :=
      List.map_fst_zip (by simp [length])
    conv_rhs => rw [← firsts, List.map_map]
    rfl
  · intro rest
    have few : entries.length < (bytes ++ rest).length + 1 := by
      have long := stats_length entries
      rw [same] at long
      rw [List.length_append]
      omega
    have back := readStats_lines _ few words rest
    rw [same] at back
    simp only [readAnswer, op, back]
    rfl

theorem formed_words (formed : Formed c) : ∀ key ∈ lookedUp c, Tokenized key := by
  cases formed with
  | get word => simpa [lookedUp] using word
  | mget _ words => exact words
  | gets _ words => exact words
  | _ => simp [lookedUp]

theorem oneLine_legible {lines : List String} (listed : lines ⊆ statusLines c.op)
    (spelled : OneLine lines bytes) : Legible c bytes := by
  obtain ⟨known,mem,rfl⟩ := spelled
  exact status_legible (listed mem)

theorem responds_legible (formed : Formed c) (responds : Responds c bytes) : Legible c bytes := by
  have words := formed_words formed
  cases op : c.op with
  | get =>
    simp only [Responds, op] at responds
    refine values_legible plainHit (fun _ => plain_announces) (fun _ => ⟨rfl, rfl⟩)
      (fun _ => by simp [plainHit, op]) (Or.inl op) words ?_
    simpa [lookedUp, op] using responds
  | mget =>
    simp only [Responds, op] at responds
    refine values_legible plainHit (fun _ => plain_announces) (fun _ => ⟨rfl, rfl⟩)
      (fun _ => by simp [plainHit, op]) (Or.inr (Or.inl op)) words ?_
    simpa [lookedUp, op] using responds
  | gets =>
    simp only [Responds, op] at responds
    refine values_legible versionedHit (fun _ => versioned_announces) (fun _ => ⟨rfl, rfl⟩)
      (fun _ => by simp [versionedHit, op]) (Or.inr (Or.inr op)) words ?_
    simpa [lookedUp, op] using responds
  | stats =>
    simp only [Responds, op] at responds
    obtain ⟨numbers,length,spelled⟩ := responds
    exact stats_legible op length spelled
  | incr =>
    simp only [Responds, op] at responds
    rcases responds with ⟨n,rfl⟩ | lines
    · exact incr_legible op n
    · exact oneLine_legible (by simp [op, statusLines]) lines
  | auth =>
    simp only [Responds, op] at responds
  | _ =>
    simp only [Responds, op] at responds
    exact oneLine_legible (by simp [op, statusLines]) responds

theorem speaks_legible {token : Text} {admitted : Bool} {more : List Command} {next : Option Bool}
    (formed : Formed c) (speaks : Speaks token admitted c bytes more next) : Legible c bytes := by
  cases speaks with
  | refused => exact refusal_legible c
  | denied auth => exact status_legible (by simp [auth, statusLines])
  | unneeded auth => exact status_legible (by simp [auth, statusLines])
  | admitted auth => exact status_legible (by simp [auth, statusLines])
  | answered _ responds => exact responds_legible formed responds

theorem talk_spoken {token : Text} {exchanges : List (Command × Text)} {executed : List Command}
    {next : Option Bool} (talk : Talk token exchanges executed next) :
    ∀ x ∈ exchanges, ∃ admitted more next, Speaks token admitted x.1 x.2 more next := by
  induction talk with
  | nil => simp
  | snoc before speaks ih =>
    intro x mem
    rcases List.mem_append.mp mem with old | last
    · exact ih x old
    · obtain rfl := List.mem_singleton.mp last
      exact ⟨_, _, _, speaks⟩

theorem commands_formed {maxAlloc : Nat} {cs : List Command} (complete : Commands maxAlloc bytes cs) :
    ∀ c ∈ cs, Formed c := by
  induction complete with
  | nil => simp
  | cons read more ih =>
    intro c mem
    rcases List.mem_cons.mp mem with rfl | later
    · exact (readCommand_wellFormed read).1.formed
    · exact ih c later

/-- The answers are read off the stream one after the other. -/
theorem exchanges_read (exchanges : List (Command × Text))
    (legible : ∀ x ∈ exchanges, Legible x.1 x.2) (closing : Text) :
    ∃ answers, readAnswers (exchanges.map fun x => x.1.op)
        ((exchanges.map Prod.snd).flatten ++ closing) = some (answers,closing) ∧
      (answers.map Response.bytes).flatten = (exchanges.map Prod.snd).flatten ∧
      List.Forall₂ Fits (exchanges.map Prod.fst) answers := by
  induction exchanges with
  | nil => exact ⟨[], rfl, rfl, List.Forall₂.nil⟩
  | cons x later ih =>
    obtain ⟨answers,read,whole,fit⟩ := ih fun y mem => legible y (by simp [mem])
    obtain ⟨first,spelled,fits,back⟩ := legible x (by simp)
    refine ⟨first :: answers, ?_, ?_, List.Forall₂.cons fits fit⟩
    · simp only [List.map_cons, List.flatten_cons, List.append_assoc, readAnswers, back]
      dsimp only [bind, Option.bind]
      rw [read]
    · rw [List.map_cons, List.flatten_cons, spelled, whole, List.map_cons, List.flatten_cons]

/-- What may stand behind the answers: nothing, a last line, or, where a write has failed, the
    beginning of the answer to one more command. -/
inductive Closing (maxAlloc : Nat) (delivered : Text) (cs : List Command) (result : Option Result) :
    Text → Prop where
  | nothing : Closing maxAlloc delivered cs result []
  | line {last : String}
      (known : last ∈ ["CLIENT_ERROR bad command", "SERVER_ERROR max connections reached"]) :
      Closing maxAlloc delivered cs result (writeLine (text last))
  | cut {c : Command} {answer : Response} {longer rest sent : Text} (split : delivered = longer ++ rest)
      (commands : Commands maxAlloc longer (cs ++ [c])) (fits : Fits c answer)
      (part : sent <+: answer.bytes) (unwritten : result = some .unwritten) :
      Closing maxAlloc delivered cs result sent

/-- What a client makes of all that it has been sent: an answer to each of the complete
    commands that were got through, and what stands behind. -/
structure Transcribed (maxAlloc : Nat) (delivered : Text) (h : ServerLifecycle.Handler)
    (cs : List Command) (answers : List Response) (closing : Text) : Prop where
  commands : ∃ consumed rest, delivered = consumed ++ rest ∧ Commands maxAlloc consumed cs
  read : readAnswers (cs.map Command.op) h.output = some (answers,closing)
  whole : h.output = (answers.map Response.bytes).flatten ++ closing
  fit : List.Forall₂ Fits cs answers
  closing : Closing maxAlloc delivered cs h.result closing

section Transcripts
variable {maxAlloc : Nat} {token delivered consumed rest spoken closing : Text}
  {exchanges : List (Command × Text)} {executed : List Command} {next : Option Bool}
  {h : ServerLifecycle.Handler}

theorem answered_legible
    (answered : Answered maxAlloc token consumed exchanges executed spoken next) :
    ∀ x ∈ exchanges, Legible x.1 x.2 := by
  intro x mem
  obtain ⟨_,_,_,speaks⟩ := talk_spoken answered.talk x mem
  exact speaks_legible (commands_formed answered.commands x.1 (List.mem_map_of_mem mem)) speaks

theorem exchanges_transcribed (legible : ∀ x ∈ exchanges, Legible x.1 x.2)
    (split : delivered = consumed ++ rest)
    (complete : Commands maxAlloc consumed (exchanges.map Prod.fst))
    (output : h.output = (exchanges.map Prod.snd).flatten ++ closing)
    (last : Closing maxAlloc delivered (exchanges.map Prod.fst) h.result closing) :
    ∃ cs answers closing, Transcribed maxAlloc delivered h cs answers closing := by
  obtain ⟨answers,read,whole,fit⟩ := exchanges_read exchanges legible closing
  refine ⟨exchanges.map Prod.fst, answers, closing, ⟨consumed, rest, split, complete⟩, ?_, ?_, fit,
    last⟩
  · rw [output, List.map_map]
    exact read
  · rw [output, whole]

theorem answered_transcribed
    (answered : Answered maxAlloc token consumed exchanges executed spoken next)
    (split : delivered = consumed ++ rest) (output : h.output = spoken ++ closing)
    (last : Closing maxAlloc delivered (exchanges.map Prod.fst) h.result closing) :
    ∃ cs answers closing, Transcribed maxAlloc delivered h cs answers closing :=
  exchanges_transcribed (answered_legible answered) split answered.commands
    (by rw [output, answered.answers]) last

theorem commands_init {cs : List Command} {c : Command}
    (complete : Commands maxAlloc consumed (cs ++ [c])) :
    ∃ shorter own, consumed = shorter ++ own ∧ Commands maxAlloc shorter cs := by
  generalize all : cs ++ [c] = ds at complete
  induction complete generalizing cs with
  | nil => simp at all
  | @cons bytes rest d ds read more ih =>
    cases cs with
    | nil => exact ⟨[], bytes ++ rest, rfl, Commands.nil⟩
    | cons first cs =>
      obtain ⟨rfl,same⟩ := List.cons.inj all
      obtain ⟨shorter,own,rfl,init⟩ := ih same
      exact ⟨bytes ++ shorter, own, (List.append_assoc ..).symm, Commands.cons read init⟩

theorem connected_transcribed (connected : Connected maxAlloc token delivered executed h) :
    ∃ cs answers closing, Transcribed maxAlloc delivered h cs answers closing := by
  cases connected with
  | fresh _ silent _ _ output =>
    refine ⟨[], [], [], ⟨[], [], silent, Commands.nil⟩, ?_, ?_, List.Forall₂.nil, .nothing⟩
    · rw [output]
      rfl
    · rw [output]
      rfl
  | told _ silent _ output =>
    refine ⟨[], [], h.output, ⟨[], [], silent, Commands.nil⟩, rfl, rfl, List.Forall₂.nil, ?_⟩
    rw [output]
    exact .line (by simp)
  | waiting _ answered bytes =>
    exact answered_transcribed answered bytes (List.append_nil _).symm .nothing
  | busy _ answered _ bytes =>
    rw [List.append_assoc] at bytes
    exact answered_transcribed answered bytes (List.append_nil _).symm .nothing
  | ended _ answered output closing bytes =>
    obtain ⟨rest,split⟩ := bytes
    refine answered_transcribed answered split.symm output ?_
    rcases closing with rfl | ⟨_,rfl⟩
    · exact .nothing
    · exact .line (by simp)
  | @cut consumed answers response sent exchanges c next _ answered output part unwritten bytes =>
    obtain ⟨rest,split⟩ := bytes
    have legible := answered_legible answered
    have complete := answered.commands
    rw [List.map_append] at complete
    obtain ⟨shorter,own,rfl,init⟩ := commands_init complete
    obtain ⟨last,spelled,fits,_⟩ := legible (c,response) (by simp)
    have begun : sent <+: last.bytes := by
      rw [spelled]
      exact part
    have spoken : answers = (exchanges.map Prod.snd).flatten := by
      have whole := answered.answers
      simp only [List.map_append, List.flatten_append, List.map_cons, List.map_nil,
        List.flatten_cons, List.flatten_nil, List.append_nil] at whole
      exact List.append_cancel_right whole
    have front : delivered = shorter ++ (own ++ rest) := by rw [← split, List.append_assoc]
    exact exchanges_transcribed (fun x mem => legible x (by simp [mem])) front init
      (by rw [output, spoken]) (.cut split.symm complete fits begun unwritten)

end Transcripts

end ServerTranscript
