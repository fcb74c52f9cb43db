import MiniKV.Process.Guarantees
import MiniKV.Server.Progress

/- What brings the process down. A panic in the call of a connection ends it, and the only one
   that a client can cause is in the allocation of a value: its line announces more bytes than
   the runtime gives. The parser reads that line before anything is known of the client. Behind
   a signal there are the panics of the wait group, which a call meets that comes to its Add
   while Shutdown waits. -/
namespace ProcessModel
open MachineWord LruModel ShardModel StoreModel StoreFate StepRuns ProtocolModel ProtocolFraming
  ServerModel ServerResponses ServerLifecycle ServerPlaces ServerMoves ServerSlots
  ServerConversation ServerProgress

section Reading
variable {maxAlloc size : Nat} {bytes : Text} {c : Command} {ending : Ending} {r : Reader}

end Reading

section Calls
variable {env : Env} {maxAlloc i n : Nat} {s t : Hub} {h : Handler} {event : Event}
  {out : List Command} {limits : Limits} {token : Text} {deliveries : Nat → Text}
  {executions : Nat → List Command} {c : Command}

end Calls

section Runs
variable {env : Env} {maxAlloc i : Nat} {config : ConfigModel.Config} {now : Time}
  {steps : List ProcessStep} {p : Process}

/-- A connection accepted before the signal, whose Add comes between the last Done and the
    return of Wait. Nobody has sent anything. -/
def lateAdd : List Happening :=
  [.accept] ++ enter 0 ++
    [.accept, .serve (.advance 1), .serve (.advance 1), .cancel, .acceptFails, .serve .shutdown,
      .serve (.signal 0), .serve .signalled, .serve .sleep, .serve (.interrupt 0 .timeout)] ++
    List.replicate 4 (.serve (.advance 0)) ++ [.serve (.advance 1)]

example : (exec pairStep (.start guardedPair 0) lateAdd).map
    (fun run => (run.2.hub.down,heard 0 run.1,heard 1 run.1)) = some (true,[],[]) := by decide

end Runs

end ProcessModel
