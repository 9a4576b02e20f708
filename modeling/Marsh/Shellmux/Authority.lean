import Std.Data.TreeMap.Lemmas
import Mathlib.Data.List.Dedup
import Marsh.Policy.Git

/-!
# The central authority and the conclusion of a command

One authority holds the capability history, the sequence number of the last
writer of every path, and the highest committed sequence number.  A concluded
command is checked for staleness, decided by the policy, and recorded.

The policy and the storage are parameters: what the policy decides, and what
diffing, committing and logging return, are theirs.
-/

namespace Marsh
namespace Shellmux

open Validator Policy

/-! ## Data -/

/-- One filesystem change to apply to the seed, at a seed-relative path. -/
inductive CommitOp
  /-- Copy the work snapshot's version of this path over the seed's. -/
  | write (segments : List String)
  /-- Delete this path from the seed. -/
  | remove (segments : List String)
  deriving DecidableEq, Repr

namespace CommitOp

/-- Segments of the path the operation names. -/
def segments : CommitOp -> List String
  | .write segments => segments
  | .remove segments => segments

/-- The path the operation names, joined with `/`. -/
def path (op : CommitOp) : String :=
  "/".intercalate op.segments

end CommitOp

/-- Infrastructure failures. -/
inductive MuxError
  | io (message : String)
  | wal (message : String)
  | jobTermination (job : String)
  deriving DecidableEq, Repr

/-- A refused capability with its reason and fixes. -/
structure CapDenial where
  /-- The refused event. -/
  event : Event
  /-- The precondition it failed. -/
  failedPrecondition : String
  /-- What would unblock it. -/
  allowedFixes : List String
  deriving DecidableEq, Repr

/-- A path that another transaction wrote first. -/
structure StalePath where
  /-- The path. -/
  path : String
  /-- Its last writer. -/
  mergedSeq : Nat
  deriving DecidableEq, Repr

/-- What one traced command amounts to, in capability terms. -/
structure Translation where
  /-- Capability events the command requested. -/
  events : List Event
  /-- Set when some part of the command cannot be expressed. -/
  unsupported : Option String
  /-- Paths a git builtin read. -/
  gitReads : List String
  /-- Whether any syscall wrote inside the work root. -/
  wroteInRoot : Bool
  deriving DecidableEq, Repr

/-- How a command runs. -/
inductive Plan
  /-- In a snapshot of its own, merged afterwards. -/
  | transaction
  /-- In a shared reader tree, merging nothing. -/
  | bypass
  deriving DecidableEq, Repr

/-- A job's sandbox; its name is the principal of its commands. -/
structure Sandbox where
  /-- Job name. -/
  id : String
  /-- Names the job's snapshot. -/
  uid : String
  deriving DecidableEq, Repr

/-- The principal of a sandbox's commands. -/
def Sandbox.principal (sandbox : Sandbox) : String :=
  sandbox.id

/-- Outcome of one concluded command. -/
inductive CmdOutcome
  | committed (seq : Nat) (exitCode : Int) (granted : List Event)
  | deniedCaps (exitCode : Int) (requested : List Event)
      (denials : List CapDenial)
  | staleSnapshot (requested : List Event) (stale : List StalePath)
  | execFailed (exitCode : Int)
  | unsupported (reason : String)
  | bypassed (exitCode : Int) (granted : List Event)
  | escaped (exitCode : Int) (requested : List Event) (wrote : Bool)
  deriving DecidableEq, Repr

/-- Everything the authority holds in memory. -/
structure AuthorityState where
  /-- Committed capability history, in merge order. -/
  history : List Event
  /-- Sequence number of the transaction that last wrote each path. -/
  generations : Std.TreeMap String Nat
  /-- Highest committed sequence number. -/
  seq : Nat

/-- What a finished run left: its exit code, and the translation of its
evidence, absent when the run has none. -/
structure Execution where
  /-- Exit status. -/
  exitCode : Int
  /-- Translated evidence. -/
  translation : Option Translation

/-- The persistent storage a conclusion uses.  Every operation may fail, and
leaves some storage when it does. -/
structure Persistence (Storage : Type) where
  /-- The changes that turn the seed into a job's work tree. -/
  diffTrees : (uid : String) -> Storage -> Except MuxError (List CommitOp)
  /-- Logs one transaction and applies it to the seed. -/
  apply : (uid : String) -> (seq : Nat) -> (principal cmd : String) ->
    List Event -> List CommitOp -> Storage -> Except MuxError Unit × Storage
  /-- Appends one record to the history log. -/
  append : (seq : Nat) -> (principal cmd : String) ->
    List Event -> List CommitOp -> Storage -> Except MuxError Unit × Storage

/-! ## Decisions -/

/-- Decides a command's event set in order, appending what is granted. -/
def checkEvents
    (decide : List Event -> Event -> PolicyDecision)
    (history : List Event) :
    List Event -> List CapDenial × List Event
  | [] => ([], history)
  | event :: events =>
      match decide history event with
      | .grant => checkEvents decide (history ++ [event]) events
      | .deny failedPrecondition allowedFixes =>
          let (denials, history) := checkEvents decide history events
          (⟨event, failedPrecondition, allowedFixes⟩ :: denials, history)

/-- Paths whose last writer merged after `baseSeq`, over the write set, the
events' resources and the paths git read. -/
def stalePaths
    (generations : Std.TreeMap String Nat)
    (baseSeq : Nat)
    (ops : List CommitOp)
    (events : List Event)
    (gitReads : List String) : List StalePath :=
  let checked := ops.map CommitOp.path ++
    events.map (fun event => event.resource.display) ++ gitReads
  (checked.mergeSort fun left right => left ≤ right).dedup.filterMap
    fun path =>
      (generations[path]?.filter fun merged => baseSeq < merged).map
        fun merged => { path, mergedSeq := merged }

/-! ## Conclusions -/

section Conclusion

variable {Storage : Type}
variable (decide : List Event -> Event -> PolicyDecision)
variable (persistence : Persistence Storage)

/-- Records one transaction: the seed, then the history, then the generations.
The authority changes only when both logs took it. -/
def recordCommit
    (state : AuthorityState)
    (sandbox : Sandbox)
    (cmd : String)
    (events : List Event)
    (ops : List CommitOp)
    (storage : Storage) : Except MuxError Nat × AuthorityState × Storage :=
  let seq := state.seq + 1
  let name := sandbox.principal
  match persistence.apply sandbox.uid seq name cmd events ops storage with
  | (.error failure, storage) => (.error failure, state, storage)
  | (.ok (), storage) =>
      match persistence.append seq name cmd events ops storage with
      | (.error failure, storage) => (.error failure, state, storage)
      | (.ok (), storage) =>
          let generations := ops.foldl
            (fun generations op => generations.insert op.path seq)
            state.generations
          (.ok seq, { state with generations, seq }, storage)

/-- Concludes a bypass: its reads are decided and recorded, and nothing is
diffed or merged. -/
def concludeBypass
    (sandbox : Sandbox)
    (cmd : String)
    (translation : Translation)
    (exitCode : Int)
    (state : AuthorityState)
    (storage : Storage) :
    Except MuxError CmdOutcome × AuthorityState × Storage :=
  let events := translation.events
  if translation.unsupported.isSome || translation.wroteInRoot ||
      events.any fun event => event.action ≠ .read then
    (.ok (.escaped exitCode events translation.wroteInRoot), state, storage)
  else if exitCode ≠ 0 then
    (.ok (.execFailed exitCode), state, storage)
  else if events.isEmpty then
    (.ok (.bypassed exitCode []), state, storage)
  else
    match checkEvents decide state.history events with
    | (denial :: denials, _) =>
        (.ok (.deniedCaps exitCode events (denial :: denials)), state, storage)
    | ([], history) =>
        let state := { state with history }
        match persistence.append state.seq sandbox.principal cmd events []
            storage with
        | (.error failure, storage) => (.error failure, state, storage)
        | (.ok (), storage) =>
            (.ok (.bypassed exitCode events), state, storage)

/-- What a transaction's checks come to. -/
inductive Authorization
  /-- Nothing is to be recorded. -/
  | settled (outcome : CmdOutcome)
  /-- The operations to record, and the history the grants extend to. -/
  | publish (history : List Event) (ops : List CommitOp)

/-- The write set of a transaction.  A command that opened nothing for writing
inside the root has none, and the diff is skipped. -/
def writeSet
    (sandbox : Sandbox)
    (translation : Translation)
    (storage : Storage) : Except MuxError (List CommitOp) :=
  if translation.wroteInRoot then persistence.diffTrees sandbox.uid storage
  else .ok []

/-- The checks of a transaction: exit code, diff, staleness, policy. -/
def authorize
    (sandbox : Sandbox)
    (translation : Translation)
    (exitCode : Int)
    (baseSeq : Nat)
    (state : AuthorityState)
    (storage : Storage) : Except MuxError Authorization :=
  match translation.unsupported with
  | some reason => .ok (.settled (.unsupported reason))
  | none =>
    if exitCode ≠ 0 then .ok (.settled (.execFailed exitCode))
    else
      match writeSet persistence sandbox translation storage with
      | .error failure => .error failure
      | .ok ops =>
        let events := translation.events
        if events.isEmpty && ops.isEmpty then
          .ok (.settled (.committed baseSeq exitCode []))
        else
          match stalePaths state.generations baseSeq ops events
              translation.gitReads with
          | stale :: rest =>
              .ok (.settled (.staleSnapshot events (stale :: rest)))
          | [] =>
            match checkEvents decide state.history events with
            | (denial :: denials, _) =>
                .ok (.settled (.deniedCaps exitCode events (denial :: denials)))
            | ([], history) => .ok (.publish history ops)

/-- Concludes a transaction: checks it and records what it may publish. -/
def concludeTransaction
    (sandbox : Sandbox)
    (cmd : String)
    (translation : Translation)
    (exitCode : Int)
    (baseSeq : Nat)
    (state : AuthorityState)
    (storage : Storage) :
    Except MuxError CmdOutcome × AuthorityState × Storage :=
  match authorize decide persistence sandbox translation exitCode baseSeq state
      storage with
  | .error failure => (.error failure, state, storage)
  | .ok (.settled outcome) => (.ok outcome, state, storage)
  | .ok (.publish history ops) =>
      match recordCommit persistence { state with history } sandbox cmd
          translation.events ops storage with
      | (.error failure, state, storage) => (.error failure, state, storage)
      | (.ok seq, state, storage) =>
          (.ok (.committed seq exitCode translation.events), state, storage)

/-- Concludes one command: what its run left becomes an outcome. -/
def conclude
    (sandbox : Sandbox)
    (cmd : String)
    (completed : Except MuxError Execution)
    (baseSeq : Nat)
    (plan : Plan)
    (state : AuthorityState)
    (storage : Storage) :
    Except MuxError CmdOutcome × AuthorityState × Storage :=
  match completed with
  | .error failure => (.error failure, state, storage)
  | .ok execution =>
    match execution.translation with
    | none => (.ok (.execFailed execution.exitCode), state, storage)
    | some translation =>
      match plan with
      | .bypass =>
          concludeBypass decide persistence sandbox cmd translation
            execution.exitCode state storage
      | .transaction =>
          concludeTransaction decide persistence sandbox cmd translation
            execution.exitCode baseSeq state storage

/-- Concludes a command the mux has reaped.  A forcibly stopped command is
concluded without its evidence, once its processes are proven gone. -/
def concludeCmd
    (sandbox : Sandbox)
    (cmd : String)
    (forceStopped : Bool)
    (terminated : Except MuxError Unit)
    (completed : Except MuxError Execution)
    (baseSeq : Nat)
    (plan : Plan)
    (state : AuthorityState)
    (storage : Storage) :
    Except MuxError CmdOutcome × AuthorityState × Storage :=
  if forceStopped then
    match terminated with
    | .error _ => (.error (.jobTermination sandbox.id), state, storage)
    | .ok () =>
        conclude decide persistence sandbox cmd (.ok ⟨137, none⟩) baseSeq plan
          state storage
  else
    conclude decide persistence sandbox cmd completed baseSeq plan state storage

end Conclusion

end Shellmux
end Marsh
