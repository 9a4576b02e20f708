import Marsh.Shellmux.History
import Marsh.Shellmux.Wal

/-!
# The write-ahead log

A transaction is logged as a whole, then each record is applied to the seed, then
its end is logged.  A restart finishes what a crash left unfinished.
-/

namespace Marsh
namespace Shellmux

open Library Validator Operation

/-- One line of the log. -/
inductive WalRecord
  /-- Opens a transaction: everything the history needs, plus the snapshot its
  content comes from. -/
  | begin (seq : Nat) (uid principal cmd : String) (events : List Event)
      (opCount : Option Nat)
  /-- Copies the snapshot's version of a path into the seed. -/
  | move (source target sha1 : String)
  /-- Deletes a path from the seed. -/
  | delete (path : String)
  /-- Every preceding record of this transaction has been applied. -/
  | ended (seq : Nat)
  deriving DecidableEq, Repr

/-- The segments of a `/`-joined path. -/
def pathSegments (path : String) : List String :=
  (path.toList.splitOn '/').map String.ofList

/-- The commit operation a record performs; none for the framing records. -/
def WalRecord.operation : WalRecord -> Option CommitOp
  | .move _ target _ => some (.write (pathSegments target))
  | .delete path => some (.remove (pathSegments path))
  | .begin _ _ _ _ _ _ | .ended _ => none

/-- Where a session keeps its seed and its state. -/
structure Layout where
  /-- The seed. -/
  seed : Location
  /-- The directory of the snapshots and of the logs. -/
  root : Location

namespace Layout

/-- Job snapshots. -/
def snap (layout : Layout) : Path :=
  (FileTree.absolutePath layout.root).join (Path.ofText "snap".toList)

/-- A job's work tree. -/
def work (layout : Layout) (uid : String) : Path :=
  layout.snap.join (Path.ofText uid.toList)

/-- Where a path in the seed is. -/
def inSeed (layout : Layout) (path : String) : Path :=
  joined layout.seed path

end Layout

/-! ## Applying records -/

section Records

-- The hexadecimal `sha1` digest.
variable (hash : List UInt8 -> String)

/-- The hash a record carries for a path: of the bytes of a file, or of the
target of a symbolic link. -/
def contentHash (path : Path) (tree : FileTree) : Except MuxError String := do
  let metadata ← (tree.lstat path).mapError Wal.io
  match metadata with
  | .symlink _ => return hash (← (tree.readLink path).mapError Wal.io)
  | .file _ _ => return hash (← (tree.ownerRead path).mapError Wal.io)
  -- Its mode is the whole entry.
  | .directory | .other _ => return hash []

/-- Whether something is at a path. -/
def present (path : Path) (tree : FileTree) : Bool :=
  (tree.lstat path).isOk

/-- Whether what is at a path carries a hash already. -/
def carries (target : Path) (sha1 : String) (tree : FileTree) :
    Except MuxError Bool :=
  if present target tree then do
    return (← contentHash hash target tree) = sha1
  else return false

/-- Copies `source` onto `target`; if it is gone, the target has to carry its
content already. -/
def writeMove (source target : Path) (sha1 : String) : SeedOperation Unit := do
  let there ← look fun tree => .ok (present source tree)
  if there then Wal.applyWrite source target
  else do
    let carried ← look (carries hash target sha1)
    if carried then pure ()
    else throw (.wal ("source " ++ source.display ++ " is gone and " ++
      target.display ++ " does not carry its content; the transaction can " ++
      "neither be completed nor undone"))

/-- Applies one record to the seed. -/
def applyRecord (layout : Layout) (work : Path) :
    WalRecord -> SeedOperation Unit
  | .begin _ _ _ _ _ _ | .ended _ => pure ()
  | .delete path =>
      Wal.applyRemove (FileTree.absolutePath layout.seed) (layout.inSeed path)
  | .move source target sha1 =>
      writeMove hash (work.join (Path.ofText source.toList))
        (layout.inSeed target) sha1

/-- Applies records in order, up to one that fails. -/
def applyRecords (layout : Layout) (work : Path) :
    List WalRecord -> SeedOperation Unit
  | [] => pure ()
  | record :: records => do
      applyRecord hash layout work record
      applyRecords layout work records

end Records

/-! ## Transactions -/

/-- One logged transaction, as it is read back. -/
structure Transaction where
  /-- Sequence number the transaction occupies. -/
  seq : Nat
  /-- The job whose snapshot its content comes from. -/
  uid : String
  /-- The principal the capabilities were granted to. -/
  principal : String
  /-- The command line. -/
  cmd : String
  /-- Capabilities the policy granted. -/
  events : List Event
  /-- Declared operation count, absent for legacy transactions. -/
  opCount : Option Nat
  /-- Its records, in log order. -/
  records : List WalRecord
  /-- Whether the log carries its end. -/
  finished : Bool

namespace Transaction

/-- Marks the first transaction of a sequence number. -/
def finish (seq : Nat) : List Transaction -> List Transaction
  | [] => []
  | transaction :: before =>
      if transaction.seq = seq then
        { transaction with finished := true } :: before
      else transaction :: finish seq before

/-- Adds a line to the transactions read so far, the last one first. -/
def add (read : List Transaction) : WalRecord -> List Transaction
  | .begin seq uid principal cmd events opCount =>
      ⟨seq, uid, principal, cmd, events, opCount, [], false⟩ :: read
  | .ended seq => finish seq read
  -- A record before any beginning describes nothing.
  | record@(.move _ _ _) | record@(.delete _) =>
      match read with
      | [] => []
      | transaction :: before =>
          { transaction with records := transaction.records ++ [record] } ::
            before

/-- The transactions of a log. -/
def ofLog (log : List WalRecord) : List Transaction :=
  (log.foldl add []).reverse

/-- Whether the frame of a transaction is in order. -/
def validate (transaction : Transaction) : Except MuxError Unit :=
  let actual := transaction.records.length
  match transaction.opCount with
  | some expected =>
      if expected < actual ∨ transaction.finished ∧ actual ≠ expected then
        .error (.wal ("transaction " ++ toString transaction.seq ++
          " declares " ++ toString expected ++ " operations but contains " ++
          toString actual))
      else .ok ()
  | none =>
      if ¬ transaction.finished then
        .error (.wal ("unfinished legacy transaction " ++
          toString transaction.seq ++
          " has no operation count; recovery sources retained"))
      else .ok ()

/-- Whether the log lacks some of the transaction's declared operations. -/
def torn (transaction : Transaction) : Bool :=
  transaction.opCount.any fun expected => transaction.records.length < expected

end Transaction

/-! ## Recovery -/

/-- What is on disk: the trees and the two logs. -/
structure Disk where
  /-- The file system. -/
  tree : FileTree
  /-- The lines of the write-ahead log. -/
  log : List WalRecord
  /-- The lines of the history. -/
  history : List HistoryRecord

/-- An operation on what is on disk. -/
abbrev DiskOperation (α : Type) := Operation Disk MuxError α

namespace Disk

/-- An operation on the trees. -/
def onTree {α : Type} (action : SeedOperation α) : DiskOperation α :=
  fun disk =>
    let ran := action disk.tree
    (ran.1, { disk with tree := ran.2 })

/-- Appends lines to the write-ahead log, as one write. -/
def appendLog (records : List WalRecord) : DiskOperation Unit :=
  change fun disk => .ok { disk with log := disk.log ++ records }

/-- Appends a line to the history. -/
def appendHistory (record : HistoryRecord) : DiskOperation Unit :=
  change fun disk => .ok { disk with history := disk.history ++ [record] }

end Disk

section Commits

variable (hash : List UInt8 -> String) (layout : Layout)

/-- The record of an operation: of a write, with the hash of its content. -/
def intentRecord (work : Path) (tree : FileTree) :
    CommitOp -> Except MuxError WalRecord
  | .remove segments =>
      let op : CommitOp := .remove segments
      .ok (.delete op.path)
  | .write segments => do
      let op : CommitOp := .write segments
      let source := work.join (Path.ofText op.path.toList)
      return .move op.path op.path (← contentHash hash source tree)

/-- The records of some operations, in order. -/
def intentRecords (work : Path) (tree : FileTree) :
    List CommitOp -> Except MuxError (List WalRecord)
  | [] => .ok []
  | op :: ops => do
      let record ← intentRecord hash work tree op
      return record :: (← intentRecords work tree ops)

/-- Logs one transaction and applies it to the seed. -/
def applyCommit
    (uid : String)
    (seq : Nat)
    (principal cmd : String)
    (events : List Event)
    (ops : List CommitOp) : DiskOperation Unit := do
  let work := layout.work uid
  let records ← look fun disk => intentRecords hash work disk.tree ops
  let intent :=
    .begin seq uid principal cmd events (some ops.length) :: records
  Disk.appendLog intent
  Disk.onTree (applyRecords hash layout work intent)
  Disk.appendLog [.ended seq]

end Commits

section Recovery

variable (hash : List UInt8 -> String) (layout : Layout)

/-- Applies the records of a transaction the log does not end, and ends it. -/
def finishTransaction (transaction : Transaction) : DiskOperation Unit :=
  if transaction.finished then pure ()
  else do
    Disk.onTree (applyRecords hash layout (layout.work transaction.uid)
      transaction.records)
    Disk.appendLog [.ended transaction.seq]

/-- Re-derives the history entry of a transaction that has none. -/
def rememberTransaction
    (remembered : List Nat)
    (transaction : Transaction) : DiskOperation Unit :=
  if transaction.seq ∈ remembered then pure ()
  else
    Disk.appendHistory (.of transaction.seq transaction.principal
      transaction.cmd transaction.events
      (transaction.records.filterMap WalRecord.operation))

/-- Replays transactions in order; one whose intent is not whole is left out. -/
def replayTransactions (remembered : List Nat) :
    List Transaction -> DiskOperation Unit
  | [] => pure ()
  | transaction :: transactions => do
      if transaction.torn then pure ()
      else do
        finishTransaction hash layout transaction
        rememberTransaction remembered transaction
      replayTransactions remembered transactions

/-- Finishes every unfinished transaction and re-derives the history entries any
of them are missing. -/
def recoverLog : DiskOperation Unit := do
  let transactions ← look fun disk => .ok (Transaction.ofLog disk.log)
  -- Every frame is checked before any is replayed.
  look fun _ => transactions.forM Transaction.validate
  let remembered ← look fun disk => .ok (disk.history.map HistoryRecord.seq)
  replayTransactions hash layout remembered transactions

end Recovery

end Shellmux
end Marsh
