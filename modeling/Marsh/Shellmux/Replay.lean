import Marsh.Shellmux.Commit

/-!
# What a recovery replays

A recovery that succeeds has applied, in log order, the records of every
transaction whose intent is whole and whose end is missing.
-/

namespace Marsh
namespace Shellmux

open Library Operation

section Replays

variable (hash : List UInt8 -> String) (layout : Layout)

/-- The records of a transaction a recovery replays, each with the snapshot its
content comes from. -/
def Transaction.replays (transaction : Transaction) : List (Path × WalRecord) :=
  if transaction.torn ∨ transaction.finished then []
  else transaction.records.map (Prod.mk (layout.work transaction.uid))

/-- The records a recovery replays. -/
def replays (log : List WalRecord) : List (Path × WalRecord) :=
  (Transaction.ofLog log).flatMap (Transaction.replays layout)

/-- Applies records, each from its own snapshot, up to one that fails. -/
def applyReplays : List (Path × WalRecord) -> SeedOperation Unit
  | [] => pure ()
  | replay :: rest => do
      applyRecord hash layout replay.1 replay.2
      applyReplays rest

variable {hash layout}

theorem applyRecords_eq (work : Path) (records : List WalRecord) :
    applyRecords hash layout work records =
      applyReplays hash layout (records.map (Prod.mk work)) := by
  induction records with
  | nil => rfl
  | cons record records hypothesis =>
      rw [applyRecords, hypothesis]
      rfl

/-- Records that apply are followed by the ones after them. -/
theorem applyReplays_append_of_ok
    {first second : List (Path × WalRecord)}
    {tree middle : FileTree}
    (runs : applyReplays hash layout first tree = (.ok (), middle)) :
    applyReplays hash layout (first ++ second) tree =
      applyReplays hash layout second middle := by
  induction first generalizing tree with
  | nil =>
      cases runs
      rfl
  | cons replay first hypothesis =>
      obtain ⟨_, next, one, rest⟩ := bind_eq_ok runs
      rw [List.cons_append, applyReplays, bind_of_ok one, hypothesis rest]

/-- A record that fails ends the replay. -/
theorem applyReplays_append_of_error
    {first second : List (Path × WalRecord)}
    {tree middle : FileTree}
    {error : MuxError}
    (fails : applyReplays hash layout first tree = (.error error, middle)) :
    applyReplays hash layout (first ++ second) tree =
      (.error error, middle) := by
  induction first generalizing tree with
  | nil => cases fails
  | cons replay first hypothesis =>
      rw [List.cons_append, applyReplays]
      cases one : applyRecord hash layout replay.1 replay.2 tree with
      | mk result next =>
          cases result with
          | error fault =>
              rw [applyReplays, bind_of_error one] at fails
              rw [bind_of_error one, fails]
          | ok done =>
              rw [applyReplays, bind_of_ok one] at fails
              rw [bind_of_ok one, hypothesis fails]

/-- Records that apply, in two parts. -/
theorem applyReplays_append_eq_ok
    {first second : List (Path × WalRecord)}
    {tree next : FileTree}
    {done : Unit}
    (runs : applyReplays hash layout (first ++ second) tree =
      (.ok done, next)) :
    ∃ middle, applyReplays hash layout first tree = (.ok (), middle) ∧
      applyReplays hash layout second middle = (.ok (), next) := by
  cases ran : applyReplays hash layout first tree with
  | mk result middle =>
      cases result with
      | error error =>
          rw [applyReplays_append_of_error ran] at runs
          cases runs
      | ok value =>
          rw [applyReplays_append_of_ok ran] at runs
          exact ⟨middle, rfl, runs⟩

/-! ## What a recovery leaves -/

/-- The end a recovery writes for a transaction, if any. -/
def Transaction.ending (transaction : Transaction) : List WalRecord :=
  if transaction.torn ∨ transaction.finished then []
  else [.ended transaction.seq]

/-- The history entry a recovery re-derives for a transaction, if any. -/
def Transaction.memory (remembered : List Nat) (transaction : Transaction) :
    List HistoryRecord :=
  if transaction.torn ∨ transaction.seq ∈ remembered then []
  else [.of transaction.seq transaction.principal transaction.cmd
    transaction.events (transaction.records.filterMap WalRecord.operation)]

theorem onTree_of
    {α : Type}
    {action : SeedOperation α}
    {disk : Disk}
    {result : Except MuxError α}
    {next : FileTree}
    (runs : action disk.tree = (result, next)) :
    Disk.onTree action disk = (result, { disk with tree := next }) := by
  rw [Disk.onTree, runs]

theorem finishTransaction_of_ok
    {transaction : Transaction}
    {disk : Disk}
    {next : FileTree}
    (whole : transaction.torn = false)
    (runs : applyReplays hash layout (transaction.replays layout) disk.tree =
      (.ok (), next)) :
    finishTransaction hash layout transaction disk =
      (.ok (), { disk with
        tree := next, log := disk.log ++ transaction.ending }) := by
  unfold finishTransaction
  by_cases finished : transaction.finished = true
  · have none : transaction.replays layout = [] := by
      simp [Transaction.replays, finished]
    rw [none] at runs
    cases runs
    simp [Transaction.ending, finished, pure_eq_ok]
  · have all : transaction.replays layout = transaction.records.map
        (Prod.mk (layout.work transaction.uid)) := by
      simp [Transaction.replays, finished, whole]
    rw [all, ← applyRecords_eq] at runs
    rw [if_neg finished, bind_of_ok (onTree_of runs)]
    simp [Transaction.ending, finished, whole, Disk.appendLog, change]

theorem finishTransaction_of_error
    {transaction : Transaction}
    {disk : Disk}
    {next : FileTree}
    {error : MuxError}
    (fails : applyReplays hash layout (transaction.replays layout) disk.tree =
      (.error error, next)) :
    finishTransaction hash layout transaction disk =
      (.error error, { disk with tree := next }) := by
  have open_ : ¬ (transaction.torn = true ∨ transaction.finished = true) := by
    intro closed
    rw [Transaction.replays, if_pos closed] at fails
    cases fails
  have unfinished : ¬ transaction.finished = true :=
    fun finished => open_ (.inr finished)
  rw [Transaction.replays, if_neg open_, ← applyRecords_eq] at fails
  rw [finishTransaction, if_neg unfinished, bind_of_error (onTree_of fails)]

theorem rememberTransaction_eq
    {remembered : List Nat}
    {transaction : Transaction}
    (whole : transaction.torn = false)
    (disk : Disk) :
    rememberTransaction remembered transaction disk =
      (.ok (), { disk with
        history := disk.history ++ transaction.memory remembered }) := by
  unfold rememberTransaction
  by_cases known : transaction.seq ∈ remembered
  · simp [Transaction.memory, known, pure_eq_ok]
  · simp [Transaction.memory, known, whole, Disk.appendHistory, change]

/-- A replay that succeeds: the records are applied in log order, every end that
was missing is written, and so is every history entry. -/
theorem replayTransactions_of_ok
    {remembered : List Nat}
    {transactions : List Transaction}
    {disk : Disk}
    {next : FileTree}
    (runs : applyReplays hash layout
      (transactions.flatMap (Transaction.replays layout)) disk.tree =
        (.ok (), next)) :
    replayTransactions hash layout remembered transactions disk =
      (.ok (), ⟨next, disk.log ++ transactions.flatMap Transaction.ending,
        disk.history ++
          transactions.flatMap (Transaction.memory remembered)⟩) := by
  induction transactions generalizing disk with
  | nil =>
      cases runs
      simp [replayTransactions, pure_eq_ok]
  | cons transaction transactions hypothesis =>
      rw [List.flatMap_cons] at runs
      obtain ⟨middle, first, rest⟩ := applyReplays_append_eq_ok runs
      rw [replayTransactions]
      by_cases torn : transaction.torn = true
      · have unchanged : middle = disk.tree := by
          rw [Transaction.replays, if_pos (.inl torn)] at first
          cases first
          rfl
        rw [unchanged] at rest
        rw [if_pos torn]
        change replayTransactions hash layout remembered transactions disk = _
        rw [hypothesis rest]
        simp [Transaction.ending, Transaction.memory, torn]
      · have whole : transaction.torn = false := by simpa using torn
        rw [if_neg torn, bind_of_ok (finishTransaction_of_ok whole first),
          bind_of_ok (rememberTransaction_eq whole _)]
        have others := @hypothesis ⟨middle, disk.log ++ transaction.ending,
          disk.history ++ transaction.memory remembered⟩ rest
        simpa using others

/-- A replay that fails: some record does. -/
theorem replayTransactions_of_error
    (remembered : List Nat)
    {transactions : List Transaction}
    {disk : Disk}
    {next : FileTree}
    {error : MuxError}
    (fails : applyReplays hash layout
      (transactions.flatMap (Transaction.replays layout)) disk.tree =
        (.error error, next)) :
    ∃ log history,
      replayTransactions hash layout remembered transactions disk =
        (.error error, ⟨next, log, history⟩) := by
  induction transactions generalizing disk with
  | nil => cases fails
  | cons transaction transactions hypothesis =>
      rw [List.flatMap_cons] at fails
      rw [replayTransactions]
      by_cases torn : transaction.torn = true
      · rw [Transaction.replays, if_pos (.inl torn), List.nil_append] at fails
        rw [if_pos torn]
        exact hypothesis fails
      · have whole : transaction.torn = false := by simpa using torn
        rw [if_neg torn]
        cases first : applyReplays hash layout (transaction.replays layout)
            disk.tree with
        | mk result middle =>
            cases result with
            | error fault =>
                rw [applyReplays_append_of_error first] at fails
                cases fails
                rw [bind_of_error (finishTransaction_of_error first)]
                exact ⟨disk.log, disk.history, rfl⟩
            | ok done =>
                rw [applyReplays_append_of_ok first] at fails
                rw [bind_of_ok (finishTransaction_of_ok whole first),
                  bind_of_ok (rememberTransaction_eq whole _)]
                exact hypothesis fails

/-- What a recovery that succeeds does: every frame was in order, the records
were replayed, and the logs completed. -/
theorem recoverLog_eq_ok
    {disk next : Disk}
    {done : Unit}
    (runs : recoverLog hash layout disk = (.ok done, next)) :
    (Transaction.ofLog disk.log).forM Transaction.validate = .ok () ∧
      ∃ tree,
        applyReplays hash layout (replays layout disk.log) disk.tree =
            (.ok (), tree) ∧
          next = ⟨tree,
            disk.log ++
              (Transaction.ofLog disk.log).flatMap Transaction.ending,
            disk.history ++ (Transaction.ofLog disk.log).flatMap
              (Transaction.memory (disk.history.map HistoryRecord.seq))⟩ := by
  obtain ⟨transactions, _, listed, rest⟩ := bind_eq_ok runs
  obtain ⟨read, same⟩ := look_eq_ok listed
  cases read
  rw [same] at rest
  obtain ⟨_, _, checked, rest⟩ := bind_eq_ok rest
  obtain ⟨inOrder, same⟩ := look_eq_ok checked
  rw [same] at rest
  obtain ⟨remembered, _, known, rest⟩ := bind_eq_ok rest
  obtain ⟨read, same⟩ := look_eq_ok known
  cases read
  rw [same] at rest
  refine ⟨inOrder, ?_⟩
  cases ran : applyReplays hash layout (replays layout disk.log) disk.tree with
  | mk result tree =>
      cases result with
      | error error =>
          obtain ⟨log, history, fails⟩ :=
            replayTransactions_of_error (disk.history.map HistoryRecord.seq) ran
          rw [fails] at rest
          cases rest
      | ok done =>
          rw [replayTransactions_of_ok ran] at rest
          cases rest
          exact ⟨tree, rfl, rfl⟩

/-- A recovery of logs whose frames are in order, and whose records apply. -/
theorem recoverLog_of_ok
    {disk : Disk}
    {tree : FileTree}
    (inOrder :
      (Transaction.ofLog disk.log).forM Transaction.validate = .ok ())
    (runs : applyReplays hash layout (replays layout disk.log) disk.tree =
      (.ok (), tree)) :
    recoverLog hash layout disk = (.ok (), ⟨tree,
      disk.log ++ (Transaction.ofLog disk.log).flatMap Transaction.ending,
      disk.history ++ (Transaction.ofLog disk.log).flatMap
        (Transaction.memory (disk.history.map HistoryRecord.seq))⟩) := by
  have listed : look (fun disk : Disk =>
      (.ok (Transaction.ofLog disk.log) : Except MuxError _)) disk =
        (.ok (Transaction.ofLog disk.log), disk) := rfl
  have checked : look (fun _ : Disk =>
      (Transaction.ofLog disk.log).forM Transaction.validate) disk =
        (.ok (), disk) := look_of_ok inOrder
  have known : look (fun disk : Disk =>
      (.ok (disk.history.map HistoryRecord.seq) : Except MuxError _)) disk =
        (.ok (disk.history.map HistoryRecord.seq), disk) := rfl
  rw [recoverLog, bind_of_ok listed, bind_of_ok checked, bind_of_ok known,
    replayTransactions_of_ok runs]

end Replays

end Shellmux
end Marsh
