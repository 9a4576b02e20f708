import Marsh.Shellmux.Replay

/-!
# A second recovery

A recovery ends every transaction it finishes, by its sequence number; the line
closes the last transaction of that number.  So a second recovery finds nothing
left to do exactly when no transaction the first one finished was followed by
another of its number.
-/

namespace Marsh
namespace Shellmux

open Library Validator Operation

/-! ## Closing lines -/

namespace Transaction

/-- A transaction whose intent is whole and whose end is missing. -/
def Unended (transaction : Transaction) : Prop :=
  transaction.torn = false ∧ transaction.finished = false

instance (transaction : Transaction) : Decidable transaction.Unended :=
  inferInstanceAs (Decidable (_ ∧ _))

/-- The transaction, ended if its intent is whole. -/
def settle (transaction : Transaction) : Transaction :=
  if transaction.torn then transaction
  else { transaction with finished := true }

theorem settle_of_unended
    {transaction : Transaction}
    (unended : transaction.Unended) :
    transaction.settle = { transaction with finished := true } := by
  simp [settle, unended.1]

theorem settle_of_not_unended
    {transaction : Transaction}
    (closed : ¬ transaction.Unended) : transaction.settle = transaction := by
  cases torn : transaction.torn with
  | true => rw [settle, if_pos torn]
  | false =>
      have finished : transaction.finished = true := by
        cases isFinished : transaction.finished with
        | true => rfl
        | false => exact (closed ⟨torn, isFinished⟩).elim
      rw [settle, if_neg (by simp [torn]), ← finished]

@[simp]
theorem torn_settle (transaction : Transaction) :
    transaction.settle.torn = transaction.torn := by
  rw [settle]
  split_ifs <;> rfl

theorem not_unended_settle (transaction : Transaction) :
    ¬ transaction.settle.Unended := by
  intro unended
  have whole : transaction.torn = false := by
    rw [← torn_settle]
    exact unended.1
  have finished := unended.2
  simp [settle, whole] at finished

@[simp]
theorem seq_settle (transaction : Transaction) :
    transaction.settle.seq = transaction.seq := by
  rw [settle]
  split_ifs <;> rfl

/-- Ending a whole transaction keeps its frame in order. -/
theorem validate_settle
    {transaction : Transaction}
    (inOrder : transaction.validate = .ok ()) :
    transaction.settle.validate = .ok () := by
  by_cases unended : transaction.Unended
  · rw [settle_of_unended unended]
    obtain ⟨whole, unfinished⟩ := unended
    cases counted : transaction.opCount with
    | none => simp [validate, counted, unfinished] at inOrder
    | some expected =>
        have enough : expected ≤ transaction.records.length := by
          simpa [torn, counted] using whole
        have few : transaction.records.length ≤ expected := by
          by_contra many
          simp [validate, counted, Nat.lt_of_not_le many] at inOrder
        have exact_ : transaction.records.length = expected :=
          le_antisymm few enough
        simp [validate, exact_]
  · rw [settle_of_not_unended unended]
    exact inOrder

/-- Ends some sequence numbers, one after the other. -/
def finishAll (seqs : List Nat) (read : List Transaction) :
    List Transaction :=
  seqs.foldl (fun read seq => finish seq read) read

theorem finishAll_nil (seqs : List Nat) : finishAll seqs [] = [] := by
  induction seqs with
  | nil => rfl
  | cons seq seqs hypothesis => exact hypothesis

/-- The latest transaction is ended when its number is, and the ones before it
by the other numbers. -/
theorem finishAll_cons
    (seqs : List Nat)
    (transaction : Transaction)
    (before : List Transaction) :
    finishAll seqs (transaction :: before) =
      (if transaction.seq ∈ seqs then { transaction with finished := true }
        else transaction) ::
          finishAll (seqs.filter (transaction.seq ≠ ·)) before := by
  induction seqs generalizing transaction before with
  | nil => simp [finishAll]
  | cons seq seqs hypothesis =>
      change finishAll seqs (finish seq (transaction :: before)) = _
      by_cases same : transaction.seq = seq
      · rw [finish, if_pos same, hypothesis]
        simp [same]
      · rw [finish, if_neg same, hypothesis]
        simp [same, finishAll]

/-- A transaction whose number is not ended stays as it is. -/
theorem mem_finishAll_of_not_mem
    {seqs : List Nat}
    {read : List Transaction}
    {transaction : Transaction}
    (member : transaction ∈ read)
    (other : transaction.seq ∉ seqs) : transaction ∈ finishAll seqs read := by
  induction read generalizing seqs with
  | nil => cases member
  | cons latest before hypothesis =>
      rw [finishAll_cons]
      rcases List.mem_cons.mp member with rfl | earlier
      · rw [if_neg other]
        exact List.mem_cons_self
      · refine List.mem_cons_of_mem _ (hypothesis earlier ?_)
        intro kept
        exact other (List.mem_of_mem_filter kept)

/-- Nor does ending a number reach past a later transaction of that number. -/
theorem mem_finishAll_of_later
    {seqs : List Nat}
    {after before : List Transaction}
    {transaction later : Transaction}
    (isLater : later ∈ after)
    (same : later.seq = transaction.seq) :
    transaction ∈ finishAll seqs (after ++ transaction :: before) := by
  induction after generalizing seqs with
  | nil => cases isLater
  | cons latest after hypothesis =>
      rw [List.cons_append, finishAll_cons]
      apply List.mem_cons_of_mem
      rcases List.mem_cons.mp isLater with rfl | earlier
      · apply mem_finishAll_of_not_mem (by simp)
        simp [same]
      · exact hypothesis earlier

/-- The numbers of the transactions to end. -/
def unendedSeqs (transactions : List Transaction) : List Nat :=
  (transactions.filter fun transaction => transaction.Unended).map seq

theorem mem_unendedSeqs
    {transactions : List Transaction}
    {number : Nat} :
    number ∈ unendedSeqs transactions ↔
      ∃ transaction ∈ transactions,
        transaction.Unended ∧ transaction.seq = number := by
  simp [unendedSeqs, and_assoc]

/-- No transaction to end is followed by another of its number; the latest one
comes first here. -/
def Latest : List Transaction -> Prop
  | [] => True
  | transaction :: before =>
      (∀ earlier ∈ before, earlier.Unended ->
        transaction.seq ≠ earlier.seq) ∧ Latest before

/-- When each transaction to end is the last of its number, ending the numbers
ends exactly these. -/
theorem finishAll_eq_map
    {seqs : List Nat}
    {read : List Transaction}
    (latest : Latest read)
    (numbers : ∀ number, number ∈ seqs ↔ number ∈ unendedSeqs read) :
    finishAll seqs read = read.map settle := by
  induction read generalizing seqs with
  | nil => exact finishAll_nil seqs
  | cons transaction before hypothesis =>
      rw [finishAll_cons, List.map_cons]
      have ended : transaction.seq ∈ seqs ↔ transaction.Unended := by
        rw [numbers, mem_unendedSeqs]
        constructor
        · rintro ⟨other, member, unended, same⟩
          rcases List.mem_cons.mp member with rfl | earlier
          · exact unended
          · exact (latest.1 other earlier unended same.symm).elim
        · intro unended
          exact ⟨transaction, List.mem_cons_self, unended, rfl⟩
      have rest : ∀ number, number ∈ seqs.filter (transaction.seq ≠ ·) ↔
          number ∈ unendedSeqs before := by
        intro number
        simp only [List.mem_filter, numbers, mem_unendedSeqs, decide_eq_true_eq]
        constructor
        · rintro ⟨⟨other, member, unended, rfl⟩, different⟩
          rcases List.mem_cons.mp member with rfl | earlier
          · exact (different rfl).elim
          · exact ⟨other, earlier, unended, rfl⟩
        · rintro ⟨other, earlier, unended, rfl⟩
          exact ⟨⟨other, List.mem_cons_of_mem _ earlier, unended, rfl⟩,
            latest.1 other earlier unended⟩
      congr 1
      · by_cases unended : transaction.Unended
        · rw [if_pos (ended.mpr unended), settle_of_unended unended]
        · rw [if_neg (fun member => unended (ended.mp member)),
            settle_of_not_unended unended]
      · exact hypothesis latest.2 rest

end Transaction

/-! ## The second recovery -/

/-- No transaction whose intent is whole and whose end is missing is followed in
the log by another transaction of its number. -/
def EndsReach (log : List WalRecord) : Prop :=
  ∀ before transaction after,
    Transaction.ofLog log = before ++ transaction :: after ->
      transaction.torn = false -> transaction.finished = false ->
        ∀ later ∈ after, later.seq ≠ transaction.seq

theorem Transaction.latest_of_endsReach
    {read : List Transaction}
    (reach : ∀ before transaction after,
      read.reverse = before ++ transaction :: after ->
        transaction.torn = false -> transaction.finished = false ->
          ∀ later ∈ after, later.seq ≠ transaction.seq) :
    Latest read := by
  induction read with
  | nil => trivial
  | cons transaction earlierOnes hypothesis =>
      rw [List.reverse_cons] at reach
      constructor
      · intro earlier member unended
        obtain ⟨before, after, parts⟩ :=
          List.append_of_mem (List.mem_reverse.mpr member)
        refine reach before earlier (after ++ [transaction]) ?_ unended.1
          unended.2 transaction (by simp)
        rw [parts, List.append_assoc, List.cons_append]
      · apply hypothesis
        intro before other after parts whole unfinished later member
        refine reach before other (after ++ [transaction]) ?_ whole unfinished
          later (List.mem_append_left _ member)
        rw [parts, List.append_assoc, List.cons_append]

/-- The frames of some transactions are in order when each is. -/
theorem forM_validate_iff {transactions : List Transaction} :
    transactions.forM Transaction.validate = .ok () ↔
      ∀ transaction ∈ transactions, transaction.validate = .ok () := by
  induction transactions with
  | nil => simp [List.forM, pure, Except.pure]
  | cons transaction transactions hypothesis =>
      rw [List.forM, List.forall_mem_cons, ← hypothesis]
      cases transaction.validate with
      | error error => simp [bind, Except.bind]
      | ok done => simp [bind, Except.bind]

/-- The ends a recovery writes. -/
theorem flatMap_ending (transactions : List Transaction) :
    transactions.flatMap Transaction.ending =
      (Transaction.unendedSeqs transactions).map WalRecord.ended := by
  induction transactions with
  | nil => rfl
  | cons transaction transactions hypothesis =>
      rw [List.flatMap_cons, hypothesis]
      by_cases unended : transaction.Unended
      · have open_ : ¬ (transaction.torn = true ∨
            transaction.finished = true) := by
          simp [unended.1, unended.2]
        rw [Transaction.ending, if_neg open_]
        simp [Transaction.unendedSeqs, unended]
      · have closed : transaction.torn = true ∨
            transaction.finished = true := by
          simpa [Transaction.Unended, ← not_and_or, or_iff_not_imp_left]
            using unended
        rw [Transaction.ending, if_pos closed]
        simp [Transaction.unendedSeqs, unended]

/-- The transactions of a log after some ends. -/
theorem ofLog_append_ended (log : List WalRecord) (seqs : List Nat) :
    Transaction.ofLog (log ++ seqs.map WalRecord.ended) =
      (Transaction.finishAll seqs (Transaction.ofLog log).reverse).reverse := by
  simp [Transaction.ofLog, List.foldl_map, Transaction.finishAll,
    Transaction.add]

section Recoveries

variable {hash : List UInt8 -> String} {layout : Layout}

/-- Nothing is left to replay, to end or to remember. -/
theorem recoverLog_of_settled
    {disk : Disk}
    {transactions : List Transaction}
    (read : Transaction.ofLog disk.log = transactions.map Transaction.settle)
    (inOrder : ∀ transaction ∈ transactions, transaction.validate = .ok ())
    (remembered : ∀ transaction ∈ transactions, transaction.torn = false ->
      transaction.seq ∈ disk.history.map HistoryRecord.seq) :
    recoverLog hash layout disk = (.ok (), disk) := by
  have valid :
      (Transaction.ofLog disk.log).forM Transaction.validate = .ok () := by
    rw [read, forM_validate_iff]
    intro transaction member
    obtain ⟨original, isOriginal, rfl⟩ := List.mem_map.mp member
    exact Transaction.validate_settle (inOrder original isOriginal)
  have closed : ∀ transaction ∈ Transaction.ofLog disk.log,
      transaction.torn = true ∨ transaction.finished = true := by
    rw [read]
    intro transaction member
    obtain ⟨original, _, rfl⟩ := List.mem_map.mp member
    have ended := original.not_unended_settle
    simpa [Transaction.Unended, ← not_and_or, or_iff_not_imp_left] using ended
  have nothing : replays layout disk.log = [] := by
    rw [replays, List.flatMap_eq_nil_iff]
    intro transaction member
    rw [Transaction.replays, if_pos (closed transaction member)]
  have noEnds : (Transaction.ofLog disk.log).flatMap Transaction.ending = [] := by
    rw [List.flatMap_eq_nil_iff]
    intro transaction member
    rw [Transaction.ending, if_pos (closed transaction member)]
  have noEntries : (Transaction.ofLog disk.log).flatMap
      (Transaction.memory (disk.history.map HistoryRecord.seq)) = [] := by
    rw [List.flatMap_eq_nil_iff]
    intro transaction member
    rw [read] at member
    obtain ⟨original, isOriginal, rfl⟩ := List.mem_map.mp member
    rw [Transaction.memory, if_pos]
    cases torn : original.torn with
    | true => exact .inl (by simpa using torn)
    | false => exact .inr (by simpa using remembered original isOriginal torn)
  have runs : applyReplays hash layout (replays layout disk.log) disk.tree =
      (.ok (), disk.tree) := by
    rw [nothing]
    rfl
  rw [recoverLog_of_ok valid runs, noEnds, noEntries]
  simp

/-- After a recovery that succeeds, another one succeeds and changes nothing,
exactly when no transaction it finished was followed by another of its number. -/
theorem recoverLog_again_iff
    (disk next : Disk)
    (recovers : recoverLog hash layout disk = (.ok (), next)) :
    recoverLog hash layout next = (.ok (), next) ↔ EndsReach disk.log := by
  obtain ⟨inOrder, tree, _, rfl⟩ := recoverLog_eq_ok recovers
  rw [flatMap_ending] at *
  constructor
  · intro again before transaction after parts whole unfinished later member
      same
    obtain ⟨_, _, _, unchanged⟩ := recoverLog_eq_ok again
    have noEnds : (Transaction.ofLog (disk.log ++
        (Transaction.unendedSeqs (Transaction.ofLog disk.log)).map
          WalRecord.ended)).flatMap Transaction.ending = [] := by
      simpa using congrArg Disk.log unchanged
    have kept : transaction ∈ Transaction.ofLog (disk.log ++
        (Transaction.unendedSeqs (Transaction.ofLog disk.log)).map
          WalRecord.ended) := by
      rw [ofLog_append_ended, List.mem_reverse, parts]
      simp only [List.reverse_append, List.reverse_cons, List.append_assoc,
        List.singleton_append]
      exact Transaction.mem_finishAll_of_later (List.mem_reverse.mpr member)
        same
    have ends := List.flatMap_eq_nil_iff.mp noEnds transaction kept
    simp [Transaction.ending, whole, unfinished] at ends
  · intro reach
    have latest : Transaction.Latest (Transaction.ofLog disk.log).reverse := by
      apply Transaction.latest_of_endsReach
      rw [List.reverse_reverse]
      exact reach
    have settled : Transaction.ofLog (disk.log ++
        (Transaction.unendedSeqs (Transaction.ofLog disk.log)).map
          WalRecord.ended) =
            (Transaction.ofLog disk.log).map Transaction.settle := by
      rw [ofLog_append_ended, Transaction.finishAll_eq_map latest,
        List.map_reverse, List.reverse_reverse]
      intro number
      simp [Transaction.mem_unendedSeqs]
    apply recoverLog_of_settled settled
    · exact forM_validate_iff.mp inOrder
    · intro transaction member whole
      by_cases known :
          transaction.seq ∈ disk.history.map HistoryRecord.seq
      · simp only [List.map_append, List.mem_append]
        exact .inl known
      · simp only [List.map_append, List.mem_append]
        refine .inr (List.mem_map.mpr ⟨.of transaction.seq
          transaction.principal transaction.cmd transaction.events
          (transaction.records.filterMap WalRecord.operation), ?_, rfl⟩)
        refine List.mem_flatMap.mpr ⟨transaction, member, ?_⟩
        simp [Transaction.memory, whole, known]

end Recoveries

/-- A log of four transactions: the first has ended, the second is torn, the
third took its number and had removed its file when it was cut off, and the last
one had nothing to write. -/
def interruptedDisk : Disk where
  tree := .bare
  log := [.begin 1 "job0" "agent0" "cat a.txt" [] (some 0), .ended 1,
    .begin 2 "job1" "agent1" "rm b.txt"
      [⟨⟨"agent1"⟩, .delete, ⟨["b.txt"]⟩⟩] (some 1),
    .begin 2 "job2" "agent2" "rm c.txt"
      [⟨⟨"agent2"⟩, .delete, ⟨["c.txt"]⟩⟩] (some 1), .delete "c.txt",
    .begin 3 "job3" "agent3" "cat d.txt" [] (some 0)]
  history := [.of 1 "agent0" "cat a.txt" [] []]

/-- A recovery ends the last two, and remembers them. -/
def interruptedAgain : Disk where
  tree := .bare
  log := interruptedDisk.log ++ [.ended 2, .ended 3]
  history := [.of 1 "agent0" "cat a.txt" [] [],
    .of 2 "agent2" "rm c.txt" [⟨⟨"agent2"⟩, .delete, ⟨["c.txt"]⟩⟩]
      [.remove ["c.txt"]],
    .of 3 "agent3" "cat d.txt" [] []]

theorem recovers_interruptedDisk :
    recoverLog (fun _ => "") ⟨[], []⟩ interruptedDisk =
      (.ok (), interruptedAgain) :=
  rfl

/-- The recovery ends what it finished although a number was used twice: the
torn transaction came first. -/
theorem recoverLog_again_interruptedDisk :
    recoverLog (fun _ => "") ⟨[], []⟩ interruptedAgain =
      (.ok (), interruptedAgain) := by
  apply (recoverLog_again_iff interruptedDisk interruptedAgain
    recovers_interruptedDisk).mpr
  intro before transaction after parts whole unfinished later member
  have apart : (Transaction.ofLog interruptedDisk.log).Pairwise
      fun transaction later =>
        transaction.Unended -> later.seq ≠ transaction.seq := by decide
  rw [parts, List.pairwise_append] at apart
  exact (List.pairwise_cons.mp apart.2.1).1 later member ⟨whole, unfinished⟩

/-! ## What sessions leave on disk -/

/-- The line that opens a transaction of `count` operations. -/
def beginning
    (uid : String)
    (seq : Nat)
    (principal cmd : String)
    (events : List Event)
    (count : Nat) : WalRecord :=
  .begin seq uid principal cmd events (some count)

section Sessions

variable (hash : List UInt8 -> String) (layout : Layout)

/-- What sessions, crashes and restarts leave on disk.  A commit takes the number
after the last one the history records. -/
inductive Reached : Disk -> Prop
  /-- Both logs are empty. -/
  | fresh (tree : FileTree) : Reached ⟨tree, [], []⟩
  /-- Commands ran in their snapshots. -/
  | ran
      {disk : Disk}
      (reached : Reached disk)
      (tree : FileTree)
      (seedKept : ∀ location, layout.seed <+: location ->
        tree.find location = disk.tree.find location) :
      Reached { disk with tree := tree }
  /-- A commit, and its history entry. -/
  | committed
      {disk next : Disk}
      (reached : Reached disk)
      (uid principal cmd : String)
      (events : List Event)
      (ops : List CommitOp)
      (applies : applyCommit hash layout uid ((load disk.history).seq + 1)
        principal cmd events ops disk = (.ok (), next)) :
      Reached { next with history := next.history ++
        [.of ((load disk.history).seq + 1) principal cmd events ops] }
  /-- A commit, then a crash before the history entry. -/
  | unremembered
      {disk next : Disk}
      (reached : Reached disk)
      (uid principal cmd : String)
      (events : List Event)
      (ops : List CommitOp)
      (applies : applyCommit hash layout uid ((load disk.history).seq + 1)
        principal cmd events ops disk = (.ok (), next)) :
      Reached next
  /-- A commit cut off while its intent was logged. -/
  | torn
      {disk : Disk}
      (reached : Reached disk)
      (uid principal cmd : String)
      (events : List Event)
      (ops : List CommitOp)
      (records : List WalRecord)
      (hashed : intentRecords hash (layout.work uid) disk.tree ops =
        .ok records)
      (count : Nat) :
      Reached { disk with log := disk.log ++
        (beginning uid ((load disk.history).seq + 1) principal cmd events
          ops.length :: records).take count }
  /-- A commit that failed, or was cut off, once its intent was logged: after some
  of its records were applied, and before its end was. -/
  | interrupted
      {disk : Disk}
      (reached : Reached disk)
      (uid principal cmd : String)
      (events : List Event)
      (ops : List CommitOp)
      (records : List WalRecord)
      (hashed : intentRecords hash (layout.work uid) disk.tree ops =
        .ok records)
      (count : Nat) :
      Reached ⟨
        (applyRecords hash layout (layout.work uid) (records.take count)
          disk.tree).2,
        disk.log ++ beginning uid ((load disk.history).seq + 1) principal cmd
          events ops.length :: records,
        disk.history⟩
  /-- A restart, whether its recovery succeeds or not. -/
  | restarted
      {disk : Disk}
      (reached : Reached disk) :
      Reached (recoverLog hash layout disk).2

end Sessions

/-- A read of a file by a principal. -/
def readOf (principal : String) : Event :=
  ⟨⟨principal⟩, .read, ⟨["a.txt"]⟩⟩

/-- Two commands that only read were recorded under one number: the end of the
first could not be logged, so its number was taken again. -/
def overtakenDisk : Disk where
  tree := .bare
  log := [beginning "job0" 1 "agent0" "cat a.txt" [readOf "agent0"] 0,
    beginning "job1" 1 "agent1" "cat a.txt" [readOf "agent1"] 0, .ended 1]
  history := [.of 1 "agent1" "cat a.txt" [readOf "agent1"] []]

/-- A recovery ends the first one, and closes the second one again. -/
def overtakenAgain : Disk :=
  { overtakenDisk with log := overtakenDisk.log ++ [.ended 1] }

theorem reached_overtakenDisk
    (hash : List UInt8 -> String)
    (layout : Layout) : Reached hash layout overtakenDisk := by
  have fresh : Reached hash layout _ := .fresh .bare
  have first := fresh.interrupted "job0" "agent0" "cat a.txt"
    [readOf "agent0"] [] [] rfl 0
  exact first.committed "job1" "agent1" "cat a.txt" [readOf "agent1"] [] rfl

theorem recoverLog_overtakenDisk
    (hash : List UInt8 -> String)
    (layout : Layout) :
    recoverLog hash layout overtakenDisk = (.ok (), overtakenAgain) :=
  rfl

/-- Some logs sessions leave have a recovery that succeeds, after which the next
one still changes the log. -/
theorem not_recoverLog_again_overtakenDisk :
    ¬ ∀ (hash : List UInt8 -> String) (layout : Layout) (disk next : Disk),
      Reached hash layout disk ->
        recoverLog hash layout disk = (.ok (), next) ->
          recoverLog hash layout next = (.ok (), next) := by
  intro idempotent
  have unchanged := idempotent (fun _ => "") ⟨[], []⟩ _ _
    (reached_overtakenDisk _ _) (recoverLog_overtakenDisk _ _)
  have again : recoverLog (fun _ => "") ⟨[], []⟩ overtakenAgain =
      (.ok (), { overtakenAgain with
        log := overtakenAgain.log ++ [.ended 1] }) :=
    rfl
  rw [again] at unchanged
  have lengths := congrArg (fun ran => ran.2.log.length) unchanged
  simp at lengths

end Shellmux
end Marsh
