import Marsh.Shellmux.ReadValidity
import Marsh.Shellmux.Reconcile

/-!
# The authority follows its log

A new mux loads its history log and reconciles the history with the seed.  From
then on, as long as no storage operation fails, its sequence number and path
generations are at every moment what a restart would load, its history has grown
by exactly the events the log has gained, and the log numbers the commits without
a gap.
-/

namespace Marsh
namespace Shellmux

open Library Validator Policy

variable {Storage : Type}

/-- Whether a step concludes no finished run with an error. -/
def MuxState.Unfailing
    (decide : List Event -> Event -> PolicyDecision)
    (persistence : Persistence Storage)
    (state : MuxState Storage) : MuxStep -> Prop
  | .conclude command completed =>
      ∀ execution, completed = .ok execution -> ∃ outcome,
        (conclude decide persistence command.sandbox command.cmd completed
          command.baseSeq command.plan state.authority state.storage).1 =
            .ok outcome
  | .launch _ _ _ | .act => True

/-- What a conclusion does that does not fail. -/
inductive Succeeds
    (decide : List Event -> Event -> PolicyDecision)
    (persistence : Persistence Storage)
    (state next : MuxState Storage)
    (command : Command)
    (completed : Except MuxError Execution) : Prop
  /-- Nothing is touched. -/
  | unchanged
      (authority : next.authority = state.authority)
      (storage : next.storage = state.storage)
  /-- A bypass appends its granted reads. -/
  | reads (translation : Translation)
      (onlyReads : ∀ event ∈ translation.events, event.action = .read)
      (appended : persistence.append state.authority.seq
        command.sandbox.principal command.cmd translation.events []
        state.storage = (.ok (), next.storage))
      (grown : next.authority =
        { state.authority with
          history := state.authority.history ++ translation.events })
  /-- A transaction is applied and recorded. -/
  | commits (translation : Translation) (ops : List CommitOp)
      (applied : Storage)
      (left : completed = .ok ⟨0, some translation⟩)
      (transaction : command.plan = .transaction)
      (publishable : Publishable decide persistence command.sandbox translation
        0 command.baseSeq state.authority state.storage
        (state.authority.history ++ translation.events) ops)
      (applies : persistence.apply command.sandbox.uid (state.authority.seq + 1)
        command.sandbox.principal command.cmd translation.events ops
        state.storage = (.ok (), applied))
      (appends : persistence.append (state.authority.seq + 1)
        command.sandbox.principal command.cmd translation.events ops applied =
          (.ok (), next.storage))
      (recorded : next.authority = state.authority.record
        (state.authority.history ++ translation.events) ops)

section System

variable {decide : List Event -> Event -> PolicyDecision}
variable {persistence : Persistence Storage}
variable {state next : MuxState Storage}

/-- Everything a conclusion can do that does not fail. -/
theorem succeeds_of_steps
    {command : Command}
    {completed : Except MuxError Execution}
    (steps : state.Steps decide persistence (.conclude command completed) next)
    (unfailing : state.Unfailing decide persistence
      (.conclude command completed)) :
    Succeeds decide persistence state next command completed := by
  obtain ⟨running, outcome, concluded, -⟩ := steps
  have taken : ∀ execution, completed = .ok execution ->
      ∃ reported, outcome = .ok reported := by
    intro execution left
    obtain ⟨reported, reports⟩ := unfailing execution left
    rw [concluded] at reports
    exact ⟨reported, reports⟩
  have concludes := concludes_of_conclude concluded
  generalize authority : next.authority = after at concludes
  generalize storage : next.storage = stored at concludes
  cases concludes with
  | unchanged => exact .unchanged authority storage
  | reads translation logged stored _ left onlyReads _ appended =>
      obtain ⟨reported, reports⟩ := taken _ left
      cases logged with
      | error failure => cases reports
      | ok done =>
          exact .reads translation onlyReads (storage ▸ appended) authority
  | failed translation ops failure stored _ left =>
      obtain ⟨reported, reports⟩ := taken _ left
      cases reports
  | recorded translation ops applied stored transaction left publishable applies
      appends =>
      exact .commits translation ops applied left transaction publishable
        applies (storage ▸ appends) authority

/-! ## The log -/

/-- Storage that keeps the history log: a commit is not one of its records, and
an append adds one. -/
structure Persistence.Logs
    (persistence : Persistence Storage)
    (records : Storage -> List HistoryRecord) : Prop where
  applied : ∀ {uid seq principal cmd events ops storage stored},
    persistence.apply uid seq principal cmd events ops storage =
        (.ok (), stored) ->
      records stored = records storage
  appended : ∀ {seq principal cmd events ops storage stored},
    persistence.append seq principal cmd events ops storage =
        (.ok (), stored) ->
      records stored =
        records storage ++ [.of seq principal cmd events ops]

/-- Whether records continue from one number to another: a commit takes the
next number, and a bypass takes none, writes nothing and only reads. -/
inductive Numbered (start : Nat) : List HistoryRecord -> Nat -> Prop
  | nil : Numbered start [] start
  | commit {records : List HistoryRecord} {seq : Nat} (record : HistoryRecord)
      (numbered : Numbered start records seq)
      (next : record.seq = seq + 1) :
      Numbered start (records ++ [record]) (seq + 1)
  | reads {records : List HistoryRecord} {seq : Nat} (record : HistoryRecord)
      (numbered : Numbered start records seq)
      (same : record.seq = seq)
      (writeless : record.paths = [])
      (onlyReads : ∀ event ∈ record.events, event.action = .read) :
      Numbered start (records ++ [record]) seq

/-- No record has a later number than the last one. -/
theorem Numbered.seq_le
    {start seq : Nat}
    {records : List HistoryRecord}
    (numbered : Numbered start records seq) :
    ∀ record ∈ records, record.seq ≤ seq := by
  induction numbered with
  | nil => exact fun record member => absurd member List.not_mem_nil
  | commit record numbered next hypothesis =>
      intro other member
      rcases List.mem_append.mp member with earlier | last
      · exact Nat.le_succ_of_le (hypothesis other earlier)
      · rw [List.mem_singleton.mp last, next]
  | reads record numbered same writeless onlyReads hypothesis =>
      intro other member
      rcases List.mem_append.mp member with earlier | last
      · exact hypothesis other earlier
      · rw [List.mem_singleton.mp last, same]

/-- A record that wrote has a later number than every record before it. -/
theorem Numbered.pairwise
    {start seq : Nat}
    {records : List HistoryRecord}
    (numbered : Numbered start records seq) :
    records.Pairwise fun earlier later =>
      later.paths ≠ [] -> earlier.seq < later.seq := by
  induction numbered with
  | nil => exact .nil
  | commit record numbered next hypothesis =>
      refine List.pairwise_append.mpr ⟨hypothesis, List.pairwise_singleton _ _,
        fun earlier before later last _ => ?_⟩
      rw [List.mem_singleton.mp last, next]
      exact Nat.lt_succ_of_le (numbered.seq_le earlier before)
  | reads record numbered same writeless onlyReads hypothesis =>
      refine List.pairwise_append.mpr ⟨hypothesis, List.pairwise_singleton _ _,
        fun earlier before later last wrote => ?_⟩
      rw [List.mem_singleton.mp last] at wrote
      exact absurd writeless wrote

/-- Between the ends no number is left out. -/
theorem Numbered.exists_seq
    {start seq : Nat}
    {records : List HistoryRecord}
    (numbered : Numbered start records seq) :
    ∀ number, start < number -> number ≤ seq ->
      ∃ record ∈ records, record.seq = number := by
  induction numbered with
  | nil => exact fun number after within => absurd within (Nat.not_le_of_lt after)
  | commit record numbered next hypothesis =>
      intro number after within
      rcases Nat.le_succ_iff.mp within with before | last
      · obtain ⟨earlier, member, is⟩ := hypothesis number after before
        exact ⟨earlier, List.mem_append_left _ member, is⟩
      · exact ⟨record, List.mem_append_right _ (List.mem_singleton.mpr rfl),
          next.trans last.symm⟩
  | reads record numbered same writeless onlyReads hypothesis =>
      intro number after within
      obtain ⟨earlier, member, is⟩ := hypothesis number after within
      exact ⟨earlier, List.mem_append_left _ member, is⟩

theorem load_append
    (records added : List HistoryRecord) :
    load (records ++ added) = added.foldl AuthorityState.load (load records) :=
  List.foldl_append

/-- Loading further records gives authorities that differ in their histories
the same numbers and generations, and each history the same events. -/
theorem foldl_load
    (history : List Event)
    (authority : AuthorityState)
    (added : List HistoryRecord) :
    added.foldl AuthorityState.load { authority with history := history } =
      { added.foldl AuthorityState.load authority with
        history := history ++ added.flatMap HistoryRecord.events } := by
  induction added generalizing history authority with
  | nil => rw [List.flatMap_nil, List.append_nil]; rfl
  | cons record added hypothesis =>
      rw [List.foldl_cons, List.foldl_cons, List.flatMap_cons,
        ← List.append_assoc, ← hypothesis]
      rfl

/-- A recorded commit is what a restart makes of its record. -/
theorem load_record
    (authority : AuthorityState)
    (principal cmd : String)
    (events : List Event)
    (ops : List CommitOp) :
    authority.load (.of (authority.seq + 1) principal cmd events ops) =
      authority.record (authority.history ++ events) ops := by
  rw [AuthorityState.load, AuthorityState.record, HistoryRecord.of]
  dsimp only
  rw [List.foldl_map, Nat.max_eq_right (Nat.le_succ _)]

/-- Recorded reads are what a restart makes of their record. -/
theorem load_reads
    (authority : AuthorityState)
    (principal cmd : String)
    (events : List Event) :
    authority.load (.of authority.seq principal cmd events []) =
      { authority with history := authority.history ++ events } := by
  rw [AuthorityState.load, HistoryRecord.of]
  dsimp only
  rw [Nat.max_self]
  rfl

/-! ## Runs -/

variable {Repository : Type}

/-- The authority of a new mux: what its log loads, with the history reconciled
with what the seed answers. -/
def recovered
    (answers : SeedAnswers Repository)
    (records : List HistoryRecord) : AuthorityState :=
  { load records with history := reconcile answers (load records).history }

variable (decide persistence) in
/-- The mux on storage that does not fail and whose history log only
conclusions write. -/
def durable
    (records : Storage -> List HistoryRecord)
    (answers : SeedAnswers Repository)
    (start : List HistoryRecord) :
    TransitionSystem (MuxState Storage) MuxStep where
  initial state :=
    state.running = [] ∧ records state.storage = start ∧
      state.authority = recovered answers start
  step state step next :=
    state.Steps decide persistence step next ∧
      state.Unfailing decide persistence step ∧
      ((∀ command completed, step ≠ .conclude command completed) ->
        records next.storage = records state.storage)

variable {records : Storage -> List HistoryRecord}
variable {answers : SeedAnswers Repository}
variable {start : List HistoryRecord}

/-- What holds of every state of a run. -/
def Logged
    (records : Storage -> List HistoryRecord)
    (answers : SeedAnswers Repository)
    (start : List HistoryRecord)
    (state : MuxState Storage) : Prop :=
  ∃ added, records state.storage = start ++ added ∧
    state.authority = added.foldl AuthorityState.load (recovered answers start) ∧
    Numbered (load start).seq added state.authority.seq

/-- One more record. -/
theorem Logged.append
    (logged : Logged records answers start state)
    {record : HistoryRecord}
    (appended : records next.storage = records state.storage ++ [record])
    (authority : next.authority = state.authority.load record)
    (continues : ∀ added, Numbered (load start).seq added state.authority.seq ->
      Numbered (load start).seq (added ++ [record]) next.authority.seq) :
    Logged records answers start next := by
  obtain ⟨added, same, loaded, numbered⟩ := logged
  refine ⟨added ++ [record], ?_, ?_, continues added numbered⟩
  · rw [appended, same, List.append_assoc]
  · rw [authority, loaded, List.foldl_append]
    rfl

/-- A step that touches neither the log nor the authority. -/
theorem Logged.kept
    (logged : Logged records answers start state)
    (same : records next.storage = records state.storage)
    (authority : next.authority = state.authority) :
    Logged records answers start next := by
  rw [Logged, same, authority]
  exact logged

/-- Every step keeps the authority what its log has made of it. -/
theorem Logged.step
    (logs : persistence.Logs records)
    (logged : Logged records answers start state)
    {step : MuxStep}
    (steps : (durable decide persistence records answers start).step state step
      next) :
    Logged records answers start next := by
  obtain ⟨steps, unfailing, idle⟩ := steps
  cases step with
  | launch sandbox cmd plan =>
      exact logged.kept (idle fun _ _ same => by cases same) steps.1
  | act => exact logged.kept (idle fun _ _ same => by cases same) steps.1
  | conclude command completed =>
      cases succeeds_of_steps steps unfailing with
      | unchanged authority storage =>
          exact logged.kept (by rw [storage]) authority
      | reads translation onlyReads appended grown =>
          refine logged.append (logs.appended appended) ?_ fun added numbered => ?_
          · rw [grown, load_reads]
          · rw [grown]
            exact .reads _ numbered rfl rfl onlyReads
      | commits translation ops applied left transaction publishable applies
          appends recorded =>
          have appended := logs.appended appends
          rw [logs.applied applies] at appended
          refine logged.append appended ?_ fun added numbered => ?_
          · rw [recorded, load_record]
          · rw [recorded]
            exact .commit _ numbered rfl

/-- In every reachable state of a mux whose storage does not fail, a restart
loads exactly its sequence number and path generations, and the history it holds
is the one it started with and then the events the log has gained since; of the
records gained each one that wrote has a later number than all before it, and no
number up to the last one is left out. -/
theorem authority_followsLog_of_reachable
    (logs : persistence.Logs records)
    (reachable :
      (durable decide persistence records answers start).Reachable state) :
    state.authority.seq = (load (records state.storage)).seq ∧
      state.authority.generations =
        (load (records state.storage)).generations ∧
      ∃ added, records state.storage = start ++ added ∧
        state.authority.history = reconcile answers (load start).history ++
          added.flatMap HistoryRecord.events ∧
        (load (records state.storage)).history = (load start).history ++
          added.flatMap HistoryRecord.events ∧
        (added.Pairwise fun earlier later =>
          later.paths ≠ [] -> earlier.seq < later.seq) ∧
        ∀ number, (load start).seq < number ->
          (number ≤ state.authority.seq ↔
            ∃ record ∈ added, record.seq = number) := by
  suffices logged : Logged records answers start state by
    obtain ⟨added, same, loaded, numbered⟩ := logged
    have restart : load (records state.storage) =
        { state.authority with
          history := (load start).history ++
            added.flatMap HistoryRecord.events } := by
      have began := foldl_load (reconcile answers (load start).history)
        (load start) added
      rw [same, load_append, loaded, recovered, began]
      exact foldl_load (load start).history (load start) added
    refine ⟨by rw [restart], by rw [restart], added, same, ?_, by rw [restart],
      numbered.pairwise, fun number after =>
        ⟨numbered.exists_seq number after, ?_⟩⟩
    · rw [loaded, recovered, foldl_load]
    · rintro ⟨record, member, rfl⟩
      exact numbered.seq_le record member
  refine reachable.invariant (Logged records answers start) ?_
    fun _ _ _ _ logged steps => logged.step logs steps
  rintro first ⟨-, same, authority⟩
  refine ⟨[], by rw [same, List.append_nil], authority, ?_⟩
  rw [authority]
  exact .nil

end System

/-! ## A run -/

/-- Storage that is its history log, and on which every transaction writes
`a`. -/
def logging : Persistence (List HistoryRecord) where
  diffTrees _ _ := .ok [.write ["a"]]
  apply _ _ _ _ _ _ storage := (.ok (), storage)
  append seq principal cmd events ops storage :=
    (.ok (), storage ++ [.of seq principal cmd events ops])

theorem logs_logging : logging.Logs id where
  applied := by
    intro uid seq principal cmd events ops storage stored applies
    cases applies
    rfl
  appended := by
    intro seq principal cmd events ops storage stored appends
    cases appends
    rfl

/-- The record of the writer's commit. -/
def recordA : HistoryRecord :=
  .of 1 "alice" writer.cmd [⟨⟨"alice"⟩, .edit, ⟨["a"]⟩⟩] [.write ["a"]]

theorem conclude_logging (records : List HistoryRecord) :
    conclude gitDecide logging writer.sandbox writer.cmd wroteA writer.baseSeq
        writer.plan .fresh records =
      (.ok (.committed 1 0 [⟨⟨"alice"⟩, .edit, ⟨["a"]⟩⟩]), wrote,
        records ++ [recordA]) :=
  conclude_wroteA rfl rfl rfl

/-- The record of a bypass that read `b` before the restart. -/
def readB : HistoryRecord :=
  .of 0 "bob" "cat b" [⟨⟨"bob"⟩, .read, ⟨["b"]⟩⟩] []

/-- A seed without git. -/
def noGit : SeedAnswers Unit where
  seed := []
  hasGit _ _ := false
  openRepository _ _ := none
  statusFile _ _ _ := .error .notFound

/-- The read is not kept over the restart. -/
theorem reconcile_readB : reconcile noGit (load [readB]).history = [] := by
  refine List.eq_nil_iff_forall_not_mem.mpr fun event member => ?_
  have earlier := (sublist_reconcile noGit _).subset member
  refine action_ne_read_of_mem_reconcile member ?_
  rw [List.mem_singleton.mp earlier]

theorem recovered_readB : recovered noGit [readB] = .fresh := by
  rw [recovered, reconcile_readB]
  rfl

/-- A mux that starts over a log with one read in it commits the writer's edit:
its history is the edit alone, and the log loads the read before it. -/
theorem authority_followsLog_of_reachable_writer :
    wrote.seq = (load [readB, recordA]).seq ∧
      wrote.history = [⟨⟨"alice"⟩, .edit, ⟨["a"]⟩⟩] ∧
      (load [readB, recordA]).history =
        [⟨⟨"bob"⟩, .read, ⟨["b"]⟩⟩, ⟨⟨"alice"⟩, .edit, ⟨["a"]⟩⟩] := by
  let system := durable gitDecide logging id noGit [readB]
  have start : system.Reachable ⟨.fresh, [readB], []⟩ :=
    .start ⟨rfl, rfl, recovered_readB.symm⟩
  have launched : system.Reachable ⟨.fresh, [readB], [writer]⟩ :=
    .step (.launch writer.sandbox writer.cmd .transaction) start
      ⟨⟨rfl, rfl⟩, trivial, fun _ => rfl⟩
  have concluded := conclude_logging [readB]
  have committed : system.Reachable ⟨wrote, [readB, recordA], []⟩ := by
    refine .step (.conclude writer wroteA) launched
      ⟨⟨List.mem_singleton.mpr rfl, _, concluded, [], [], rfl, rfl⟩,
        fun execution _ => ⟨_, congrArg Prod.fst concluded⟩,
        fun never => absurd rfl (never writer wroteA)⟩
  obtain ⟨number, -, added, log, held, loaded, -⟩ :=
    authority_followsLog_of_reachable logs_logging committed
  obtain rfl : added = [recordA] := (List.cons.inj log).2.symm
  rw [reconcile_readB] at held
  exact ⟨number, held, loaded⟩

end Shellmux
end Marsh
