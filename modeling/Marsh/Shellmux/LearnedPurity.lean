import Marsh.Library.PendingWrites
import Marsh.Library.TransitionSystem
import Marsh.Shellmux.JsonLog

/-!
# Learned purity

What traced runs showed about each command, in memory and in an append-only log.
An observer changes the table under one lock and appends to the log under
another; any number of them run at once.
-/

namespace Marsh
namespace Shellmux

open Library

/-! ## The table and its log -/

/-- What the checker knows about one command. -/
inductive Verdict
  /-- It may run in a shared reader tree. -/
  | pure
  /-- It needs the full transaction. -/
  | sandboxed
  deriving DecidableEq, Repr

/-- The command a verdict is about. -/
structure CommandKey where
  /-- The submitted command line. -/
  cmd : Text
  /-- The sandbox's seed-relative directory. -/
  dir : Text
  deriving DecidableEq, Repr

/-- One command's verdict, as a line of the log. -/
structure PurityRecord where
  /-- The submitted command line. -/
  cmd : Text
  /-- The sandbox's seed-relative directory. -/
  dir : Text
  /-- Whether the command was observed requesting and writing nothing. -/
  pure : Bool
  deriving DecidableEq, Repr

namespace PurityRecord

/-- The command a record is about. -/
def key (record : PurityRecord) : CommandKey :=
  ⟨record.cmd, record.dir⟩

/-- The verdict of a record. -/
def verdict (record : PurityRecord) : Verdict :=
  if record.pure then .pure else .sandboxed

/-- The record of a verdict. -/
def of (key : CommandKey) (verdict : Verdict) : PurityRecord where
  cmd := key.cmd
  dir := key.dir
  pure := verdict = .pure

@[simp] theorem key_of (key : CommandKey) (verdict : Verdict) :
    (of key verdict).key = key := rfl

@[simp] theorem verdict_of (key : CommandKey) (verdict : Verdict) :
    (of key verdict).verdict = verdict := by
  cases verdict <;> rfl

end PurityRecord

/-- Directory to command line to verdict. -/
abbrev KnownVerdicts := Text -> Text -> Option Verdict

namespace KnownVerdicts

/-- Nothing is known. -/
def empty : KnownVerdicts := fun _ _ => none

/-- Records a verdict. -/
def insert
    (known : KnownVerdicts)
    (key : CommandKey)
    (verdict : Verdict) : KnownVerdicts :=
  Function.update known key.dir
    (Function.update (known key.dir) key.cmd (some verdict))

/-- `verdict`: a command nothing has been observed about is not vouched for. -/
def verdict (known : KnownVerdicts) (key : CommandKey) : Verdict :=
  (known key.dir key.cmd).getD .sandboxed

theorem verdict_insert
    (known : KnownVerdicts)
    (key other : CommandKey)
    (verdict : Verdict) :
    (known.insert key verdict).verdict other =
      if other = key then verdict else known.verdict other := by
  rw [KnownVerdicts.verdict, insert]
  by_cases dir : other.dir = key.dir
  · rw [dir, Function.update_self]
    by_cases cmd : other.cmd = key.cmd
    · have same : other = key := by
        cases other
        cases key
        simp_all
      rw [cmd, Function.update_self, if_pos same]
      rfl
    · have apart : other ≠ key := fun same => cmd (congrArg _ same)
      rw [Function.update_of_ne cmd, if_neg apart, KnownVerdicts.verdict, dir]
  · have apart : other ≠ key := fun same => dir (congrArg _ same)
    rw [Function.update_of_ne dir, if_neg apart, KnownVerdicts.verdict]

/-- The table of some records, in the order of the file. -/
def ofRecords (records : List PurityRecord) : KnownVerdicts :=
  records.foldl (fun known record => known.insert record.key record.verdict)
    empty

theorem ofRecords_append (records : List PurityRecord) (record : PurityRecord) :
    ofRecords (records ++ [record]) =
      (ofRecords records).insert record.key record.verdict := by
  rw [ofRecords, List.foldl_append]
  rfl

end KnownVerdicts

/-- `restore`: the table the log holds, and the log, whose torn last line is cut
off. -/
def restore
    (format : RecordFormat PurityRecord)
    (file : LogBytes) : Except MuxError KnownVerdicts × LogBytes :=
  let (records, file) := JsonLog.read format file
  (records.map KnownVerdicts.ofRecords, file)

/-- What is restored from a log that was only appended to. -/
theorem restore_batch
    {format : RecordFormat PurityRecord}
    (lawful : format.Lawful)
    (records : List PurityRecord) :
    restore format (JsonLog.batch format records) =
      (.ok (KnownVerdicts.ofRecords records), JsonLog.batch format records) := by
  have whole := JsonLog.read_batch lawful List.not_mem_nil records
  rw [List.append_nil] at whole
  rw [restore, whole]
  rfl

/-! ## Observers -/

/-- The table, the records of the log, and those that observers are still to
append. -/
structure LearnedPurity where
  /-- The table in memory. -/
  known : KnownVerdicts
  /-- The records of the log. -/
  log : List PurityRecord
  /-- Records not appended yet. -/
  pending : Multiset PurityRecord

/-- One critical section. -/
inductive PurityStep
  /-- `observe` compares and changes the table. -/
  | observe (key : CommandKey) (verdict : Verdict)
  /-- `observe` appends its record. -/
  | append (record : PurityRecord)
  /-- The session ends, and the next one restores the table. -/
  | restart

namespace LearnedPurity

/-- The first session, before any run. -/
def empty : LearnedPurity where
  known := .empty
  log := []
  pending := 0

variable (state : LearnedPurity)

/-- What a restoration would know. -/
def restored : KnownVerdicts := .ofRecords state.log

/-- The table after an observation; nothing is appended unless the answer
changed. -/
def observe (key : CommandKey) (verdict : Verdict) : LearnedPurity :=
  if state.known.verdict key = verdict then state
  else
    { state with
      known := state.known.insert key verdict
      pending := .of key verdict ::ₘ state.pending }

/-- The steps of the checker. -/
def Steps (step : PurityStep) (next : LearnedPurity) : Prop :=
  match step with
  | .observe key verdict => next = state.observe key verdict
  | .append record =>
      ∃ rest, state.pending = record ::ₘ rest ∧
        next = { state with log := state.log ++ [record], pending := rest }
  | .restart =>
      state.pending = 0 ∧ next = { state with known := state.restored }

/-- The log agrees with memory: once every append is done, restoring it yields
for every command the verdict the table holds. -/
def Agrees : Prop :=
  state.pending = 0 ->
    ∀ key, state.restored.verdict key = state.known.verdict key

end LearnedPurity

/-- The learned checker as a transition system. -/
def purityMachine : TransitionSystem LearnedPurity PurityStep where
  initial state := state = .empty
  step := LearnedPurity.Steps

/-! ## A command's copies -/

namespace LearnedPurity

/-- The appends to come that are about one command, as writes to its copy. -/
def sent
    (pending : Multiset PurityRecord)
    (key : CommandKey) : Multiset (Unit × Verdict) :=
  (pending.filter fun record => record.key = key).map
    fun record => ((), record.verdict)

theorem sent_cons
    (record : PurityRecord)
    (pending : Multiset PurityRecord)
    (key : CommandKey) :
    sent (record ::ₘ pending) key =
      if key = record.key then ((), record.verdict) ::ₘ sent pending key
      else sent pending key := by
  rw [sent, Multiset.filter_cons]
  by_cases same : key = record.key
  · rw [if_pos same, if_pos same.symm, Multiset.map_add, sent]
    rfl
  · rw [if_neg same, if_neg (Ne.symm same), zero_add, sent]

/-- What the observers of one command do: the table has its verdict, the log a
copy, and appends are writes to the copy. -/
def writes (state : LearnedPurity) (key : CommandKey) :
    PendingWrites Unit Verdict where
  current := state.known.verdict key
  copy _ := state.restored.verdict key
  pending := sent state.pending key

/-- An append comes in time: its verdict is the one in memory, or that one is
still to be appended. -/
def Timely (state : LearnedPurity) : PurityStep -> Prop
  | .append record => (state.writes record.key).Timely () record.verdict
  | _ => True

/-- No two observers of one command are between their sections at once. -/
def Apart (state : LearnedPurity) : PurityStep -> Prop
  | .observe key verdict =>
      state.known.verdict key ≠ verdict ->
        ∀ record ∈ state.pending, record.key ≠ key
  | _ => True

/-- Each command's copy in the log has the verdict in memory, or it is still to
be appended. -/
def Upheld (state : LearnedPurity) : Prop :=
  ∀ key, (state.writes key).Upheld ()

variable {state next : LearnedPurity} {step : PurityStep}

theorem Upheld.agrees (upheld : state.Upheld) : state.Agrees := by
  intro landed key
  refine PendingWrites.copy_of_upheld ?_ (upheld key)
  rw [writes, landed]
  rfl

/-- An observation sets the verdict of its own command, and sends it to the
log. -/
theorem writes_observe
    (key other : CommandKey)
    {verdict : Verdict}
    (changes : state.known.verdict key ≠ verdict) :
    (state.observe key verdict).writes other =
      if other = key then (state.writes key).set verdict {()}
      else state.writes other := by
  rw [observe, if_neg changes]
  by_cases same : other = key
  · subst same
    rw [if_pos rfl, writes, writes, PendingWrites.set]
    congr 1
    · exact (KnownVerdicts.verdict_insert ..).trans (if_pos rfl)
    · change sent (.of other verdict ::ₘ state.pending) other = _
      rw [sent_cons, PurityRecord.key_of, if_pos rfl, PurityRecord.verdict_of]
      rfl
  · rw [if_neg same, writes, writes]
    congr 1
    · exact (KnownVerdicts.verdict_insert ..).trans (if_neg same)
    · change sent (.of key verdict ::ₘ state.pending) other = _
      rw [sent_cons, PurityRecord.key_of, if_neg same]

/-- An append lands on the copy of its own command. -/
theorem writes_append
    {record : PurityRecord}
    {rest : Multiset PurityRecord}
    (pending : state.pending = record ::ₘ rest)
    (other : CommandKey) :
    LearnedPurity.writes
        { state with log := state.log ++ [record], pending := rest } other =
      if other = record.key then
        (state.writes record.key).land () record.verdict (sent rest other)
      else state.writes other := by
  by_cases same : other = record.key
  · subst same
    rw [if_pos rfl, writes, PendingWrites.land]
    congr 1
    funext target
    rw [restored, KnownVerdicts.ofRecords_append,
      KnownVerdicts.verdict_insert, if_pos rfl, Function.update_self]
  · rw [if_neg same, writes, writes]
    congr 1
    · funext target
      rw [restored, KnownVerdicts.ofRecords_append,
        KnownVerdicts.verdict_insert, if_neg same, restored]
    · rw [pending, sent_cons, if_neg same]

theorem Upheld.of_step
    (upheld : state.Upheld)
    (steps : state.Steps step next)
    (timely : state.Timely step) : next.Upheld := by
  intro other
  cases step with
  | observe key verdict =>
      obtain rfl := steps
      by_cases changes : state.known.verdict key = verdict
      · rw [observe, if_pos changes]
        exact upheld other
      · rw [writes_observe key other changes]
        split_ifs
        · exact PendingWrites.upheld_set (Multiset.mem_singleton_self ())
        · exact upheld other
  | append record =>
      obtain ⟨rest, pending, rfl⟩ := steps
      rw [writes_append pending]
      split_ifs with same
      · subst same
        refine PendingWrites.upheld_land ?_ (fun _ => timely) (upheld _)
        change sent state.pending record.key = _
        rw [pending, sent_cons, if_pos rfl]
      · exact upheld other
  | restart =>
      obtain ⟨-, rfl⟩ := steps
      exact .inl rfl

/-- Every append to come carries the verdict in memory. -/
def Current (state : LearnedPurity) : Prop :=
  ∀ record ∈ state.pending, record.verdict = state.known.verdict record.key

theorem Current.timely
    (current : state.Current)
    (steps : state.Steps step next) : state.Timely step := by
  cases step with
  | append record =>
      obtain ⟨rest, pending, -⟩ := steps
      exact .inl (current record (pending ▸ Multiset.mem_cons_self record rest))
  | observe | restart => exact trivial

theorem Current.of_step
    (current : state.Current)
    (steps : state.Steps step next)
    (apart : state.Apart step) : next.Current := by
  cases step with
  | observe key verdict =>
      obtain rfl := steps
      by_cases changes : state.known.verdict key = verdict
      · rw [observe, if_pos changes]
        exact current
      · rw [observe, if_neg changes]
        intro record member
        change record.verdict =
          (state.known.insert key verdict).verdict record.key
        rw [KnownVerdicts.verdict_insert]
        rcases Multiset.mem_cons.mp member with rfl | old
        · rw [PurityRecord.key_of, if_pos rfl, PurityRecord.verdict_of]
        · rw [if_neg (apart changes record old), current record old]
  | append record =>
      obtain ⟨rest, pending, rfl⟩ := steps
      exact fun other member =>
        current other (pending ▸ Multiset.mem_cons_of_mem member)
  | restart =>
      obtain ⟨ended, rfl⟩ := steps
      intro record member
      change record ∈ state.pending at member
      rw [ended] at member
      exact absurd member (Multiset.notMem_zero record)

end LearnedPurity

/-- Where every append comes in time, the log agrees with memory. -/
theorem agrees_of_timelyAppends
    {state : LearnedPurity}
    (reachable :
      (purityMachine.restrict LearnedPurity.Timely).Reachable state) :
    state.Agrees := by
  refine LearnedPurity.Upheld.agrees (reachable.invariant _ ?_ ?_)
  · rintro _ rfl
    exact fun key => .inl rfl
  · intro state step next _ upheld steps
    exact upheld.of_step steps.1 steps.2

/-- Where no two observers of one command are between their sections at once,
every append comes in time. -/
theorem agrees_of_apart
    {state : LearnedPurity}
    (reachable :
      (purityMachine.restrict LearnedPurity.Apart).Reachable state) :
    state.Agrees := by
  have both : state.Upheld ∧ state.Current := by
    refine reachable.invariant
      (fun state => state.Upheld ∧ state.Current) ?_ ?_
    · rintro _ rfl
      exact ⟨fun key => .inl rfl, fun record member =>
        absurd member (Multiset.notMem_zero record)⟩
    · intro state step next _ holds steps
      exact ⟨holds.1.of_step steps.1 (holds.2.timely steps.1),
        holds.2.of_step steps.1 steps.2⟩
  exact both.1.agrees

/-! ## Runs -/

/-- The command of the runs below. -/
def buildKey : CommandKey := ⟨"make".toList, []⟩

/-- Another command, of a directory. -/
def testKey : CommandKey := ⟨"make test".toList, "lib".toList⟩

/-- One session finds a command pure.  In the next another command is found pure
and demoted before its first record is appended, and the appends of its two
observers come in order: what a third session restores is what memory holds. -/
theorem agrees_of_timelyAppends_demoted :
    ∃ state : LearnedPurity, state.known.verdict buildKey = .sandboxed ∧
      state.known.verdict testKey = .pure ∧
      state.restored.verdict buildKey = .sandboxed ∧
      state.restored.verdict testKey = .pure := by
  let timely := purityMachine.restrict LearnedPurity.Timely
  have found : timely.Reachable _ :=
    .step (.observe testKey .pure) (.start rfl) ⟨rfl, trivial⟩
  have recorded : timely.Reachable _ :=
    .step (.append (.of testKey .pure)) found
      ⟨⟨0, by decide, rfl⟩, .inl (by decide)⟩
  have restarted : timely.Reachable _ :=
    .step .restart recorded ⟨⟨rfl, rfl⟩, trivial⟩
  have again : timely.Reachable _ :=
    .step (.observe buildKey .pure) restarted ⟨rfl, trivial⟩
  have demoted : timely.Reachable _ :=
    .step (.observe buildKey .sandboxed) again ⟨rfl, trivial⟩
  have first : timely.Reachable _ :=
    .step (.append (.of buildKey .pure)) demoted
      ⟨⟨{.of buildKey .sandboxed}, by decide, rfl⟩, .inr (by
        unfold PendingWrites.Awaits
        decide)⟩
  have last : timely.Reachable _ :=
    .step (.append (.of buildKey .sandboxed)) first
      ⟨⟨0, by decide, rfl⟩, .inl (by decide)⟩
  have agrees := agrees_of_timelyAppends last rfl
  refine ⟨_, ?_, ?_, (agrees buildKey).trans ?_, (agrees testKey).trans ?_⟩ <;>
    decide

/-- Of two observers of one command that cross, the one that changed the table
first appends last: a command demoted in memory is restored as pure. -/
theorem not_agrees_of_crossing :
    ∃ state, purityMachine.Reachable state ∧ state.pending = 0 ∧
      state.known.verdict buildKey = .sandboxed ∧
      state.restored.verdict buildKey = .pure ∧ ¬ state.Agrees := by
  have found : purityMachine.Reachable _ :=
    .step (.observe buildKey .pure) (.start rfl) rfl
  have demoted : purityMachine.Reachable _ :=
    .step (.observe buildKey .sandboxed) found rfl
  have overtaken : purityMachine.Reachable _ :=
    .step (.append (.of buildKey .sandboxed)) demoted
      ⟨{.of buildKey .pure}, by decide, rfl⟩
  have finished : purityMachine.Reachable _ :=
    .step (.append (.of buildKey .pure)) overtaken ⟨0, rfl, rfl⟩
  refine ⟨_, finished, rfl, by decide, by decide, fun agrees => ?_⟩
  exact absurd (agrees rfl buildKey) (by decide)

end Shellmux
end Marsh
