import Marsh.Shellmux.CompletionCallbacks
import Marsh.Shellmux.SoundLedgers

/-!
# Every command is accounted for

At each stage of a command one thing holds of the session: its row runs it, or
its conclusion is to come, or its completion is to be announced, or it was.
-/

namespace Marsh
namespace Shellmux

open Library

/-! ## What a stage says of the session -/

/-- The row that a stage is about. -/
def Stage.Of (stage : Stage) (job : Job) : Prop :=
  match stage with
  | .running uid => job.sandbox.uid = uid ∧ job.running.isSome = true
  | .reaped conclusion =>
      job.id = conclusion.id ∧ job.running.isSome = false
  | .announcing | .finished => False

theorem Stage.Of.of_change
    {stage : Stage}
    {job after : Job}
    (of : stage.Of job)
    (id : after.id = job.id)
    (sandbox : after.sandbox = job.sandbox)
    (running : after.running.isSome = job.running.isSome) : stage.Of after := by
  cases stage with
  | running uid => exact ⟨sandbox ▸ of.1, running.trans of.2⟩
  | reaped conclusion => exact ⟨id.trans of.1, running.trans of.2⟩
  | announcing | finished => exact of

namespace CompletionState

variable (state : CompletionState)

/-- A row that a stage is about is the command's. -/
def Housed (command : Nat) (stage : Stage) : Prop :=
  ∃ job ∈ state.session.jobs.table.rows,
    stage.Of job ∧ state.ledger.shells command = job.sandbox

/-- What holds of the session while a command is at a stage. -/
def Holds (command : Nat) : Stage -> Prop
  | .running uid => state.Housed command (.running uid)
  | .reaped conclusion =>
      conclusion ∈ state.session.jobs.unconcluded ∧
        state.Housed command (.reaped conclusion)
  | .announcing =>
      ∃ origin exitCode done,
        .finishing .conclusion origin (state.ledger.shells command) exitCode
            done ∈ state.session.deliveries ∧
          state.ledger.codes command = some exitCode ∧
          ∀ given, done = some given ->
            state.ledger.attached given = some command
  | .finished =>
      some command ∈ state.ledger.announced.map Prod.fst

/-- What a callback was attached to, called with and what was announced is in the
ledger. -/
structure Recorded (state : CompletionState) : Prop where
  registered : ∀ done command, state.ledger.attached done = some command ->
    done ∈ state.session.registered
  called : state.ledger.calls.map Prod.fst = state.session.called
  told : state.session.told.filterMap FrontendEvent.finishedShell =
    state.ledger.announced.map Prod.snd

/-- At most one completion of a conclusion is to be announced, and before it is
the conclusion task goes no further; a failed launch calls nothing. -/
structure Delivering (session : DeliveryState) : Prop where
  reporting : (∃ delivery ∈ session.deliveries, delivery.concludes) ->
    ∃ id retained, session.jobs.concluder = .reporting id retained
  single : (session.deliveries.filter fun delivery =>
    delivery.concludes).card ≤ 1
  silent : ∀ origin shell exitCode done,
    .finishing .launch origin shell exitCode (some done) ∉ session.deliveries

/-- Every command is accounted for, and every row that runs, conclusion and
completion is a command's. -/
structure Accounted (state : CompletionState) : Prop where
  formed : state.session.jobs.WellFormed
  opened : state.session.jobs.queue.closed = false
  once : state.session.CalledOnce
  sound : state.ledger.Sound
  recorded : state.Recorded
  delivering : Delivering state.session
  distinct : (state.session.jobs.unconcluded.map Conclusion.id).Nodup
  holds : ∀ command stage, state.ledger.Has command stage ->
    state.Holds command stage
  runs : ∀ job ∈ state.session.jobs.table.rows, job.running.isSome ->
    ∃ command, state.ledger.Has command (.running job.sandbox.uid)
  ends : ∀ conclusion ∈ state.session.jobs.unconcluded,
    ∃ command, state.ledger.Has command (.reaped conclusion)
  announces : ∀ delivery ∈ state.session.deliveries, delivery.concludes ->
    ∃ command, state.ledger.Has command .announcing
  dones : ∀ uid done, state.session.dones uid = some done ->
    ∃ command stage, state.ledger.Has command stage ∧
      (stage = .running uid ∨ ∃ conclusion, stage = .reaped conclusion) ∧
      state.ledger.attached done = some command ∧
      (state.ledger.shells command).uid = uid

/-- The completions of conclusions are the same. -/
theorem mem_concludes
    {session next : DeliveryState}
    (conclusions : next.deliveries.filter (fun delivery => delivery.concludes) =
      session.deliveries.filter fun delivery => delivery.concludes)
    (delivery : Delivery) :
    delivery ∈ next.deliveries ∧ delivery.concludes = true ↔
      delivery ∈ session.deliveries ∧ delivery.concludes = true := by
  have same := congrArg (fun deliveries => delivery ∈ deliveries) conclusions
  simpa only [Multiset.mem_filter, eq_iff_iff] using same

theorem Delivering.of_filter
    {session next : DeliveryState}
    (delivering : Delivering session)
    (conclusions : next.deliveries.filter (fun delivery => delivery.concludes) =
      session.deliveries.filter fun delivery => delivery.concludes)
    (reporting : (∃ delivery ∈ session.deliveries, delivery.concludes) ->
      ∀ id retained, session.jobs.concluder = .reporting id retained ->
        next.jobs.concluder = .reporting id retained)
    (launches : ∀ origin shell exitCode done,
      .finishing .launch origin shell exitCode (some done) ∈ next.deliveries ->
        .finishing .launch origin shell exitCode (some done) ∈
          session.deliveries) : Delivering next where
  reporting := by
    rintro ⟨delivery, member, holds⟩
    have old := (mem_concludes conclusions delivery).mp ⟨member, holds⟩
    obtain ⟨id, retained, before⟩ := delivering.reporting ⟨delivery, old⟩
    exact ⟨id, retained, reporting ⟨delivery, old⟩ id retained before⟩
  single := conclusions ▸ delivering.single
  silent origin shell exitCode done member :=
    delivering.silent _ _ _ _ (launches origin shell exitCode done member)

section Holds

variable {state next : CompletionState} {command : Nat} {stage : Stage}

/-- What a stage says of the session is left by a step that leaves its row, its
conclusion and its completion. -/
theorem Holds.of_kept
    (holds : state.Holds command stage)
    (rows : ∀ job ∈ state.session.jobs.table.rows, stage.Of job ->
      ∃ after ∈ next.session.jobs.table.rows, after.id = job.id ∧
        after.sandbox = job.sandbox ∧
        after.running.isSome = job.running.isSome)
    (unconcluded : ∀ conclusion, stage = .reaped conclusion ->
      conclusion ∈ state.session.jobs.unconcluded ->
        conclusion ∈ next.session.jobs.unconcluded)
    (deliveries : stage = .announcing -> ∀ delivery ∈ state.session.deliveries,
      delivery.concludes = true -> delivery ∈ next.session.deliveries)
    (shells : next.ledger.shells command = state.ledger.shells command)
    (codes : stage = .announcing ->
      next.ledger.codes command = state.ledger.codes command)
    (attached : ∀ given, state.ledger.attached given = some command ->
      next.ledger.attached given = some command)
    (announced : state.ledger.announced ⊆ next.ledger.announced) :
    next.Holds command stage := by
  have housed : state.Housed command stage -> next.Housed command stage := by
    rintro ⟨job, member, of, own⟩
    obtain ⟨after, kept, id, sandbox, running⟩ := rows job member of
    exact ⟨after, kept, of.of_change id sandbox running,
      shells.trans (own.trans sandbox.symm)⟩
  cases stage with
  | running uid => exact housed holds
  | reaped conclusion =>
      exact ⟨unconcluded conclusion rfl holds.1, housed holds.2⟩
  | announcing =>
      obtain ⟨origin, exitCode, done, member, code, callback⟩ := holds
      refine ⟨origin, exitCode, done, ?_, (codes rfl).trans code,
        fun given holds => attached given (callback given holds)⟩
      rw [shells]
      exact deliveries rfl _ member rfl
  | finished => exact List.map_subset Prod.fst announced holds

end Holds

namespace Accounted

variable {state next : CompletionState} {command : Nat} {stage : Stage}

section Rows

variable (accounted : state.Accounted)

include accounted

/-- A row that a stage is about is busy. -/
theorem busy_of_has
    (has : state.ledger.Has command stage)
    {job : Job}
    (of : stage.Of job) : state.session.Busy job := by
  cases stage with
  | running uid => exact .inl of.2
  | reaped conclusion =>
      exact .inr ⟨conclusion,
        JobState.mem_unconcluded.mp (accounted.holds _ _ has).1, of.1.symm⟩
  | announcing | finished => exact of.elim

/-- The row of the command that runs in it. -/
theorem running_of_has
    {job : Job}
    (member : job ∈ state.session.jobs.table.rows)
    (has : state.ledger.Has command (.running job.sandbox.uid)) :
    job.running.isSome ∧ state.ledger.shells command = job.sandbox := by
  obtain ⟨other, otherMember, ⟨same, running⟩, own⟩ := accounted.holds _ _ has
  obtain rfl := accounted.formed.eq_of_uid otherMember member same
  exact ⟨running, own⟩

/-- The row of a command that was reaped. -/
theorem reaped_of_has
    {conclusion : Conclusion}
    {job : Job}
    (member : job ∈ state.session.jobs.table.rows)
    (named : job.id = conclusion.id)
    (has : state.ledger.Has command (.reaped conclusion)) :
    job.running.isSome = false ∧ state.ledger.shells command = job.sandbox := by
  obtain ⟨-, other, otherMember, ⟨same, running⟩, own⟩ :=
    accounted.holds _ _ has
  obtain rfl := accounted.formed.eq_of_id otherMember member
    (same.trans named.symm)
  exact ⟨running, own⟩

/-- Two conclusions of one job are one. -/
theorem eq_of_id
    {conclusion other : Conclusion}
    (member : conclusion ∈ state.session.jobs.unconcluded)
    (otherMember : other ∈ state.session.jobs.unconcluded)
    (same : conclusion.id = other.id) : conclusion = other :=
  Multiset.inj_on_of_nodup_map accounted.distinct _ member _ otherMember same

/-- The command whose callback is in a row runs in it, or its conclusion is to
come. -/
theorem of_dones
    {job : Job}
    (member : job ∈ state.session.jobs.table.rows)
    {done : Nat}
    (holds : state.session.dones job.sandbox.uid = some done) :
    ∃ command stage, state.ledger.Has command stage ∧ stage.Of job ∧
      (stage = .running job.sandbox.uid ∨
        ∃ conclusion, stage = .reaped conclusion) ∧
      state.ledger.attached done = some command := by
  obtain ⟨command, stage, has, live, attached, own⟩ :=
    accounted.dones _ done holds
  refine ⟨command, stage, has, ?_, live, attached⟩
  rcases live with rfl | ⟨conclusion, rfl⟩
  · exact ⟨rfl, (accounted.running_of_has member has).1⟩
  · obtain ⟨-, other, otherMember, ⟨named, running⟩, shell⟩ :=
      accounted.holds _ _ has
    obtain rfl := accounted.formed.eq_of_uid otherMember member
      ((congrArg Sandbox.uid shell).symm.trans own)
    exact ⟨named, running⟩

/-- The row of a job that is not busy has no callback. -/
theorem dones_eq_none
    {job : Job}
    (member : job ∈ state.session.jobs.table.rows)
    (idle : ¬ state.session.Busy job) :
    state.session.dones job.sandbox.uid = none := by
  refine Option.eq_none_iff_forall_ne_some.mpr fun done holds => ?_
  obtain ⟨command, stage, has, of, -⟩ := accounted.of_dones member holds
  exact idle (accounted.busy_of_has has of)

end Rows

/-- A job whose command runs is owed no conclusion. -/
theorem id_ne_of_runs
    (accounted : state.Accounted)
    {job : Job}
    (member : job ∈ state.session.jobs.table.rows)
    (runs : job.running.isSome = true)
    {conclusion : Conclusion}
    (unconcluded : conclusion ∈ state.session.jobs.unconcluded) :
    conclusion.id ≠ job.id := by
  intro same
  obtain ⟨other, reaped⟩ := accounted.ends conclusion unconcluded
  have idle := (accounted.reaped_of_has member same.symm reaped).1
  exact absurd (runs.symm.trans idle) (by decide)

/-- A quiet step keeps the accounts. -/
theorem of_quiet
    (accounted : state.Accounted)
    (formed : next.session.jobs.WellFormed)
    (opened : next.session.jobs.queue.closed = false)
    (once : next.session.CalledOnce)
    (quiet : state.session.Quiet next.session)
    (ledger : next.ledger = state.ledger) : next.Accounted := by
  have concludes := mem_concludes quiet.conclusions
  refine ⟨formed, opened, once, ledger ▸ accounted.sound, ⟨?_, ?_, ?_⟩,
    accounted.delivering.of_filter quiet.conclusions quiet.reporting
      quiet.launches, ?_, ?_, ?_, ?_, ?_, ?_⟩
  · intro done command attached
    rw [ledger] at attached
    exact quiet.registered (accounted.recorded.registered done command attached)
  · rw [ledger, quiet.called]
    exact accounted.recorded.called
  · rw [ledger, quiet.told]
    exact accounted.recorded.told
  · rw [quiet.unconcluded]
    exact accounted.distinct
  · intro command stage has
    rw [ledger] at has
    refine (accounted.holds command stage has).of_kept ?_ ?_ ?_ ?_ ?_ ?_ ?_
    · exact fun job member of =>
        quiet.rows job member (accounted.busy_of_has has of)
    · exact fun conclusion _ member => quiet.unconcluded ▸ member
    · exact fun _ delivery member holds =>
        ((concludes delivery).mpr ⟨member, holds⟩).1
    · rw [ledger]
    · exact fun _ => by rw [ledger]
    · exact fun given attached => by rwa [ledger]
    · rw [ledger]
      exact List.Subset.refl _
  · intro after member runs
    obtain ⟨job, old, sandbox, running⟩ := quiet.runs after member runs
    rw [ledger, ← sandbox]
    exact accounted.runs job old running
  · intro conclusion member
    rw [ledger]
    exact accounted.ends conclusion (quiet.unconcluded ▸ member)
  · intro delivery member holds
    rw [ledger]
    obtain ⟨old, holds⟩ := (concludes delivery).mp ⟨member, holds⟩
    exact accounted.announces delivery old holds
  · intro uid done holds
    rw [ledger]
    exact accounted.dones uid done (quiet.dones uid done holds)

/-! ### A command ends -/

section Reap

variable
  {id : String}
  {pid : Nat}
  {done : Option Nat}
  {exitCode : Int}
  {jobs : JobState}
  {job : Job}
  {started : StartedCmd}

/-- What a watcher that finds its command does to the rows and the tasks. -/
theorem reap_cases
    (steps : state.session.jobs.Steps (.reap id pid) jobs)
    (found : state.session.jobs.table.find id = some job)
    (running : job.running = some started)
    (ends : started.pid = pid) :
    jobs.table.rows =
        state.session.jobs.table.rows.map (Job.named id Job.reap) ∧
      jobs.concluder = state.session.jobs.concluder := by
  obtain ⟨rest, -, ⟨_, _, -, -, -, rfl⟩ | ⟨other, -⟩⟩ := steps
  · exact ⟨rfl, rfl⟩
  · exact absurd ends (other job found started running)

/-- Only the row of the command that is reaped changes. -/
theorem mem_map_reap
    (accounted : state.Accounted)
    (found : state.session.jobs.table.find id = some job)
    (runs : job.running.isSome = true)
    (has : state.ledger.Has command (.running job.sandbox.uid))
    {other : Nat}
    (otherHas : state.ledger.Has other stage)
    (apart : other ≠ command)
    {row : Job}
    (member : row ∈ state.session.jobs.table.rows)
    (of : stage.Of row) :
    row ∈ state.session.jobs.table.rows.map (Job.named id Job.reap) := by
  refine List.mem_map.mpr ⟨row, member, if_neg fun same => apart ?_⟩
  obtain rfl := accounted.formed.eq_of_id member (JobTable.mem_of_find found)
    (same.trans (JobTable.find_some_id found).symm)
  cases stage with
  | running uid =>
      obtain ⟨rfl, -⟩ := of
      exact accounted.sound.apart _ _ _ otherHas has (by simp)
  | reaped conclusion => exact absurd (runs.symm.trans of.2) (by decide)
  | announcing | finished => exact of.elim

/-- A reaped command's row runs nothing, and its conclusion is to come. -/
theorem of_reap
    (accounted : state.Accounted)
    (steps : state.session.jobs.Steps (.reap id pid) jobs)
    (found : state.session.jobs.table.find id = some job)
    (running : job.running = some started)
    (ends : started.pid = pid)
    (unconcluded : jobs.unconcluded =
      ⟨id, started⟩ ::ₘ state.session.jobs.unconcluded)
    (session : next.session =
      state.session.after (.reap id pid) done exitCode jobs)
    (ledger : next.ledger =
      state.ledger.reap job.sandbox.uid ⟨id, started⟩)
    (formed : next.session.jobs.WellFormed)
    (opened : next.session.jobs.queue.closed = false)
    (once : next.session.CalledOnce) : next.Accounted := by
  have member := JobTable.mem_of_find found
  have named := JobTable.find_some_id found
  have runs : job.running.isSome = true := by rw [running]; rfl
  obtain ⟨command, has⟩ := accounted.runs job member runs
  have free : ∀ other, ¬ state.ledger.Has other (.reaped ⟨id, started⟩) :=
    fun other reaped => accounted.id_ne_of_runs member runs
      (accounted.holds _ _ reaped).1 named.symm
  rw [Ledger.reap, accounted.sound.commandAt_eq has (by simp)] at ledger
  obtain ⟨rows, concluder⟩ := reap_cases steps found running ends
  have deliveries : next.session.deliveries = state.session.deliveries := by
    rw [session]
    exact zero_add _
  have table : next.session.jobs = jobs := by rw [session]; rfl
  refine ⟨formed, opened, once,
    ledger ▸ accounted.sound.move has (by simp) free, ⟨?_, ?_, ?_⟩,
    ⟨?_, ?_, ?_⟩, ?_, ?_, ?_, ?_, ?_, ?_⟩
  · rw [ledger, session]
    exact accounted.recorded.registered
  · rw [ledger, session]
    exact accounted.recorded.called
  · rw [ledger, session]
    exact accounted.recorded.told
  · rw [deliveries, table, concluder]
    exact accounted.delivering.reporting
  · rw [deliveries]
    exact accounted.delivering.single
  · rw [deliveries]
    exact accounted.delivering.silent
  · rw [table, unconcluded, Multiset.map_cons, Multiset.nodup_cons]
    refine ⟨fun member => ?_, accounted.distinct⟩
    obtain ⟨conclusion, old, same⟩ := Multiset.mem_map.mp member
    exact accounted.id_ne_of_runs (JobTable.mem_of_find found) runs old
      (same.trans named.symm)
  · intro other stage otherHas
    rw [ledger] at otherHas
    rcases otherHas.of_move with ⟨rfl, rfl⟩ | ⟨apart, old⟩
    · refine ⟨?_, job.reap, ?_, ⟨named, rfl⟩, ?_⟩
      · rw [table, unconcluded]
        exact Multiset.mem_cons_self _ _
      · rw [table, rows]
        exact List.mem_map.mpr ⟨job, member, if_pos named⟩
      · rw [ledger]
        exact (accounted.running_of_has member has).2
    · refine (accounted.holds other stage old).of_kept ?_ ?_ ?_ ?_ ?_ ?_ ?_
      · intro row rowMember of
        rw [table, rows]
        exact ⟨row, accounted.mem_map_reap found runs has old apart rowMember of,
          rfl, rfl, rfl⟩
      · intro conclusion _ unreaped
        rw [table, unconcluded]
        exact Multiset.mem_cons_of_mem unreaped
      · exact fun _ delivery begun _ => deliveries ▸ begun
      · rw [ledger]
        rfl
      · exact fun _ => by rw [ledger]; rfl
      · exact fun given attached => by rw [ledger]; exact attached
      · rw [ledger]
        exact List.Subset.refl _
  · intro after afterMember afterRuns
    rw [table, rows] at afterMember
    obtain ⟨row, rowMember, rfl⟩ := List.mem_map.mp afterMember
    by_cases same : row.id = id
    · rw [Job.named, if_pos same] at afterRuns
      exact absurd afterRuns Bool.false_ne_true
    · rw [Job.named, if_neg same] at afterRuns ⊢
      obtain ⟨other, otherHas⟩ := accounted.runs row rowMember afterRuns
      refine ⟨other, ledger ▸ otherHas.move_of_stage_ne has ?_ _⟩
      intro uids
      exact same ((congrArg Job.id (accounted.formed.eq_of_uid rowMember member
        (Stage.running.inj uids))).trans named)
  · intro conclusion unreaped
    rw [table, unconcluded, Multiset.mem_cons] at unreaped
    rw [ledger]
    rcases unreaped with rfl | old
    · exact ⟨command, has.move_self _⟩
    · obtain ⟨other, reaped⟩ := accounted.ends conclusion old
      exact ⟨other, reaped.move_of_stage_ne has (by simp) _⟩
  · intro delivery begun concludes
    rw [deliveries] at begun
    rw [ledger]
    obtain ⟨other, announcing⟩ := accounted.announces delivery begun concludes
    exact ⟨other, announcing.move_of_stage_ne has (by simp) _⟩
  · intro uid given holds
    rw [session] at holds
    obtain ⟨other, stage, otherHas, live, attached, own⟩ :=
      accounted.dones uid given holds
    rw [ledger]
    by_cases same : other = command
    · obtain rfl := same
      exact ⟨other, _, has.move_self _, .inr ⟨_, rfl⟩, attached, own⟩
    · exact ⟨other, stage, otherHas.move_of_ne same _, live, attached, own⟩

end Reap

/-! ### A command is published -/

section Publish

variable
  {id : String}
  {origin : Sandbox}
  {started : StartedCmd}
  {killed : Bool}
  {done : Option Nat}
  {exitCode : Int}
  {jobs : JobState}
  {job : Job}

/-- The callback a publication installs. -/
def installed (job : Job) (killed : Bool) (done : Option Nat) : Option Nat :=
  if (job.retired && !killed) = true then none else done

theorem isSome_running_publish (started : StartedCmd) (killed : Bool) (job : Job) :
    (job.publish started killed).running.isSome = true := by
  unfold Job.publish
  split_ifs <;> rfl

/-- A publication installs its callback in a row that has none. -/
theorem donesAfter_publish
    (found : state.session.row id = some job)
    (silent : state.session.dones job.sandbox.uid = none) :
    state.session.donesAfter done (.publish id origin started killed) =
      Function.update state.session.dones job.sandbox.uid
        (installed job killed done) := by
  simp only [DeliveryState.donesAfter, found, installed]
  split_ifs
  · rw [← silent, Function.update_eq_self]
  · rfl

theorem published_eq
    (found : state.session.row id = some job)
    (reported : ¬ ((job.retired && !killed) = true ∧
      origin ∈ state.session.owned)) :
    state.published id origin started killed done =
      state.ledger.publish job.sandbox.uid started.sandbox
        (installed job killed done) := by
  simp only [published, found, if_neg reported, installed]

/-- A published command runs in a row that was not busy. -/
theorem of_publish
    (accounted : state.Accounted)
    (steps : state.session.jobs.Steps (.publish id origin started killed) jobs)
    (ready : state.session.Ready done (.publish id origin started killed))
    (found : state.session.row id = some job)
    (idle : ¬ state.session.Busy job)
    (own : job.sandbox = started.sandbox)
    (reported : ¬ ((job.retired && !killed) = true ∧
      origin ∈ state.session.owned))
    (unconcluded : jobs.unconcluded = state.session.jobs.unconcluded)
    (session : next.session =
      state.session.after (.publish id origin started killed) done exitCode jobs)
    (ledger : next.ledger = state.published id origin started killed done)
    (formed : next.session.jobs.WellFormed)
    (opened : next.session.jobs.queue.closed = false)
    (once : next.session.CalledOnce) : next.Accounted := by
  have member := JobTable.mem_of_find found
  have named := JobTable.find_some_id found
  rw [published_eq found reported] at ledger
  have fresh : ∀ given, installed job killed done = some given ->
      state.ledger.attached given = none := by
    intro given installs
    refine Option.eq_none_iff_forall_ne_some.mpr fun command attached => ?_
    rw [installed] at installs
    split_ifs at installs
    exact ready given installs
      (accounted.recorded.registered given command attached)
  have free : ∀ other, ¬ state.ledger.Has other (.running job.sandbox.uid) :=
    fun other has => idle (.inl (accounted.running_of_has member has).1)
  have rows : next.session.jobs.table.rows = state.session.jobs.table.rows.map
      (Job.named id (Job.publish started killed)) := by
    rw [session]
    obtain ⟨rest, -, rfl⟩ := steps
    rfl
  have table : next.session.jobs = jobs := by rw [session]; rfl
  have conclusions : (next.session.deliveries.filter fun delivery =>
      delivery.concludes) =
        state.session.deliveries.filter fun delivery => delivery.concludes := by
    rw [session]
    exact DeliveryState.filter_concludes_of_section _ done exitCode jobs
      (by simp)
  have concludes := mem_concludes conclusions
  refine ⟨formed, opened, once, ledger ▸ accounted.sound.publish free fresh,
    ⟨?_, ?_, ?_⟩, ?_, ?_, ?_, ?_, ?_, ?_, ?_⟩
  · intro given command attached
    rw [session]
    rw [ledger] at attached
    rcases Ledger.of_attached_publish attached with old | new
    · exact List.mem_append_right _
        (accounted.recorded.registered given command old)
    · refine List.mem_append_left _ (Option.mem_toList.mpr ?_)
      rw [installed] at new
      split_ifs at new
      exact new
  · rw [ledger, session, Ledger.calls_publish]
    exact accounted.recorded.called
  · rw [ledger, session, Ledger.announced_publish]
    exact accounted.recorded.told
  · refine accounted.delivering.of_filter conclusions ?_ ?_
    · intro concludes before retained reporting
      rw [table]
      exact DeliveryState.reporting_of_section steps ready concludes reporting
    · intro _ _ _ _ member
      rw [session] at member
      exact DeliveryState.mem_launches_of_section member
  · rw [table, unconcluded]
    exact accounted.distinct
  · intro other stage otherHas
    rw [ledger] at otherHas
    rcases Ledger.has_publish.mp otherHas with ⟨rfl, rfl⟩ | old
    · refine ⟨job.publish started killed, ?_, ⟨?_, ?_⟩, ?_⟩
      · rw [rows]
        exact List.mem_map.mpr ⟨job, member, if_pos named⟩
      · rw [(Job.keeps_publish started killed job).2]
      · exact isSome_running_publish started killed job
      · rw [ledger, Ledger.shells_publish_self, ← own,
          (Job.keeps_publish started killed job).2]
    · refine (accounted.holds other stage old).of_kept ?_ ?_ ?_ ?_ ?_ ?_ ?_
      · intro row rowMember of
        refine ⟨row, ?_, rfl, rfl, rfl⟩
        rw [rows]
        refine List.mem_map.mpr ⟨row, rowMember, if_neg fun same => idle ?_⟩
        obtain rfl := accounted.formed.eq_of_id rowMember member
          (same.trans named.symm)
        exact accounted.busy_of_has old of
      · intro conclusion _ unreaped
        rwa [table, unconcluded]
      · exact fun _ delivery begun holds =>
          ((concludes delivery).mpr ⟨begun, holds⟩).1
      · rw [ledger, Ledger.shells_publish_of_lt old.1]
      · exact fun _ => by rw [ledger, Ledger.codes_publish]
      · exact fun given attached => by
          rw [ledger]
          exact Ledger.attached_publish fresh attached
      · rw [ledger, Ledger.announced_publish]
        exact List.Subset.refl _
  · intro after afterMember afterRuns
    rw [rows] at afterMember
    rw [ledger]
    obtain ⟨row, rowMember, rfl⟩ := List.mem_map.mp afterMember
    by_cases same : row.id = id
    · obtain rfl := accounted.formed.eq_of_id rowMember member
        (same.trans named.symm)
      rw [((Job.keeps_publish started killed).named id row).2]
      exact ⟨_, Ledger.has_publish.mpr (.inl ⟨rfl, rfl⟩)⟩
    · rw [Job.named, if_neg same] at afterRuns ⊢
      obtain ⟨other, otherHas⟩ := accounted.runs row rowMember afterRuns
      exact ⟨other, Ledger.has_publish.mpr (.inr otherHas)⟩
  · intro conclusion unreaped
    rw [table, unconcluded] at unreaped
    rw [ledger]
    obtain ⟨other, reaped⟩ := accounted.ends conclusion unreaped
    exact ⟨other, Ledger.has_publish.mpr (.inr reaped)⟩
  · intro delivery begun holds
    rw [ledger]
    obtain ⟨other, announcing⟩ := accounted.announces delivery
      ((concludes delivery).mp ⟨begun, holds⟩).1 holds
    exact ⟨other, Ledger.has_publish.mpr (.inr announcing)⟩
  · intro uid given holds
    rw [session] at holds
    change state.session.donesAfter done (.publish id origin started killed) uid =
      some given at holds
    rw [donesAfter_publish found (accounted.dones_eq_none member idle)] at holds
    rw [ledger]
    by_cases same : uid = job.sandbox.uid
    · rw [same, Function.update_self] at holds
      refine ⟨state.ledger.count, .running uid,
        Ledger.has_publish.mpr (.inl ⟨rfl, by rw [same]⟩), .inl rfl, ?_, ?_⟩
      · rw [holds]
        exact Ledger.attached_publish_self
      · rw [Ledger.shells_publish_self, ← own, same]
    · rw [Function.update_of_ne same] at holds
      obtain ⟨other, stage, otherHas, live, attached, shell⟩ :=
        accounted.dones uid given holds
      refine ⟨other, stage, Ledger.has_publish.mpr (.inr otherHas), live,
        Ledger.attached_publish fresh attached, ?_⟩
      rw [Ledger.shells_publish_of_lt otherHas.1]
      exact shell

end Publish

/-! ### A command is concluded -/

section Conclude

variable
  {conclusion : Conclusion}
  {retained : Bool}
  {done : Option Nat}
  {exitCode : Int}
  {jobs : JobState}
  {job : Job}

/-- While a conclusion runs no completion of another is to be announced. -/
theorem not_concludes_of_concluding
    (accounted : state.Accounted)
    (concluding : state.session.jobs.concluder = .concluding conclusion)
    {delivery : Delivery}
    (member : delivery ∈ state.session.deliveries) :
    ¬ delivery.concludes = true := by
  intro concludes
  obtain ⟨id, retained, reporting⟩ :=
    accounted.delivering.reporting ⟨delivery, member, concludes⟩
  exact absurd (concluding.symm.trans reporting) (by simp)

/-- The callback in the row of a conclusion was attached to its command. -/
theorem attached_of_conclusion
    (accounted : state.Accounted)
    (has : state.ledger.Has command (.reaped conclusion))
    (member : job ∈ state.session.jobs.table.rows)
    (named : job.id = conclusion.id)
    {given : Nat}
    (holds : state.session.dones job.sandbox.uid = some given) :
    state.ledger.attached given = some command := by
  obtain ⟨other, stage, otherHas, of, live, attached⟩ :=
    accounted.of_dones member holds
  have idle := (accounted.reaped_of_has member named has).1
  rcases live with rfl | ⟨later, rfl⟩
  · exact absurd (of.2.symm.trans idle) (by decide)
  · obtain rfl := accounted.eq_of_id (accounted.holds _ _ has).1
      (accounted.holds _ _ otherHas).1 (named.symm.trans of.1)
    rw [attached, accounted.sound.apart _ _ _ has otherHas (by simp)]

/-- A concluded command's completion is to be announced, with its callback. -/
theorem of_conclude
    (accounted : state.Accounted)
    (steps : state.session.jobs.Steps (.conclude retained) jobs)
    (concluding : state.session.jobs.concluder = .concluding conclusion)
    (unconcluded : state.session.jobs.unconcluded =
      conclusion ::ₘ jobs.unconcluded)
    (session : next.session =
      state.session.after (.conclude retained) done exitCode jobs)
    (ledger : next.ledger = state.ledger.conclude conclusion exitCode
      (state.session.row conclusion.id).isSome)
    (formed : next.session.jobs.WellFormed)
    (opened : next.session.jobs.queue.closed = false)
    (once : next.session.CalledOnce) : next.Accounted := by
  have owed : conclusion ∈ state.session.jobs.unconcluded := by
    rw [unconcluded]
    exact Multiset.mem_cons_self _ _
  obtain ⟨command, has⟩ := accounted.ends conclusion owed
  obtain ⟨-, job, member, ⟨named, -⟩, own⟩ := accounted.holds _ _ has
  have found : state.session.row conclusion.id = some job :=
    named ▸ accounted.formed.find_of_mem member
  have free : ∀ other, ¬ state.ledger.Has other .announcing := by
    intro other announcing
    obtain ⟨_, _, _, begun, -⟩ := accounted.holds _ _ announcing
    exact accounted.not_concludes_of_concluding concluding begun rfl
  rw [Ledger.conclude, accounted.sound.commandAt_eq has (by simp), found]
    at ledger
  dsimp only [Option.isSome_some, if_true] at ledger
  have has_iff : ∀ other stage, next.ledger.Has other stage ↔
      (state.ledger.move command .announcing).Has other stage := by
    intro other stage
    rw [ledger]
    rfl
  have rows : next.session.jobs.table.rows = state.session.jobs.table.rows ∧
      next.session.jobs.concluder = .reporting conclusion.id retained := by
    rw [session]
    obtain ⟨other, again, rfl⟩ := steps
    obtain rfl := ConcludeTask.concluding.inj (again.symm.trans concluding)
    exact ⟨rfl, rfl⟩
  obtain ⟨rows, reporting⟩ := rows
  have table : next.session.jobs = jobs := by rw [session]; rfl
  have deliveries : next.session.deliveries =
      .finishing .conclusion conclusion.started.sandbox job.sandbox exitCode
        (state.session.dones job.sandbox.uid) ::ₘ state.session.deliveries := by
    rw [session]
    change state.session.begun exitCode (.conclude retained) + _ = _
    simp only [DeliveryState.begun, concluding, DeliveryState.deliver, found]
    exact Multiset.singleton_add _ _
  have dones : next.session.dones =
      Function.update state.session.dones job.sandbox.uid none := by
    rw [session]
    change state.session.donesAfter done (.conclude retained) = _
    simp only [DeliveryState.donesAfter, concluding, DeliveryState.silenced,
      found]
  refine ⟨formed, opened, once,
    ledger ▸ accounted.sound.conclude has free exitCode, ⟨?_, ?_, ?_⟩,
    ⟨?_, ?_, ?_⟩, ?_, ?_, ?_, ?_, ?_, ?_⟩
  · rw [ledger, session]
    exact accounted.recorded.registered
  · rw [ledger, session]
    exact accounted.recorded.called
  · rw [ledger, session]
    exact accounted.recorded.told
  · exact fun _ => ⟨conclusion.id, retained, reporting⟩
  · have none : (state.session.deliveries.filter fun delivery =>
        delivery.concludes) = 0 :=
      Multiset.filter_eq_nil.mpr fun delivery begun =>
        accounted.not_concludes_of_concluding concluding begun
    rw [deliveries, Multiset.filter_cons, none, add_zero]
    split_ifs
    · exact (Multiset.card_singleton _).le
    · exact Nat.zero_le _
  · intro origin shell code given begun
    rw [deliveries, Multiset.mem_cons] at begun
    rcases begun with same | old
    · cases same
    · exact accounted.delivering.silent _ _ _ _ old
  · have distinct := accounted.distinct
    rw [unconcluded, Multiset.map_cons, Multiset.nodup_cons] at distinct
    rw [table]
    exact distinct.2
  · intro other stage otherHas
    rcases ((has_iff other stage).mp otherHas).of_move with ⟨rfl, rfl⟩ |
      ⟨apart, old⟩
    · refine ⟨conclusion.started.sandbox, exitCode,
        state.session.dones job.sandbox.uid, ?_, ?_, fun given holds => ?_⟩
      · rw [deliveries, ledger]
        exact Multiset.mem_cons.mpr (.inl (by rw [← own]; rfl))
      · rw [ledger]
        exact Function.update_self _ _ _
      · rw [ledger]
        exact accounted.attached_of_conclusion has member named holds
    · refine (accounted.holds other stage old).of_kept ?_ ?_ ?_ ?_ ?_ ?_ ?_
      · intro row rowMember _
        rw [rows]
        exact ⟨row, rowMember, rfl, rfl, rfl⟩
      · rintro later rfl unreaped
        rw [table]
        rw [unconcluded, Multiset.mem_cons] at unreaped
        refine unreaped.resolve_left ?_
        rintro rfl
        exact apart (accounted.sound.apart _ _ _ old has (by simp))
      · intro _ delivery begun _
        rw [deliveries]
        exact Multiset.mem_cons_of_mem begun
      · rw [ledger]
        rfl
      · rintro rfl
        exact absurd old (free other)
      · exact fun given attached => by rw [ledger]; exact attached
      · rw [ledger]
        exact List.Subset.refl _
  · intro row rowMember runs
    rw [rows] at rowMember
    obtain ⟨other, running⟩ := accounted.runs row rowMember runs
    exact ⟨other, (has_iff _ _).mpr
      (running.move_of_stage_ne has (by simp) _)⟩
  · intro later unreaped
    rw [table] at unreaped
    obtain ⟨other, reaped⟩ := accounted.ends later
      (unconcluded ▸ Multiset.mem_cons_of_mem unreaped)
    refine ⟨other, (has_iff _ _).mpr (reaped.move_of_stage_ne has ?_ _)⟩
    intro same
    have distinct := accounted.distinct
    rw [unconcluded, Multiset.map_cons, Multiset.nodup_cons] at distinct
    refine distinct.1 (Multiset.mem_map.mpr ⟨later, unreaped, ?_⟩)
    rw [Stage.reaped.inj same]
  · exact fun _ _ _ => ⟨command, (has_iff _ _).mpr (has.move_self _)⟩
  · intro uid given holds
    rw [dones] at holds
    by_cases same : uid = job.sandbox.uid
    · rw [same, Function.update_self] at holds
      contradiction
    · rw [Function.update_of_ne same] at holds
      obtain ⟨other, stage, otherHas, live, attached, shell⟩ :=
        accounted.dones uid given holds
      refine ⟨other, stage, (has_iff _ _).mpr (otherHas.move_of_ne ?_ _), live,
        ?_, ?_⟩
      · rintro rfl
        exact same (shell.symm.trans (congrArg Sandbox.uid own))
      · rw [ledger]
        exact attached
      · rw [ledger]
        exact shell

end Conclude

/-! ### A completion is announced -/

section Announce

variable
  {origin shell : Sandbox}
  {exitCode : Int}
  {done : Option Nat}

/-- A completion that is to be announced is the only one, and is a command's. -/
theorem announcing_of_under
    (accounted : state.Accounted)
    {rest : Multiset Delivery}
    (under : state.session.Under
      (.finishing .conclusion origin shell exitCode done) rest) :
    (∀ delivery ∈ rest, ¬ delivery.concludes = true) ∧
      ∃ command, state.ledger.Has command .announcing ∧
        state.ledger.shells command = shell ∧
        state.ledger.codes command = some exitCode ∧
        ∀ given, done = some given ->
          state.ledger.attached given = some command := by
  have concludes : (Delivery.finishing .conclusion origin shell exitCode
      done).concludes = true := rfl
  have single := accounted.delivering.single
  rw [under, Multiset.filter_cons_of_pos rest concludes, Multiset.card_cons]
    at single
  have alone := Multiset.filter_eq_nil.mp
    (Multiset.card_eq_zero.mp (Nat.le_zero.mp (Nat.le_of_succ_le_succ single)))
  refine ⟨alone, ?_⟩
  obtain ⟨command, has⟩ := accounted.announces
    (.finishing .conclusion origin shell exitCode done)
    (under ▸ Multiset.mem_cons_self _ _) rfl
  obtain ⟨_, code, callback, begun, recorded, attached⟩ :=
    accounted.holds _ _ has
  rw [under, Multiset.mem_cons] at begun
  rcases begun with same | other
  · obtain ⟨-, -, rfl, rfl, rfl⟩ := Delivery.finishing.inj same
    exact ⟨command, has, rfl, recorded, attached⟩
  · exact absurd rfl (alone _ other)

/-- An announced command is finished, and its callback was called with its exit
code. -/
theorem of_announce
    (accounted : state.Accounted)
    (steps : state.session.Steps
      (.announceFinished .conclusion origin shell exitCode done) next.session)
    (ledger : next.ledger = state.ledger.announce shell exitCode done)
    (formed : next.session.jobs.WellFormed)
    (opened : next.session.jobs.queue.closed = false)
    (once : next.session.CalledOnce) : next.Accounted := by
  obtain ⟨rest, under, session⟩ := steps
  obtain ⟨alone, command, has, own, code, attached⟩ :=
    accounted.announcing_of_under under
  rw [Ledger.announce, accounted.sound.commandAt_eq has (by simp)] at ledger
  have has_iff : ∀ other stage, next.ledger.Has other stage ↔
      (state.ledger.move command .finished).Has other stage := by
    intro other stage
    rw [ledger]
    rfl
  have fewer : rest ⊆ state.session.deliveries := by
    rw [under]
    exact Multiset.subset_cons _ _
  refine ⟨formed, opened, once,
    ledger ▸ accounted.sound.announce has own code attached, ⟨?_, ?_, ?_⟩,
    ⟨?_, ?_, ?_⟩, ?_, ?_, ?_, ?_, ?_, ?_⟩
  · rw [ledger, session]
    exact accounted.recorded.registered
  · rw [ledger, session]
    change (done.toList.map (fun done => (done, exitCode)) ++
      state.ledger.calls).map Prod.fst = done.toList ++ state.session.called
    rw [List.map_append, accounted.recorded.called, List.map_map]
    exact congrArg (· ++ state.session.called) (List.map_id _)
  · rw [ledger, session]
    change (state.session.told ++ [FrontendEvent.finished shell exitCode]).filterMap
        FrontendEvent.finishedShell =
      (state.ledger.announced ++ [(some command, shell)]).map Prod.snd
    rw [List.filterMap_append, accounted.recorded.told, List.map_append]
    rfl
  · rw [session]
    rintro ⟨delivery, member, concludes⟩
    exact absurd concludes (alone delivery member)
  · rw [session, Multiset.filter_eq_nil.mpr alone]
    exact Nat.zero_le _
  · rw [session]
    exact fun _ _ _ _ member =>
      accounted.delivering.silent _ _ _ _ (fewer member)
  · rw [session]
    exact accounted.distinct
  · intro other stage otherHas
    rcases ((has_iff other stage).mp otherHas).of_move with ⟨rfl, rfl⟩ |
      ⟨apart, old⟩
    · change some other ∈ next.ledger.announced.map Prod.fst
      rw [ledger]
      exact List.mem_map.mpr
        ⟨(some other, shell), List.mem_append_right _ List.mem_cons_self, rfl⟩
    · refine (accounted.holds other stage old).of_kept ?_ ?_ ?_ ?_ ?_ ?_ ?_
      · intro row member _
        rw [session]
        exact ⟨row, member, rfl, rfl, rfl⟩
      · rw [session]
        exact fun _ _ member => member
      · rintro rfl
        exact absurd (accounted.sound.apart _ _ _ old has (by simp)) apart
      · rw [ledger]
        rfl
      · exact fun _ => by rw [ledger]; rfl
      · exact fun given attached => by rw [ledger]; exact attached
      · rw [ledger]
        exact List.subset_append_left _ _
  · intro row member runs
    rw [session] at member
    obtain ⟨other, running⟩ := accounted.runs row member runs
    exact ⟨other, (has_iff _ _).mpr
      (running.move_of_stage_ne has (by simp) _)⟩
  · intro conclusion member
    rw [session] at member
    obtain ⟨other, reaped⟩ := accounted.ends conclusion member
    exact ⟨other, (has_iff _ _).mpr (reaped.move_of_stage_ne has (by simp) _)⟩
  · intro delivery member concludes
    rw [session] at member
    exact absurd concludes (alone delivery member)
  · intro uid given holds
    rw [session] at holds
    obtain ⟨other, stage, otherHas, live, attached, shells⟩ :=
      accounted.dones uid given holds
    refine ⟨other, stage, (has_iff _ _).mpr
      (otherHas.move_of_stage_ne has ?_ _), live, ?_, ?_⟩
    · rcases live with rfl | ⟨conclusion, rfl⟩ <;> simp
    · rw [ledger]
      exact attached
    · rw [ledger]
      exact shells

/-- A failed launch is announced, and calls nothing. -/
theorem of_announceFailure
    (accounted : state.Accounted)
    (steps : state.session.Steps
      (.announceFinished .launch origin shell exitCode done) next.session)
    (ledger : next.ledger = state.ledger.announceFailure shell exitCode done)
    (formed : next.session.jobs.WellFormed)
    (opened : next.session.jobs.queue.closed = false)
    (once : next.session.CalledOnce) : next.Accounted := by
  obtain ⟨rest, under, session⟩ := steps
  obtain rfl : done = none := by
    cases done with
    | none => rfl
    | some given =>
        exact absurd (under ▸ Multiset.mem_cons_self _ _)
          (accounted.delivering.silent origin shell exitCode given)
  have has_iff : ∀ other stage, next.ledger.Has other stage ↔
      state.ledger.Has other stage := by
    intro other stage
    rw [ledger]
    rfl
  have conclusions : (next.session.deliveries.filter fun delivery =>
      delivery.concludes) =
        state.session.deliveries.filter fun delivery => delivery.concludes := by
    rw [session, under, DeliveryState.filter_concludes_cons rfl]
  have concludes := mem_concludes conclusions
  refine ⟨formed, opened, once,
    ledger ▸ accounted.sound.announceFailure shell exitCode, ⟨?_, ?_, ?_⟩,
    accounted.delivering.of_filter conclusions ?_ ?_, ?_, ?_, ?_, ?_, ?_, ?_⟩
  · rw [ledger, session]
    exact accounted.recorded.registered
  · rw [ledger, session]
    exact accounted.recorded.called
  · rw [ledger, session]
    change (state.session.told ++ [FrontendEvent.finished shell exitCode]).filterMap
        FrontendEvent.finishedShell =
      (state.ledger.announced ++ [(none, shell)]).map Prod.snd
    rw [List.filterMap_append, accounted.recorded.told, List.map_append]
    rfl
  · rw [session]
    exact fun _ _ _ reporting => reporting
  · rw [session, under]
    exact fun _ _ _ _ member => Multiset.mem_cons_of_mem member
  · rw [session]
    exact accounted.distinct
  · intro other stage otherHas
    refine (accounted.holds other stage ((has_iff _ _).mp otherHas)).of_kept
      ?_ ?_ ?_ ?_ ?_ ?_ ?_
    · intro row member _
      rw [session]
      exact ⟨row, member, rfl, rfl, rfl⟩
    · rw [session]
      exact fun _ _ member => member
    · exact fun _ delivery member holds =>
        ((concludes delivery).mpr ⟨member, holds⟩).1
    · rw [ledger]
      rfl
    · exact fun _ => by rw [ledger]; rfl
    · exact fun given attached => by rw [ledger]; exact attached
    · rw [ledger]
      exact List.subset_append_left _ _
  · intro row member runs
    rw [session] at member
    obtain ⟨other, running⟩ := accounted.runs row member runs
    exact ⟨other, (has_iff _ _).mpr running⟩
  · intro conclusion member
    rw [session] at member
    obtain ⟨other, reaped⟩ := accounted.ends conclusion member
    exact ⟨other, (has_iff _ _).mpr reaped⟩
  · intro delivery member holds
    obtain ⟨other, announcing⟩ := accounted.announces delivery
      ((concludes delivery).mp ⟨member, holds⟩).1 holds
    exact ⟨other, (has_iff _ _).mpr announcing⟩
  · intro uid given holds
    rw [session] at holds
    rw [ledger]
    exact accounted.dones uid given holds

end Announce

/-! ### A callback is attached -/

/-- A callback is attached to the command that runs. -/
theorem of_onFinish
    (accounted : state.Accounted)
    {id : String}
    {done : Nat}
    {job : Job}
    (fresh : done ∉ state.session.registered)
    (found : state.session.row id = some job)
    (running : job.running.isSome)
    (session : next.session =
      { state.session with
        dones := Function.update state.session.dones job.sandbox.uid (some done)
        registered := done :: state.session.registered })
    (ledger : next.ledger = state.ledger.attach (some done)
      (state.ledger.commandAt (.running job.sandbox.uid)))
    (once : next.session.CalledOnce) : next.Accounted := by
  have member := JobTable.mem_of_find found
  obtain ⟨command, has⟩ := accounted.runs job member running
  have own := (accounted.running_of_has member has).2
  rw [accounted.sound.commandAt_eq has (by simp)] at ledger
  have free : ∀ given, some done = some given ->
      state.ledger.attached given = none := by
    rintro given ⟨⟩
    exact Option.eq_none_iff_forall_ne_some.mpr fun command attached =>
      fresh (accounted.recorded.registered done command attached)
  have has_iff : ∀ other stage, next.ledger.Has other stage ↔
      state.ledger.Has other stage := by
    intro other stage
    rw [ledger, Ledger.has_attach]
  have attached : ∀ given other, state.ledger.attached given = some other ->
      next.ledger.attached given = some other := by
    intro given other attached
    rw [ledger]
    exact Ledger.attached_attach _ _ _ free attached
  refine ⟨?_, ?_, once, ledger ▸ accounted.sound.attach _ free, ⟨?_, ?_, ?_⟩,
    ?_, ?_, ?_, ?_, ?_, ?_, ?_⟩
  · rw [session]
    exact accounted.formed
  · rw [session]
    exact accounted.opened
  · intro given other attaches
    rw [session]
    rw [ledger] at attaches
    rcases Ledger.of_attached_attach _ _ _ attaches with old | new
    · exact List.mem_cons_of_mem _
        (accounted.recorded.registered given other old)
    · obtain rfl := Option.some.inj new
      exact List.mem_cons_self
  · rw [ledger, session, Ledger.calls_attach]
    exact accounted.recorded.called
  · rw [ledger, session, Ledger.announced_attach]
    exact accounted.recorded.told
  · rw [session]
    exact ⟨accounted.delivering.reporting, accounted.delivering.single,
      accounted.delivering.silent⟩
  · rw [session]
    exact accounted.distinct
  · intro other stage otherHas
    refine (accounted.holds other stage ((has_iff _ _).mp otherHas)).of_kept
      ?_ ?_ ?_ ?_ ?_ (fun given => attached given other) ?_
    · intro row rowMember _
      rw [session]
      exact ⟨row, rowMember, rfl, rfl, rfl⟩
    · rw [session]
      exact fun _ _ unreaped => unreaped
    · rw [session]
      exact fun _ _ begun _ => begun
    · rw [ledger, Ledger.shells_attach]
    · exact fun _ => by rw [ledger, Ledger.codes_attach]
    · rw [ledger, Ledger.announced_attach]
      exact List.Subset.refl _
  · intro row rowMember runs
    rw [session] at rowMember
    obtain ⟨other, has⟩ := accounted.runs row rowMember runs
    exact ⟨other, (has_iff _ _).mpr has⟩
  · intro conclusion unreaped
    rw [session] at unreaped
    obtain ⟨other, reaped⟩ := accounted.ends conclusion unreaped
    exact ⟨other, (has_iff _ _).mpr reaped⟩
  · intro delivery begun concludes
    rw [session] at begun
    obtain ⟨other, announcing⟩ := accounted.announces delivery begun concludes
    exact ⟨other, (has_iff _ _).mpr announcing⟩
  · intro uid given holds
    rw [session] at holds
    change Function.update state.session.dones job.sandbox.uid (some done) uid =
      some given at holds
    by_cases same : uid = job.sandbox.uid
    · rw [same, Function.update_self] at holds
      obtain rfl := Option.some.inj holds
      rw [same]
      refine ⟨command, _, (has_iff _ _).mpr has, .inl rfl, ?_, ?_⟩
      · rw [ledger]
        exact Function.update_self _ _ _
      · rw [ledger, Ledger.shells_attach, own]
    · rw [Function.update_of_ne same] at holds
      obtain ⟨other, stage, otherHas, live, attaches, shell⟩ :=
        accounted.dones uid given holds
      refine ⟨other, stage, (has_iff _ _).mpr otherHas, live,
        attached given other attaches, ?_⟩
      rw [ledger, Ledger.shells_attach]
      exact shell

end Accounted

end CompletionState

end Shellmux
end Marsh
