import Marsh.Shellmux.OwnRows

/-!
# Shutdown

Closing the merges queue, killing what runs, joining the owned tasks and
aborting the watchers are separate steps.  What was queued or being launched
when the first is taken goes on between them.
-/

namespace Marsh
namespace Shellmux

open Library

/-! ## Callbacks -/

/-- The callback a delivery is to call. -/
def Delivery.done : Delivery -> Option Nat
  | .finishing _ _ _ _ done => done
  | .opening _ | .reporting _ _ | .pumping _ _ _ => none

theorem filterMap_done_cons (delivery : Delivery) (rest : Multiset Delivery) :
    (delivery ::ₘ rest).filterMap Delivery.done =
      (delivery.done.toList : Multiset Nat) + rest.filterMap Delivery.done := by
  cases calls : delivery.done with
  | none =>
      rw [Multiset.filterMap_cons_none _ _ calls]
      exact (zero_add _).symm
  | some done =>
      rw [Multiset.filterMap_cons_some _ _ _ calls]
      rfl

namespace DeliveryState

/-- The callbacks taken out of their rows: called, or about to be. -/
def spent (state : DeliveryState) : Multiset Nat :=
  state.deliveries.filterMap Delivery.done + (state.called : Multiset Nat)

/-- A callback is in one row or taken out of it, and taken out once. -/
structure CalledOnce (state : DeliveryState) : Prop where
  unspent : ∀ uid done, state.dones uid = some done ->
    done ∈ state.registered ∧ done ∉ state.spent
  single : ∀ uid other done, state.dones uid = some done ->
    state.dones other = some done -> uid = other
  once : state.spent.Nodup
  known : ∀ done ∈ state.spent, done ∈ state.registered

namespace CalledOnce

variable {state next : DeliveryState}

/-- Dropping callbacks and moving those taken keeps them called once. -/
theorem of_fewer
    (calls : state.CalledOnce)
    (dones : ∀ uid done, next.dones uid = some done ->
      state.dones uid = some done)
    (registered : state.registered ⊆ next.registered)
    (spent : next.spent ≤ state.spent) : next.CalledOnce where
  unspent uid done holds := by
    obtain ⟨known, unspent⟩ := calls.unspent uid done (dones uid done holds)
    exact ⟨registered known, fun member =>
      unspent (Multiset.mem_of_le spent member)⟩
  single uid other done holds otherHolds :=
    calls.single uid other done (dones uid done holds)
      (dones other done otherHolds)
  once := Multiset.nodup_of_le spent calls.once
  known done member := registered (calls.known done
    (Multiset.mem_of_le spent member))

/-- A new callback in a row has not been taken. -/
theorem of_register
    (calls : state.CalledOnce)
    {uid : String}
    {given : Option Nat}
    (fresh : ∀ done, given = some done -> done ∉ state.registered)
    (dones : next.dones = Function.update state.dones uid given)
    (registered : next.registered = given.toList ++ state.registered)
    (spent : next.spent = state.spent) : next.CalledOnce where
  unspent other done holds := by
    rw [dones] at holds
    rw [registered, spent]
    by_cases same : other = uid
    · rw [same, Function.update_self] at holds
      refine ⟨List.mem_append_left _ (by simp [holds]), fun member => ?_⟩
      exact fresh done holds (calls.known done member)
    · rw [Function.update_of_ne same] at holds
      exact (calls.unspent other done holds).imp_left
        (List.mem_append_right _)
  single first second done holds otherHolds := by
    have old : ∀ {name : String}, name ≠ uid -> next.dones name = some done ->
        done ∈ state.registered := by
      intro name apart stored
      rw [dones, Function.update_of_ne apart] at stored
      exact (calls.unspent name done stored).1
    have new : ∀ {name : String}, name = uid -> next.dones name = some done ->
        done ∉ state.registered := by
      rintro name rfl stored
      rw [dones, Function.update_self] at stored
      exact fresh done stored
    by_cases same : first = uid <;> by_cases otherSame : second = uid
    · rw [same, otherSame]
    · exact absurd (old otherSame otherHolds) (new same holds)
    · exact absurd (old same holds) (new otherSame otherHolds)
    · rw [dones, Function.update_of_ne same] at holds
      rw [dones, Function.update_of_ne otherSame] at otherHolds
      exact calls.single first second done holds otherHolds
  once := spent ▸ calls.once
  known done member :=
    registered ▸ List.mem_append_right _ (calls.known done (spent ▸ member))

/-- `deliver` takes one callback out of its row. -/
theorem of_deliver
    (calls : state.CalledOnce)
    {source : Source}
    {id : String}
    {origin : Sandbox}
    {exitCode : Int}
    {rest : Multiset Delivery}
    (dones : next.dones = state.silenced id)
    (registered : next.registered = state.registered)
    (deliveries : next.deliveries =
      state.deliver source id origin exitCode + rest)
    (fewer : rest.filterMap Delivery.done ≤
      state.deliveries.filterMap Delivery.done)
    (called : next.called = state.called) : next.CalledOnce := by
  have less : rest.filterMap Delivery.done + (state.called : Multiset Nat) ≤
      state.spent := by
    rw [spent]
    gcongr
  cases found : state.row id with
  | none =>
      refine calls.of_fewer (fun uid done holds => ?_)
        (registered ▸ List.Subset.refl _) ?_
      · rwa [dones, silenced, found] at holds
      · rw [spent, deliveries, deliver, found, zero_add, called]
        exact less
  | some job =>
      have taken : next.spent =
          ((state.dones job.sandbox.uid).toList : Multiset Nat) +
            (rest.filterMap Delivery.done + (state.called : Multiset Nat)) := by
        rw [spent, deliveries, deliver, found, called, Multiset.singleton_add,
          filterMap_done_cons, add_assoc]
        rfl
      have kept : ∀ uid done, next.dones uid = some done ->
          state.dones uid = some done ∧ uid ≠ job.sandbox.uid := by
        intro uid done holds
        rw [dones, silenced, found] at holds
        by_cases same : uid = job.sandbox.uid
        · simp [same] at holds
        · exact ⟨by simpa [Function.update_of_ne same] using holds, same⟩
      have split : ∀ done, done ∈ next.spent ->
          state.dones job.sandbox.uid = some done ∨ done ∈ state.spent := by
        intro done member
        rw [taken] at member
        rcases Multiset.mem_add.mp member with new | old
        · exact .inl (by simpa using new)
        · exact .inr (Multiset.mem_of_le less old)
      refine ⟨fun uid done holds => ?_, fun uid other done holds otherHolds =>
        calls.single uid other done (kept uid done holds).1
          (kept other done otherHolds).1, ?_, fun done member => ?_⟩
      · obtain ⟨old, apart⟩ := kept uid done holds
        obtain ⟨known, unspent⟩ := calls.unspent uid done old
        refine ⟨registered ▸ known, fun member => ?_⟩
        rcases split done member with same | spent
        · exact apart (calls.single uid _ done old same)
        · exact unspent spent
      · rw [taken]
        cases holds : state.dones job.sandbox.uid with
        | none =>
            exact (zero_add (rest.filterMap Delivery.done +
              (state.called : Multiset Nat))).symm ▸
                Multiset.nodup_of_le less calls.once
        | some done =>
            refine Multiset.nodup_cons.mpr ⟨fun member => ?_,
              Multiset.nodup_of_le less calls.once⟩
            exact (calls.unspent _ done holds).2 (Multiset.mem_of_le less member)
      · rw [registered]
        rcases split done member with same | spent
        · exact (calls.unspent _ done same).1
        · exact calls.known done spent

/-- What a section begins, but for a conclusion, calls nothing. -/
theorem filterMap_begun
    {step : JobStep}
    {exitCode : Int}
    (unconcluding : ∀ retained, step ≠ .conclude retained) :
    (state.begun exitCode step).filterMap Delivery.done = 0 := by
  refine Multiset.eq_zero_of_forall_notMem fun done member => ?_
  obtain ⟨delivery, begun, calls⟩ := (Multiset.mem_filterMap _ _).mp member
  obtain ⟨_, _, _, -, rfl⟩ | ⟨_, _, _, -, rfl⟩ | ⟨_, _, _, _, _, _, -, rfl⟩ |
    ⟨_, _, _, _, -, rfl⟩ | ⟨retained, _, _, same, -, -, -⟩ := begun_cases begun
  · contradiction
  · contradiction
  · contradiction
  · contradiction
  · exact unconcluding retained same

/-- A section that leaves the callbacks where they are. -/
theorem of_section
    (calls : state.CalledOnce)
    {step : JobStep}
    {done : Option Nat}
    {exitCode : Int}
    {jobs : JobState}
    (unconcluding : ∀ retained, step ≠ .conclude retained)
    (unpublishing : ∀ id origin started killed,
      step ≠ .publish id origin started killed)
    (dones : ∀ uid callback, state.donesAfter done step uid = some callback ->
      state.dones uid = some callback) :
    (state.after step done exitCode jobs).CalledOnce := by
  refine calls.of_fewer dones ?_ ?_
  · cases step with
    | publish => exact absurd rfl (unpublishing _ _ _ _)
    | _ => exact List.Subset.refl _
  · change (state.begun exitCode step + state.deliveries).filterMap Delivery.done +
      (state.called : Multiset Nat) ≤ state.spent
    rw [Multiset.filterMap_add, filterMap_begun unconcluding, zero_add]
    exact le_rfl

/-- Every step calls a callback once. -/
theorem of_step
    (calls : state.CalledOnce)
    {step : DeliveryStep}
    (steps : state.Steps step next) : next.CalledOnce := by
  have moved : ∀ {deliveries rest : Multiset Delivery} {delivery : Delivery},
      state.Under delivery rest -> delivery.done = none ->
      deliveries.filterMap Delivery.done = rest.filterMap Delivery.done ->
      deliveries.filterMap Delivery.done + (state.called : Multiset Nat) =
        state.spent := by
    intro deliveries rest delivery under silent same
    rw [spent, under, filterMap_done_cons, silent, same]
    simp
  cases step with
  | job step done exitCode =>
      obtain ⟨jobs, steps, ready, rfl⟩ := steps
      cases step with
      | publish id origin started killed =>
          have spent : (state.after (.publish id origin started killed) done
              exitCode jobs).spent = state.spent := by
            change (state.begun exitCode (.publish id origin started killed) +
              state.deliveries).filterMap Delivery.done + _ = state.spent
            rw [Multiset.filterMap_add, filterMap_begun (by simp), zero_add]
            rfl
          have left : (state.donesAfter done
              (.publish id origin started killed) = state.dones) ->
              (state.after (.publish id origin started killed) done exitCode
                jobs).CalledOnce := fun same =>
            calls.of_fewer (fun uid callback holds => by
              rwa [← same]) (List.subset_append_right _ _) spent.le
          cases found : state.row id with
          | none => exact left (by simp only [donesAfter, found])
          | some job =>
              by_cases refused : (job.retired && !killed) = true
              · exact left (by simp only [donesAfter, found, if_pos refused])
              · refine @of_register state _ calls job.sandbox.uid _ ready ?_ rfl
                  spent
                simp only [after, donesAfter, found, if_neg refused]
      | conclude retained =>
          obtain ⟨conclusion, concluding, -⟩ := steps
          refine @of_deliver state _ calls .conclusion conclusion.id
            conclusion.started.sandbox exitCode state.deliveries ?_ rfl ?_
            le_rfl rfl
          · simp only [after, donesAfter, concluding]
          · simp only [after, begun, concluding]
      | killAll killable =>
          exact calls.of_section (by simp) (by simp) (by simp [donesAfter])
      | spawn | refuseSpawn | build | failBuild | refuseSize | startIn | waited
      | prepare | launch | failLaunch | reportFailure | reap | submit | take
      | finish | checkClose | reclaimConcluded | keep | stop | reclaim
      | closeSandbox | cancel | releaseAll =>
          exact calls.of_section (by simp) (by simp) fun _ _ holds => holds
  | refuseSize sandbox =>
      obtain ⟨rest, under, rfl⟩ := steps
      exact calls.of_fewer (fun _ _ holds => holds) (List.Subset.refl _)
        (moved under rfl rfl).le
  | announceOpened sandbox =>
      obtain ⟨rest, under, rfl⟩ := steps
      exact calls.of_fewer (fun _ _ holds => holds) (List.Subset.refl _)
        (moved under rfl (Multiset.filterMap_cons_none _ _ rfl)).le
  | deliverFailure id origin =>
      obtain ⟨rest, under, rfl⟩ := steps
      refine calls.of_deliver rfl rfl rfl ?_ rfl
      rw [under]
      exact (Multiset.filterMap_cons_none _ _ rfl).ge
  | announceFinished source origin shell exitCode done =>
      obtain ⟨rest, under, rfl⟩ := steps
      refine calls.of_fewer (fun _ _ holds => holds) (List.Subset.refl _) (le_of_eq ?_)
      rw [spent, spent, under, filterMap_done_cons, ← Multiset.coe_add,
        ← add_assoc, add_comm (rest.filterMap Delivery.done), Delivery.done]
  | read shell terminal instrumentation stream result =>
      obtain ⟨rest, under, -, rfl⟩ := steps
      refine calls.of_fewer (fun _ _ holds => holds) (List.Subset.refl _)
        (moved under rfl ?_).le
      cases stream <;> exact Multiset.filterMap_cons_none _ _ rfl
  | announceClosed shell =>
      obtain ⟨rest, under, -, rfl⟩ := steps
      exact calls.of_fewer (fun _ _ holds => holds) (List.Subset.refl _)
        (moved under rfl rfl).le
  | onFinish id done =>
      obtain ⟨-, fresh, job, -, -, -, rfl⟩ := steps
      exact @of_register state _ calls _ (some done)
        (fun other same => Option.some.inj same ▸ fresh) rfl rfl rfl
  | join =>
      obtain ⟨-, -, -, -, -, rfl⟩ := steps
      exact calls.of_fewer (fun _ _ holds => holds) (List.Subset.refl _) le_rfl
  | abort =>
      obtain ⟨-, rfl⟩ := steps
      refine calls.of_fewer (fun _ _ holds => holds) (List.Subset.refl _) ?_
      rw [spent, spent, Multiset.filterMap_zero]
      gcongr
      exact Multiset.zero_le _

/-- No callback has been registered at the start. -/
theorem empty : DeliveryState.empty.CalledOnce where
  unspent _ _ holds := by contradiction
  single _ _ _ holds := by contradiction
  once := Multiset.nodup_zero
  known _ member := absurd member (Multiset.notMem_zero _)

end CalledOnce

end DeliveryState

/-! ## Where the commands are -/

/-- A section keeps what runs in a row, but for its reap and for a launch that
publishes there. -/
theorem JobStep.runs_onRow
    {step : JobStep}
    {row : Job}
    {pid : Nat}
    (runs : row.runs pid = true) :
    (step.onRow row).runs pid = true ∨ (∃ id, step = .reap id pid) ∨
      ∃ id origin started killed,
        step = .publish id origin started killed ∧ row.id = id := by
  have flagged : ∀ {change : Job -> Job},
      ((change row).running = row.running ∨ (change row).running =
        row.running.map fun started => { started with forceStopped := true }) ->
      (change row).runs pid = true := by
    rintro change (same | same)
    · rwa [Job.runs, same]
    · rw [Job.runs, same, Option.any_map]
      exact runs
  cases step with
  | reap id other =>
      by_cases same : other = pid
      · exact .inr (.inl ⟨id, by rw [same]⟩)
      · refine .inl (flagged (.inl ?_))
        simp only [onRow, Job.named]
        split_ifs with named ends
        · obtain ⟨started, running, first⟩ := (Option.any_eq_true _ _).mp runs
          obtain ⟨again, running', second⟩ := (Option.any_eq_true _ _).mp ends
          obtain rfl := Option.some.inj (running.symm.trans running')
          exact absurd ((of_decide_eq_true second).symm.trans
            (of_decide_eq_true first)) same
        · rfl
        · rfl
  | publish id origin started killed =>
      by_cases named : row.id = id
      · exact .inr (.inr ⟨id, origin, started, killed, rfl, named⟩)
      · exact .inl (flagged (.inl (by simp [onRow, Job.named, named])))
  | stop id force =>
      refine .inl (flagged ?_)
      by_cases named : row.id = id
      · cases force <;>
          simp [onRow, Job.named, named, Job.stop, Job.drain, Job.kill]
      · simp [onRow, Job.named, named]
  | killAll killable =>
      refine .inl (flagged ?_)
      by_cases kills : killable row.id = true <;>
        simp [onRow, kills, Job.kill]
  | failLaunch id cmd origin sandbox owned tree cleared =>
      refine .inl (flagged (.inl ?_))
      cases cleared
      · rfl
      · simp [onRow, Job.named, Job.clear, apply_ite Job.running]
  | keep id =>
      refine .inl (flagged (.inl ?_))
      simp [onRow, Job.named, Job.keep, apply_ite Job.running]
  | build | startIn | reportFailure | releaseAll =>
      refine .inl (flagged (.inl ?_))
      simp [onRow, Job.named, Job.build, Job.start, Job.drain, Job.release,
        apply_ite Job.running]
  | spawn | refuseSpawn | failBuild | refuseSize | waited | prepare | launch
  | submit | take | conclude | finish | checkClose | reclaimConcluded | reclaim
  | closeSandbox | cancel => exact .inl runs

/-- A row that is reserved after a section was so before, or runs nothing. -/
theorem JobStep.starting_onRow
    {step : JobStep}
    {row : Job}
    (starting : (step.onRow row).starting = true) :
    row.starting = true ∧ (row.running = none ->
        (step.onRow row).running = none) ∨
      ∃ id cmd, step = .startIn id cmd ∧ row.id = id ∧
        (step.onRow row).running = row.running := by
  cases step with
  | startIn id cmd =>
      by_cases named : row.id = id
      · exact .inr ⟨id, cmd, rfl, named, by simp [onRow, Job.named, Job.start,
          named]⟩
      · simp only [onRow, Job.named, if_neg named] at starting ⊢
        exact .inl ⟨starting, fun idle => idle⟩
  | publish id origin started killed =>
      by_cases named : row.id = id
      · simp only [onRow, Job.named, if_pos named, Job.publish] at starting
        split_ifs at starting
      · simp only [onRow, Job.named, if_neg named] at starting ⊢
        exact .inl ⟨starting, fun idle => idle⟩
  | reap id pid =>
      refine .inl ⟨?_, fun idle => ?_⟩
      · simpa [onRow, Job.named, Job.reap, apply_ite Job.starting] using starting
      · simp [onRow, Job.named, idle]
  | stop id force =>
      refine .inl ⟨?_, fun idle => ?_⟩
      · cases force <;> simpa [onRow, Job.named, Job.stop, Job.drain, Job.kill,
          apply_ite Job.starting] using starting
      · cases force <;> simp [onRow, Job.named, Job.stop, Job.drain, Job.kill,
          apply_ite Job.running, idle]
  | failLaunch id cmd origin sandbox owned tree cleared =>
      cases cleared
      · exact .inl ⟨starting, fun idle => idle⟩
      · by_cases named : row.id = id
        · simp [onRow, Job.named, Job.clear, named] at starting
        · simp only [onRow, Job.named, if_neg named] at starting ⊢
          exact .inl ⟨starting, fun idle => idle⟩
  | build | reportFailure | keep | killAll | releaseAll =>
      refine .inl ⟨?_, fun idle => ?_⟩
      · simpa [onRow, Job.named, Job.build, Job.drain, Job.keep, Job.kill,
          Job.release, apply_ite Job.starting] using starting
      · simp [onRow, Job.named, Job.build, Job.drain, Job.keep, Job.kill,
          Job.release, apply_ite Job.running, idle]
  | spawn | refuseSpawn | failBuild | refuseSize | waited | prepare | launch
  | submit | take | conclude | finish | checkClose | reclaimConcluded | reclaim
  | closeSandbox | cancel => exact .inl ⟨starting, fun idle => idle⟩

/-- A launch that has not published its command. -/
def Task.launches : Task -> Bool
  | .preparing _ _ _ _ | .launching _ _ _ _ _ | .publishing _ _ _ => true
  | .building _ _ _ | .waiting _ _ _ | .failing _ _ | .watching _ _
  | .submitting _ | .reclaiming _ => false

/-- What may still be in progress once a shutdown has begun with no launch in
flight: reports of failed launches, watchers and reclamations. -/
def Task.winds : Task -> Bool
  | .failing _ _ | .watching _ _ | .submitting _ | .reclaiming _ => true
  | .building _ _ _ | .waiting _ _ _ | .preparing _ _ _ _
  | .launching _ _ _ _ _ | .publishing _ _ _ => false

namespace DeliveryState

/-- A shutdown begins with no conclusion queued and no launch in flight, and can
kill every command; no row is removed, by hand or by a spawn that fails after it
has published the row, while a command runs in it. -/
def Quiesces (state : DeliveryState) : DeliveryStep -> Prop
  | .job .cancel _ _ =>
      state.jobs.queue.pending = [] ∧
        ∀ task ∈ state.jobs.tasks, task.launches = false
  | .job (.killAll killable) _ _ =>
      ∀ job ∈ state.jobs.table.rows, job.running.isSome ->
        killable job.id = true
  | .job (.closeSandbox sandbox) _ _ | .refuseSize sandbox =>
      ∀ job ∈ state.jobs.table.rows, job.sandbox.uid = sandbox.uid ->
        job.running = none
  | _ => True

/-- What the shutdown leaves to itself winds down: the queue is closed and
empty, no launch is in progress, and what is being concluded was so when the
queue was closed. -/
structure Winding (state : DeliveryState) : Prop where
  closed : state.jobs.queue.closed = true
  drained : state.jobs.queue.pending = []
  winds : ∀ task ∈ state.jobs.tasks, task.winds = true
  last : ∀ conclusion, state.jobs.concluder = .concluding conclusion ->
    state.closing = some conclusion

/-- Every command that runs unkilled is in a row or about to be published there,
and a shutdown that has begun winds down. -/
structure Settling (state : DeliveryState) : Prop where
  own : state.OwnRows
  single : ∀ job ∈ state.jobs.table.rows, job.starting = true ->
    job.running = none
  virgin : ∀ id sandbox cmd, Task.building id sandbox cmd ∈ state.jobs.tasks ->
    ∀ job ∈ state.jobs.table.rows, job.sandbox.uid = sandbox.uid ->
      job.running = none
  live : ∀ pid ∈ state.unkilled,
    (∃ id origin started, Task.publishing id origin started ∈ state.jobs.tasks ∧
        started.pid = pid) ∨
      ∃ job ∈ state.jobs.table.rows, job.runs pid = true
  winding : state.phase ≠ .session -> state.Winding
  finished : state.phase ≠ .session -> state.phase ≠ .cancelled ->
    state.unkilled = ∅

namespace Settling

section Jobs

variable {state next : JobState} {step : JobStep}

/-- Nothing runs in a row that is reserved for a launch. -/
theorem single_of_step
    (formed : state.WellFormed)
    (single : ∀ job ∈ state.table.rows, job.starting = true ->
      job.running = none)
    (steps : state.Steps step next) :
    ∀ job ∈ next.table.rows, job.starting = true -> job.running = none := by
  intro job member starting
  by_cases spawns : ∃ id uid anonymous cmd, step = .spawn id uid anonymous cmd
  · obtain ⟨id, uid, anonymous, cmd, rfl⟩ := spawns
    obtain ⟨counter, -, -, rfl⟩ := steps
    rcases List.mem_append.mp member with old | new
    · exact single job old starting
    · obtain rfl := List.mem_singleton.mp new
      rfl
  obtain ⟨rows, -⟩ := JobState.onRow_of_step formed steps
    fun id uid anonymous cmd same => spawns ⟨id, uid, anonymous, cmd, same⟩
  obtain ⟨row, rowMember, rfl⟩ := List.mem_map.mp (rows.subset member)
  obtain ⟨reserved, stays⟩ | ⟨id, cmd, rfl, named, same⟩ :=
    JobStep.starting_onRow starting
  · exact stays (single row rowMember reserved)
  · obtain ⟨found, isFound, -, idle, -, -⟩ := steps
    obtain rfl := formed.eq_of_id rowMember (JobTable.mem_of_find isFound)
      (named.trans (JobTable.find_some_id isFound).symm)
    rw [same, idle]

/-- Nothing runs in a row that is being built. -/
theorem virgin_of_step
    (formed : state.WellFormed)
    (own : state.FindsOwn)
    (sited : state.Sited)
    (virgin : ∀ id sandbox cmd, Task.building id sandbox cmd ∈ state.tasks ->
      ∀ job ∈ state.table.rows, job.sandbox.uid = sandbox.uid ->
        job.running = none)
    (steps : state.Steps step next) :
    ∀ id sandbox cmd, Task.building id sandbox cmd ∈ next.tasks ->
      ∀ job ∈ next.table.rows, job.sandbox.uid = sandbox.uid ->
        job.running = none := by
  intro id sandbox cmd builds job member uid
  by_cases spawns : ∃ id uid anonymous cmd, step = .spawn id uid anonymous cmd
  · obtain ⟨name, fresh, anonymous, given, rfl⟩ := spawns
    obtain ⟨counter, -, unissued, rfl⟩ := steps
    rcases List.mem_append.mp member with old | new
    · rcases Multiset.mem_cons.mp builds with same | before
      · obtain ⟨-, rfl, -⟩ := Task.building.inj same
        have known := formed.known job old
        rw [uid] at known
        exact absurd known unissued
      · exact virgin id sandbox cmd before job old uid
    · obtain rfl := List.mem_singleton.mp new
      rfl
  have before : Task.building id sandbox cmd ∈ state.tasks := by
    rcases JobState.tasks_of_step steps builds with old | new
    · exact old
    · cases step <;> simp [JobState.Starts] at new
      exact absurd ⟨_, _, _, _, rfl⟩ spawns
  obtain ⟨rows, -⟩ := JobState.onRow_of_step formed steps
    fun id uid anonymous cmd same => spawns ⟨id, uid, anonymous, cmd, same⟩
  obtain ⟨row, rowMember, rfl⟩ := List.mem_map.mp (rows.subset member)
  rw [(JobStep.keeps_onRow _ row).2] at uid
  rw [Option.eq_none_iff_forall_ne_some]
  intro started running
  obtain ⟨ran, was, -⟩ | ⟨name, origin, published, killed, rfl, named, -⟩ :=
    JobStep.running_onRow running
  · rw [virgin id sandbox cmd before row rowMember uid] at was
    contradiction
  · obtain ⟨rest, pending, -⟩ := steps
    have site := own _ pending.self name origin rfl row rowMember named
    exact (sited.unbuilt id sandbox cmd before).2 _ pending.self origin rfl
      (site ▸ uid)

/-- A row that runs a command is removed by hand only, when no spawn is refused
its size. -/
theorem idle_of_removes
    (own : state.FindsOwn)
    (virgin : ∀ id sandbox cmd, Task.building id sandbox cmd ∈ state.tasks ->
      ∀ job ∈ state.table.rows, job.sandbox.uid = sandbox.uid ->
        job.running = none)
    (steps : state.Steps step next)
    {row : Job}
    (member : row ∈ state.table.rows)
    (removes : state.Removes step row)
    (unclosed : ∀ sandbox, step = .closeSandbox sandbox ->
      row.sandbox.uid = sandbox.uid -> row.running = none)
    (unrefused : ∀ id sandbox cmd, step ≠ .refuseSize id sandbox cmd) :
    row.running = none := by
  cases step with
  | failBuild id sandbox cmd =>
      obtain ⟨rest, pending, -⟩ := steps
      exact virgin id sandbox cmd pending.self row member
        (by rw [own _ pending.self id sandbox rfl row member removes])
  | reportFailure id origin =>
      obtain ⟨named, idle⟩ := removes
      simpa [JobStep.onRow, Job.named, named, Job.drain] using idle.1
  | stop id force =>
      obtain ⟨-, named, idle⟩ := removes
      have quiet := idle.1
      cases force <;> simpa [JobStep.onRow, Job.named, named, Job.stop, Job.drain,
        Job.kill] using quiet
  | checkClose => exact removes.2.2.1
  | closeSandbox sandbox => exact unclosed sandbox rfl removes
  | refuseSize id sandbox cmd => exact absurd rfl (unrefused _ _ _)
  | spawn | refuseSpawn | build | startIn | waited | prepare | launch
  | failLaunch | publish | reap | submit | take | conclude | finish
  | reclaimConcluded | keep | reclaim | cancel | killAll | releaseAll =>
      exact removes.elim

/-- What winds down does so after every section of the mux's own. -/
theorem winds_of_step
    (steps : state.Steps step next)
    (winds : ∀ task ∈ state.tasks, task.winds = true)
    (unspawned : ∀ id uid anonymous cmd, step ≠ .spawn id uid anonymous cmd)
    (unstarted : ∀ id cmd, step ≠ .startIn id cmd) :
    ∀ task ∈ next.tasks, task.winds = true := by
  intro task member
  rcases JobState.tasks_of_step steps member with old | new
  · exact winds task old
  · cases step with
    | spawn => exact absurd rfl (unspawned _ _ _ _)
    | startIn => exact absurd rfl (unstarted _ _)
    | build id sandbox cmd => exact absurd (winds _ new.1) (by simp [Task.winds])
    | waited id cmd origin => exact absurd (winds _ new.1) (by simp [Task.winds])
    | prepare id cmd origin owned =>
        exact absurd (winds _ new.1) (by simp [Task.winds])
    | launch id cmd origin sandbox owned pid plan =>
        exact absurd (winds _ new.1) (by simp [Task.winds])
    | failLaunch id cmd origin sandbox owned tree cleared =>
        exact absurd (winds _ new.1) (by simp [Task.winds])
    | publish id origin started killed =>
        obtain rfl := new
        rfl
    | reap id pid =>
        obtain ⟨-, job, started, -, -, rfl⟩ := new
        rfl
    | reportFailure id origin =>
        obtain ⟨job, -, -, rfl⟩ := new
        rfl
    | stop id force =>
        obtain ⟨job, -, -, rfl⟩ := new
        rfl
    | refuseSpawn | failBuild | refuseSize | submit | take | conclude | finish
    | checkClose | reclaimConcluded | keep | reclaim | closeSandbox | cancel
    | killAll | releaseAll => exact new.elim

/-- The row a launch is to publish in is reserved. -/
theorem starting_of_publishing
    (sited : state.Sited)
    {id : String}
    {origin : Sandbox}
    {started : StartedCmd}
    (member : Task.publishing id origin started ∈ state.tasks)
    {row : Job}
    (rowMember : row ∈ state.table.rows)
    (site : row.sandbox = origin) : row.starting = true := by
  have reserved := sited.reserved row rowMember
  have counted : 0 < taskCount Task.reservedUid state.tasks row.sandbox.uid :=
    taskCount_pos member (by rw [site]; rfl)
  by_contra free
  rw [Job.startingCount, if_neg free] at reserved
  omega

end Jobs

variable {state next : DeliveryState}

/-- A pid that is unkilled after a section was so before, or the section forks
it. -/
theorem unkilled_of_section
    {step : JobStep}
    {pid : Nat}
    (alive : pid ∈ state.unkilledAfter step) :
    pid ∈ state.unkilled ∧ (∀ id, step ≠ .reap id pid) ∨
      ∃ id cmd origin sandbox owned plan,
        step = .launch id cmd origin sandbox owned pid plan := by
  cases step with
  | launch id cmd origin sandbox owned forked plan =>
      rcases Finset.mem_insert.mp alive with rfl | old
      · exact .inr ⟨id, cmd, origin, sandbox, owned, plan, rfl⟩
      · exact .inl ⟨old, by simp⟩
  | publish id origin started killed =>
      simp only [unkilledAfter] at alive
      split_ifs at alive
      · exact .inl ⟨Finset.mem_of_mem_erase alive, by simp⟩
      · exact .inl ⟨alive, by simp⟩
  | stop id force =>
      cases force
      · exact .inl ⟨alive, by simp⟩
      · exact .inl ⟨(Finset.mem_filter.mp alive).1, by simp⟩
  | killAll killable => exact .inl ⟨(Finset.mem_filter.mp alive).1, by simp⟩
  | reap id other =>
      obtain ⟨apart, old⟩ := Finset.mem_erase.mp alive
      refine .inl ⟨old, fun name same => apart ?_⟩
      exact (JobStep.reap.inj same).2.symm
  | spawn | refuseSpawn | build | failBuild | refuseSize | startIn | waited
  | prepare | failLaunch | reportFailure | submit | take | conclude | finish
  | checkClose | reclaimConcluded | keep | reclaim | closeSandbox | cancel
  | releaseAll =>
      exact .inl ⟨alive, by simp⟩

/-- The rows a step of the deliveries leaves alone hold what they held. -/
theorem live_of_fewer
    (settling : state.Settling)
    (unkilled : next.unkilled = state.unkilled)
    (tasks : ∀ task ∈ state.jobs.tasks, task.launches = true ->
      task ∈ next.jobs.tasks ∨ ∃ id cmd origin owned,
        task = .preparing id cmd origin owned)
    (rows : ∀ job ∈ state.jobs.table.rows, job.running.isSome ->
      job ∈ next.jobs.table.rows) :
    ∀ pid ∈ next.unkilled,
      (∃ id origin started,
          Task.publishing id origin started ∈ next.jobs.tasks ∧
            started.pid = pid) ∨
        ∃ job ∈ next.jobs.table.rows, job.runs pid = true := by
  intro pid alive
  rw [unkilled] at alive
  obtain ⟨id, origin, started, member, same⟩ | ⟨job, member, runs⟩ :=
    settling.live pid alive
  · obtain stays | ⟨_, _, _, _, other⟩ := tasks _ member rfl
    · exact .inl ⟨id, origin, started, stays, same⟩
    · contradiction
  · obtain ⟨started, running, -⟩ := (Option.any_eq_true _ _).mp runs
    exact .inr ⟨job, rows job member (by rw [running]; rfl), runs⟩

/-- Commands stay where they are until they end or are killed. -/
theorem live_of_section
    (settling : state.Settling)
    {step : JobStep}
    {jobs : JobState}
    (steps : state.jobs.Steps step jobs)
    (unclosed : ∀ sandbox, step = .closeSandbox sandbox ->
      ∀ job ∈ state.jobs.table.rows, job.sandbox.uid = sandbox.uid ->
        job.running = none)
    (unrefused : ∀ id sandbox cmd, step ≠ .refuseSize id sandbox cmd) :
    ∀ pid ∈ state.unkilledAfter step,
      (∃ id origin started, Task.publishing id origin started ∈ jobs.tasks ∧
          started.pid = pid) ∨
        ∃ job ∈ jobs.table.rows, job.runs pid = true := by
  intro pid alive
  have own := settling.own
  have formed := own.formed
  obtain ⟨old, unreaped⟩ | ⟨id, cmd, origin, sandbox, owned, plan, rfl⟩ :=
    unkilled_of_section alive
  · by_cases spawns :
        ∃ id uid anonymous cmd, step = .spawn id uid anonymous cmd
    · obtain ⟨name, uid, anonymous, given, rfl⟩ := spawns
      obtain ⟨counter, -, -, rfl⟩ := steps
      obtain ⟨id, origin, started, member, same⟩ | ⟨job, member, runs⟩ :=
        settling.live pid old
      · exact .inl ⟨id, origin, started, Multiset.mem_cons_of_mem member, same⟩
      · exact .inr ⟨job, List.mem_append_left _ member, runs⟩
    obtain ⟨-, stays⟩ := JobState.onRow_of_step formed steps
      fun id uid anonymous cmd same => spawns ⟨id, uid, anonymous, cmd, same⟩
    obtain ⟨id, origin, started, member, same⟩ | ⟨row, member, runs⟩ :=
      settling.live pid old
    · by_cases publishes : ∃ killed, step = .publish id origin started killed
      · obtain ⟨killed, rfl⟩ := publishes
        obtain ⟨row, rowMember, site⟩ := own.sited.placed _ member origin rfl
        refine .inr ⟨_, (stays row rowMember).resolve_right
          fun removes => removes, ?_⟩
        have named : row.id = id := by
          rw [← formed.labelled row rowMember, site]
          exact (formed.owned _ member id origin rfl).1
        simp only [JobStep.onRow, Job.named, if_pos named, Job.publish]
        split_ifs <;> simpa [Job.runs] using same
      · refine .inl ⟨id, origin, started, JobState.mem_tasks_of_step steps member
          fun consumes => ?_, same⟩
        cases step <;> simp only [JobStep.consumes, Option.some.injEq,
          Option.map_eq_some_iff, and_false, exists_false, reduceCtorEq,
          Task.publishing.injEq] at consumes
        obtain ⟨rfl, rfl, rfl⟩ := consumes
        exact publishes ⟨_, rfl⟩
    · have busy : row.running ≠ none := by
        intro idle
        rw [Job.runs, idle] at runs
        contradiction
      have remains := (stays row member).resolve_right fun removes =>
        busy (idle_of_removes own.findsOwn settling.virgin steps member removes
          (fun sandbox closes => unclosed sandbox closes row member) unrefused)
      obtain still | ⟨id, rfl⟩ | ⟨id, origin, started, killed, rfl, named⟩ :=
        @JobStep.runs_onRow step row pid runs
      · exact .inr ⟨_, remains, still⟩
      · exact absurd rfl (unreaped id)
      · obtain ⟨rest, pending, -⟩ := steps
        have site := own.findsOwn _ pending.self id origin rfl row member named
        exact absurd (settling.single row member
          (starting_of_publishing own.sited pending.self member site)) busy
  · obtain ⟨rest, pending, rfl⟩ := steps
    exact .inl ⟨id, origin, _, Multiset.mem_cons_self _ _, rfl⟩

/-- A closed queue stays so, and an empty one stays empty. -/
theorem queue_of_closed
    {state next : JobState}
    {step : JobStep}
    (steps : state.Steps step next)
    (closed : state.queue.closed = true)
    (drained : state.queue.pending = []) :
    next.queue.closed = true ∧ next.queue.pending = [] := by
  cases step with
  | submit conclusion =>
      obtain ⟨rest, -, rfl⟩ := steps
      simp only [ConclusionQueue.submit, closed, if_true]
      exact ⟨trivial, drained⟩
  | take =>
      obtain ⟨conclusion, rest, -, pending, -⟩ := steps
      rw [drained] at pending
      contradiction
  | reportFailure id origin =>
      obtain ⟨rest, -, rfl⟩ := steps
      simpa using ⟨closed, drained⟩
  | stop id force =>
      obtain ⟨job, -, -, rfl⟩ := steps
      split_ifs <;> simpa [JobState.acceptStop] using ⟨closed, drained⟩
  | checkClose =>
      obtain ⟨id, retained, -, ⟨-, rfl⟩ | ⟨sandbox, -, -, ⟨-, rfl⟩ | ⟨-, rfl⟩⟩⟩ :=
        JobState.checkClose_cases steps <;> exact ⟨closed, drained⟩
  | spawn | refuseSpawn | build | failBuild | refuseSize | startIn | waited
  | prepare | launch | failLaunch | publish | reap | conclude | finish
  | reclaimConcluded | keep | reclaim | closeSandbox | cancel | killAll
  | releaseAll =>
      simp only [JobState.Steps, JobState.closeSandbox, ConclusionQueue.finish,
        ConclusionQueue.cancel] at steps
      grind

/-- A conclusion that is run on a drained queue was run before. -/
theorem concluding_of_drained
    {state next : JobState}
    {step : JobStep}
    (steps : state.Steps step next)
    (drained : state.queue.pending = [])
    {conclusion : Conclusion}
    (concluding : next.concluder = .concluding conclusion) :
    state.concluder = .concluding conclusion := by
  obtain same | moved := JobState.concluder_of_step steps
  · exact same.symm.trans concluding
  · cases concluder : state.concluder with
    | taking =>
        rw [concluder] at moved
        subst moved
        obtain ⟨taken, rest, -, pending, -⟩ := steps
        rw [drained] at pending
        contradiction
    | concluding other =>
        rw [concluder] at moved
        obtain ⟨retained, -, reports⟩ := moved
        rw [reports] at concluding
        contradiction
    | reporting id retained =>
        rw [concluder] at moved
        rw [moved.2] at concluding
        contradiction
    | closing id retained =>
        rw [concluder] at moved
        subst moved
        obtain ⟨_, _, -, ⟨-, rfl⟩ | ⟨_, -, -, ⟨-, rfl⟩ | ⟨-, rfl⟩⟩⟩ :=
          JobState.checkClose_cases steps <;> contradiction
    | reclaiming sandbox =>
        rw [concluder] at moved
        subst moved
        obtain ⟨_, -, rfl⟩ := steps
        contradiction

/-- A section of the mux's own keeps a shutdown winding down. -/
theorem winding_of_section
    {step : JobStep}
    {done : Option Nat}
    {exitCode : Int}
    {jobs : JobState}
    (winding : state.Winding)
    (steps : state.jobs.Steps step jobs)
    (unspawned : ∀ id uid anonymous cmd, step ≠ .spawn id uid anonymous cmd)
    (unstarted : ∀ id cmd, step ≠ .startIn id cmd) :
    (state.after step done exitCode jobs).Winding where
  closed := (queue_of_closed steps winding.closed winding.drained).1
  drained := (queue_of_closed steps winding.closed winding.drained).2
  winds := winds_of_step steps winding.winds unspawned unstarted
  last conclusion concluding := by
    have before := concluding_of_drained steps winding.drained concluding
    have last := winding.last conclusion before
    cases step <;> simp only [after, before, last]

/-- Closing an empty queue with no launch in flight begins to wind down. -/
theorem winding_of_cancel
    {done : Option Nat}
    {exitCode : Int}
    {jobs : JobState}
    (steps : state.jobs.Steps .cancel jobs)
    (ready : state.Ready done .cancel)
    (quiesces : state.Quiesces (.job .cancel done exitCode)) :
    (state.after .cancel done exitCode jobs).Winding := by
  obtain rfl := steps
  refine ⟨rfl, quiesces.1, fun task member => ?_, fun conclusion concluding => ?_⟩
  · have unhosted := ready.2.1 task member
    have unlaunched := quiesces.2 task member
    cases task <;> first | rfl | contradiction
  · change state.jobs.concluder = _ at concluding
    simp only [after, concluding]

/-- Once the kill pass has run, nothing runs unkilled. -/
theorem over_of_section
    (settling : state.Settling)
    {step : JobStep}
    {done : Option Nat}
    {exitCode : Int}
    {jobs : JobState}
    (ready : state.Ready done step)
    (quiesces : state.Quiesces (.job step done exitCode))
    (steps : state.jobs.Steps step jobs)
    (begun : step.phase state.phase ≠ .session)
    (killed : step.phase state.phase ≠ .cancelled) :
    state.unkilledAfter step = ∅ := by
  refine Finset.eq_empty_of_forall_notMem fun pid alive => ?_
  by_cases kills : ∃ killable, step = .killAll killable
  · obtain ⟨killable, rfl⟩ := kills
    have winding := settling.winding (by rw [ready]; decide)
    obtain ⟨old, unkilled⟩ := Finset.mem_filter.mp alive
    obtain ⟨id, origin, started, member, -⟩ | ⟨job, member, runs⟩ :=
      settling.live pid old
    · exact absurd (winding.winds _ member) (by simp [Task.winds])
    · apply unkilled
      obtain ⟨started, running, -⟩ := (Option.any_eq_true _ _).mp runs
      refine List.any_eq_true.mpr ⟨job, member, ?_⟩
      rw [runs, quiesces job member (by rw [running]; rfl)]
      rfl
  · have before : state.phase ≠ .session ∧ state.phase ≠ .cancelled := by
      cases step with
      | cancel => exact absurd rfl killed
      | killAll killable => exact absurd ⟨killable, rfl⟩ kills
      | releaseAll => rw [show state.phase = .joined from ready]; decide
      | _ => exact ⟨begun, killed⟩
    obtain ⟨old, -⟩ | ⟨id, cmd, origin, sandbox, owned, plan, rfl⟩ :=
      unkilled_of_section alive
    · rw [settling.finished before.1 before.2] at old
      exact absurd old (Finset.notMem_empty pid)
    · obtain ⟨rest, pending, -⟩ := steps
      exact absurd ((settling.winding before.1).winds _ pending.self)
        (by simp [Task.winds])

/-- Removing rows nothing runs in and dropping operations settles. -/
theorem of_fewer
    (settling : state.Settling)
    (own : next.OwnRows)
    (rows : next.jobs.table.rows.Sublist state.jobs.table.rows)
    (tasks : next.jobs.tasks ⊆ state.jobs.tasks)
    (queue : next.jobs.queue = state.jobs.queue)
    (concluder : next.jobs.concluder = state.jobs.concluder)
    (closing : next.closing = state.closing)
    (unkilled : next.unkilled = state.unkilled)
    (phase : next.phase = state.phase ∨
      state.phase ≠ .session ∧ state.phase ≠ .cancelled)
    (launches : ∀ task ∈ state.jobs.tasks, task.launches = true ->
      task ∈ next.jobs.tasks ∨ ∃ id cmd origin owned,
        task = .preparing id cmd origin owned)
    (running : ∀ job ∈ state.jobs.table.rows, job.running.isSome ->
      job ∈ next.jobs.table.rows) : next.Settling where
  own := own
  single job member := settling.single job (rows.subset member)
  virgin id sandbox cmd builds job member :=
    settling.virgin id sandbox cmd (tasks builds) job (rows.subset member)
  live := settling.live_of_fewer unkilled launches running
  winding begun := by
    have winding := settling.winding (phase.elim (fun same => same ▸ begun)
      fun past => past.1)
    refine ⟨queue ▸ winding.closed, queue ▸ winding.drained,
      fun task member => winding.winds task (tasks member), ?_⟩
    rw [concluder, closing]
    exact winding.last
  finished begun killed := by
    rw [unkilled]
    obtain same | past := phase
    · exact settling.finished (same ▸ begun) (same ▸ killed)
    · exact settling.finished past.1 past.2

/-- A step outside the locks that leaves the jobs alone settles. -/
theorem of_same
    (settling : state.Settling)
    (own : next.OwnRows)
    (jobs : next.jobs = state.jobs)
    (closing : next.closing = state.closing)
    (unkilled : next.unkilled = state.unkilled)
    (phase : next.phase = state.phase) : next.Settling :=
  settling.of_fewer own (by rw [jobs]) (by rw [jobs]; exact fun _ member => member)
    (by rw [jobs]) (by rw [jobs]) closing unkilled (.inl phase)
    (by rw [jobs]; exact fun _ member _ => .inl member)
    (by rw [jobs]; exact fun _ member _ => member)

/-- Every step of a run that quiesces settles. -/
theorem of_step
    (settling : state.Settling)
    {step : DeliveryStep}
    (steps : state.Steps step next)
    (keeps : state.KeepsNames step)
    (quiesces : state.Quiesces step) : next.Settling := by
  have own := settling.own.of_step steps keeps
  cases step with
  | job step done exitCode =>
      obtain ⟨jobs, steps, ready, rfl⟩ := steps
      have live := settling.live_of_section steps
        (by
          rintro sandbox rfl
          exact quiesces)
        (by
          rintro _ _ _ rfl
          exact ready)
      have hosted : state.phase ≠ .session ->
          (∀ id uid anonymous cmd, step ≠ .spawn id uid anonymous cmd) ∧
            ∀ id cmd, step ≠ .startIn id cmd := by
        intro begun
        exact ⟨by rintro _ _ _ _ rfl; exact begun ready,
          by rintro _ _ rfl; exact begun ready⟩
      refine ⟨own, single_of_step settling.own.formed settling.single steps,
        virgin_of_step settling.own.formed settling.own.findsOwn
          settling.own.sited settling.virgin steps, live, fun begun => ?_,
        fun begun killed => ?_⟩
      · by_cases cancels : step = .cancel
        · obtain rfl := cancels
          exact winding_of_cancel steps ready quiesces
        · have before : state.phase ≠ .session := by
            intro session
            apply begun
            cases step with
            | cancel => exact absurd rfl cancels
            | killAll => exact absurd (session.symm.trans ready) (by decide)
            | releaseAll => exact absurd (session.symm.trans ready) (by decide)
            | _ => exact session
          exact winding_of_section (settling.winding before) steps
            (hosted before).1 (hosted before).2
      · exact over_of_section settling ready quiesces steps begun killed
  | refuseSize sandbox =>
      obtain ⟨rest, under, rfl⟩ := steps
      have works : state.Works sandbox.id sandbox :=
        .opening (under ▸ Multiset.mem_cons_self _ _)
      refine settling.of_fewer own (state.jobs.table.rows_remove_sublist _)
        (Multiset.filter_subset _ _) rfl rfl rfl rfl (.inl rfl)
        (fun task member launches => ?_) fun job member runs => ?_
      · by_cases launch : task.launchOf sandbox = true
        · refine .inr ?_
          cases task <;> simp [Task.launchOf] at launch
          exact ⟨_, _, _, _, rfl⟩
        · exact .inl (Multiset.mem_filter.mpr ⟨member, by simpa using launch⟩)
      · refine (JobTable.mem_remove_or member).resolve_right fun gone => ?_
        have site := settling.own.named _ _ works job member
          (of_decide_eq_true gone)
        rw [quiesces job member (by rw [site])] at runs
        contradiction
  | abort =>
      obtain ⟨released, rfl⟩ := steps
      refine settling.of_fewer own (List.Sublist.refl _)
        (Multiset.filter_subset _ _) rfl rfl rfl rfl
        (.inr (by rw [released]; decide))
        (fun task member launches => .inl ?_) fun job member _ => member
      refine Multiset.mem_filter.mpr ⟨member, ?_⟩
      cases task <;> first | rfl | contradiction
  | join =>
      obtain ⟨killed, -, -, -, -, rfl⟩ := steps
      exact settling.of_fewer own (List.Sublist.refl _)
        (Multiset.Subset.refl _) rfl rfl rfl rfl
        (.inr (by rw [killed]; decide))
        (fun _ member _ => .inl member) fun _ member _ => member
  | announceOpened sandbox =>
      obtain ⟨rest, under, rfl⟩ := steps
      exact settling.of_same own rfl rfl rfl rfl
  | deliverFailure id origin =>
      obtain ⟨rest, under, rfl⟩ := steps
      exact settling.of_same own rfl rfl rfl rfl
  | announceFinished source origin shell exitCode done =>
      obtain ⟨rest, under, rfl⟩ := steps
      exact settling.of_same own rfl rfl rfl rfl
  | read shell terminal instrumentation stream result =>
      obtain ⟨rest, under, -, rfl⟩ := steps
      exact settling.of_same own rfl rfl rfl rfl
  | announceClosed shell =>
      obtain ⟨rest, under, -, rfl⟩ := steps
      exact settling.of_same own rfl rfl rfl rfl
  | onFinish id done =>
      obtain ⟨-, -, job, -, -, -, rfl⟩ := steps
      exact settling.of_same own rfl rfl rfl rfl

/-- The machine starts with no command. -/
theorem empty : DeliveryState.empty.Settling where
  own := .empty
  single _ member := absurd member List.not_mem_nil
  virgin _ _ _ builds := absurd builds (Multiset.notMem_zero _)
  live _ alive := absurd alive (Finset.notMem_empty _)
  winding begun := absurd rfl begun
  finished begun := absurd rfl begun

end Settling

/-! ## Quiescence -/

/-- Once the merges queue is closed no conclusion is started, and none but the
one under way then commits; a callback is called at most once; and when the
shutdown returns, no command runs unkilled. -/
structure Quiescent
    (state : DeliveryState)
    (step : DeliveryStep)
    (next : DeliveryState) : Prop where
  started : state.phase ≠ .session ->
    ∀ done exitCode, step ≠ .job .take done exitCode
  committed : state.phase ≠ .session -> ∀ retained done exitCode,
    step = .job (.conclude retained) done exitCode ->
      ∀ conclusion, state.jobs.concluder = .concluding conclusion ->
        state.closing = some conclusion
  once : next.called.Nodup
  killed : next.phase = .ended -> next.unkilled = ∅

section Runs

variable {state next : DeliveryState} {step : DeliveryStep}

theorem CalledOnce.called_nodup
    (calls : state.CalledOnce) : state.called.Nodup :=
  Multiset.coe_nodup.mp
    (Multiset.nodup_of_le (Multiset.le_add_left _ _) calls.once)

/-- In every run whose shutdown begins with nothing queued and no launch in
flight and kills every command, with names kept and no row removed while a
command runs in it, the shutdown is quiescent. -/
theorem quiescent_of_quiesces
    (reachable : (deliveryMachine.restrict fun state step =>
      state.KeepsNames step ∧ state.Quiesces step).Reachable state)
    (steps : (deliveryMachine.restrict fun state step =>
      state.KeepsNames step ∧ state.Quiesces step).step state step next) :
    state.Quiescent step next := by
  have invariant : state.Settling ∧ state.CalledOnce := by
    refine reachable.invariant (fun state => state.Settling ∧ state.CalledOnce)
      (fun state initial => ?_) fun state step next _ holds steps =>
        ⟨holds.1.of_step steps.1 steps.2.1 steps.2.2, holds.2.of_step steps.1⟩
    rw [show state = .empty from initial]
    exact ⟨.empty, .empty⟩
  obtain ⟨settling, calls⟩ := invariant
  obtain ⟨steps, keeps, quiesces⟩ := steps
  have after := settling.of_step steps keeps quiesces
  refine ⟨fun begun done exitCode takes => ?_,
    fun begun _ _ _ _ => (settling.winding begun).last,
    (calls.of_step steps).called_nodup, fun ended => ?_⟩
  · obtain rfl := takes
    obtain ⟨jobs, ⟨conclusion, rest, -, pending, -⟩, -⟩ := steps
    rw [(settling.winding begun).drained] at pending
    contradiction
  · exact after.finished (by rw [ended]; decide) (by rw [ended]; decide)

end Runs

/-! ## A conclusion queued and a launch in flight -/

/-- The sample job, open and launching its command. -/
def launchingState : DeliveryState :=
  { empty with
    jobs := .sample sampleJob.start ∅
      {.preparing "alice" "printf x > a" sampleSandbox true}
    producers := Function.update (fun _ => none) "u1" (some "u1")
    owned := [sampleSandbox]
    deliveries := {.pumping sampleSandbox true true}
    told := [.opened sampleSandbox] }

/-- The sample job, running its command. -/
def runningState : DeliveryState :=
  { launchingState with
    jobs := .sample { sampleJob with running := some sampleStarted } {"u1"}
      {.watching "alice" 7}
    dones := Function.update (fun _ => none) "u1" none
    owned := []
    unkilled := {7} }

/-- Runs that take over no name and shut down in quiet. -/
abbrev quietMachine : TransitionSystem DeliveryState DeliveryStep :=
  deliveryMachine.restrict fun state step =>
    state.KeepsNames step ∧ state.Quiesces step

theorem reachable_launching : quietMachine.Reachable launchingState := by
  have spawned : quietMachine.Reachable
      { empty with
        jobs := .sample (.reserve "alice" "u1" false (some "printf x > a")) ∅
          {.building "alice" sampleSandbox (some "printf x > a")} } :=
    .step (.job (.spawn "alice" "u1" false (some "printf x > a")) none 0)
      (.start rfl)
      ⟨⟨_, ⟨1, ⟨rfl, rfl⟩, List.not_mem_nil, rfl⟩, rfl, rfl⟩,
        not_works_empty "alice", trivial⟩
  have built : quietMachine.Reachable
      { launchingState with
        deliveries := {.opening sampleSandbox}
        told := [] } :=
    .step (.job (.build "alice" sampleSandbox (some "printf x > a")) none 0)
      spawned ⟨⟨_, ⟨0, rfl, rfl, rfl⟩, trivial, rfl⟩, trivial, trivial⟩
  exact .step (.announceOpened sampleSandbox) built
    ⟨⟨0, rfl, rfl⟩, trivial, trivial⟩

theorem reachable_runningState : quietMachine.Reachable runningState := by
  have prepared : quietMachine.Reachable
      { launchingState with
        jobs := .sample sampleJob.start ∅
          {.launching "alice" "printf x > a" sampleSandbox sampleSandbox true} } :=
    .step (.job (.prepare "alice" "printf x > a" sampleSandbox true) none 0)
      reachable_launching
      ⟨⟨_, ⟨0, rfl, rfl⟩, by simp [Ready, launchingState], rfl⟩, trivial, trivial⟩
  have launched : quietMachine.Reachable
      { launchingState with
        jobs := .sample sampleJob.start {"u1"}
          {.publishing "alice" sampleSandbox sampleStarted}
        unkilled := {7} } :=
    .step (.job (.launch "alice" "printf x > a" sampleSandbox sampleSandbox true
      7 .transaction) none 0) prepared
      ⟨⟨_, ⟨0, rfl, rfl⟩, ⟨Finset.notMem_empty 7, by
        simp [JobState.sample, Task.holdsPid]⟩, rfl⟩, trivial, trivial⟩
  exact .step (.job (.publish "alice" sampleSandbox sampleStarted true) none 0)
    launched ⟨⟨_, ⟨0, rfl, rfl⟩, by simp [Ready], rfl⟩, trivial, trivial⟩

/-- A shutdown that begins while a command runs kills it and is quiescent to its
end. -/
theorem quiescent_of_quiesces_running :
    ∃ state next : DeliveryState, next.phase = .ended ∧
      state.Quiescent .abort next := by
  have cancelled : quietMachine.Reachable _ :=
    .step (.job .cancel none 0) reachable_runningState
      ⟨⟨_, rfl, ⟨rfl, by simp [runningState, JobState.sample, Task.hosted],
        by simp [runningState, launchingState]⟩, rfl⟩, trivial, rfl,
        by simp [runningState, JobState.sample, Task.launches]⟩
  have killed : quietMachine.Reachable _ :=
    .step (.job (.killAll fun _ => true) none 0) cancelled
      ⟨⟨_, rfl, rfl, rfl⟩, trivial, fun _ _ _ => rfl⟩
  have joined : quietMachine.Reachable _ :=
    .step .join killed
      ⟨⟨rfl, rfl, rfl, by
          simp [after, runningState, JobState.sample, Task.watches],
        by simp [after, begun, runningState, launchingState, Delivery.pumps],
        rfl⟩, trivial, trivial⟩
  have released : quietMachine.Reachable _ :=
    .step (.job .releaseAll none 0) joined
      ⟨⟨_, rfl, rfl, rfl⟩, trivial, trivial⟩
  exact ⟨_, _, rfl, quiescent_of_quiesces released
    ⟨⟨rfl, rfl⟩, trivial, trivial⟩⟩

/-- A shutdown starts the conclusion that was queued when it closed the queue,
and leaves the command running that a launch in flight publishes after its kill
pass. -/
theorem not_quiescent_of_queued_of_launching :
    (∃ state next : DeliveryState, deliveryMachine.Reachable state ∧
        deliveryMachine.step state (.job .take none 0) next ∧
        ¬ state.Quiescent (.job .take none 0) next) ∧
      ∃ state next : DeliveryState, deliveryMachine.Reachable state ∧
        deliveryMachine.step state .abort next ∧
        ¬ state.Quiescent .abort next := by
  constructor
  · have reaped : deliveryMachine.Reachable
        { runningState with
          jobs := .sample sampleJob {"u1"} {.submitting ⟨"alice", sampleStarted⟩}
          unkilled := ∅ } :=
      .step (.job (.reap "alice" 7) none 0) reachable_runningState.of_restrict
        ⟨_, ⟨0, rfl, .inl ⟨_, sampleStarted, rfl, rfl, rfl, rfl⟩⟩, trivial, rfl⟩
    have submitted : deliveryMachine.Reachable _ :=
      .step (.job (.submit ⟨"alice", sampleStarted⟩) none 0) reaped
        ⟨_, ⟨0, rfl, rfl⟩, trivial, rfl⟩
    have cancelled : deliveryMachine.Reachable _ :=
      .step (.job .cancel none 0) submitted
        ⟨_, rfl, ⟨rfl, by simp [after], by
          simp [after, begun, runningState, launchingState]⟩, rfl⟩
    refine ⟨_, _, cancelled,
      ⟨_, ⟨⟨"alice", sampleStarted⟩, [], rfl, rfl, rfl⟩, trivial, rfl⟩, ?_⟩
    intro quiescent
    exact quiescent.started (by decide) none 0 rfl
  · have cancelled : deliveryMachine.Reachable _ :=
      .step (.job .cancel none 0) reachable_launching.of_restrict
        ⟨_, rfl, ⟨rfl, by
          simp [launchingState, JobState.sample, Task.hosted],
          by simp [launchingState]⟩, rfl⟩
    have killed : deliveryMachine.Reachable _ :=
      .step (.job (.killAll fun _ => true) none 0) cancelled
        ⟨_, rfl, rfl, rfl⟩
    have prepared : deliveryMachine.Reachable _ :=
      .step (.job (.prepare "alice" "printf x > a" sampleSandbox true) none 0)
        killed ⟨_, ⟨0, rfl, rfl⟩, by
          simp [Ready, after, begun, launchingState], rfl⟩
    have launched : deliveryMachine.Reachable _ :=
      .step (.job (.launch "alice" "printf x > a" sampleSandbox sampleSandbox
        true 7 .transaction) none 0) prepared
        ⟨_, ⟨0, rfl, rfl⟩, ⟨by decide, by decide⟩, rfl⟩
    have published : deliveryMachine.Reachable _ :=
      .step (.job (.publish "alice" sampleSandbox sampleStarted true) none 0)
        launched ⟨_, ⟨0, rfl, rfl⟩, by simp [Ready], rfl⟩
    have joined : deliveryMachine.Reachable _ :=
      .step .join published ⟨rfl, rfl, rfl, by decide, by decide, rfl⟩
    have released : deliveryMachine.Reachable _ :=
      .step (.job .releaseAll none 0) joined ⟨_, rfl, rfl, rfl⟩
    refine ⟨_, _, released, ⟨rfl, rfl⟩, ?_⟩
    intro quiescent
    exact absurd (quiescent.killed rfl) (by decide)

end DeliveryState

end Shellmux
end Marsh
