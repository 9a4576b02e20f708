import Marsh.Shellmux.Deliveries
import Marsh.Shellmux.LaunchSites

/-!
# Deferred updates and their rows

An operation looks its row up again by name after it has released the table
lock.  While no name is taken over from an operation in progress, what it finds
is the row it began with.
-/

namespace Marsh
namespace Shellmux

open Library

/-! ## Operations in progress on a name -/

/-- An operation on the row of this name is in progress, and began with the row
of this sandbox. -/
inductive DeliveryState.Works
    (state : DeliveryState) : String -> Sandbox -> Prop
  | task {task : Task} {id : String} {origin : Sandbox}
      (member : task ∈ state.jobs.tasks)
      (owner : task.owner = some (id, origin)) : Works state id origin
  | conclusion {conclusion : Conclusion}
      (unconcluded : state.jobs.Unconcluded conclusion) :
      Works state conclusion.id conclusion.started.sandbox
  | concluded {id : String} {origin : Sandbox}
      (reporting : state.jobs.Reporting id)
      (last : state.concluded = some origin) : Works state id origin
  | opening {sandbox : Sandbox}
      (member : Delivery.opening sandbox ∈ state.deliveries) :
      Works state sandbox.id sandbox
  | reporting {id : String} {origin : Sandbox}
      (member : Delivery.reporting id origin ∈ state.deliveries) :
      Works state id origin

/-- A spawn takes no name an operation in progress is still to look up, and no
row is removed from under a launch, by hand or by a spawn that fails after it
has published the row. -/
def DeliveryState.KeepsNames (state : DeliveryState) : DeliveryStep -> Prop
  | .job (.spawn id _ _ _) _ _ => ∀ origin, ¬ state.Works id origin
  | .job (.closeSandbox sandbox) _ _ => state.jobs.Unlaunched sandbox
  | .refuseSize sandbox => state.jobs.Unlaunched sandbox
  | _ => True

/-! ## What a deferred update may change -/

/-- The step applies an update its operation has deferred past the table lock,
and the operation began with the row of this sandbox. -/
def DeliveryState.Defers
    (state : DeliveryState)
    (origin : Sandbox) : DeliveryStep -> Prop
  | .job (.build _ sandbox _) _ _ | .job (.failBuild _ sandbox _) _ _
  | .refuseSize sandbox => sandbox = origin
  | .job (.failLaunch _ _ began _ _ _ _) _ _ | .job (.publish _ began _ _) _ _
  | .job (.reportFailure _ began) _ _ | .deliverFailure _ began =>
      began = origin
  | .job (.conclude _) _ _ =>
      ∃ conclusion, state.jobs.concluder = .concluding conclusion ∧
        conclusion.started.sandbox = origin
  | .job .checkClose _ _ => state.concluded = some origin
  | _ => False

/-- What the step has built is not left behind: no row holds the terminal, pipe
and shell of a construction, and the command of a launch does not run on. -/
def DeliveryState.Reclaims
    (next : DeliveryState)
    (origin : Sandbox) : DeliveryStep -> Prop
  | .job (.build _ _ _) _ _ | .job (.failBuild _ _ _) _ _ | .refuseSize _ =>
      ∀ job ∈ next.jobs.table.rows,
        next.producers job.sandbox.uid ≠ some origin.uid
  | .job (.publish _ _ started _) _ _ => started.pid ∉ next.unkilled
  | _ => True

/-- A step acts on the row of one sandbox only. -/
structure DeliveryState.ActsOnOwn
    (state : DeliveryState)
    (origin : Sandbox)
    (step : DeliveryStep)
    (next : DeliveryState) : Prop where
  /-- Rows of other sandboxes are what they were. -/
  rows : next.jobs.table.rows.filter (fun job => job.sandbox.uid ≠ origin.uid) =
    state.jobs.table.rows.filter fun job => job.sandbox.uid ≠ origin.uid
  /-- They hold what they held. -/
  producers : ∀ uid, uid ≠ origin.uid ->
    next.producers uid = state.producers uid
  /-- Their callbacks are not taken. -/
  dones : ∀ uid, uid ≠ origin.uid -> next.dones uid = state.dones uid
  /-- A completion it is to announce is one of this sandbox. -/
  announced : ∀ source began shell exitCode done,
    Delivery.finishing source began shell exitCode done ∈ next.deliveries ->
      Delivery.finishing source began shell exitCode done ∉ state.deliveries ->
        shell = origin
  /-- If the row is gone, what was built is reclaimed. -/
  reclaimed : (∀ job ∈ state.jobs.table.rows, job.sandbox.uid ≠ origin.uid) ->
    next.Reclaims origin step

/-! ## What is in progress after a step -/

namespace DeliveryState

section Step

variable {state next : DeliveryState}

/-- The deliveries a section begins are those of the operation it is of. -/
theorem begun_cases
    {step : JobStep}
    {exitCode : Int}
    {delivery : Delivery}
    (member : delivery ∈ state.begun exitCode step) :
    (∃ id sandbox cmd, step = .build id sandbox cmd ∧
        delivery = .opening sandbox) ∨
      (∃ id cmd origin, step = .prepare id cmd origin true ∧
        delivery = .reporting id origin) ∨
      (∃ id cmd origin sandbox tree cleared,
        step = .failLaunch id cmd origin sandbox true tree cleared ∧
          delivery = .reporting id origin) ∨
      (∃ id origin started killed, step = .publish id origin started killed ∧
        delivery = .reporting id origin) ∨
      ∃ retained conclusion job, step = .conclude retained ∧
        state.jobs.concluder = .concluding conclusion ∧
        state.row conclusion.id = some job ∧
        delivery = .finishing .conclusion conclusion.started.sandbox job.sandbox
          exitCode (state.dones job.sandbox.uid) := by
  cases step with
  | build id sandbox cmd =>
      exact .inl ⟨id, sandbox, cmd, rfl, Multiset.mem_singleton.mp member⟩
  | prepare id cmd origin owned =>
      cases owned with
      | false => exact absurd member (Multiset.notMem_zero _)
      | true =>
          simp only [begun] at member
          split_ifs at member
          · exact .inr (.inl ⟨id, cmd, origin, rfl,
              Multiset.mem_singleton.mp member⟩)
          · exact absurd member (Multiset.notMem_zero _)
  | failLaunch id cmd origin sandbox owned tree cleared =>
      cases owned with
      | false => exact absurd member (Multiset.notMem_zero _)
      | true =>
          exact .inr (.inr (.inl ⟨id, cmd, origin, sandbox, tree, cleared, rfl,
            Multiset.mem_singleton.mp member⟩))
  | publish id origin started killed =>
      simp only [begun] at member
      split_ifs at member
      · exact .inr (.inr (.inr (.inl ⟨id, origin, started, killed, rfl,
          Multiset.mem_singleton.mp member⟩)))
      · exact absurd member (Multiset.notMem_zero _)
  | conclude retained =>
      simp only [begun] at member
      split at member
      · next conclusion concluding =>
          simp only [deliver] at member
          split at member
          · next job found =>
              exact .inr (.inr (.inr (.inr ⟨retained, conclusion, job, rfl,
                concluding, found, Multiset.mem_singleton.mp member⟩)))
          · exact absurd member (Multiset.notMem_zero _)
      · exact absurd member (Multiset.notMem_zero _)
  | spawn | refuseSpawn | failBuild | refuseSize | startIn | waited | launch
  | reportFailure | reap | submit | take | finish | checkClose
  | reclaimConcluded | keep | stop | reclaim | closeSandbox | cancel | killAll
  | releaseAll =>
      exact absurd member (Multiset.notMem_zero _)

/-- With nothing begun, what is in progress was so before. -/
theorem Works.of_fewer
    {id : String}
    {origin : Sandbox}
    (works : next.Works id origin)
    (tasks : ∀ task ∈ next.jobs.tasks, task ∈ state.jobs.tasks)
    (queue : next.jobs.queue = state.jobs.queue)
    (concluder : next.jobs.concluder = state.jobs.concluder)
    (concluded : next.concluded = state.concluded)
    (deliveries : ∀ delivery ∈ next.deliveries,
      delivery ∈ state.deliveries ∨ delivery.pumps = true ∨
        delivery.source.isSome) : state.Works id origin := by
  cases works with
  | task member owner => exact .task (tasks _ member) owner
  | conclusion unconcluded =>
      refine .conclusion ?_
      rw [JobState.Unconcluded, queue, concluder] at unconcluded
      exact unconcluded.imp_left (tasks _)
  | concluded reporting last =>
      refine .concluded ?_ (concluded ▸ last)
      simpa only [JobState.Reporting, concluder] using reporting
  | opening member =>
      rcases deliveries _ member with old | pumps | finishes
      · exact .opening old
      · contradiction
      · contradiction
  | reporting member =>
      rcases deliveries _ member with old | pumps | finishes
      · exact .reporting old
      · contradiction
      · contradiction

/-- An operation in progress on a name was so before, or it begins with the row
that has the name. -/
theorem works_of_step
    {step : DeliveryStep}
    (formed : state.jobs.WellFormed)
    (steps : state.Steps step next)
    {id : String}
    {origin : Sandbox}
    (works : next.Works id origin) :
    state.Works id origin ∨
      (∃ uid anonymous cmd done exitCode,
        step = .job (.spawn id uid anonymous cmd) done exitCode ∧
          origin = ⟨id, uid⟩) ∨
      ∃ job ∈ state.jobs.table.rows, job.id = id ∧
        (origin = job.sandbox ∨
          ∃ started, job.running = some started ∧ started.sandbox = origin) := by
  cases step with
  | job step done exitCode =>
      obtain ⟨jobs, steps, -, rfl⟩ := steps
      have formedNext := formed.step steps
      cases works with
      | task member owner =>
          rcases owner_of_step steps member owner with ⟨old, oldMember, same⟩ |
            ⟨uid, anonymous, cmd, rfl, rfl⟩ | ⟨job, jobMember, named, rfl⟩
          · exact .inl (.task oldMember same)
          · exact .inr (.inl ⟨uid, anonymous, cmd, done, exitCode, rfl, rfl⟩)
          · exact .inr (.inr ⟨job, jobMember, named, .inl rfl⟩)
      | @conclusion conclusion unconcluded =>
          rcases unconcluded_of_step steps unconcluded with
            old | ⟨job, member, running⟩
          · exact .inl (.conclusion old)
          · refine .inr (.inr ⟨job, member, ?_, .inr ⟨_, running, rfl⟩⟩)
            have ran := (formed.commanded (job.id, conclusion.started.sandbox)
              (JobState.mem_commands_of_row ⟨job, member, by
                rw [Job.command, running, Option.map_some]⟩)).1
            have owes : conclusion.command ∈ jobs.commands := by
              rcases unconcluded with submitting | queued | concluding
              · exact JobState.mem_commands_of_task submitting rfl
              · exact JobState.mem_commands_of_pending queued rfl
              · refine JobState.mem_commands_of_concluder ?_
                rw [show jobs.concluder = .concluding conclusion from concluding]
                rfl
            exact ran.symm.trans (formedNext.commanded _ owes).1
      | concluded reporting last =>
          rcases reporting_of_step steps reporting with ⟨old, other⟩ |
            ⟨retained, conclusion, rfl, concluding, rfl⟩
          · refine .inl (.concluded old ?_)
            rw [← last]
            cases step with
            | conclude retained => exact absurd rfl (other retained)
            | _ => rfl
          · refine .inl ?_
            simp only [after, concluding] at last
            obtain rfl := Option.some.inj last
            exact .conclusion (.inr (.inr concluding))
      | @opening sandbox member =>
          rcases Multiset.mem_add.mp member with new | old
          · obtain ⟨id, built, cmd, rfl, same⟩ | ⟨_, _, _, -, same⟩ |
              ⟨_, _, _, _, _, _, -, same⟩ | ⟨_, _, _, _, -, same⟩ |
              ⟨_, _, _, -, -, -, same⟩ := begun_cases new
            · obtain rfl := Delivery.opening.inj same
              obtain ⟨rest, pending, -, -⟩ := steps
              obtain ⟨named, -⟩ := formed.owned _ pending.self _ _ rfl
              exact .inl (.task pending.self (by rw [named]; rfl))
            all_goals contradiction
          · exact .inl (.opening old)
      | @reporting id origin member =>
          rcases Multiset.mem_add.mp member with new | old
          · obtain ⟨_, _, _, -, same⟩ | ⟨_, cmd, _, rfl, same⟩ |
              ⟨_, cmd, _, sandbox, tree, cleared, rfl, same⟩ |
              ⟨_, _, started, killed, rfl, same⟩ |
              ⟨_, _, _, -, -, -, same⟩ := begun_cases new
            · contradiction
            · obtain ⟨rfl, rfl⟩ := Delivery.reporting.inj same
              obtain ⟨rest, pending, -⟩ := steps
              exact .inl (.task pending.self rfl)
            · obtain ⟨rfl, rfl⟩ := Delivery.reporting.inj same
              obtain ⟨rest, pending, -⟩ := steps
              exact .inl (.task pending.self rfl)
            · obtain ⟨rfl, rfl⟩ := Delivery.reporting.inj same
              obtain ⟨rest, pending, -⟩ := steps
              exact .inl (.task pending.self rfl)
            · contradiction
          · exact .inl (.reporting old)
  | refuseSize sandbox =>
      obtain ⟨rest, under, rfl⟩ := steps
      refine .inl (works.of_fewer
        (fun task member => (Multiset.mem_filter.mp member).1) rfl rfl rfl ?_)
      intro delivery member
      rw [under]
      exact .inl (Multiset.mem_cons_of_mem member)
  | announceOpened sandbox =>
      obtain ⟨rest, under, rfl⟩ := steps
      refine .inl (works.of_fewer (fun _ member => member) rfl rfl rfl ?_)
      intro delivery member
      rw [under]
      rcases Multiset.mem_cons.mp member with rfl | old
      · exact .inr (.inl rfl)
      · exact .inl (Multiset.mem_cons_of_mem old)
  | deliverFailure id origin =>
      obtain ⟨rest, under, rfl⟩ := steps
      refine .inl (works.of_fewer (fun _ member => member) rfl rfl rfl ?_)
      intro delivery member
      rw [under]
      rcases Multiset.mem_add.mp member with new | old
      · simp only [deliver] at new
        split at new
        · obtain rfl := Multiset.mem_singleton.mp new
          exact .inr (.inr rfl)
        · exact absurd new (Multiset.notMem_zero _)
      · exact .inl (Multiset.mem_cons_of_mem old)
  | announceFinished source origin shell exitCode done =>
      obtain ⟨rest, under, rfl⟩ := steps
      refine .inl (works.of_fewer (fun _ member => member) rfl rfl rfl ?_)
      intro delivery member
      rw [under]
      exact .inl (Multiset.mem_cons_of_mem member)
  | read shell terminal instrumentation stream result =>
      obtain ⟨rest, under, -, rfl⟩ := steps
      refine .inl (works.of_fewer (fun _ member => member) rfl rfl rfl ?_)
      intro delivery member
      rw [under]
      rcases Multiset.mem_cons.mp member with rfl | old
      · cases stream <;> exact .inr (.inl rfl)
      · exact .inl (Multiset.mem_cons_of_mem old)
  | announceClosed shell =>
      obtain ⟨rest, under, -, rfl⟩ := steps
      refine .inl (works.of_fewer (fun _ member => member) rfl rfl rfl ?_)
      intro delivery member
      rw [under]
      exact .inl (Multiset.mem_cons_of_mem member)
  | onFinish id done =>
      obtain ⟨-, -, job, -, -, -, rfl⟩ := steps
      exact .inl (works.of_fewer (fun _ member => member) rfl rfl rfl
        fun _ member => .inl member)
  | join =>
      obtain ⟨-, -, -, -, -, rfl⟩ := steps
      exact .inl (works.of_fewer (fun _ member => member) rfl rfl rfl
        fun _ member => .inl member)
  | abort =>
      obtain ⟨-, rfl⟩ := steps
      refine .inl (works.of_fewer
        (fun task member => (Multiset.mem_filter.mp member).1) rfl rfl rfl ?_)
      intro delivery member
      exact absurd member (Multiset.notMem_zero _)

/-- The jobs stay well formed. -/
theorem formed_of_step
    {step : DeliveryStep}
    (formed : state.jobs.WellFormed)
    (steps : state.Steps step next) : next.jobs.WellFormed := by
  cases step with
  | job step done exitCode =>
      obtain ⟨jobs, steps, -, rfl⟩ := steps
      exact formed.step steps
  | refuseSize sandbox =>
      obtain ⟨rest, -, rfl⟩ := steps
      exact formed.of_fewer (state.jobs.table.rows_remove_sublist _)
        (fun task member => (Multiset.mem_filter.mp member).1) rfl rfl rfl
  | abort =>
      obtain ⟨-, rfl⟩ := steps
      exact formed.of_fewer (List.Sublist.refl _)
        (fun task member => (Multiset.mem_filter.mp member).1) rfl rfl rfl
  | announceOpened | deliverFailure | announceFinished | read | announceClosed
  | onFinish | join =>
      simp only [Steps] at steps
      grind

/-- Issued uids stay issued. -/
theorem issued_of_step
    (steps : state.Steps step next) :
    state.jobs.issued ⊆ next.jobs.issued := by
  cases step with
  | job step done exitCode =>
      obtain ⟨jobs, steps, -, rfl⟩ := steps
      exact JobState.WellFormed.issued_of_step steps
  | refuseSize | announceOpened | deliverFailure | announceFinished | read
  | announceClosed | onFinish | join | abort =>
      simp only [Steps] at steps
      grind

end Step

end DeliveryState

/-! ## Operations find their own rows -/

namespace DeliveryState

/-- Every operation finds the row it began with under its name, or none, and a
row holds what was built for it. -/
structure OwnRows (state : DeliveryState) : Prop where
  formed : state.jobs.WellFormed
  named : ∀ id origin, state.Works id origin ->
    ∀ job ∈ state.jobs.table.rows, job.id = id -> job.sandbox = origin
  sited : state.jobs.Sited
  held : ∀ uid built, state.producers uid = some built -> built = uid

namespace OwnRows

theorem findsOwn
    {state : DeliveryState}
    (own : state.OwnRows) : state.jobs.FindsOwn :=
  fun _ member id origin owner => own.named id origin (.task member owner)

/-- What an operation finds under its name is its own row. -/
theorem sandbox_of_row
    {state : DeliveryState}
    (own : state.OwnRows)
    {id : String}
    {origin : Sandbox}
    (works : state.Works id origin)
    {job : Job}
    (found : state.row id = some job) : job.sandbox = origin :=
  own.named id origin works job (JobTable.mem_of_find found)
    (JobTable.find_some_id found)

variable {state next : DeliveryState} {step : DeliveryStep}

/-- A row was there before under its name, or a spawn reserves it. -/
theorem row_of_step
    (steps : state.Steps step next)
    {job : Job}
    (member : job ∈ next.jobs.table.rows) :
    (∃ row ∈ state.jobs.table.rows, row.id = job.id ∧
        row.sandbox = job.sandbox) ∨
      ∃ id uid anonymous cmd done exitCode,
        step = .job (.spawn id uid anonymous cmd) done exitCode ∧
          state.row id = none ∧ job = .reserve id uid anonymous cmd := by
  have kept : job ∈ state.jobs.table.rows ->
      ∃ row ∈ state.jobs.table.rows, row.id = job.id ∧
        row.sandbox = job.sandbox :=
    fun old => ⟨job, old, rfl, rfl⟩
  cases step with
  | job step done exitCode =>
      obtain ⟨jobs, steps, -, rfl⟩ := steps
      obtain ⟨id, uid, anonymous, cmd, rfl, absent, -, rows, -⟩ |
        ⟨-, change, keeps, rows⟩ := JobState.rows_of_step steps
      · change job ∈ jobs.table.rows at member
        rw [rows] at member
        rcases List.mem_append.mp member with old | new
        · exact .inl (kept old)
        · exact .inr ⟨id, uid, anonymous, cmd, done, exitCode, rfl, absent,
            List.mem_singleton.mp new⟩
      · obtain ⟨row, rowMember, rfl⟩ := List.mem_map.mp (rows.subset member)
        exact .inl ⟨row, rowMember, (keeps row).1.symm, (keeps row).2.symm⟩
  | refuseSize sandbox =>
      obtain ⟨rest, -, rfl⟩ := steps
      exact .inl (kept
        ((state.jobs.table.rows_remove_sublist _).subset member))
  | announceOpened | deliverFailure | announceFinished | read | announceClosed
  | onFinish | join | abort =>
      simp only [Steps] at steps
      grind

theorem named_of_step
    (own : state.OwnRows)
    (steps : state.Steps step next)
    (keeps : state.KeepsNames step) :
    ∀ id origin, next.Works id origin ->
      ∀ job ∈ next.jobs.table.rows, job.id = id -> job.sandbox = origin := by
  intro id origin works job member named
  obtain ⟨row, rowMember, sameId, site⟩ |
    ⟨_, uid, anonymous, cmd, done, exitCode, rfl, -, rfl⟩ :=
    row_of_step steps member
  · rw [← site]
    rw [← sameId] at named
    obtain old | ⟨uid, anonymous, cmd, done, exitCode, rfl, rfl⟩ |
      ⟨found, foundMember, foundNamed, began⟩ :=
      works_of_step own.formed steps works
    · exact own.named id origin old row rowMember named
    · obtain ⟨jobs, ⟨counter, ⟨absent, -⟩, -⟩, -⟩ := steps
      rw [JobTable.find, List.find?_eq_none] at absent
      exact absurd (decide_eq_true named) (absent row rowMember)
    · obtain rfl := own.formed.eq_of_id rowMember foundMember
        (named.trans foundNamed.symm)
      rcases began with rfl | ⟨started, running, rfl⟩
      · rfl
      · exact (own.sited.housed row rowMember started running).symm
  · obtain rfl : _ = id := named
    obtain old | ⟨_, _, _, _, _, same, rfl⟩ |
      ⟨found, foundMember, foundNamed, -⟩ :=
      works_of_step own.formed steps works
    · exact absurd old (keeps origin)
    · obtain ⟨same, -, -⟩ := DeliveryStep.job.inj same
      obtain ⟨-, rfl, -, -⟩ := JobStep.spawn.inj same
      rfl
    · obtain ⟨jobs, ⟨counter, ⟨absent, -⟩, -⟩, -⟩ := steps
      rw [JobTable.find, List.find?_eq_none] at absent
      exact absurd (decide_eq_true foundNamed) (absent found foundMember)

theorem sited_of_step
    (own : state.OwnRows)
    (steps : state.Steps step next)
    (keeps : state.KeepsNames step) : next.jobs.Sited := by
  cases step with
  | job step done exitCode =>
      obtain ⟨jobs, steps, ready, rfl⟩ := steps
      refine own.sited.of_step own.formed own.findsOwn steps ?_
      cases step <;> trivial
  | refuseSize sandbox =>
      obtain ⟨rest, under, rfl⟩ := steps
      refine own.sited.of_fewer (state.jobs.table.rows_remove_sublist _)
        (Multiset.filter_le _ _) fun job member => ?_
      refine (JobTable.mem_remove_or member).imp_right fun gone => ?_
      have opens : state.Works sandbox.id sandbox :=
        .opening (under ▸ Multiset.mem_cons_self _ _)
      rw [own.named _ _ opens job member (of_decide_eq_true gone)]
      exact keeps
  | abort =>
      obtain ⟨-, rfl⟩ := steps
      exact own.sited.of_fewer (List.Sublist.refl _) (Multiset.filter_le _ _)
        fun job member => .inl member
  | announceOpened | deliverFailure | announceFinished | read | announceClosed
  | onFinish | join =>
      have sited := own.sited
      simp only [Steps] at steps
      grind

omit step in
/-- What a row holds it held before, or its spawn has just built. -/
theorem producers_of_section
    {step : JobStep}
    {uid built : String}
    (holds : state.producersAfter step uid = some built) :
    state.producers uid = some built ∨
      ∃ id sandbox cmd job, step = .build id sandbox cmd ∧
        state.row id = some job ∧ job.sandbox.uid = uid ∧
        sandbox.uid = built := by
  have released : ∀ other : String,
      state.releases other uid = some built ->
      state.producers uid = some built := by
    intro other holds
    by_cases same : uid = other
    · simp [releases, same] at holds
    · rwa [releases, Function.update_of_ne same] at holds
  cases step with
  | build id sandbox cmd =>
      cases found : state.row id with
      | none =>
          simp only [producersAfter, found] at holds
          exact .inl holds
      | some job =>
          simp only [producersAfter, found] at holds
          by_cases same : uid = job.sandbox.uid
          · rw [same, Function.update_self] at holds
            obtain rfl := Option.some.inj holds
            exact .inr ⟨id, sandbox, cmd, job, rfl, found, same.symm, rfl⟩
          · rw [Function.update_of_ne same] at holds
            exact .inl holds
  | failBuild id sandbox cmd =>
      cases found : state.row id with
      | none =>
          simp only [producersAfter, found] at holds
          exact .inl holds
      | some job =>
          simp only [producersAfter, found] at holds
          exact .inl (released _ holds)
  | reclaim sandbox => exact .inl (released _ holds)
  | reclaimConcluded =>
      cases concluder : state.jobs.concluder with
      | reclaiming sandbox =>
          simp only [producersAfter, concluder] at holds
          exact .inl (released _ holds)
      | taking | concluding | reporting | closing =>
          simp only [producersAfter, concluder] at holds
          exact .inl holds
  | closeSandbox sandbox =>
      simp only [producersAfter] at holds
      split_ifs at holds
      · exact .inl (released _ holds)
      · exact .inl holds
  | checkClose =>
      cases concluder : state.jobs.concluder with
      | closing id retained =>
          cases retained
          · simp only [producersAfter, concluder] at holds
            exact .inl holds
          · simp only [producersAfter, concluder] at holds
            split_ifs at holds
            · cases takes : state.jobs.table.takeClosable id with
              | none =>
                  simp only [takes] at holds
                  exact .inl holds
              | some taken =>
                  simp only [takes] at holds
                  exact .inl (released _ holds)
            · exact .inl holds
      | taking | concluding | reporting | reclaiming =>
          simp only [producersAfter, concluder] at holds
          exact .inl holds
  | releaseAll =>
      simp only [producersAfter] at holds
      split_ifs at holds
      exact .inl holds
  | spawn | refuseSpawn | refuseSize | startIn | waited | prepare | launch
  | failLaunch | publish | reportFailure | reap | submit | take | conclude
  | finish | keep | stop | cancel | killAll => exact .inl holds

/-- What a row holds it held before, or its spawn has just built. -/
theorem producers_of_step
    (steps : state.Steps step next)
    {uid built : String}
    (holds : next.producers uid = some built) :
    state.producers uid = some built ∨
      ∃ id sandbox cmd done exitCode job,
        step = .job (.build id sandbox cmd) done exitCode ∧
          state.row id = some job ∧ job.sandbox.uid = uid ∧
          sandbox.uid = built := by
  cases step with
  | job step done exitCode =>
      obtain ⟨jobs, steps, -, rfl⟩ := steps
      obtain old | ⟨id, sandbox, cmd, job, rfl, found, rfl, rfl⟩ :=
        producers_of_section holds
      · exact .inl old
      · exact .inr ⟨id, sandbox, cmd, done, exitCode, job, rfl, found, rfl, rfl⟩
  | refuseSize sandbox =>
      obtain ⟨rest, -, rfl⟩ := steps
      left
      cases found : state.row sandbox.id with
      | none => simpa only [found] using holds
      | some job =>
          simp only [found] at holds
          by_cases same : uid = job.sandbox.uid
          · simp [releases, same] at holds
          · rwa [releases, Function.update_of_ne same] at holds
  | announceOpened | deliverFailure | announceFinished | read | announceClosed
  | onFinish | join | abort =>
      simp only [Steps] at steps
      grind

theorem held_of_step
    (own : state.OwnRows)
    (steps : state.Steps step next) :
    ∀ uid built, next.producers uid = some built -> built = uid := by
  intro uid built holds
  obtain old | ⟨id, sandbox, cmd, done, exitCode, job, rfl, found, rfl, rfl⟩ :=
    producers_of_step steps holds
  · exact own.held uid built old
  · obtain ⟨jobs, ⟨rest, pending, -⟩, -⟩ := steps
    rw [own.sandbox_of_row (.task pending.self rfl) found]

/-- Every step that takes no name over keeps operations on their own rows. -/
theorem of_step
    (own : state.OwnRows)
    (steps : state.Steps step next)
    (keeps : state.KeepsNames step) : next.OwnRows where
  formed := formed_of_step own.formed steps
  named := own.named_of_step steps keeps
  sited := own.sited_of_step steps keeps
  held := own.held_of_step steps

/-- The machine starts with no operation. -/
theorem empty : DeliveryState.empty.OwnRows where
  formed := .empty
  named _ _ _ _ member := absurd member List.not_mem_nil
  sited := .empty
  held _ _ holds := by contradiction

/-- In every run that takes no name over, operations find their own rows. -/
theorem of_reachable
    (reachable : (deliveryMachine.restrict KeepsNames).Reachable state) :
    state.OwnRows :=
  reachable.invariant OwnRows (fun _ initial => initial ▸ empty)
    fun _ _ _ _ own steps => own.of_step steps.1 steps.2

end OwnRows

/-! ## Deferred updates -/

section Updates

variable {state next : DeliveryState} {origin : Sandbox}

/-- Changes of one sandbox's row leave the others. -/
theorem filter_map_of_own
    {rows : List Job}
    {change : Job -> Job}
    (keeps : Job.Keeps change)
    (own : ∀ job ∈ rows, job.sandbox.uid ≠ origin.uid -> change job = job) :
    (rows.map change).filter (fun job => job.sandbox.uid ≠ origin.uid) =
      rows.filter fun job => job.sandbox.uid ≠ origin.uid := by
  induction rows with
  | nil => rfl
  | cons job rows hypothesis =>
      rw [List.forall_mem_cons] at own
      rw [List.map_cons, List.filter_cons, List.filter_cons, hypothesis own.2,
        (keeps job).2]
      split_ifs with other
      · rw [own.1 (of_decide_eq_true other)]
      · rfl

/-- Removing one sandbox's row leaves the others. -/
theorem filter_remove_of_own
    {table : JobTable}
    {removed : Job -> Bool}
    (own : ∀ job ∈ table.rows, removed job = true ->
      job.sandbox.uid = origin.uid) :
    (table.remove removed).rows.filter
        (fun job => job.sandbox.uid ≠ origin.uid) =
      table.rows.filter fun job => job.sandbox.uid ≠ origin.uid := by
  obtain ⟨rows, counter⟩ := table
  change ∀ job ∈ rows, removed job = true -> job.sandbox.uid = origin.uid at own
  change (rows.eraseP removed).filter
      (fun job => job.sandbox.uid ≠ origin.uid) =
    rows.filter fun job => job.sandbox.uid ≠ origin.uid
  induction rows with
  | nil => rfl
  | cons job rows hypothesis =>
      rw [List.forall_mem_cons] at own
      by_cases gone : removed job = true
      · rw [List.eraseP_cons_of_pos gone, List.filter_cons_of_neg]
        simpa using own.1 gone
      · rw [List.eraseP_cons_of_neg gone, List.filter_cons, List.filter_cons,
          hypothesis own.2]

namespace OwnRows

variable (own : state.OwnRows) {id : String} (works : state.Works id origin)

include own works

/-- A change of the rows of a name leaves those of other sandboxes. -/
theorem filter_named
    {change : Job -> Job}
    (keeps : Job.Keeps change) :
    (state.jobs.table.rows.map (Job.named id change)).filter
        (fun job => job.sandbox.uid ≠ origin.uid) =
      state.jobs.table.rows.filter fun job => job.sandbox.uid ≠ origin.uid := by
  refine filter_map_of_own (keeps.named id) fun job member other => ?_
  refine if_neg fun named => other ?_
  rw [own.named id origin works job member named]

/-- Taking a row of a name leaves those of other sandboxes. -/
theorem filter_takeClosable
    {jobs : JobState}
    {change : Job -> Job}
    (keeps : Job.Keeps change)
    (table : jobs.table.rows =
      state.jobs.table.rows.map (Job.named id change)) :
    (jobs.takeClosable id).table.rows.filter
        (fun job => job.sandbox.uid ≠ origin.uid) =
      state.jobs.table.rows.filter fun job => job.sandbox.uid ≠ origin.uid := by
  rw [← own.filter_named works keeps, ← table]
  obtain ⟨-, same⟩ | ⟨sandbox, -, same⟩ := jobs.takeClosable_cases id
  · rw [same]
  · rw [same]
    refine filter_remove_of_own fun job member closable => ?_
    rw [table] at member
    obtain ⟨row, rowMember, rfl⟩ := List.mem_map.mp member
    have named := (JobTable.idle_of_closable closable).1
    rw [((keeps.named id) row).1] at named
    rw [((keeps.named id) row).2, own.named id origin works row rowMember named]

/-- What the row of a name held is its own. -/
theorem releases_of_row
    {job : Job}
    (found : state.row id = some job)
    {uid : String}
    (other : uid ≠ origin.uid) :
    state.releases job.sandbox.uid uid = state.producers uid := by
  rw [own.sandbox_of_row works found, releases, Function.update_of_ne other]

/-- `deliver` takes the callback of its own row. -/
theorem silenced_of_ne
    {uid : String}
    (other : uid ≠ origin.uid) :
    state.silenced id uid = state.dones uid := by
  cases found : state.row id with
  | none => simp only [silenced, found]
  | some job =>
      simp only [silenced, found]
      rw [own.sandbox_of_row works found, Function.update_of_ne other]

/-- `deliver` announces a completion in its own row. -/
theorem shell_of_deliver
    {source other : Source}
    {began named shell : Sandbox}
    {exitCode code : Int}
    {done : Option Nat}
    (member : Delivery.finishing other began shell code done ∈
      state.deliver source id named exitCode) : shell = origin := by
  cases found : state.row id with
  | none =>
      simp only [deliver, found] at member
      exact absurd member (Multiset.notMem_zero _)
  | some job =>
      simp only [deliver, found, Multiset.mem_singleton,
        Delivery.finishing.injEq] at member
      rw [member.2.2.1, own.sandbox_of_row works found]

end OwnRows

/-- Steps that begin no completion announce none. -/
theorem announced_of_begun
    {step : JobStep}
    {exitCode : Int}
    (unconcluding : ∀ retained, step ≠ .conclude retained) :
    ∀ source began shell code done,
      Delivery.finishing source began shell code done ∈
          state.begun exitCode step + state.deliveries ->
        Delivery.finishing source began shell code done ∉ state.deliveries ->
          shell = origin := by
  intro source began shell code done member fresh
  obtain ⟨_, _, _, -, same⟩ | ⟨_, _, _, -, same⟩ |
    ⟨_, _, _, _, _, _, -, same⟩ | ⟨_, _, _, _, -, same⟩ |
    ⟨retained, _, _, same, -, -, -⟩ :=
    begun_cases ((Multiset.mem_add.mp member).resolve_right fresh)
  · contradiction
  · contradiction
  · contradiction
  · contradiction
  · exact absurd same (unconcluding retained)

/-- A deferred update acts on the row of its own sandbox. -/
theorem OwnRows.actsOnOwn
    (own : state.OwnRows)
    {step : DeliveryStep}
    (steps : state.Steps step next)
    (defers : state.Defers origin step) : state.ActsOnOwn origin step next := by
  cases step with
  | job step done exitCode =>
      obtain ⟨jobs, steps, -, rfl⟩ := steps
      cases step with
      | build id sandbox cmd =>
          obtain rfl : sandbox = origin := defers
          obtain ⟨rest, pending, found, rfl⟩ := steps
          have works : state.Works id sandbox := .task pending.self rfl
          obtain ⟨job, found⟩ := Option.isSome_iff_exists.mp found
          refine ⟨own.filter_named works Job.keeps_build, fun uid other => ?_,
            fun _ _ => rfl, announced_of_begun (by simp), fun gone => ?_⟩
          · simp only [after, producersAfter, row, found]
            rw [own.sandbox_of_row works found, Function.update_of_ne other]
          · refine absurd ?_ (gone job (JobTable.mem_of_find found))
            rw [own.sandbox_of_row works found]
      | failBuild id sandbox cmd =>
          obtain rfl : sandbox = origin := defers
          obtain ⟨rest, pending, rfl⟩ := steps
          have works : state.Works id sandbox := .task pending.self rfl
          refine ⟨filter_remove_of_own fun job member named => ?_,
            fun uid other => ?_, fun _ _ => rfl, announced_of_begun (by simp),
            fun gone job member holds => ?_⟩
          · rw [own.named id sandbox works job member (of_decide_eq_true named)]
          · cases found : state.row id with
            | none => simp only [after, producersAfter, found]
            | some job =>
                simp only [after, producersAfter, found]
                exact own.releases_of_row works found other
          · change state.producersAfter (.failBuild id sandbox cmd) _ = _ at holds
            obtain old | ⟨_, _, _, _, same, -, -, -⟩ :=
              OwnRows.producers_of_section holds
            · have uid := own.held _ _ old
              exact gone job
                ((state.jobs.table.rows_remove_sublist _).subset member) uid.symm
            · contradiction
      | failLaunch id cmd began sandbox owned tree cleared =>
          obtain rfl : began = origin := defers
          obtain ⟨rest, pending, rfl⟩ := steps
          have works : state.Works id began := .task pending.self rfl
          refine ⟨?_, fun _ _ => rfl, fun _ _ => rfl,
            announced_of_begun (by simp), fun _ => trivial⟩
          cases cleared
          · rfl
          · exact own.filter_named works Job.keeps_clear
      | publish id began started killed =>
          obtain rfl : began = origin := defers
          obtain ⟨rest, pending, rfl⟩ := steps
          have works : state.Works id began := .task pending.self rfl
          refine ⟨own.filter_named works (Job.keeps_publish started killed),
            fun _ _ => rfl, fun uid other => ?_, announced_of_begun (by simp),
            fun gone => ?_⟩
          · cases found : state.row id with
            | none => simp only [after, donesAfter, found]
            | some job =>
                simp only [after, donesAfter, found]
                split_ifs
                · rfl
                · rw [own.sandbox_of_row works found,
                    Function.update_of_ne other]
          · obtain ⟨job, member, site⟩ := own.sited.placed _ pending.self _ rfl
            exact absurd (congrArg Sandbox.uid site) (gone job member)
      | reportFailure id began =>
          obtain rfl : began = origin := defers
          obtain ⟨rest, pending, rfl⟩ := steps
          have works : state.Works id began := .task pending.self rfl
          exact ⟨own.filter_takeClosable works Job.keeps_drain rfl,
            fun _ _ => rfl, fun _ _ => rfl, announced_of_begun (by simp),
            fun _ => trivial⟩
      | conclude retained =>
          obtain ⟨conclusion, concluding, rfl⟩ := defers
          obtain ⟨taken, same, rfl⟩ := steps
          have works : state.Works conclusion.id conclusion.started.sandbox :=
            .conclusion (.inr (.inr concluding))
          refine ⟨rfl, fun _ _ => rfl, fun uid other => ?_,
            fun source began shell code given member fresh => ?_,
            fun _ => trivial⟩
          · simp only [after, donesAfter, concluding]
            exact own.silenced_of_ne works other
          · have new := (Multiset.mem_add.mp member).resolve_right fresh
            simp only [begun, concluding] at new
            exact own.shell_of_deliver works new
      | checkClose =>
          obtain ⟨id, retained, closing, effect⟩ :=
            JobState.checkClose_cases steps
          have works : state.Works id origin :=
            .concluded ⟨retained, .inr closing⟩ defers
          have removed : (state.jobs.table.remove
              (JobTable.closable id)).rows.filter
                (fun job => job.sandbox.uid ≠ origin.uid) =
              state.jobs.table.rows.filter
                fun job => job.sandbox.uid ≠ origin.uid := by
            refine filter_remove_of_own fun job member closable => ?_
            rw [own.named id origin works job member
              (JobTable.idle_of_closable closable).1]
          refine ⟨?_, fun uid other => ?_, fun _ _ => rfl,
            announced_of_begun (by simp), fun _ => trivial⟩
          · obtain ⟨-, rfl⟩ | ⟨sandbox, -, -, ⟨-, rfl⟩ | ⟨-, rfl⟩⟩ := effect
            · rfl
            · exact removed
            · exact removed
          · cases retained
            · simp only [after, producersAfter, closing]
            · simp only [after, producersAfter, closing]
              split_ifs
              · cases takes : state.jobs.table.takeClosable id with
                | none => rfl
                | some taken =>
                    obtain ⟨job, found, pair⟩ := Option.map_eq_some_iff.mp takes
                    have named := (JobTable.idle_of_closable
                      (List.find?_some found)).1
                    have site := own.named id origin works job
                      (List.mem_of_find?_eq_some found) named
                    rw [← pair, site]
                    exact Function.update_of_ne other _ _
              · rfl
      | spawn | refuseSpawn | refuseSize | startIn | waited | prepare | launch
      | reap | submit | take | finish | reclaimConcluded | keep | stop | reclaim
      | closeSandbox | cancel | killAll | releaseAll => exact defers.elim
  | refuseSize sandbox =>
      obtain rfl : sandbox = origin := defers
      obtain ⟨rest, under, same⟩ := steps
      have works : state.Works sandbox.id sandbox :=
        .opening (under ▸ Multiset.mem_cons_self _ _)
      have older : ∀ delivery ∈ rest, delivery ∈ state.deliveries := by
        intro delivery member
        rw [under]
        exact Multiset.mem_cons_of_mem member
      have released : ∀ uid, uid ≠ sandbox.uid ->
          next.producers uid = state.producers uid := by
        intro uid other
        rw [same]
        cases found : state.row sandbox.id with
        | none => rfl
        | some job => exact own.releases_of_row works found other
      subst same
      refine ⟨filter_remove_of_own fun job member named => ?_, released,
        fun _ _ => rfl, fun _ _ _ _ _ member fresh =>
          absurd (older _ member) fresh, fun gone job member holds => ?_⟩
      · rw [own.named _ _ works job member (of_decide_eq_true named)]
      · have old := (state.jobs.table.rows_remove_sublist _).subset member
        have apart := gone job old
        exact apart (own.held _ _ ((released _ apart).symm.trans holds)).symm
  | deliverFailure id began =>
      obtain rfl : began = origin := defers
      obtain ⟨rest, under, rfl⟩ := steps
      have works : state.Works id began :=
        .reporting (under ▸ Multiset.mem_cons_self _ _)
      refine ⟨rfl, fun _ _ => rfl,
        fun uid other => own.silenced_of_ne works other,
        fun source other shell code given member fresh => ?_, fun _ => trivial⟩
      rcases Multiset.mem_add.mp member with new | old
      · exact own.shell_of_deliver works new
      · rw [under] at fresh
        exact absurd (Multiset.mem_cons_of_mem old) fresh
  | announceOpened | announceFinished | read | announceClosed | onFinish | join
  | abort => exact defers.elim

/-- In every run that takes over no name an operation in progress is still to
look up, and removes no row by hand from under a launch, every deferred update
acts on the row its operation began with. -/
theorem actsOnOwn_of_keepsNames
    {step : DeliveryStep}
    (reachable : (deliveryMachine.restrict KeepsNames).Reachable state)
    (steps : (deliveryMachine.restrict KeepsNames).step state step next)
    (defers : state.Defers origin step) : state.ActsOnOwn origin step next :=
  (OwnRows.of_reachable reachable).actsOnOwn steps.1 defers

end Updates

/-! ## A name taken over from a construction -/

theorem not_works_empty (id : String) (origin : Sandbox) :
    ¬ empty.Works id origin := by
  intro works
  cases works with
  | task member owner => exact absurd member (Multiset.notMem_zero _)
  | conclusion unconcluded =>
      obtain submitting | queued | concluding := unconcluded
      · exact absurd submitting (Multiset.notMem_zero _)
      · exact absurd queued List.not_mem_nil
      · contradiction
  | concluded reporting last => contradiction
  | opening member => exact absurd member (Multiset.notMem_zero _)
  | reporting member => exact absurd member (Multiset.notMem_zero _)

/-- A spawn without a command is building its job. -/
def buildingState : DeliveryState :=
  { empty with jobs := spawnedState }

/-- The first construction of a name. -/
def firstStep : DeliveryStep :=
  .job (.build "job" ⟨"job", "u1"⟩ none) none 0

/-- Its construction is over. -/
def openingState : DeliveryState :=
  buildingState.after (.build "job" ⟨"job", "u1"⟩ none) none 0
    { spawnedState with
      table := ⟨[spawnedJob.build], 1⟩
      tasks := 0 }

/-- The job, announced and stopped: its storage is still to be reclaimed, and its
streams are still read. -/
def closedState : DeliveryState :=
  { openingState with
    jobs :=
      { openingState.jobs with
        table := ⟨[], 1⟩
        tasks := {.reclaiming ⟨"job", "u1"⟩} }
    deliveries := {.pumping ⟨"job", "u1"⟩ true true}
    told := [.opened ⟨"job", "u1"⟩] }

/-- No operation in progress is to look a name up. -/
theorem not_works_closedState (id : String) (origin : Sandbox) :
    ¬ closedState.Works id origin := by
  intro works
  cases works with
  | task member owner =>
      obtain rfl := Multiset.mem_singleton.mp member
      contradiction
  | conclusion unconcluded =>
      obtain submitting | queued | concluding := unconcluded
      · have same := Multiset.mem_singleton.mp submitting
        contradiction
      · exact absurd queued List.not_mem_nil
      · contradiction
  | concluded reporting last => contradiction
  | opening member | reporting member =>
      have same := Multiset.mem_singleton.mp member
      contradiction

/-- The name, used again by a second spawn. -/
def reusedState : DeliveryState :=
  { closedState with
    jobs :=
      { closedState.jobs with
        table := ⟨[.reserve "job" "u2" false none], 1⟩
        tasks := .building "job" ⟨"job", "u2"⟩ none ::ₘ closedState.jobs.tasks
        issued := ["u2", "u1"] } }

/-- The construction of the second job of a name publishes what it built in its
own row, beside the streams of the first. -/
theorem actsOnOwn_of_keepsNames_reused :
    reusedState.ActsOnOwn ⟨"job", "u2"⟩
      (.job (.build "job" ⟨"job", "u2"⟩ none) none 0)
      (reusedState.after (.build "job" ⟨"job", "u2"⟩ none) none 0
        { reusedState.jobs with
          table := ⟨[(Job.reserve "job" "u2" false none).build], 1⟩
          tasks := closedState.jobs.tasks }) := by
  let keeping := deliveryMachine.restrict KeepsNames
  have spawned : keeping.Reachable buildingState :=
    .step (.job (.spawn "job" "u1" false none) none 0) (.start rfl)
      ⟨⟨spawnedState, spawnedState_steps, rfl, rfl⟩, not_works_empty "job"⟩
  have built : keeping.Reachable openingState :=
    .step firstStep spawned ⟨⟨_, ⟨0, rfl, rfl, rfl⟩, trivial, rfl⟩, trivial⟩
  have opened : keeping.Reachable
      { openingState with
        deliveries := {.pumping ⟨"job", "u1"⟩ true true}
        told := [.opened ⟨"job", "u1"⟩] } :=
    .step (.announceOpened ⟨"job", "u1"⟩) built ⟨⟨0, rfl, rfl⟩, trivial⟩
  have stopped : keeping.Reachable closedState :=
    .step (.job (.stop "job" false) none 0) opened
      ⟨⟨_, ⟨spawnedJob.build, rfl, rfl, rfl⟩, rfl, rfl⟩, trivial⟩
  have reused : keeping.Reachable reusedState :=
    .step (.job (.spawn "job" "u2" false none) none 0) stopped
      ⟨⟨_, ⟨1, ⟨rfl, rfl⟩, by decide, rfl⟩, rfl, rfl⟩,
        not_works_closedState "job"⟩
  exact actsOnOwn_of_keepsNames reused
    ⟨⟨_, ⟨closedState.jobs.tasks, rfl, rfl, rfl⟩, trivial, rfl⟩, trivial⟩ rfl

/-- The job, stopped before it is built. -/
def stoppedState : DeliveryState :=
  { buildingState with
    jobs :=
      { spawnedState with
        table := ⟨[], 1⟩
        tasks := .reclaiming ⟨"job", "u1"⟩ ::ₘ spawnedState.tasks } }

/-- Its name, taken over by a second spawn. -/
def takenState : DeliveryState :=
  { stoppedState with
    jobs :=
      { stoppedState.jobs with
        table := ⟨[.reserve "job" "u2" false none], 1⟩
        tasks := .building "job" ⟨"job", "u2"⟩ none ::ₘ stoppedState.jobs.tasks
        issued := ["u2", "u1"] } }

/-- A construction whose job was stopped publishes what it built in the row of
the job that has taken its name over. -/
theorem not_actsOnOwn_of_taken :
    ∃ (state next : DeliveryState) (origin : Sandbox) (step : DeliveryStep),
      deliveryMachine.Reachable state ∧ deliveryMachine.step state step next ∧
        state.Defers origin step ∧ ¬ state.ActsOnOwn origin step next := by
  refine ⟨takenState, takenState.after (.build "job" ⟨"job", "u1"⟩ none) none 0
    { takenState.jobs with
      table := ⟨[(Job.reserve "job" "u2" false none).build], 1⟩
      tasks := {.building "job" ⟨"job", "u2"⟩ none,
        .reclaiming ⟨"job", "u1"⟩} },
    ⟨"job", "u1"⟩, firstStep, ?_,
    ⟨_, ⟨{.building "job" ⟨"job", "u2"⟩ none, .reclaiming ⟨"job", "u1"⟩},
      by unfold JobState.Pending; decide, rfl, rfl⟩, trivial, rfl⟩, rfl, ?_⟩
  · have spawned : deliveryMachine.Reachable buildingState :=
      .step (.job (.spawn "job" "u1" false none) none 0) (.start rfl)
        ⟨spawnedState, spawnedState_steps, rfl, rfl⟩
    have stopped : deliveryMachine.Reachable stoppedState :=
      .step (.job (.stop "job" false) none 0) spawned
        ⟨_, ⟨spawnedJob, rfl, rfl, rfl⟩, rfl, rfl⟩
    exact .step (.job (.spawn "job" "u2" false none) none 0) stopped
      ⟨_, ⟨1, ⟨rfl, rfl⟩, by decide, rfl⟩, rfl, rfl⟩
  · intro acts
    exact absurd acts.rows (by decide)

end DeliveryState

end Shellmux
end Marsh
