import Marsh.Shellmux.EventProtocol

/-!
# The order of a job's events

Each part of what orders the events is kept by every step.  A construction or a
pump of a uid excludes the others of it, so nothing comes before the opening or
after the closing.
-/

namespace Marsh
namespace Shellmux

open Library

namespace DeliveryState

namespace Orderly

variable {state next : DeliveryState} {step : DeliveryStep}

/-- With nothing begun, a job that is active was so before. -/
theorem active_of_fewer
    {origin : Sandbox}
    (active : next.Active origin)
    (tasks : ∀ task ∈ next.jobs.tasks, task ∈ state.jobs.tasks)
    (rows : ∀ job ∈ next.jobs.table.rows, job ∈ state.jobs.table.rows)
    (queue : next.jobs.queue = state.jobs.queue)
    (concluder : next.jobs.concluder = state.jobs.concluder)
    (deliveries : ∀ id began, Delivery.reporting id began ∈ next.deliveries ->
      Delivery.reporting id began ∈ state.deliveries) :
    state.Active origin := by
  cases active with
  | waiting member => exact .waiting (tasks _ member)
  | preparing member => exact .preparing (tasks _ member)
  | launch member launches => exact .launch (tasks _ member) launches
  | row member runs => exact .row (rows _ member) runs
  | conclusion unconcluded =>
      rw [JobState.Unconcluded, queue, concluder] at unconcluded
      exact .conclusion (unconcluded.imp_left (tasks _))
  | reporting member => exact .reporting (deliveries _ _ member)

/-- The launch a spawn owns begins once the job is announced. -/
theorem told_of_preparing
    (orderly : state.Orderly)
    {id cmd : String}
    {origin : Sandbox}
    {owned : Bool}
    {done : Option Nat}
    (member : Task.preparing id cmd origin owned ∈ state.jobs.tasks)
    (ready : state.Ready done (.prepare id cmd origin owned)) :
    .opened origin ∈ state.told := by
  cases owned with
  | false => exact orderly.active origin (.preparing member)
  | true => exact (orderly.owned id cmd origin member).resolve_left (ready rfl)

/-- A job that is active after a section was announced before it. -/
theorem told_of_section
    (orderly : state.Orderly)
    {step : JobStep}
    {done : Option Nat}
    {exitCode : Int}
    {jobs : JobState}
    (steps : state.jobs.Steps step jobs)
    (ready : state.Ready done step)
    (sessions : state.KeepsSessions (.job step done exitCode))
    {origin : Sandbox}
    (active : (state.after step done exitCode jobs).Active origin) :
    .opened origin ∈ state.told := by
  have own := orderly.own
  cases active with
  | @waiting id cmd _ member =>
      rcases JobState.tasks_of_step steps member with old | new
      · exact orderly.active origin (.waiting old)
      · cases step <;> simp only [JobState.Starts, reduceCtorEq, and_false,
          exists_false, Task.waiting.injEq, or_self] at new
        obtain ⟨job, found, -, -, rfl⟩ := new
        exact sessions.2 job found
  | @preparing id cmd _ member =>
      rcases JobState.tasks_of_step steps member with old | new
      · exact orderly.active origin (.preparing old)
      · cases step <;> simp only [JobState.Starts, reduceCtorEq, and_false,
          exists_false, Task.preparing.injEq, or_self, Bool.false_eq_true] at new
        obtain ⟨began, rfl, rfl, rfl, -⟩ := new
        exact orderly.active _ (.waiting began)
  | @launch task _ member launches =>
      obtain ⟨old, oldMember, same, -⟩ |
        ⟨id, cmd, owned, job, rfl, began, -, -, -⟩ :=
        JobState.launchOrigin_of_step steps member launches
      · exact orderly.active origin (.launch oldMember same)
      · exact orderly.told_of_preparing began ready
  | @row job member runs =>
      by_cases spawns : ∃ id uid anonymous cmd, step = .spawn id uid anonymous cmd
      · obtain ⟨id, uid, anonymous, cmd, rfl⟩ := spawns
        obtain ⟨counter, -, -, rfl⟩ := steps
        rcases List.mem_append.mp member with old | new
        · exact orderly.active _ (.row old runs)
        · obtain rfl := List.mem_singleton.mp new
          exact absurd rfl runs
      obtain ⟨rows, -⟩ := JobState.onRow_of_step own.formed steps
        fun id uid anonymous cmd same => spawns ⟨id, uid, anonymous, cmd, same⟩
      obtain ⟨row, rowMember, rfl⟩ := List.mem_map.mp (rows.subset member)
      rw [(JobStep.keeps_onRow _ row).2]
      obtain ⟨started, running⟩ := Option.ne_none_iff_exists'.mp runs
      obtain ⟨before, was, -⟩ | ⟨id, origin, published, killed, rfl, named, -⟩ :=
        JobStep.running_onRow running
      · exact orderly.active _ (.row rowMember (by simp [was]))
      · obtain ⟨rest, pending, -⟩ := steps
        rw [own.findsOwn _ pending.self id origin rfl row rowMember named]
        exact orderly.active _ (.launch pending.self rfl)
  | conclusion unconcluded =>
      rcases unconcluded_of_step steps unconcluded with
        old | ⟨job, member, running⟩
      · exact orderly.active _ (.conclusion old)
      · rw [own.sited.housed job member _ running]
        exact orderly.active _ (.row member (by simp [running]))
  | reporting member =>
      rcases Multiset.mem_add.mp member with new | old
      · obtain ⟨_, _, _, -, same⟩ | ⟨_, cmd, _, rfl, same⟩ |
          ⟨_, cmd, _, sandbox, tree, cleared, rfl, same⟩ |
          ⟨_, _, started, killed, rfl, same⟩ |
          ⟨_, _, _, -, -, -, same⟩ := begun_cases new
        · contradiction
        · obtain ⟨rfl, rfl⟩ := Delivery.reporting.inj same
          obtain ⟨rest, pending, -⟩ := steps
          exact orderly.told_of_preparing pending.self ready
        · obtain ⟨rfl, rfl⟩ := Delivery.reporting.inj same
          obtain ⟨rest, pending, -⟩ := steps
          exact orderly.active _ (.launch pending.self rfl)
        · obtain ⟨rfl, rfl⟩ := Delivery.reporting.inj same
          obtain ⟨rest, pending, -⟩ := steps
          exact orderly.active _ (.launch pending.self rfl)
        · contradiction
      · exact orderly.active origin (.reporting old)

/-- A row a section leaves keeps what it holds. -/
theorem producers_of_row
    (own : state.OwnRows)
    {step : JobStep}
    {jobs : JobState}
    (steps : state.jobs.Steps step jobs)
    (unreleased : step ≠ .releaseAll)
    {row : Job}
    (member : row ∈ state.jobs.table.rows)
    (stays : step.onRow row ∈ jobs.table.rows)
    (holds : state.producers row.sandbox.uid = some row.sandbox.uid) :
    state.producersAfter step row.sandbox.uid = some row.sandbox.uid := by
  have formed := own.formed
  have others : ∀ {uid : String}, row.sandbox.uid ≠ uid ->
      state.releases uid row.sandbox.uid = some row.sandbox.uid := by
    intro uid apart
    rw [releases, Function.update_of_ne apart, holds]
  -- A section that removes the row of a kind leaves none of the kind.
  have kept : ∀ {removed : Job -> Bool}, step.onRow = (fun job => job) ->
      jobs.table = state.jobs.table.remove removed ->
      (∀ job ∈ state.jobs.table.rows, removed job = true ->
        ∀ other ∈ state.jobs.table.rows, removed other = true ->
          job.id = other.id) -> removed row = false := by
    intro removed same table single
    rw [same, table] at stays
    exact JobTable.not_removed_of_mem formed.named single stays
  cases step with
  | build id sandbox cmd =>
      cases found : state.row id with
      | none => simpa only [producersAfter, found] using holds
      | some job =>
          simp only [producersAfter, found]
          by_cases same : row.sandbox.uid = job.sandbox.uid
          · obtain ⟨rest, pending, -⟩ := steps
            have site := own.sandbox_of_row (.task pending.self rfl) found
            rw [same, Function.update_self, site]
          · rw [Function.update_of_ne same, holds]
  | failBuild id sandbox cmd =>
      cases found : state.row id with
      | none => simpa only [producersAfter, found] using holds
      | some job =>
          simp only [producersAfter, found]
          refine others fun same => ?_
          obtain rfl := formed.eq_of_uid member (JobTable.mem_of_find found) same
          obtain ⟨rest, pending, rfl⟩ := steps
          have left := @kept (fun job => job.id = id) rfl rfl
            fun a _ first b _ second => by
              rw [of_decide_eq_true first, of_decide_eq_true second]
          exact absurd (JobTable.find_some_id found) (of_decide_eq_false left)
  | reclaim sandbox =>
      obtain ⟨rest, pending, -⟩ := steps
      exact others ((formed.gone sandbox (.inl pending.self)).2 row member)
  | reclaimConcluded =>
      obtain ⟨sandbox, reclaiming, -⟩ := steps
      simp only [producersAfter, reclaiming]
      exact others ((formed.gone sandbox (.inr reclaiming)).2 row member)
  | closeSandbox sandbox =>
      obtain rfl := steps
      have left := @kept (fun job => job.sandbox.uid = sandbox.uid) rfl rfl
        fun a aMember first b bMember second => by
          rw [formed.eq_of_uid aMember bMember
            ((of_decide_eq_true first).trans (of_decide_eq_true second).symm)]
      simp only [producersAfter]
      split_ifs
      · exact others (of_decide_eq_false left)
      · exact holds
  | checkClose =>
      obtain ⟨id, retained, closing, effect⟩ :=
        JobState.checkClose_cases steps
      cases retained with
      | false => simpa only [producersAfter, closing] using holds
      | true =>
          simp only [producersAfter, closing]
          split_ifs with idle
          · cases takes : state.jobs.table.takeClosable id with
            | none => simpa only [takes] using holds
            | some taken =>
                dsimp only
                obtain ⟨job, found, pair⟩ := Option.map_eq_some_iff.mp takes
                rw [← pair]
                refine others fun same => ?_
                obtain rfl := formed.eq_of_uid member
                  (List.mem_of_find?_eq_some found) same
                have closable := List.find?_some found
                obtain ⟨open_, -⟩ | ⟨sandbox, -, -, taken⟩ := effect
                · rw [open_ idle] at takes
                  contradiction
                · have left := @kept (JobTable.closable id) rfl
                    (by obtain ⟨-, rfl⟩ | ⟨-, rfl⟩ := taken <;> rfl)
                    fun a _ first b _ second => by
                      rw [(JobTable.idle_of_closable first).1,
                        (JobTable.idle_of_closable second).1]
                  rw [closable] at left
                  contradiction
          · exact holds
  | releaseAll => exact absurd rfl unreleased
  | spawn | refuseSpawn | refuseSize | startIn | waited | prepare | launch
  | failLaunch | publish | reportFailure | reap | submit | take | conclude
  | finish | keep | stop | cancel | killAll => exact holds

/-! ### One step -/

/-- Released terminals stay released. -/
theorem released_of_step
    (steps : state.Steps step next)
    (released : state.Released) : next.Released := by
  cases step with
  | job step done exitCode =>
      obtain ⟨jobs, -, ready, rfl⟩ := steps
      cases step with
      | cancel =>
          obtain phase | phase := released <;> rw [ready.1] at phase <;>
            contradiction
      | killAll killable =>
          obtain phase | phase := released <;>
            rw [show state.phase = .cancelled from ready] at phase <;>
            contradiction
      | releaseAll => exact .inl rfl
      | spawn | refuseSpawn | build | failBuild | refuseSize | startIn | waited
      | prepare | launch | failLaunch | publish | reportFailure | reap | submit
      | take | conclude | finish | checkClose | reclaimConcluded | keep | stop
      | reclaim | closeSandbox => exact released
  | join =>
      obtain ⟨phase, -⟩ := steps
      obtain released | released := released <;> rw [phase] at released <;>
        contradiction
  | abort =>
      obtain ⟨-, rfl⟩ := steps
      exact .inr rfl
  | refuseSize | announceOpened | deliverFailure | announceFinished | read
  | announceClosed | onFinish =>
      simp only [Steps] at steps
      grind [Released]

theorem staged_of_step
    (orderly : state.Orderly)
    (steps : state.Steps step next)
    (uid : String)
    (fresh : uid ∉ next.jobs.issued) : next.stages uid = 0 := by
  have before := orderly.staged uid fun issued =>
    fresh (issued_of_step steps issued)
  refine Nat.le_zero.mp ((stages_of_step steps uid ?_).trans before.le)
  rintro id anonymous cmd done exitCode rfl
  obtain ⟨jobs, ⟨counter, -, -, rfl⟩, -, rfl⟩ := steps
  exact fresh List.mem_cons_self

theorem single_of_step
    (orderly : state.Orderly)
    (steps : state.Steps step next)
    (uid : String) : next.stages uid ≤ 1 := by
  by_cases spawns : ∃ id anonymous cmd done exitCode,
      step = .job (.spawn id uid anonymous cmd) done exitCode
  · obtain ⟨id, anonymous, cmd, done, exitCode, rfl⟩ := spawns
    obtain ⟨jobs, ⟨counter, -, fresh, rfl⟩, -, rfl⟩ := steps
    have none := orderly.staged uid fresh
    rw [stages] at none
    change taskCount Task.buildingUid
        (.building id ⟨id, uid⟩ cmd ::ₘ state.jobs.tasks) uid +
      (0 + state.deliveries).countP _ ≤ 1
    rw [taskCount_cons, zero_add]
    split_ifs <;> omega
  · refine (stages_of_step steps uid ?_).trans (orderly.single uid)
    exact fun id anonymous cmd done exitCode same =>
      spawns ⟨id, anonymous, cmd, done, exitCode, same⟩

/-- A construction that has not announced its job is one of the uid's. -/
theorem stages_of_unopened
    {sandbox : Sandbox}
    (unopened : state.Unopened sandbox) : 0 < state.stages sandbox.uid := by
  obtain ⟨id, cmd, builds⟩ | opening := unopened
  · refine Nat.add_pos_left (Multiset.countP_pos.mpr ⟨_, builds, ?_⟩) _
    rfl
  · exact Nat.add_pos_right _ (Multiset.countP_pos.mpr ⟨_, opening, by
      simp [Delivery.stageUid]⟩)

/-- A pump is one of the uid's. -/
theorem stages_of_pump
    {shell : Sandbox}
    {terminal instrumentation : Bool}
    (pumps : Delivery.pumping shell terminal instrumentation ∈
      state.deliveries) : 0 < state.stages shell.uid :=
  Nat.add_pos_right _ (Multiset.countP_pos.mpr ⟨_, pumps, by
    simp [Delivery.stageUid]⟩)

/-- A uid that has a construction or a pump was issued. -/
theorem issued_of_stages
    (orderly : state.Orderly)
    {uid : String}
    (staged : 0 < state.stages uid) : uid ∈ state.jobs.issued := by
  by_contra fresh
  rw [orderly.staged uid fresh] at staged
  contradiction

/-- Two different constructions or pumps of a uid are one too many. -/
theorem not_two_stages
    {uid : String}
    {first second : Delivery}
    {rest : Multiset Delivery}
    (single : state.stages uid ≤ 1)
    (under : state.deliveries = first ::ₘ rest)
    (member : second ∈ rest)
    (firstUid : first.stageUid = some uid)
    (secondUid : second.stageUid = some uid) : False := by
  have two : 0 < rest.countP fun delivery => delivery.stageUid = some uid :=
    Multiset.countP_pos.mpr ⟨second, member, secondUid⟩
  rw [stages, under, Multiset.countP_cons, if_pos firstUid] at single
  omega

/-- A construction leaves no room for another one of its uid, or a pump. -/
theorem not_stages_of_building
    {id : String}
    {sandbox : Sandbox}
    {cmd : Option String}
    {delivery : Delivery}
    (single : state.stages sandbox.uid ≤ 1)
    (builds : Task.building id sandbox cmd ∈ state.jobs.tasks)
    (member : delivery ∈ state.deliveries)
    (same : delivery.stageUid = some sandbox.uid) : False := by
  have building : 0 < taskCount Task.buildingUid state.jobs.tasks sandbox.uid :=
    Multiset.countP_pos.mpr ⟨_, builds, rfl⟩
  have staged : 0 < state.deliveries.countP fun delivery =>
      delivery.stageUid = some sandbox.uid :=
    Multiset.countP_pos.mpr ⟨delivery, member, same⟩
  rw [stages] at single
  omega

/-! ### What is announced -/

/-- Events of other uids leave those of a uid what they were. -/
theorem eventsOf_of_others
    {uid : String}
    {more : List FrontendEvent}
    (told : next.told = state.told ++ more)
    (others : ∀ event ∈ more, event.shell.uid ≠ uid) :
    next.eventsOf uid = state.eventsOf uid := by
  have none : more.filter (fun event => event.shell.uid = uid) = [] :=
    List.filter_eq_nil_iff.mpr fun event member => by
      simpa using others event member
  rw [eventsOf, told, List.filter_append, none, List.append_nil, eventsOf]

/-- Events of a uid come after those it had. -/
theorem eventsOf_of_own
    {uid : String}
    {more : List FrontendEvent}
    (told : next.told = state.told ++ more)
    (own : ∀ event ∈ more, event.shell.uid = uid) :
    next.eventsOf uid = state.eventsOf uid ++ more := by
  have all : more.filter (fun event => event.shell.uid = uid) = more :=
    List.filter_eq_self.mpr fun event member => by simpa using own event member
  rw [eventsOf, told, List.filter_append, all, eventsOf]

/-- Nothing is delivered for a uid without delivering an event. -/
theorem eventsOf_of_told
    (told : next.told = state.told)
    (uid : String) : next.eventsOf uid = state.eventsOf uid := by
  rw [eventsOf, eventsOf, told]

theorem mem_eventsOf
    {event : FrontendEvent}
    {uid : String} :
    event ∈ state.eventsOf uid ↔ event ∈ state.told ∧ event.shell.uid = uid := by
  simp [eventsOf]

/-- What a step announces: a construction its job, a pump a read or the end, or
`deliver` a completion. -/
theorem told_cases
    (steps : state.Steps step next) :
    next.told = state.told ∨
      (∃ shell, step = .announceOpened shell ∧
        Delivery.opening shell ∈ state.deliveries ∧
        next.told = state.told ++ [.opened shell]) ∨
      (∃ source origin shell exitCode done,
        step = .announceFinished source origin shell exitCode done ∧
          Delivery.finishing source origin shell exitCode done ∈
            state.deliveries ∧
          next.told = state.told ++ [.finished shell exitCode]) ∨
      (∃ shell terminal instrumentation stream result,
        step = .read shell terminal instrumentation stream result ∧
          Delivery.pumping shell terminal instrumentation ∈ state.deliveries ∧
          next.told = state.told ++ Stream.event shell stream result) ∨
      ∃ shell, step = .announceClosed shell ∧
        Delivery.pumping shell false false ∈ state.deliveries ∧
        (∀ uid, state.producers uid ≠ some shell.uid) ∧
        next.told = state.told ++ [.closed shell] := by
  cases step with
  | announceOpened shell =>
      obtain ⟨rest, under, rfl⟩ := steps
      exact .inr (.inl ⟨shell, rfl, under ▸ Multiset.mem_cons_self _ _, rfl⟩)
  | announceFinished source origin shell exitCode done =>
      obtain ⟨rest, under, rfl⟩ := steps
      exact .inr (.inr (.inl ⟨source, origin, shell, exitCode, done, rfl,
        under ▸ Multiset.mem_cons_self _ _, rfl⟩))
  | read shell terminal instrumentation stream result =>
      obtain ⟨rest, under, -, rfl⟩ := steps
      exact .inr (.inr (.inr (.inl ⟨shell, terminal, instrumentation, stream,
        result, rfl, under ▸ Multiset.mem_cons_self _ _, rfl⟩)))
  | announceClosed shell =>
      obtain ⟨rest, under, released, rfl⟩ := steps
      exact .inr (.inr (.inr (.inr ⟨shell, rfl,
        under ▸ Multiset.mem_cons_self _ _, released, rfl⟩)))
  | job | refuseSize | deliverFailure | onFinish | join | abort =>
      simp only [Steps, after] at steps
      grind

/-- A pump's read announces events of its own job, between its opening and its
closing. -/
theorem shell_of_event
    {shell : Sandbox}
    {stream : Stream}
    {result : ReadResult} :
    ∀ event ∈ Stream.event shell stream result,
      event.shell = shell ∧ event.between = true := by
  cases result <;> cases stream <;> simp [Stream.event, FrontendEvent.shell,
    FrontendEvent.between]

/-- A completion is announced in a job that has been opened. -/
theorem eventsOf_of_finishing
    (orderly : state.Orderly)
    {source : Source}
    {origin shell : Sandbox}
    {exitCode : Int}
    {done : Option Nat}
    (finishes : Delivery.finishing source origin shell exitCode done ∈
      state.deliveries) : state.eventsOf shell.uid ≠ [] := by
  obtain ⟨opened, -⟩ := orderly.completes _ _ _ _ _ finishes
  exact List.ne_nil_of_mem (mem_eventsOf.mpr ⟨opened, rfl⟩)

/-- A completion is announced in a job that is ongoing. -/
theorem ongoing_of_finishing
    (orderly : state.Orderly)
    {source : Source}
    {origin shell : Sandbox}
    {exitCode : Int}
    {done : Option Nat}
    (finishes : Delivery.finishing source origin shell exitCode done ∈
      state.deliveries) : Ongoing (state.eventsOf shell.uid) := by
  refine (orderly.protocol shell.uid).ongoing
    (orderly.eventsOf_of_finishing finishes) fun closed told => ?_
  obtain ⟨told, same⟩ := mem_eventsOf.mp told
  obtain ⟨-, absent | released⟩ := orderly.closed closed told
  · obtain ⟨-, job, member, rfl⟩ := orderly.completes _ _ _ _ _ finishes
    exact absent job member same.symm
  · have pumps := (orderly.joined (.inr released)).pumps _ finishes
    contradiction

theorem known_of_step
    (orderly : state.Orderly)
    (steps : state.Steps step next) :
    ∀ event ∈ next.told, event.shell.uid ∈ next.jobs.issued := by
  intro event member
  refine issued_of_step steps ?_
  obtain told | ⟨shell, -, opens, told⟩ | ⟨_, _, shell, _, _, -, finishes, told⟩ |
    ⟨shell, _, _, _, _, -, pumps, told⟩ | ⟨shell, -, pumps, -, told⟩ :=
    told_cases steps
  · exact orderly.known event (told ▸ member)
  all_goals
    rw [told] at member
    rcases List.mem_append.mp member with old | new
    · exact orderly.known event old
  · obtain rfl := List.mem_singleton.mp new
    exact orderly.issued_of_stages (stages_of_unopened (.inr opens))
  · obtain rfl := List.mem_singleton.mp new
    obtain ⟨-, job, row, rfl⟩ := orderly.completes _ _ _ _ _ finishes
    exact orderly.own.formed.known job row
  · rw [(shell_of_event event new).1]
    exact orderly.issued_of_stages (stages_of_pump pumps)
  · obtain rfl := List.mem_singleton.mp new
    exact orderly.issued_of_stages (stages_of_pump pumps)

theorem fresh_of_step
    (orderly : state.Orderly)
    (steps : state.Steps step next) :
    ∀ sandbox, next.Unopened sandbox -> next.eventsOf sandbox.uid = [] := by
  intro sandbox unopened
  have before : state.eventsOf sandbox.uid = [] := by
    obtain old | ⟨_, _, _, _, _, -, fresh⟩ := unopened_of_step steps unopened
    · exact orderly.fresh sandbox old
    · refine List.filter_eq_nil_iff.mpr fun event member same => fresh ?_
      rw [← of_decide_eq_true same]
      exact orderly.known event member
  have single := orderly.single_of_step steps sandbox.uid
  -- A second construction or a pump of the uid is one too many.
  have alone : ∀ {shell : Sandbox}, Delivery.pumping shell true true ∈
      next.deliveries -> shell.uid ≠ sandbox.uid := by
    intro shell pumps same
    obtain ⟨rest, under⟩ := Multiset.exists_cons_of_mem pumps
    obtain ⟨id, cmd, builds⟩ | opening := unopened
    · exact not_stages_of_building single builds pumps (congrArg some same)
    · rw [under] at opening
      exact not_two_stages single under
        ((Multiset.mem_cons.mp opening).resolve_left (by simp))
        (congrArg some same) rfl
  obtain told | ⟨shell, rfl, opens, told⟩ |
    ⟨_, _, shell, _, _, -, finishes, told⟩ |
    ⟨shell, _, _, _, _, -, pumps, told⟩ | ⟨shell, -, pumps, -, told⟩ :=
    told_cases steps
  · rw [eventsOf_of_told told, before]
  · rw [eventsOf_of_others told, before]
    intro event member
    obtain rfl := List.mem_singleton.mp member
    obtain ⟨rest, -, rfl⟩ := steps
    exact alone (Multiset.mem_cons_self _ _)
  · rw [eventsOf_of_others told, before]
    intro event member same
    obtain rfl := List.mem_singleton.mp member
    exact orderly.eventsOf_of_finishing finishes (same ▸ before)
  · rw [eventsOf_of_others told, before]
    intro event member same
    rw [(shell_of_event event member).1] at same
    exact (orderly.pumps _ _ _ pumps).ne_nil (same ▸ before)
  · rw [eventsOf_of_others told, before]
    intro event member same
    obtain rfl := List.mem_singleton.mp member
    exact (orderly.pumps _ _ _ pumps).ne_nil (same ▸ before)

theorem pumps_of_step
    (orderly : state.Orderly)
    (steps : state.Steps step next) :
    ∀ shell terminal instrumentation,
      Delivery.pumping shell terminal instrumentation ∈ next.deliveries ->
        Ongoing (next.eventsOf shell.uid) := by
  intro shell terminal instrumentation member
  have single := orderly.single shell.uid
  -- A pump that is not the one that steps is left where it was.
  have old : ∀ {other : Delivery} {rest : Multiset Delivery},
      state.Under other rest ->
      Delivery.pumping shell terminal instrumentation ∈ rest ->
      other.stageUid ≠ some shell.uid := by
    intro other rest under pumps same
    exact not_two_stages single under pumps same rfl
  cases step with
  | job step done exitCode =>
      obtain ⟨jobs, -, -, rfl⟩ := steps
      rcases Multiset.mem_add.mp member with new | pumps
      · obtain ⟨_, _, _, -, same⟩ | ⟨_, _, _, -, same⟩ |
          ⟨_, _, _, _, _, _, -, same⟩ | ⟨_, _, _, _, -, same⟩ |
          ⟨_, _, _, -, -, -, same⟩ := begun_cases new <;> contradiction
      · exact orderly.pumps _ _ _ pumps
  | refuseSize sandbox =>
      obtain ⟨rest, under, rfl⟩ := steps
      exact orderly.pumps _ _ _ (under ▸ Multiset.mem_cons_of_mem member)
  | announceOpened opened =>
      obtain ⟨rest, under, rfl⟩ := steps
      rcases Multiset.mem_cons.mp member with same | pumps
      · obtain ⟨rfl, -, -⟩ := Delivery.pumping.inj same
        have opens : Delivery.opening shell ∈ state.deliveries :=
          under ▸ Multiset.mem_cons_self _ _
        rw [@eventsOf_of_own state _ shell.uid [.opened shell] rfl
          fun event single => by rw [List.mem_singleton.mp single]; rfl,
          orderly.fresh shell (.inr opens)]
        exact ⟨shell, [], rfl, by simp⟩
      · rw [@eventsOf_of_others state _ shell.uid [.opened opened] rfl]
        · exact orderly.pumps _ _ _ (under ▸ Multiset.mem_cons_of_mem pumps)
        · intro event single same
          rw [List.mem_singleton.mp single] at same
          exact old under pumps (congrArg some same)
  | deliverFailure id origin =>
      obtain ⟨rest, under, rfl⟩ := steps
      rcases Multiset.mem_add.mp member with new | pumps
      · cases found : state.row id with
        | none =>
            simp only [deliver, found] at new
            exact absurd new (Multiset.notMem_zero _)
        | some job =>
            simp only [deliver, found] at new
            exact absurd (Multiset.mem_singleton.mp new) (by simp)
      · exact orderly.pumps _ _ _ (under ▸ Multiset.mem_cons_of_mem pumps)
  | announceFinished source origin ended exitCode done =>
      obtain ⟨rest, under, rfl⟩ := steps
      have ongoing := orderly.pumps _ _ _
        (under ▸ Multiset.mem_cons_of_mem member)
      by_cases same : ended.uid = shell.uid
      · rw [@eventsOf_of_own state _ shell.uid [.finished ended exitCode] rfl
          fun event single => by rw [List.mem_singleton.mp single]; exact same]
        exact ongoing.append (by simp [FrontendEvent.between])
      · rwa [@eventsOf_of_others state _ shell.uid [.finished ended exitCode] rfl
          fun event single => by rw [List.mem_singleton.mp single]; exact same]
  | read pumped left right stream result =>
      obtain ⟨rest, under, -, rfl⟩ := steps
      have reads : Delivery.pumping pumped left right ∈ state.deliveries :=
        under ▸ Multiset.mem_cons_self _ _
      rcases Multiset.mem_cons.mp member with same | pumps
      · have shared : shell = pumped := by
          cases stream <;> exact (Delivery.pumping.inj same).1
        subst shared
        rw [@eventsOf_of_own state _ shell.uid _ rfl fun event single => by
          rw [(shell_of_event event single).1]]
        exact (orderly.pumps _ _ _ reads).append fun event single =>
          (shell_of_event event single).2
      · rw [@eventsOf_of_others state _ shell.uid _ rfl]
        · exact orderly.pumps _ _ _ (under ▸ Multiset.mem_cons_of_mem pumps)
        · intro event single same
          rw [(shell_of_event event single).1] at same
          exact old under pumps (congrArg some same)
  | announceClosed closed =>
      obtain ⟨rest, under, -, rfl⟩ := steps
      rw [@eventsOf_of_others state _ shell.uid [.closed closed] rfl]
      · exact orderly.pumps _ _ _ (under ▸ Multiset.mem_cons_of_mem member)
      · intro event single same
        rw [List.mem_singleton.mp single] at same
        exact old under member (congrArg some same)
  | onFinish id done =>
      obtain ⟨-, -, job, -, -, -, rfl⟩ := steps
      exact orderly.pumps _ _ _ member
  | join =>
      obtain ⟨-, -, -, -, -, rfl⟩ := steps
      exact orderly.pumps _ _ _ member
  | abort =>
      obtain ⟨-, rfl⟩ := steps
      exact absurd member (Multiset.notMem_zero _)

theorem protocol_of_step
    (orderly : state.Orderly)
    (steps : state.Steps step next) :
    ∀ uid, Protocol (next.eventsOf uid) := by
  intro uid
  have kept : ∀ {more : List FrontendEvent}, next.told = state.told ++ more ->
      (∀ event ∈ more, event.shell.uid ≠ uid) -> Protocol (next.eventsOf uid) := by
    intro more told others
    rw [eventsOf_of_others told others]
    exact orderly.protocol uid
  obtain told | ⟨shell, -, opens, told⟩ |
    ⟨_, _, shell, exitCode, _, -, finishes, told⟩ |
    ⟨shell, _, _, stream, result, -, pumps, told⟩ | ⟨shell, -, pumps, -, told⟩ :=
    told_cases steps
  · rw [eventsOf_of_told told]
    exact orderly.protocol uid
  · by_cases same : shell.uid = uid
    · obtain rfl := same
      rw [eventsOf_of_own told fun event single => by
        rw [List.mem_singleton.mp single]; rfl,
        orderly.fresh shell (.inr opens)]
      exact .inr (.inl ⟨shell, [], rfl, by simp⟩)
    · exact kept told fun event single => by
        rw [List.mem_singleton.mp single]; exact same
  · by_cases same : shell.uid = uid
    · obtain rfl := same
      rw [eventsOf_of_own told fun event single => by
        rw [List.mem_singleton.mp single]; rfl]
      exact .inr (.inl ((orderly.ongoing_of_finishing finishes).append
        (by simp [FrontendEvent.between])))
    · exact kept told fun event single => by
        rw [List.mem_singleton.mp single]; exact same
  · by_cases same : shell.uid = uid
    · obtain rfl := same
      rw [eventsOf_of_own told fun event single => by
        rw [(shell_of_event event single).1]]
      exact .inr (.inl ((orderly.pumps _ _ _ pumps).append fun event single =>
        (shell_of_event event single).2))
    · exact kept told fun event single => by
        rw [(shell_of_event event single).1]; exact same
  · by_cases same : shell.uid = uid
    · obtain rfl := same
      rw [eventsOf_of_own told fun event single => by
        rw [List.mem_singleton.mp single]; rfl]
      exact .inr (.inr ⟨shell, _, orderly.pumps _ _ _ pumps, rfl⟩)
    · exact kept told fun event single => by
        rw [List.mem_singleton.mp single]; exact same

/-! ### Who may announce -/

theorem active_of_step
    (orderly : state.Orderly)
    (steps : state.Steps step next)
    (sessions : state.KeepsSessions step) :
    ∀ origin, next.Active origin -> .opened origin ∈ next.told := by
  intro origin active
  refine (told_of_step steps).subset ?_
  cases step with
  | job step done exitCode =>
      obtain ⟨jobs, steps, ready, rfl⟩ := steps
      exact orderly.told_of_section steps ready sessions active
  | refuseSize sandbox =>
      obtain ⟨rest, under, rfl⟩ := steps
      refine orderly.active origin (active_of_fewer active
        (fun task member => (Multiset.mem_filter.mp member).1)
        (fun job member => (state.jobs.table.rows_remove_sublist _).subset member)
        rfl rfl fun id began member => ?_)
      exact under ▸ Multiset.mem_cons_of_mem member
  | announceOpened sandbox =>
      obtain ⟨rest, under, rfl⟩ := steps
      refine orderly.active origin (active_of_fewer active
        (fun _ member => member) (fun _ member => member) rfl rfl
        fun id began member => ?_)
      refine under ▸ Multiset.mem_cons_of_mem ?_
      exact (Multiset.mem_cons.mp member).resolve_left (by simp)
  | deliverFailure id began =>
      obtain ⟨rest, under, rfl⟩ := steps
      refine orderly.active origin (active_of_fewer active
        (fun _ member => member) (fun _ member => member) rfl rfl
        fun other start member => ?_)
      refine under ▸ Multiset.mem_cons_of_mem ?_
      refine (Multiset.mem_add.mp member).resolve_left fun new => ?_
      cases found : state.row id with
      | none =>
          simp only [deliver, found] at new
          exact absurd new (Multiset.notMem_zero _)
      | some job =>
          simp only [deliver, found] at new
          exact absurd (Multiset.mem_singleton.mp new) (by simp)
  | announceFinished source began shell exitCode done =>
      obtain ⟨rest, under, rfl⟩ := steps
      refine orderly.active origin (active_of_fewer active
        (fun _ member => member) (fun _ member => member) rfl rfl
        fun id start member => ?_)
      exact under ▸ Multiset.mem_cons_of_mem member
  | read shell terminal instrumentation stream result =>
      obtain ⟨rest, under, -, rfl⟩ := steps
      refine orderly.active origin (active_of_fewer active
        (fun _ member => member) (fun _ member => member) rfl rfl
        fun id start member => ?_)
      refine under ▸ Multiset.mem_cons_of_mem ?_
      refine (Multiset.mem_cons.mp member).resolve_left ?_
      cases stream <;> simp
  | announceClosed shell =>
      obtain ⟨rest, under, -, rfl⟩ := steps
      refine orderly.active origin (active_of_fewer active
        (fun _ member => member) (fun _ member => member) rfl rfl
        fun id start member => ?_)
      exact under ▸ Multiset.mem_cons_of_mem member
  | onFinish id done =>
      obtain ⟨-, -, job, -, -, -, rfl⟩ := steps
      exact orderly.active origin (active_of_fewer active
        (fun _ member => member) (fun _ member => member) rfl rfl
        fun _ _ member => member)
  | join =>
      obtain ⟨-, -, -, -, -, rfl⟩ := steps
      exact orderly.active origin (active_of_fewer active
        (fun _ member => member) (fun _ member => member) rfl rfl
        fun _ _ member => member)
  | abort =>
      obtain ⟨-, rfl⟩ := steps
      refine orderly.active origin (active_of_fewer active
        (fun task member => (Multiset.mem_filter.mp member).1)
        (fun _ member => member) rfl rfl fun id began member => ?_)
      exact absurd member (Multiset.notMem_zero _)

/-- What `deliver` reads is the row its operation began with. -/
theorem finishing_of_deliver
    (own : state.OwnRows)
    {source other : Source}
    {id : String}
    {origin began shell : Sandbox}
    {exitCode code : Int}
    {done : Option Nat}
    (works : state.Works id origin)
    (member : Delivery.finishing other began shell code done ∈
      state.deliver source id origin exitCode) :
    ∃ job ∈ state.jobs.table.rows, job.sandbox = shell ∧ shell = origin := by
  cases found : state.row id with
  | none =>
      simp only [deliver, found] at member
      exact absurd member (Multiset.notMem_zero _)
  | some job =>
      simp only [deliver, found] at member
      obtain ⟨-, -, rfl, -, -⟩ :=
        Delivery.finishing.inj (Multiset.mem_singleton.mp member)
      exact ⟨job, JobTable.mem_of_find found, rfl,
        own.sandbox_of_row works found⟩

/-- A row a section does not remove is there after it. -/
theorem row_of_section
    (own : state.OwnRows)
    {step : JobStep}
    {jobs : JobState}
    (steps : state.jobs.Steps step jobs)
    {row : Job}
    (member : row ∈ state.jobs.table.rows)
    (unremoved : ¬ state.jobs.Removes step row) :
    ∃ job ∈ jobs.table.rows, job.sandbox = row.sandbox := by
  by_cases spawns : ∃ id uid anonymous cmd, step = .spawn id uid anonymous cmd
  · obtain ⟨id, uid, anonymous, cmd, rfl⟩ := spawns
    obtain ⟨counter, -, -, rfl⟩ := steps
    exact ⟨row, List.mem_append_left _ member, rfl⟩
  · have kept := (JobState.onRow_of_step own.formed steps
      fun id uid anonymous cmd same =>
        spawns ⟨id, uid, anonymous, cmd, same⟩).2 row member
    exact ⟨step.onRow row, kept.resolve_right unremoved,
      (JobStep.keeps_onRow step row).2⟩

theorem completes_of_step
    (orderly : state.Orderly)
    (steps : state.Steps step next)
    (sessions : state.KeepsSessions step) :
    ∀ source origin shell exitCode done,
      Delivery.finishing source origin shell exitCode done ∈ next.deliveries ->
        .opened shell ∈ next.told ∧
          ∃ job ∈ next.jobs.table.rows, job.sandbox = shell := by
  intro source origin shell exitCode done member
  have own := orderly.own
  have grows := (told_of_step steps).subset
  cases step with
  | job step given code =>
      obtain ⟨jobs, steps, ready, rfl⟩ := steps
      rcases Multiset.mem_add.mp member with new | old
      · obtain ⟨_, _, _, -, same⟩ | ⟨_, _, _, -, same⟩ |
          ⟨_, _, _, _, _, _, -, same⟩ | ⟨_, _, _, _, -, same⟩ |
          ⟨retained, conclusion, job, rfl, concluding, found, same⟩ :=
          begun_cases new
        iterate 4 contradiction
        obtain ⟨-, -, rfl, -, -⟩ := Delivery.finishing.inj same
        have unconcluded : state.jobs.Unconcluded conclusion :=
          .inr (.inr concluding)
        rw [own.sandbox_of_row (.conclusion unconcluded) found]
        refine ⟨orderly.active _ (.conclusion unconcluded), ?_⟩
        obtain ⟨-, -, rfl⟩ := steps
        exact ⟨job, JobTable.mem_of_find found,
          own.sandbox_of_row (.conclusion unconcluded) found⟩
      · obtain ⟨told, row, rowMember, rfl⟩ := orderly.completes _ _ _ _ _ old
        exact ⟨told, row_of_section own steps rowMember fun removes =>
          sessions.1 row rowMember removes _ _ _ _ old⟩
  | refuseSize sandbox =>
      obtain ⟨rest, under, rfl⟩ := steps
      obtain ⟨told, row, rowMember, rfl⟩ := orderly.completes _ _ _ _ _
        (under ▸ Multiset.mem_cons_of_mem member)
      refine ⟨told, ?_⟩
      rcases JobTable.mem_remove_or rowMember with left | gone
      · exact ⟨row, left, rfl⟩
      · have opens : Delivery.opening sandbox ∈ state.deliveries :=
          under ▸ Multiset.mem_cons_self _ _
        have same := own.named _ _ (.opening opens) row rowMember
          (of_decide_eq_true gone)
        have none := orderly.fresh sandbox (.inr opens)
        refine absurd none (List.ne_nil_of_mem (mem_eventsOf.mpr ⟨told, ?_⟩))
        rw [← same]
        rfl
  | announceOpened sandbox =>
      obtain ⟨rest, under, rfl⟩ := steps
      have old := (Multiset.mem_cons.mp member).resolve_left (by simp)
      exact (orderly.completes _ _ _ _ _
        (under ▸ Multiset.mem_cons_of_mem old)).imp_left (grows ·)
  | deliverFailure id began =>
      obtain ⟨rest, under, rfl⟩ := steps
      rcases Multiset.mem_add.mp member with new | old
      · have reports : Delivery.reporting id began ∈ state.deliveries :=
          under ▸ Multiset.mem_cons_self _ _
        obtain ⟨job, row, site, rfl⟩ :=
          finishing_of_deliver own (.reporting reports) new
        exact ⟨orderly.active _ (.reporting reports), job, row, site⟩
      · exact orderly.completes _ _ _ _ _
          (under ▸ Multiset.mem_cons_of_mem old)
  | announceFinished from_ started ended code given =>
      obtain ⟨rest, under, rfl⟩ := steps
      exact (orderly.completes _ _ _ _ _
        (under ▸ Multiset.mem_cons_of_mem member)).imp_left (grows ·)
  | read pumped terminal instrumentation stream result =>
      obtain ⟨rest, under, -, rfl⟩ := steps
      have old := (Multiset.mem_cons.mp member).resolve_left
        (by cases stream <;> simp)
      exact (orderly.completes _ _ _ _ _
        (under ▸ Multiset.mem_cons_of_mem old)).imp_left (grows ·)
  | announceClosed closed =>
      obtain ⟨rest, under, -, rfl⟩ := steps
      exact (orderly.completes _ _ _ _ _
        (under ▸ Multiset.mem_cons_of_mem member)).imp_left (grows ·)
  | onFinish id given =>
      obtain ⟨-, -, job, -, -, -, rfl⟩ := steps
      exact orderly.completes _ _ _ _ _ member
  | join =>
      obtain ⟨-, -, -, -, -, rfl⟩ := steps
      exact orderly.completes _ _ _ _ _ member
  | abort =>
      obtain ⟨-, rfl⟩ := steps
      exact absurd member (Multiset.notMem_zero _)

theorem owned_of_step
    (orderly : state.Orderly)
    (steps : state.Steps step next) :
    ∀ id cmd origin, Task.preparing id cmd origin true ∈ next.jobs.tasks ->
      Delivery.opening origin ∈ next.deliveries ∨
        .opened origin ∈ next.told := by
  intro id cmd origin member
  have grows := (told_of_step steps).subset
  -- The construction that steps is another job's, or it announces this one.
  have moved : ∀ {other : Delivery} {rest : Multiset Delivery},
      state.Under other rest ->
      Task.preparing id cmd origin true ∈ state.jobs.tasks ->
      other ≠ .opening origin ->
      Delivery.opening origin ∈ rest ∨ .opened origin ∈ next.told := by
    intro other rest under prepares apart
    refine (orderly.owned id cmd origin prepares).imp (fun opens => ?_) (grows ·)
    rw [under] at opens
    exact (Multiset.mem_cons.mp opens).resolve_left apart.symm
  cases step with
  | job step done exitCode =>
      obtain ⟨jobs, steps, -, rfl⟩ := steps
      rcases JobState.tasks_of_step steps member with old | new
      · exact (orderly.owned id cmd origin old).imp_left
          (Multiset.mem_add.mpr <| .inr ·)
      · cases step <;> simp only [JobState.Starts, reduceCtorEq, and_false,
          exists_false, Task.preparing.injEq, or_self, Bool.true_eq_false]
          at new
        obtain ⟨-, given, -, -, -, rfl, -⟩ := new
        exact .inl (Multiset.mem_add.mpr
          (.inl (Multiset.mem_singleton_self _)))
  | refuseSize sandbox =>
      obtain ⟨rest, under, rfl⟩ := steps
      obtain ⟨prepares, other⟩ := Multiset.mem_filter.mp member
      refine moved under prepares fun same => ?_
      rw [Delivery.opening.inj same] at other
      simp [Task.launchOf] at other
  | announceOpened sandbox =>
      obtain ⟨rest, under, rfl⟩ := steps
      by_cases same : sandbox = origin
      · exact .inr (List.mem_append_right _ (by rw [same]; simp))
      · exact (moved under member fun other =>
          same (Delivery.opening.inj other)).imp_left Multiset.mem_cons_of_mem
  | deliverFailure named began =>
      obtain ⟨rest, under, rfl⟩ := steps
      exact (moved under member (by simp)).imp_left
        (Multiset.mem_add.mpr <| .inr ·)
  | announceFinished source started shell exitCode done =>
      obtain ⟨rest, under, rfl⟩ := steps
      exact moved under member (by simp)
  | read shell terminal instrumentation stream result =>
      obtain ⟨rest, under, -, rfl⟩ := steps
      exact (moved under member (by simp)).imp_left Multiset.mem_cons_of_mem
  | announceClosed shell =>
      obtain ⟨rest, under, -, rfl⟩ := steps
      exact moved under member (by simp)
  | onFinish named done =>
      obtain ⟨-, -, job, -, -, -, rfl⟩ := steps
      exact orderly.owned id cmd origin member
  | join =>
      obtain ⟨-, -, -, -, -, rfl⟩ := steps
      exact orderly.owned id cmd origin member
  | abort =>
      obtain ⟨released, rfl⟩ := steps
      obtain ⟨prepares, -⟩ := Multiset.mem_filter.mp member
      have watches := (orderly.joined (.inr (.inl released))).watches _ prepares
      contradiction

theorem closed_of_step
    (orderly : state.Orderly)
    (steps : state.Steps step next) :
    ∀ shell, .closed shell ∈ next.told ->
      next.stages shell.uid = 0 ∧
        ((∀ job ∈ next.jobs.table.rows, job.sandbox.uid ≠ shell.uid) ∨
          next.Released) := by
  intro shell told
  have kept : .closed shell ∈ state.told -> next.stages shell.uid = 0 ∧
      ((∀ job ∈ next.jobs.table.rows, job.sandbox.uid ≠ shell.uid) ∨
        next.Released) := by
    intro old
    obtain ⟨none, absent⟩ := orderly.closed shell old
    have known := orderly.known _ old
    have unspawned : ∀ id anonymous cmd done exitCode,
        step ≠ .job (.spawn id shell.uid anonymous cmd) done exitCode := by
      rintro id anonymous cmd done exitCode rfl
      obtain ⟨jobs, ⟨counter, -, fresh, -⟩, -⟩ := steps
      exact fresh known
    refine ⟨Nat.le_zero.mp ((stages_of_step steps _ unspawned).trans none.le),
      absent.imp (fun absent job member => ?_) (released_of_step steps)⟩
    obtain ⟨row, rowMember, -, site⟩ |
      ⟨id, uid, anonymous, cmd, done, exitCode, same, -, rfl⟩ :=
      OwnRows.row_of_step steps member
    · rw [← site]
      exact absent row rowMember
    · rintro rfl
      exact unspawned _ _ _ _ _ same
  obtain same | ⟨_, -, -, same⟩ | ⟨_, _, _, _, _, -, -, same⟩ |
    ⟨_, _, _, stream, result, -, -, same⟩ |
    ⟨closed, rfl, pumps, guard, same⟩ := told_cases steps
  · exact kept (same ▸ told)
  all_goals
    rw [same] at told
    rcases List.mem_append.mp told with old | new
    · exact kept old
  · exact absurd (List.mem_singleton.mp new) (by simp)
  · exact absurd (List.mem_singleton.mp new) (by simp)
  · have between := (shell_of_event _ new).2
    contradiction
  · obtain rfl := FrontendEvent.closed.inj (List.mem_singleton.mp new)
    have single := orderly.single shell.uid
    obtain ⟨rest, under, -, rfl⟩ := steps
    refine ⟨?_, ?_⟩
    · have split : state.stages shell.uid =
          DeliveryState.stages { state with
            deliveries := rest
            told := state.told ++ [.closed shell] } shell.uid + 1 := by
        rw [stages, under, Multiset.countP_cons, if_pos (by rfl), ← add_assoc]
        rfl
      omega
    · by_cases released : state.Released
      · exact .inr released
      · refine .inl fun job member same => ?_
        obtain expired | ⟨id, cmd, builds⟩ | holds := orderly.holding job member
        · exact released expired
        · rw [← same] at single
          exact not_stages_of_building single builds pumps
            (congrArg some same.symm)
        · rw [same] at holds
          exact guard _ holds

theorem holding_of_step
    (orderly : state.Orderly)
    (steps : state.Steps step next) :
    ∀ job ∈ next.jobs.table.rows, next.Released ∨
      (∃ id cmd, Task.building id job.sandbox cmd ∈ next.jobs.tasks) ∨
        next.producers job.sandbox.uid = some job.sandbox.uid := by
  intro job member
  have own := orderly.own
  cases step with
  | job step done exitCode =>
      have whole := steps
      obtain ⟨jobs, steps, ready, rfl⟩ := steps
      by_cases releases : step = .releaseAll
      · obtain rfl := releases
        exact .inl (.inl rfl)
      by_cases spawns : ∃ id uid anonymous cmd, step = .spawn id uid anonymous cmd
      · obtain ⟨id, uid, anonymous, cmd, rfl⟩ := spawns
        obtain ⟨counter, -, -, rfl⟩ := steps
        rcases List.mem_append.mp member with old | new
        · refine (orderly.holding job old).imp_right fun holds => ?_
          exact holds.imp_left fun builds => by
            obtain ⟨name, given, builds⟩ := builds
            exact ⟨name, given, Multiset.mem_cons_of_mem builds⟩
        · obtain rfl := List.mem_singleton.mp new
          exact .inr (.inl ⟨id, cmd, Multiset.mem_cons_self _ _⟩)
      obtain ⟨row, rowMember, rfl⟩ := List.mem_map.mp
        ((JobState.onRow_of_step own.formed steps
          fun id uid anonymous cmd same =>
            spawns ⟨id, uid, anonymous, cmd, same⟩).1.subset member)
      have site := (JobStep.keeps_onRow step row).2
      obtain released | ⟨id, cmd, builds⟩ | holds :=
        orderly.holding row rowMember
      · exact .inl (released_of_step whole released)
      · by_cases consumed :
            step.consumes = some (.building id row.sandbox cmd)
        · have works : state.Works id row.sandbox := .task builds rfl
          have labelled := (own.formed.owned _ builds _ _ rfl).1.symm.trans
            (own.formed.labelled row rowMember)
          cases step <;> simp only [JobStep.consumes, reduceCtorEq,
            Option.some.injEq, Option.map_eq_some_iff, and_false, exists_false,
            Task.building.injEq] at consumed
          · obtain ⟨rfl, rfl, rfl⟩ := consumed
            obtain ⟨rest, pending, found, -⟩ := steps
            obtain ⟨found, named⟩ := Option.isSome_iff_exists.mp found
            refine .inr (.inr ?_)
            simp only [after, producersAfter]
            rw [site, show state.row _ = some found from named]
            simp only [own.sandbox_of_row works named, Function.update_self]
          · obtain ⟨rfl, rfl, rfl⟩ := consumed
            obtain ⟨rest, pending, rfl⟩ := steps
            have left := JobTable.not_removed_of_mem own.formed.named
              (fun first _ one second _ two =>
                (of_decide_eq_true one).trans (of_decide_eq_true two).symm)
              member
            exact absurd labelled.symm (of_decide_eq_false left)
        · rw [site]
          exact .inr (.inl ⟨id, cmd,
            JobState.mem_tasks_of_step steps builds consumed⟩)
      · rw [site]
        exact .inr (.inr
          (producers_of_row own steps releases rowMember member holds))
  | refuseSize sandbox =>
      obtain ⟨rest, under, rfl⟩ := steps
      have old := (state.jobs.table.rows_remove_sublist _).subset member
      have left := JobTable.not_removed_of_mem own.formed.named
        (fun first _ one second _ two =>
          (of_decide_eq_true one).trans (of_decide_eq_true two).symm) member
      refine (orderly.holding job old).imp_right fun holds =>
        holds.imp (fun builds => ?_) fun holds => ?_
      · obtain ⟨id, cmd, builds⟩ := builds
        exact ⟨id, cmd, Multiset.mem_filter.mpr ⟨builds, rfl⟩⟩
      · cases found : state.row sandbox.id with
        | none => simpa only [found] using holds
        | some row =>
            dsimp only
            rw [releases, Function.update_of_ne, holds]
            intro same
            obtain rfl := own.formed.eq_of_uid old (JobTable.mem_of_find found)
              same
            exact absurd (JobTable.find_some_id found) (of_decide_eq_false left)
  | abort =>
      obtain ⟨-, rfl⟩ := steps
      exact .inl (.inr rfl)
  | join =>
      obtain ⟨phase, -, -, -, -, rfl⟩ := steps
      refine (orderly.holding job member).imp_left fun released => ?_
      obtain released | released := released <;> rw [phase] at released <;>
        contradiction
  | announceOpened | deliverFailure | announceFinished | read | announceClosed
  | onFinish =>
      have holding := orderly.holding job
      simp only [Steps] at steps
      grind [Released]

/-- A closed queue stays closed. -/
theorem closed_of_section
    {step : JobStep}
    {jobs : JobState}
    (steps : state.jobs.Steps step jobs)
    (closed : state.jobs.queue.closed = true) : jobs.queue.closed = true := by
  cases step with
  | submit conclusion =>
      obtain ⟨rest, -, rfl⟩ := steps
      simp only [ConclusionQueue.submit, closed, if_true]
  | reportFailure id origin =>
      obtain ⟨rest, -, rfl⟩ := steps
      simpa using closed
  | stop id force =>
      obtain ⟨job, -, -, rfl⟩ := steps
      split_ifs <;> simpa [JobState.acceptStop] using closed
  | checkClose =>
      obtain ⟨id, retained, -, ⟨-, rfl⟩ | ⟨sandbox, -, -, ⟨-, rfl⟩ | ⟨-, rfl⟩⟩⟩ :=
        JobState.checkClose_cases steps <;> exact closed
  | spawn | refuseSpawn | build | failBuild | refuseSize | startIn | waited
  | prepare | launch | failLaunch | publish | reap | take | conclude | finish
  | reclaimConcluded | keep | reclaim | closeSandbox | cancel | killAll
  | releaseAll =>
      simp only [JobState.Steps, JobState.closeSandbox, ConclusionQueue.finish,
        ConclusionQueue.cancel] at steps
      grind

theorem cancelled_of_step
    (orderly : state.Orderly)
    (steps : state.Steps step next)
    (begun : next.phase ≠ .session) : next.jobs.queue.closed = true := by
  cases step with
  | job step done exitCode =>
      obtain ⟨jobs, steps, ready, rfl⟩ := steps
      cases step with
      | cancel =>
          obtain rfl := steps
          rfl
      | killAll killable =>
          refine closed_of_section steps (orderly.cancelled ?_)
          rw [show state.phase = .cancelled from ready]
          simp
      | releaseAll =>
          refine closed_of_section steps (orderly.cancelled ?_)
          rw [show state.phase = .joined from ready]
          simp
      | spawn | refuseSpawn | build | failBuild | refuseSize | startIn | waited
      | prepare | launch | failLaunch | publish | reportFailure | reap | submit
      | take | conclude | finish | checkClose | reclaimConcluded | keep | stop
      | reclaim | closeSandbox =>
          exact closed_of_section steps (orderly.cancelled begun)
  | join =>
      obtain ⟨phase, -, -, -, -, rfl⟩ := steps
      exact orderly.cancelled (by rw [phase]; simp)
  | abort =>
      obtain ⟨phase, rfl⟩ := steps
      exact orderly.cancelled (by rw [phase]; simp)
  | refuseSize | announceOpened | deliverFailure | announceFinished | read
  | announceClosed | onFinish =>
      have cancelled := orderly.cancelled
      simp only [Steps] at steps
      grind

/-- Once the owned tasks have returned, a section reaps or submits. -/
theorem joined_of_section
    (joined : state.Joined)
    {step : JobStep}
    {done : Option Nat}
    {exitCode : Int}
    {jobs : JobState}
    (shutting : state.phase ≠ .session)
    (steps : state.jobs.Steps step jobs)
    (ready : state.Ready done step) :
    (state.after step done exitCode jobs).Joined := by
  -- Only a watcher's section is still to come.
  have idle : ∀ {task : Task} {rest : Multiset Task},
      state.jobs.Pending task rest -> task.watches = true :=
    fun pending => joined.watches _ pending.self
  have pumps : state.begun exitCode step = 0 ->
      ∀ delivery ∈ (state.after step done exitCode jobs).deliveries,
        delivery.pumps = true := by
    intro none delivery member
    change delivery ∈ state.begun exitCode step + state.deliveries at member
    rw [none, zero_add] at member
    exact joined.pumps delivery member
  have queue := Settling.queue_of_closed steps joined.closed joined.drained
  cases step with
  | reap id pid =>
      obtain ⟨rest, pending, ⟨_, _, _, _, _, rfl⟩ | ⟨-, rfl⟩⟩ := steps
      · refine ⟨fun task member => ?_, pumps rfl,
          joined.taking, queue.2, queue.1⟩
        rcases Multiset.mem_cons.mp member with rfl | old
        · rfl
        · exact joined.watches task (pending.of_rest old)
      · exact ⟨fun task member => joined.watches task (pending.of_rest member),
          pumps rfl, joined.taking, queue.2,
          queue.1⟩
  | submit conclusion =>
      obtain ⟨rest, pending, rfl⟩ := steps
      exact ⟨fun task member => joined.watches task (pending.of_rest member),
        pumps rfl, joined.taking, queue.2,
        queue.1⟩
  | releaseAll =>
      obtain rfl := steps
      exact ⟨joined.watches, pumps rfl,
        joined.taking, queue.2, queue.1⟩
  | killAll killable =>
      obtain rfl := steps
      exact ⟨joined.watches, pumps rfl,
        joined.taking, queue.2, queue.1⟩
  | cancel => exact absurd ready.1 shutting
  | take =>
      obtain ⟨conclusion, rest, -, pending, -⟩ := steps
      rw [joined.drained] at pending
      contradiction
  | conclude retained =>
      obtain ⟨conclusion, concluding, -⟩ := steps
      rw [joined.taking] at concluding
      contradiction
  | finish =>
      obtain ⟨id, retained, reporting, -⟩ := steps
      rw [joined.taking] at reporting
      contradiction
  | checkClose =>
      obtain ⟨id, retained, closing, -⟩ := steps
      rw [joined.taking] at closing
      contradiction
  | reclaimConcluded =>
      obtain ⟨sandbox, reclaiming, -⟩ := steps
      rw [joined.taking] at reclaiming
      contradiction
  | spawn | refuseSpawn | startIn | keep | stop | closeSandbox =>
      exact absurd ready shutting
  | refuseSize => exact ready.elim
  | build | failBuild | prepare | launch | failLaunch | publish | reportFailure
  | reclaim =>
      obtain ⟨rest, pending, -⟩ := steps
      exact absurd (idle pending) (by simp [Task.watches])
  | waited id cmd origin =>
      obtain ⟨-, rest, pending, -⟩ := steps
      exact absurd (idle pending) (by simp [Task.watches])

theorem joined_of_step
    (orderly : state.Orderly)
    (steps : state.Steps step next)
    (joins : next.phase = .joined ∨ next.Released) : next.Joined := by
  -- Until the owned tasks have returned, none but a pump delivers.
  have quiet : ∀ {delivery : Delivery} {rest : Multiset Delivery},
      state.phase = .joined ∨ state.Released -> state.Under delivery rest ->
      delivery.pumps = true :=
    fun before under => (orderly.joined before).pumps _
      (under ▸ Multiset.mem_cons_self _ _)
  cases step with
  | job step done exitCode =>
      obtain ⟨jobs, steps, ready, rfl⟩ := steps
      have before : state.phase = .joined ∨ state.Released := by
        cases step with
        | cancel => simp [after, JobStep.phase, Released] at joins
        | killAll killable => simp [after, JobStep.phase, Released] at joins
        | releaseAll => exact .inl ready
        | spawn | refuseSpawn | build | failBuild | refuseSize | startIn
        | waited | prepare | launch | failLaunch | publish | reportFailure
        | reap | submit | take | conclude | finish | checkClose
        | reclaimConcluded | keep | stop | reclaim | closeSandbox => exact joins
      refine joined_of_section (orderly.joined before) (fun session => ?_) steps
        ready
      rw [Released, session] at before
      simp at before
  | refuseSize sandbox =>
      obtain ⟨rest, under, rfl⟩ := steps
      exact absurd (quiet joins under) (by simp [Delivery.pumps])
  | announceOpened sandbox =>
      obtain ⟨rest, under, rfl⟩ := steps
      exact absurd (quiet joins under) (by simp [Delivery.pumps])
  | deliverFailure id origin =>
      obtain ⟨rest, under, rfl⟩ := steps
      exact absurd (quiet joins under) (by simp [Delivery.pumps])
  | announceFinished source origin shell exitCode done =>
      obtain ⟨rest, under, rfl⟩ := steps
      exact absurd (quiet joins under) (by simp [Delivery.pumps])
  | read shell terminal instrumentation stream result =>
      obtain ⟨rest, under, -, rfl⟩ := steps
      have joined := orderly.joined joins
      refine ⟨joined.watches, fun delivery member => ?_, joined.taking,
        joined.drained, joined.closed⟩
      rcases Multiset.mem_cons.mp member with rfl | old
      · cases stream <;> rfl
      · exact joined.pumps _ (under ▸ Multiset.mem_cons_of_mem old)
  | announceClosed shell =>
      obtain ⟨rest, under, -, rfl⟩ := steps
      have joined := orderly.joined joins
      exact ⟨joined.watches, fun delivery member =>
        joined.pumps _ (under ▸ Multiset.mem_cons_of_mem member),
        joined.taking, joined.drained, joined.closed⟩
  | onFinish id done =>
      obtain ⟨session, -, job, -, -, -, rfl⟩ := steps
      change state.phase = .joined ∨ state.Released at joins
      rw [Released, session] at joins
      simp at joins
  | join =>
      obtain ⟨phase, taking, drained, watches, pumps, rfl⟩ := steps
      refine ⟨watches, pumps, taking, drained, orderly.cancelled ?_⟩
      rw [phase]
      simp
  | abort =>
      obtain ⟨phase, rfl⟩ := steps
      have joined := orderly.joined (.inr (.inl phase))
      exact ⟨fun task member =>
        joined.watches task (Multiset.mem_filter.mp member).1,
        fun _ member => absurd member (Multiset.notMem_zero _),
        joined.taking, joined.drained, joined.closed⟩

/-- Every step that keeps names and sessions keeps the events in order. -/
theorem of_step
    (orderly : state.Orderly)
    (steps : state.Steps step next)
    (keeps : state.KeepsNames step)
    (sessions : state.KeepsSessions step) : next.Orderly where
  own := orderly.own.of_step steps keeps
  protocol := orderly.protocol_of_step steps
  known := orderly.known_of_step steps
  staged := orderly.staged_of_step steps
  single := orderly.single_of_step steps
  fresh := orderly.fresh_of_step steps
  pumps := orderly.pumps_of_step steps
  completes := orderly.completes_of_step steps sessions
  active := orderly.active_of_step steps sessions
  owned := orderly.owned_of_step steps
  closed := orderly.closed_of_step steps
  holding := orderly.holding_of_step steps
  cancelled := orderly.cancelled_of_step steps
  joined := orderly.joined_of_step steps

/-- Nothing has been announced at the start. -/
theorem empty : DeliveryState.empty.Orderly where
  own := .empty
  protocol _ := .inl rfl
  known _ member := absurd member List.not_mem_nil
  staged _ _ := rfl
  single _ := Nat.zero_le _
  fresh _ _ := rfl
  pumps _ _ _ member := absurd member (Multiset.notMem_zero _)
  completes _ _ _ _ _ member := absurd member (Multiset.notMem_zero _)
  active origin active := by
    cases active with
    | waiting member | preparing member | launch member | reporting member =>
        exact absurd member (Multiset.notMem_zero _)
    | row member => exact absurd member List.not_mem_nil
    | conclusion unconcluded =>
        obtain submitting | queued | concluding := unconcluded
        · exact absurd submitting (Multiset.notMem_zero _)
        · exact absurd queued List.not_mem_nil
        · contradiction
  owned _ _ _ member := absurd member (Multiset.notMem_zero _)
  closed _ member := absurd member List.not_mem_nil
  holding _ member := absurd member List.not_mem_nil
  cancelled begun := absurd rfl begun
  joined joins := by
    obtain phase | phase | phase := joins <;> contradiction

end Orderly

end DeliveryState

end Shellmux
end Marsh
