import Marsh.Shellmux.RestFrontend
import Marsh.Shellmux.ClosingJobs
import Marsh.Shellmux.OwnRows

/-!
# Convergence of the displays

Every section that changes what clients are shown leaves an announcement to be
made, but for one: the report of a failed launch that marks a job for closing
and cannot take it.  Where no section changes the board unannounced, the last
snapshot published is the board once nothing is in progress, and so is what each
client ends with.
-/

namespace Marsh
namespace Shellmux

open Library

/-! ## Announcements to come -/

namespace JobTable

variable {table : JobTable} {id : String}

/-- A change that leaves the rows of the name leaves the table. -/
theorem update_eq_self
    {change : Job -> Job}
    (same : ∀ job ∈ table.rows, job.id = id -> change job = job) :
    table.update id change = table := by
  have rows : table.rows.map (fun job => if job.id = id then change job else job) =
      table.rows := by
    refine (List.map_congr_left fun job member => ?_).trans (List.map_id _)
    split_ifs with named
    · exact same job member named
    · rfl
  rw [update, JobTable.change, rows]

/-- A row with nothing in flight that is to close can be taken. -/
theorem takeClosable_drain
    {job : Job}
    (member : job ∈ table.rows)
    (named : job.id = id)
    (quiet : job.running = none)
    (unreserved : job.starting = false) :
    (table.update id Job.drain).takeClosable id ≠ none := by
  rw [takeClosable, ne_eq, Option.map_eq_none_iff, List.find?_eq_none]
  intro unclosable
  refine unclosable job.drain
    (List.mem_map.mpr ⟨job, member, if_pos named⟩) ?_
  simp [closable, Job.drain, named, quiet, unreserved]

end JobTable

/-- Whether an operation in progress announces before it returns, whatever
happens to it. -/
def Task.announces : Task -> Bool
  | .building _ _ _ | .publishing _ _ _ | .submitting _ | .reclaiming _ => true
  | .waiting _ _ _ | .preparing _ _ _ _ | .launching _ _ _ _ _
  | .failing _ _ | .watching _ _ => false

/-- The client has processed all that was published, and no snapshot is being
read for it. -/
def Client.CaughtUp (own : Client) : Prop :=
  own.unread = [] ∧ own.reading = none

namespace DisplayState

/-- A change is still to be announced. -/
inductive Due (state : DisplayState) : Prop
  /-- An operation has only its announcement left to make. -/
  | owed (owes : 0 < state.owed)
  /-- An operation in progress will announce. -/
  | task {task : Task} (member : task ∈ state.session.jobs.tasks)
      (announces : task.announces = true)
  /-- The conclusion task has a conclusion to take. -/
  | pending (conclusions : state.session.jobs.queue.pending ≠ [])
  /-- The conclusion task is at work. -/
  | concluding (busy : state.session.jobs.concluder ≠ .taking)
  /-- A construction is to announce its job. -/
  | opening {sandbox : Sandbox}
      (member : Delivery.opening sandbox ∈ state.session.deliveries)

/-- A report of a failed launch finds no row, a row that is already to close, or
one it takes; or another announcement is still to be made. -/
def Announces (state : DisplayState) : DisplayStep -> Prop
  | .session (.job (.reportFailure id _) _ _) _ =>
      state.Due ∨ ∀ job, state.session.row id = some job ->
        job.close = some .graceful ∨ (job.running = none ∧ job.starting = false)
  | _ => True

variable {state next : DisplayState}

/-- What leaves the jobs alone leaves their announcements to be made. -/
theorem Due.of_same
    (due : state.Due)
    (jobs : next.session.jobs = state.session.jobs)
    (owed : state.owed ≤ next.owed)
    (openings : ∀ sandbox,
      Delivery.opening sandbox ∈ state.session.deliveries ->
        Delivery.opening sandbox ∈ next.session.deliveries) : next.Due := by
  cases due with
  | owed owes => exact .owed (Nat.lt_of_lt_of_le owes owed)
  | task member announces => exact .task (jobs ▸ member) announces
  | pending conclusions => exact .pending (jobs ▸ conclusions)
  | concluding busy => exact .concluding (jobs ▸ busy)
  | opening member => exact .opening (openings _ member)

section Session

variable {step : DeliveryStep} {dir : String}

/-- A section with an announcement of its own leaves one to be made. -/
theorem due_of_owes
    (steps : state.Steps (.session step dir) next)
    (owes : 0 < step.owes next.session) : next.Due := by
  obtain ⟨session, -, -, -, rfl⟩ := steps
  exact .owed (Nat.add_pos_left owes _)

/-- A section that ends an operation's work makes its announcement due. -/
theorem due_of_consumed
    {step : JobStep}
    {done : Option Nat}
    {exitCode : Int}
    (steps : state.Steps (.session (.job step done exitCode) dir) next)
    {task : Task}
    (consumes : step.consumes = some task)
    (announces : task.announces = true) : next.Due := by
  cases step with
  | build id sandbox cmd =>
      obtain ⟨session, ⟨jobs, -, -, rfl⟩, -, -, rfl⟩ := steps
      exact .opening (Multiset.mem_add.mpr (.inl (Multiset.mem_singleton_self _)))
  | failBuild | refuseSize | publish | submit | reclaim => exact due_of_owes steps Nat.one_pos
  | waited | prepare | launch | failLaunch | reportFailure | reap =>
      obtain rfl := Option.some.inj consumes
      cases announces
  | spawn | refuseSpawn | startIn | take | conclude | finish | checkClose
  | reclaimConcluded | keep | stop | closeSandbox | cancel | killAll
  | releaseAll => cases consumes

/-- The conclusion task's work ends with an announcement. -/
theorem due_of_concluding
    {step : JobStep}
    {done : Option Nat}
    {exitCode : Int}
    (steps : state.Steps (.session (.job step done exitCode) dir) next)
    (busy : state.session.jobs.concluder ≠ .taking) : next.Due := by
  have moves := steps
  obtain ⟨session, ⟨jobs, section', -, rfl⟩, -, -, rfl⟩ := moves
  obtain same | turns := JobState.concluder_of_step section'
  · refine .concluding ?_
    change jobs.concluder ≠ .taking
    rwa [same]
  · cases concluder : state.session.jobs.concluder with
    | taking => exact absurd concluder busy
    | concluding conclusion =>
        rw [concluder] at turns
        obtain ⟨retained, -, reports⟩ := turns
        refine .concluding ?_
        change jobs.concluder ≠ .taking
        simp [reports]
    | reporting id retained =>
        rw [concluder] at turns
        refine .concluding ?_
        change jobs.concluder ≠ .taking
        simp [turns.2]
    | closing id retained =>
        rw [concluder] at turns
        by_cases idle : jobs.concluder = .taking
        · refine due_of_owes steps ?_
          change 0 < step.owes jobs
          rw [turns, JobStep.owes, if_pos idle]
          exact Nat.one_pos
        · exact .concluding idle
    | reclaiming sandbox =>
        rw [concluder] at turns
        refine due_of_owes steps ?_
        change 0 < step.owes jobs
        rw [turns]
        exact Nat.two_pos

/-- An announcement stays to be made until it is made. -/
theorem due_of_session
    (steps : state.Steps (.session step dir) next)
    (due : state.Due) : next.Due := by
  have moves := steps
  obtain ⟨session, moves, phase, -, rfl⟩ := moves
  cases step with
  | job step done exitCode =>
      obtain ⟨jobs, section', -, rfl⟩ := moves
      cases due with
      | owed owes => exact .owed (Nat.add_pos_right _ owes)
      | @task task member announces =>
          by_cases consumes : step.consumes = some task
          · exact due_of_consumed steps consumes announces
          · exact .task (JobState.mem_tasks_of_step section' member consumes)
              announces
      | pending conclusions =>
          obtain ⟨conclusion, member⟩ := List.exists_mem_of_ne_nil _ conclusions
          obtain queued | concluding := JobState.queued_of_step section' member
          · exact .pending (List.ne_nil_of_mem queued)
          · refine .concluding ?_
            change jobs.concluder ≠ .taking
            simp [concluding]
      | concluding busy => exact due_of_concluding steps busy
      | opening member =>
          exact .opening (Multiset.mem_add.mpr (.inr member))
  | refuseSize | announceOpened => exact due_of_owes steps Nat.one_pos
  | deliverFailure id origin =>
      obtain ⟨rest, under, rfl⟩ := moves
      refine due.of_same rfl (Nat.le_add_left _ _) fun sandbox member => ?_
      rw [under] at member
      exact Multiset.mem_add.mpr
        (.inr ((Multiset.mem_cons.mp member).resolve_left (by rintro ⟨⟩)))
  | announceFinished source origin shell exitCode done =>
      obtain ⟨rest, under, rfl⟩ := moves
      refine due.of_same rfl (Nat.le_add_left _ _) fun sandbox member => ?_
      rw [under] at member
      exact (Multiset.mem_cons.mp member).resolve_left (by rintro ⟨⟩)
  | read shell terminal instrumentation stream result =>
      obtain ⟨rest, under, -, rfl⟩ := moves
      refine due.of_same rfl (Nat.le_add_left _ _) fun sandbox member => ?_
      rw [under] at member
      exact Multiset.mem_cons_of_mem
        ((Multiset.mem_cons.mp member).resolve_left (by rintro ⟨⟩))
  | announceClosed shell =>
      obtain ⟨rest, under, -, rfl⟩ := moves
      refine due.of_same rfl (Nat.le_add_left _ _) fun sandbox member => ?_
      rw [under] at member
      exact (Multiset.mem_cons.mp member).resolve_left (by rintro ⟨⟩)
  | onFinish id done =>
      obtain ⟨-, -, job, -, -, -, rfl⟩ := moves
      exact due.of_same rfl (Nat.le_add_left _ _) fun sandbox member => member
  | join =>
      obtain ⟨-, -, -, -, -, rfl⟩ := moves
      cases phase
  | abort =>
      obtain ⟨-, rfl⟩ := moves
      cases phase

/-- A report of a failed launch changes nothing a client is shown, or has an
announcement to be made. -/
theorem board_of_report
    (formed : state.session.jobs.WellFormed)
    {id : String}
    {origin : Sandbox}
    {done : Option Nat}
    {exitCode : Int}
    (steps : state.Steps
      (.session (.job (.reportFailure id origin) done exitCode) dir) next)
    (announces : state.Announces
      (.session (.job (.reportFailure id origin) done exitCode) dir)) :
    next.board = state.board ∨ next.Due := by
  obtain due | settles := announces
  · exact .inr (due_of_session steps due)
  · obtain ⟨session, ⟨jobs, ⟨rest, pending, rfl⟩, -, rfl⟩, -, -, rfl⟩ := steps
    obtain ⟨untaken, same⟩ | ⟨sandbox, -, same⟩ :=
      JobState.takeClosable_cases
        { state.session.jobs with
          table := state.session.jobs.table.update id Job.drain
          tasks := rest } id
    · left
      have untouched : state.session.jobs.table.update id Job.drain =
          state.session.jobs.table := by
        refine JobTable.update_eq_self fun job member named => ?_
        have found : state.session.row id = some job :=
          named ▸ formed.find_of_mem member
        obtain graceful | ⟨quiet, unreserved⟩ := settles job found
        · rw [Job.drain, ← graceful]
        · exact absurd untaken
            (JobTable.takeClosable_drain member named quiet unreserved)
      have unselected : state.currentAfter (.reportFailure id origin) =
          state.current := by
        rw [currentAfter, JobTable.currentTaken, untaken]
        rfl
      change Board.mk (JobState.takeClosable _ id).table.rows
        (JobState.takeClosable _ id).queue.active
        (state.currentAfter (.reportFailure id origin)) state.dirs = state.board
      rw [same, unselected]
      change Board.mk (state.session.jobs.table.update id Job.drain).rows _ _ _ =
        state.board
      rw [untouched]
      rfl
    · right
      refine @Due.task _ (.reclaiming sandbox) ?_ rfl
      change _ ∈ (JobState.takeClosable _ id).tasks
      rw [same]
      exact Multiset.mem_cons_self _ _

/-- A step of the job machine changes nothing a client is shown, or leaves an
announcement to be made. -/
theorem board_of_session
    (formed : state.session.jobs.WellFormed)
    (steps : state.Steps (.session step dir) next)
    (announces : state.Announces (.session step dir)) :
    next.board = state.board ∨ next.Due := by
  have moves := steps
  obtain ⟨session, moves, phase, -, rfl⟩ := moves
  cases step with
  | job step done exitCode =>
      obtain ⟨jobs, section', ready, rfl⟩ := moves
      cases step with
      | spawn | failBuild | refuseSize | startIn | publish | submit | keep
      | stop | reclaim | closeSandbox => exact .inr (due_of_owes steps Nat.one_pos)
      | reclaimConcluded => exact .inr (due_of_owes steps Nat.two_pos)
      | build id sandbox cmd => exact .inr (due_of_consumed steps rfl rfl)
      | checkClose =>
          obtain ⟨id, retained, closing, -⟩ := JobState.checkClose_cases section'
          exact .inr (due_of_concluding steps (by simp [closing]))
      | finish =>
          obtain ⟨id, retained, reporting, -⟩ := section'
          exact .inr (due_of_concluding steps (by simp [reporting]))
      | reportFailure id origin => exact board_of_report formed steps announces
      | failLaunch id cmd origin sandbox owned tree cleared =>
          cases cleared with
          | true => exact .inr (due_of_owes steps Nat.one_pos)
          | false =>
              obtain ⟨rest, -, rfl⟩ := section'
              exact .inl rfl
      | reap id pid =>
          obtain ⟨rest, -, ⟨job, started, -, -, -, rfl⟩ | ⟨-, rfl⟩⟩ := section'
          · exact .inr (.task (Multiset.mem_cons_self _ _) rfl)
          · exact .inl rfl
      | refuseSpawn id anonymous =>
          obtain ⟨counter, -, rfl⟩ := section'
          exact .inl rfl
      | waited id cmd origin =>
          obtain ⟨-, rest, -, rfl⟩ := section'
          exact .inl rfl
      | prepare | launch =>
          obtain ⟨rest, -, rfl⟩ := section'
          exact .inl rfl
      | take =>
          obtain ⟨conclusion, rest, -, -, rfl⟩ := section'
          exact .inl rfl
      | conclude retained =>
          obtain ⟨conclusion, -, rfl⟩ := section'
          exact .inl rfl
      | cancel | killAll | releaseAll => cases phase
  | refuseSize | announceOpened => exact .inr (due_of_owes steps Nat.one_pos)
  | deliverFailure | announceFinished =>
      obtain ⟨rest, -, rfl⟩ := moves
      exact .inl rfl
  | read | announceClosed =>
      obtain ⟨rest, -, -, rfl⟩ := moves
      exact .inl rfl
  | onFinish id done =>
      obtain ⟨-, -, job, -, -, -, rfl⟩ := moves
      exact .inl rfl
  | join =>
      obtain ⟨-, -, -, -, -, rfl⟩ := moves
      cases phase
  | abort =>
      obtain ⟨-, rfl⟩ := moves
      cases phase

end Session

/-! ## Snapshots to come -/

/-- A snapshot of the board is still to be published. -/
def Coming (state : DisplayState) : Prop :=
  state.Due ∨ ∃ read, state.updating = some read ∧ read.Agrees state.board

/-- The frontend has published the board, or is to publish it. -/
def Published (state : DisplayState) : Prop :=
  state.Coming ∨
    state.updating = none ∧
      lastSnapshot state.published = some state.board.snapshot

/-- A client has the board, is reading it, or has a snapshot still to process
that was published after all it has processed. -/
structure Follows (state : DisplayState) (own : Client) : Prop where
  unread : own.unread <:+ state.published
  covered : state.Coming ∨ (lastSnapshot own.unread).isSome ∨
    match own.reading with
    | some read => read.Agrees state.board
    | none => own.shown = some state.board.snapshot

/-- The frontend and each of its clients end with the board. -/
structure Converging (state : DisplayState) : Prop where
  published : state.Published
  clients : ∀ client own, state.clients client = some own -> state.Follows own

/-! ### Messages -/

theorem lastSnapshot_append (earlier later : List ServerMessage) :
    lastSnapshot (earlier ++ later) =
      (lastSnapshot later).or (lastSnapshot earlier) := by
  rw [lastSnapshot, List.filterMap_append, List.getLast?_append]
  rfl

theorem lastSnapshot_of_silent
    {messages : List ServerMessage}
    (silent : ∀ message ∈ messages, message.snapshot? = none) :
    lastSnapshot messages = none := by
  rw [lastSnapshot, List.filterMap_eq_nil_iff.mpr silent]
  rfl

theorem lastSnapshot_cons
    (message : ServerMessage)
    (messages : List ServerMessage) :
    lastSnapshot (message :: messages) =
      (lastSnapshot messages).or message.snapshot? := by
  rw [← List.singleton_append, lastSnapshot_append]
  congr 1
  cases message <;> rfl

/-- The last snapshot a client has not processed is the last published. -/
theorem lastSnapshot_of_suffix
    {unread published : List ServerMessage}
    (suffix : unread <:+ published)
    {snapshot : JobsSnapshot}
    (last : lastSnapshot unread = some snapshot) :
    lastSnapshot published = some snapshot := by
  obtain ⟨earlier, rfl⟩ := suffix
  rw [lastSnapshot_append, last, Option.some_or]

theorem clients_send_nil (state : DisplayState) :
    (state.send []).clients = state.clients := by
  funext client
  change (state.clients client).map _ = state.clients client
  simp only [List.append_nil]
  exact Option.map_id'

theorem silent_of_event
    (event : FrontendEvent) :
    ∀ message ∈ ServerMessage.ofEvent event, message.snapshot? = none := by
  intro message member
  cases event with
  | opened => cases member
  | terminal | instrumentation | finished | closed | ioError =>
      rw [List.mem_singleton.mp member]
      rfl

/-! ### Steps -/

/-- Messages without a snapshot, sent by a step that leaves the board or an
announcement to be made. -/
theorem Converging.of_sent
    (converging : state.Converging)
    {messages : List ServerMessage}
    (silent : ∀ message ∈ messages, message.snapshot? = none)
    (board : next.board = state.board ∨ next.Due)
    (due : state.Due -> next.Due)
    (updating : next.updating = state.updating)
    (sent : next.published = state.published ++ messages)
    (clients : next.clients = (state.send messages).clients) :
    next.Converging := by
  have coming : state.Coming -> next.Coming := by
    rintro (owed | ⟨read, reading, agrees⟩)
    · exact .inl (due owed)
    · obtain same | owed := board
      · exact .inr ⟨read, updating.trans reading, same ▸ agrees⟩
      · exact .inl owed
  refine ⟨?_, ?_⟩
  · obtain came | ⟨idle, last⟩ := converging.published
    · exact .inl (coming came)
    · obtain same | owed := board
      · refine .inr ⟨updating.trans idle, ?_⟩
        rw [sent, lastSnapshot_append, lastSnapshot_of_silent silent,
          Option.none_or, last, same]
      · exact .inl (.inl owed)
  · intro client own found
    rw [clients] at found
    obtain ⟨before, was, rfl⟩ := Option.map_eq_some_iff.mp found
    have follows := converging.clients client before was
    refine ⟨?_, ?_⟩
    · rw [sent]
      obtain ⟨earlier, split⟩ := follows.unread
      exact ⟨earlier, by rw [← split, List.append_assoc]⟩
    · obtain came | waits | current := follows.covered
      · exact .inl (coming came)
      · right; left
        change (lastSnapshot (before.unread ++ messages)).isSome
        rw [lastSnapshot_append, lastSnapshot_of_silent silent, Option.none_or]
        exact waits
      · obtain same | owed := board
        · right; right
          rw [same]
          exact current
        · exact .inl (.inl owed)

theorem Converging.of_session
    (converging : state.Converging)
    (formed : state.session.jobs.WellFormed)
    {step : DeliveryStep}
    {dir : String}
    (steps : state.Steps (.session step dir) next)
    (announces : state.Announces (.session step dir)) : next.Converging := by
  have board := board_of_session formed steps announces
  have due := @due_of_session _ _ _ _ steps
  obtain ⟨session, -, -, -, rfl⟩ := steps
  refine converging.of_sent ?_ board due rfl rfl rfl
  intro message member
  obtain ⟨event, -, sent⟩ := List.mem_flatMap.mp member
  exact silent_of_event event message sent

/-- What is to be published stays so while the frontend and the jobs do. -/
theorem Coming.of_same
    (coming : state.Coming)
    (session : next.session = state.session)
    (owed : next.owed = state.owed)
    (updating : next.updating = state.updating)
    (board : next.board = state.board) : next.Coming := by
  rcases coming with due | ⟨read, reading, agrees⟩
  · exact .inl (due.of_same (by rw [session]) owed.ge fun _ member => by
      rwa [session])
  · exact .inr ⟨read, updating.trans reading, board ▸ agrees⟩

/-- An operation announces its change, and the frontend begins to read. -/
theorem Converging.of_update
    (converging : state.Converging)
    (steps : state.Steps .update next) : next.Converging := by
  obtain ⟨owed, -, -, rfl⟩ := steps
  have coming : { state with owed := owed, updating := some .jobs }.Coming :=
    .inr ⟨.jobs, rfl, trivial⟩
  exact ⟨.inl coming, fun client own found =>
    ⟨(converging.clients client own found).unread, .inl coming⟩⟩

/-- The frontend reads on, and publishes the board or has another change
announced to it. -/
theorem Converging.of_publish
    (converging : state.Converging)
    (steps : state.Steps .publish next) : next.Converging := by
  obtain ⟨read, reading, rfl⟩ := steps
  have coming : state.Due ∨ read.Agrees state.board := by
    obtain (due | ⟨other, same, agrees⟩) | ⟨idle, -⟩ := converging.published
    · exact .inl due
    · rw [reading] at same
      exact .inr (Option.some.inj same ▸ agrees)
    · rw [reading] at idle
      cases idle
  cases advances : read.advance state.board with
  | inl further =>
      rw [readOn, advances]
      have came : { state with updating := some further }.Coming :=
        coming.imp (fun due => due.of_same rfl le_rfl fun _ member => member)
          fun agrees => ⟨further, rfl, agrees.advance_inl advances⟩
      exact ⟨.inl came, fun client own found =>
        ⟨(converging.clients client own found).unread, .inl came⟩⟩
  | inr snapshot =>
      rw [readOn, advances]
      refine ⟨?_, ?_⟩
      · obtain due | agrees := coming
        · exact .inl (.inl (due.of_same rfl le_rfl fun _ member => member))
        · refine .inr ⟨rfl, ?_⟩
          change lastSnapshot (state.published ++ [.jobs snapshot]) =
            some state.board.snapshot
          rw [lastSnapshot_append, ← agrees.advance_inr advances]
          rfl
      · intro client own found
        obtain ⟨before, was, rfl⟩ := Option.map_eq_some_iff.mp found
        obtain ⟨earlier, split⟩ := (converging.clients client before was).unread
        refine ⟨⟨earlier, ?_⟩, .inr (.inl ?_)⟩
        · change earlier ++ (before.unread ++ _) = state.published ++ _
          rw [← split, List.append_assoc]
        · change (lastSnapshot (before.unread ++ _)).isSome
          rw [lastSnapshot_append]
          rfl

/-- A step of one client leaves the others and the frontend. -/
theorem Converging.of_client
    (converging : state.Converging)
    {client : Nat}
    {own : Option Client}
    (follows : ∀ after ∈ own, state.Follows after) :
    (state.setClient client own).Converging := by
  have coming : state.Coming -> (state.setClient client own).Coming :=
    fun came => came.of_same rfl rfl rfl rfl
  refine ⟨converging.published.imp_left coming, ?_⟩
  intro other after found
  have kept : state.Follows after := by
    change Function.update state.clients client own other = some after at found
    by_cases same : other = client
    · rw [same, Function.update_self] at found
      exact follows after found
    · rw [Function.update_of_ne same] at found
      exact converging.clients other after found
  exact ⟨kept.unread, kept.covered.imp_left coming⟩

/-- A client that reads on still follows. -/
theorem Follows.lookOn
    {own : Client}
    (follows : state.Follows own)
    {read : SnapshotRead}
    (reading : own.reading = some read) :
    state.Follows (own.lookOn state.board read) := by
  have covered := follows.covered
  rw [reading] at covered
  cases advances : read.advance state.board with
  | inl further =>
      rw [Client.lookOn, advances]
      exact ⟨follows.unread, covered.imp_right fun rest =>
        rest.imp_right fun agrees => agrees.advance_inl advances⟩
  | inr snapshot =>
      rw [Client.lookOn, advances]
      exact ⟨follows.unread, covered.imp_right fun rest =>
        rest.imp_right fun agrees => congrArg some (agrees.advance_inr advances)⟩

/-- A client that processes a message has the board, if that was the last
snapshot to come. -/
theorem Follows.process
    (published : state.Published)
    {own : Client}
    (follows : state.Follows own)
    (idle : own.reading = none)
    {message : ServerMessage}
    {rest : List ServerMessage}
    (unread : own.unread = message :: rest) :
    state.Follows (own.process message rest) := by
  have suffix := follows.unread
  have covered := follows.covered
  rw [unread] at suffix
  rw [unread, idle, lastSnapshot_cons] at covered
  refine ⟨(List.suffix_cons message rest).trans suffix, ?_⟩
  obtain came | ⟨-, last⟩ := published
  · exact .inl came
  · cases later : lastSnapshot rest with
    | some snapshot =>
        right; left
        change (lastSnapshot rest).isSome
        rw [later]
        rfl
    | none =>
        rw [later, Option.none_or] at covered
        rw [Client.process, idle]
        cases carried : message.snapshot? with
        | some snapshot =>
            right; right
            have own := lastSnapshot_cons message rest
            rw [later, Option.none_or, carried] at own
            exact (lastSnapshot_of_suffix suffix own).symm.trans last
        | none =>
            obtain came | waits | current := covered
            · exact .inl came
            · rw [carried] at waits
              cases waits
            · exact .inr (.inr current)

/-- Every step leaves the frontend and its clients converging. -/
theorem Converging.of_step
    (converging : state.Converging)
    (formed : state.session.jobs.WellFormed)
    {step : DisplayStep}
    (steps : state.Steps step next)
    (announces : state.Announces step) : next.Converging := by
  cases step with
  | session step dir => exact converging.of_session formed steps announces
  | update => exact converging.of_update steps
  | publish => exact converging.of_publish steps
  | select id =>
      obtain ⟨job, -, -, rfl⟩ := steps
      exact @of_sent _ _ converging [] (fun _ absent => by cases absent)
        (.inr (.owed (Nat.add_pos_left Nat.one_pos _)))
        (fun _ => .owed (Nat.add_pos_left Nat.one_pos _)) rfl
        (List.append_nil _).symm state.clients_send_nil.symm
  | resize size =>
      obtain ⟨-, -, rfl⟩ := steps
      exact converging.of_sent (by simp [ServerMessage.snapshot?]) (.inl rfl)
        (fun due => due.of_same rfl le_rfl fun _ member => member) rfl rfl rfl
  | subscribe client =>
      obtain ⟨-, rfl⟩ := steps
      refine converging.of_client fun after same => ?_
      obtain rfl := Option.some.inj same
      exact ⟨List.nil_suffix, .inr (.inr trivial)⟩
  | look client =>
      obtain ⟨own, read, found, reading, rfl⟩ := steps
      refine converging.of_client fun after same => ?_
      obtain rfl := Option.some.inj same
      exact (converging.clients client own found).lookOn reading
  | receive client =>
      obtain ⟨own, message, rest, found, idle, unread, rfl⟩ := steps
      refine converging.of_client fun after same => ?_
      obtain rfl := Option.some.inj same
      exact (converging.clients client own found).process converging.published
        idle unread
  | lag client lost rest =>
      obtain ⟨own, found, -, unread, -, rfl⟩ := steps
      refine converging.of_client fun after same => ?_
      obtain rfl := Option.some.inj same
      have suffix := (converging.clients client own found).unread
      rw [unread] at suffix
      exact ⟨(List.suffix_append lost rest).trans suffix, .inr (.inr trivial)⟩
  | leave client =>
      obtain rfl := steps
      exact converging.of_client fun after same => by cases same

/-! ## Convergence -/

/-- No operation is in progress; commands may be running. -/
structure Idle (state : DisplayState) : Prop where
  tasks : ∀ task ∈ state.session.jobs.tasks, ∃ id pid, task = .watching id pid
  concluder : state.session.jobs.concluder = .taking
  pending : state.session.jobs.queue.pending = []
  deliveries : ∀ delivery ∈ state.session.deliveries, delivery.pumps = true
  owed : state.owed = 0
  updating : state.updating = none

theorem Idle.not_coming (idle : state.Idle) : ¬state.Coming := by
  rintro (due | ⟨read, reading, -⟩)
  · cases due with
    | owed owes => exact absurd idle.owed owes.ne'
    | task member announces =>
        obtain ⟨id, pid, rfl⟩ := idle.tasks _ member
        cases announces
    | pending conclusions => exact conclusions idle.pending
    | concluding busy => exact busy idle.concluder
    | opening member => cases idle.deliveries _ member
  · rw [idle.updating] at reading
    cases reading

/-- The last snapshot published and what every client ends with are the
board. -/
def Converged (state : DisplayState) : Prop :=
  lastSnapshot state.published = some state.board.snapshot ∧
    ∀ client own, state.clients client = some own -> own.CaughtUp ->
      own.shown = some state.board.snapshot

theorem Converging.converged
    (converging : state.Converging)
    (idle : state.Idle) : state.Converged := by
  refine ⟨?_, ?_⟩
  · exact (converging.published.resolve_left idle.not_coming).2
  · rintro client own found ⟨processed, reads⟩
    obtain came | waits | current := (converging.clients client own found).covered
    · exact absurd came idle.not_coming
    · rw [processed] at waits
      cases waits
    · rw [reads] at current
      exact current

theorem session_readOn (state : DisplayState) (read : SnapshotRead) :
    (state.readOn read).session = state.session := by
  rw [readOn]
  split <;> rfl

/-- The jobs stay well formed. -/
theorem formed_of_reachable
    (reachable : displayMachine.Reachable state) :
    state.session.jobs.WellFormed := by
  refine reachable.invariant (fun state => state.session.jobs.WellFormed) ?_ ?_
  · rintro _ rfl
    exact .empty
  · intro state step next reachable formed steps
    cases step with
    | session step dir =>
        obtain ⟨session, moves, -, -, rfl⟩ := steps
        exact DeliveryState.formed_of_step formed moves
    | publish =>
        obtain ⟨read, -, rfl⟩ := steps
        rw [session_readOn]
        exact formed
    | select | resize | update | subscribe | look | receive | lag | leave =>
        simp only [displayMachine, Steps, send, setClient] at steps
        grind

end DisplayState

/-- In every run in which each report of a failed launch leaves an announcement
to be made or changes nothing, the displays end with the board whenever no
operation is in progress. -/
theorem converged_of_announces
    {state : DisplayState}
    (reachable :
      (displayMachine.restrict DisplayState.Announces).Reachable state)
    (idle : state.Idle) : state.Converged := by
  refine DisplayState.Converging.converged ?_ idle
  refine reachable.invariant DisplayState.Converging ?_ ?_
  · rintro _ rfl
    exact ⟨.inr ⟨rfl, rfl⟩, fun client own found => by cases found⟩
  · intro state step next reachable converging steps
    exact converging.of_step (DisplayState.formed_of_reachable
      reachable.of_restrict) steps.1 steps.2

/-! ## Announcements made at once -/

namespace DisplayState

variable {state : DisplayState}

/-- The frontend reads the flags that are left and publishes. -/
theorem reachable_of_flags
    (left : List JobView)
    (done : List JobDto)
    (reachable : (displayMachine.restrict Announces).Reachable
      { state with updating := some (.flags done left) }) :
    (displayMachine.restrict Announces).Reachable
      ({ state with updating := none }.send
        [.jobs ⟨done ++ left.map (fun view =>
          state.board.jobDto view (state.board.isMerging view.id)),
          state.board.currentJob.map JobView.id⟩]) := by
  induction left generalizing done with
  | nil =>
      rw [List.map_nil, List.append_nil]
      exact .step .publish reachable ⟨⟨_, rfl, rfl⟩, trivial⟩
  | cons view left hypothesis =>
      have further := hypothesis
        (done ++ [state.board.jobDto view (state.board.isMerging view.id)])
        (.step .publish reachable ⟨⟨_, rfl, rfl⟩, trivial⟩)
      rwa [List.append_assoc] at further

/-- An announcement that is to be made can be made at once. -/
theorem reachable_announced
    (reachable : (displayMachine.restrict Announces).Reachable state)
    (idle : state.updating = none)
    {owed : Nat}
    (owes : state.owed = 1 + owed) :
    (displayMachine.restrict Announces).Reachable
      ({ state with owed := owed, updating := none }.send
        [.jobs state.board.snapshot]) := by
  have begun : (displayMachine.restrict Announces).Reachable
      { state with owed := owed, updating := some .jobs } :=
    .step .update reachable ⟨⟨owed, owes, idle, rfl⟩, trivial⟩
  have read : (displayMachine.restrict Announces).Reachable
      { state with owed := owed, updating := some (.flags [] state.board.jobs) } :=
    .step .publish begun ⟨⟨_, rfl, rfl⟩, trivial⟩
  exact @reachable_of_flags { state with owed := owed } state.board.jobs [] read

theorem send_nil (state : DisplayState) : state.send [] = state :=
  DisplayState.ext rfl rfl rfl rfl rfl (List.append_nil _)
    state.clients_send_nil

theorem send_send
    (state : DisplayState)
    (earlier later : List ServerMessage) :
    (state.send earlier).send later = state.send (earlier ++ later) := by
  simp only [send, List.append_assoc, Option.map_map, Function.comp_def]

/-- All announcements that are to be made can be made at once. -/
theorem reachable_settled
    (owed : Nat)
    (reachable : (displayMachine.restrict Announces).Reachable state)
    (idle : state.updating = none)
    (owes : state.owed = owed) :
    (displayMachine.restrict Announces).Reachable
      ({ state with owed := 0, updating := none }.send
        (List.replicate owed (.jobs state.board.snapshot))) := by
  induction owed generalizing state with
  | zero =>
      rw [List.replicate_zero, send_nil, ← owes, ← idle]
      exact reachable
  | succ owed hypothesis =>
      have announced := reachable_announced reachable idle
        (owes.trans (Nat.add_comm owed 1))
      have settled := hypothesis announced rfl rfl
      rw [List.replicate_succ, ← List.singleton_append, ← send_send]
      exact settled

end DisplayState

/-! ## A change nobody announces -/

/-- A command that fails to launch is to be reported after another one was
started in its job; five announcements are still to be made. -/
def reportedLater : DisplayState where
  session :=
    { jobs :=
        { table := ⟨[{ spawnedJob.build with
            starting := false
            running := some ⟨7, ⟨"job", "u1"⟩, "true", false⟩ }], 1⟩
          queue := { pending := [], active := fun _ => 0, closed := false }
          concluder := .taking
          tasks := {.watching "job" 7, .failing "job" ⟨"job", "u1"⟩}
          trees := insert "u1" ∅
          issued := ["u1"]
          forced := []
          retained := [] }
      producers := Function.update (fun _ => none) "u1" (some "u1")
      dones :=
        Function.update (Function.update (fun _ => none) "u1" none) "u1" none
      owned := []
      deliveries := {.pumping ⟨"job", "u1"⟩ true true}
      told := [.opened ⟨"job", "u1"⟩, .finished ⟨"job", "u1"⟩ (-1)]
      registered := []
      called := []
      phase := .session
      concluded := none
      unkilled := insert 7 ∅
      closing := none }
  current := none
  dirs := Function.update (fun _ => "") "u1" ""
  owed := 5
  updating := none
  published := [.jobs ⟨[], none⟩, .finished "job" (-1)]
  clients _ := none

/-- A command fails to launch, and another one is started before the failure is
reported. -/
theorem reachable_reportedLater :
    (displayMachine.restrict DisplayState.Announces).Reachable
      reportedLater := by
  let Announced := displayMachine.restrict DisplayState.Announces
  have spawned : Announced.Reachable _ :=
    .step (.session (.job (.spawn "job" "u1" false (some "ls")) none 0) "")
      (.start rfl)
      ⟨⟨_, ⟨_, ⟨1, ⟨rfl, rfl⟩, by decide, rfl⟩, rfl, rfl⟩, rfl, fun _ => rfl,
        rfl⟩, trivial⟩
  have built : Announced.Reachable _ :=
    .step (.session (.job (.build "job" ⟨"job", "u1"⟩ (some "ls")) none 0) "")
      spawned
      ⟨⟨_, ⟨_, ⟨0, rfl, rfl, rfl⟩, trivial, rfl⟩, rfl, fun _ => rfl, rfl⟩, trivial⟩
  have opened : Announced.Reachable _ :=
    .step (.session (.announceOpened ⟨"job", "u1"⟩) "") built
      ⟨⟨_, ⟨0, rfl, rfl⟩, rfl, fun _ => rfl, rfl⟩, trivial⟩
  have prepared : Announced.Reachable _ :=
    .step (.session (.job (.prepare "job" "ls" ⟨"job", "u1"⟩ true) none 0) "")
      opened
      ⟨⟨_, ⟨_, ⟨0, rfl, rfl⟩, fun _ => by decide, rfl⟩, rfl, fun _ => rfl, rfl⟩, trivial⟩
  have failed : Announced.Reachable _ :=
    .step (.session (.job (.failLaunch "job" "ls" ⟨"job", "u1"⟩ ⟨"job", "u1"⟩
      true none true) none 0) "") prepared
      ⟨⟨_, ⟨_, ⟨0, rfl, rfl⟩, trivial, rfl⟩, rfl, fun _ => rfl, rfl⟩, trivial⟩
  have started : Announced.Reachable _ :=
    .step (.session (.job (.startIn "job" "true") none 0) "") failed
      ⟨⟨_, ⟨_, ⟨spawnedJob.build, rfl, rfl, rfl, rfl, rfl⟩, rfl, rfl⟩, rfl,
        fun _ => rfl, rfl⟩, trivial⟩
  have waited : Announced.Reachable _ :=
    .step (.session (.job (.waited "job" "true" ⟨"job", "u1"⟩) none 0) "")
      started
      ⟨⟨_, ⟨_, ⟨.inr rfl, {.failing "job" ⟨"job", "u1"⟩},
        by unfold JobState.Pending; decide, rfl⟩, trivial, rfl⟩, rfl,
        fun _ => rfl, rfl⟩, trivial⟩
  have read : Announced.Reachable _ :=
    .step (.session (.job (.prepare "job" "true" ⟨"job", "u1"⟩ false) none 0) "")
      waited
      ⟨⟨_, ⟨_, ⟨{.failing "job" ⟨"job", "u1"⟩},
        by unfold JobState.Pending; decide, rfl⟩, by rintro ⟨⟩, rfl⟩, rfl,
        fun _ => rfl, rfl⟩, trivial⟩
  have launched : Announced.Reachable _ :=
    .step (.session (.job (.launch "job" "true" ⟨"job", "u1"⟩ ⟨"job", "u1"⟩
      false 7 .transaction) none 0) "") read
      ⟨⟨_, ⟨_, ⟨{.failing "job" ⟨"job", "u1"⟩},
        by unfold JobState.Pending; decide, rfl⟩, ⟨by decide, by decide⟩, rfl⟩,
        rfl, fun _ => rfl, rfl⟩, trivial⟩
  have published : Announced.Reachable _ :=
    .step (.session (.job (.publish "job" ⟨"job", "u1"⟩
      ⟨7, ⟨"job", "u1"⟩, "true", false⟩ true) none 0) "") launched
      ⟨⟨_, ⟨_, ⟨{.failing "job" ⟨"job", "u1"⟩},
        by unfold JobState.Pending; decide, rfl⟩, by rintro _ ⟨⟩, rfl⟩, rfl,
        fun _ => rfl, rfl⟩, trivial⟩
  have delivered : Announced.Reachable _ :=
    .step (.session (.deliverFailure "job" ⟨"job", "u1"⟩) "") published
      ⟨⟨_, ⟨{.pumping ⟨"job", "u1"⟩ true true},
        by unfold DeliveryState.Under; decide, rfl⟩, rfl, fun _ => rfl, rfl⟩, trivial⟩
  have told : Announced.Reachable _ :=
    .step (.session (.announceFinished .launch ⟨"job", "u1"⟩ ⟨"job", "u1"⟩ (-1)
      none) "") delivered
      ⟨⟨_, ⟨{.pumping ⟨"job", "u1"⟩ true true},
        by unfold DeliveryState.Under; decide, rfl⟩, rfl, fun _ => rfl, rfl⟩, trivial⟩
  exact told

/-- A client subscribes while the report is still to be made, lags behind on the
five announcements that follow it, and reads the board again. -/
theorem converged_of_announces_report :
    ∃ state : DisplayState, state.Converged ∧
      state.board.rows = [{ spawnedJob.build with
        starting := false
        running := some ⟨7, ⟨"job", "u1"⟩, "true", false⟩
        close := some .graceful }] ∧
      ∃ own, state.clients 0 = some own ∧ own.CaughtUp ∧
        own.shown = some state.board.snapshot := by
  let Announced := displayMachine.restrict DisplayState.Announces
  have subscribed : Announced.Reachable _ :=
    .step (.subscribe 0) reachable_reportedLater ⟨⟨rfl, rfl⟩, trivial⟩
  have reported : Announced.Reachable _ :=
    .step (.session (.job (.reportFailure "job" ⟨"job", "u1"⟩) none 0) "")
      subscribed
      ⟨⟨_, ⟨_, ⟨{.watching "job" 7}, by unfold JobState.Pending; decide, rfl⟩,
        by unfold DeliveryState.Ready; decide, rfl⟩, rfl, fun _ => rfl, rfl⟩,
        .inl (.owed (Nat.succ_pos 4))⟩
  have settled := DisplayState.reachable_settled 5 reported rfl rfl
  have looked : Announced.Reachable _ :=
    .step (.look 0) settled ⟨⟨_, .jobs, rfl, rfl, rfl⟩, trivial⟩
  have flagged : Announced.Reachable _ :=
    .step (.look 0) looked ⟨⟨_, _, rfl, rfl, rfl⟩, trivial⟩
  have greeted : Announced.Reachable _ :=
    .step (.look 0) flagged ⟨⟨_, _, rfl, rfl, rfl⟩, trivial⟩
  have lagged : Announced.Reachable _ :=
    .step (.lag 0 _ []) greeted
      ⟨⟨_, rfl, rfl, (List.append_nil _).symm, by decide, rfl⟩, trivial⟩
  have again : Announced.Reachable _ :=
    .step (.look 0) lagged ⟨⟨_, .jobs, rfl, rfl, rfl⟩, trivial⟩
  have reflagged : Announced.Reachable _ :=
    .step (.look 0) again ⟨⟨_, _, rfl, rfl, rfl⟩, trivial⟩
  have caught : Announced.Reachable _ :=
    .step (.look 0) reflagged ⟨⟨_, _, rfl, rfl, rfl⟩, trivial⟩
  have converged := converged_of_announces caught
    ⟨fun task member => ⟨"job", 7, by revert member; revert task; decide⟩,
      by decide, by decide, by decide, by decide, rfl⟩
  exact ⟨_, converged, by decide, _, rfl, ⟨rfl, rfl⟩,
    converged.2 0 _ rfl ⟨rfl, rfl⟩⟩

/-- The failure is reported when all else is announced: that the job is to close
is announced to nobody. -/
theorem not_converged_of_report :
    ∃ state, displayMachine.Reachable state ∧ state.Idle ∧
      ¬state.Converged := by
  have settled :=
    (DisplayState.reachable_settled 5 reachable_reportedLater rfl rfl).of_restrict
  have reported : displayMachine.Reachable _ :=
    .step (.session (.job (.reportFailure "job" ⟨"job", "u1"⟩) none 0) "")
      settled
      ⟨_, ⟨_, ⟨{.watching "job" 7}, by unfold JobState.Pending; decide, rfl⟩,
        by unfold DeliveryState.Ready; decide, rfl⟩, rfl, fun _ => rfl, rfl⟩
  refine ⟨_, reported, ⟨fun task member => ⟨"job", 7, ?_⟩, by decide, by decide,
    by decide, by decide, rfl⟩, ?_⟩
  · revert member
    revert task
    decide
  · rintro ⟨last, -⟩
    exact absurd last (by decide)

end Shellmux
end Marsh
