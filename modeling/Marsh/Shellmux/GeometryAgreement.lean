import Marsh.Shellmux.Geometry
import Marsh.Shellmux.OwnRows

/-!
# Agreement of the geometry

Every open screen has the size of the table, or the size is still to be written
to it, as long as no older size is written last.  Two resizes that overlap, or a
resize while a new terminal is being set, can leave an older size last.
-/

namespace Marsh
namespace Shellmux

open Library

/-! ## Frontends -/

namespace Frontend

theorem update_changed (frontend : Frontend) :
    frontend.update .changed = frontend := by
  induction frontend with
  | display binding => rfl
  | join left right leftSame rightSame =>
      rw [update, leftSame, rightSame]

theorem size_foldl_about
    (events : List FrontendEvent)
    (frontend : Frontend) :
    (events.foldl (fun frontend event => frontend.update (.about event))
      frontend).size = frontend.size := by
  induction events generalizing frontend with
  | nil => rfl
  | cons event events hypothesis =>
      rw [List.foldl_cons, hypothesis, size_update_about]

theorem sizes_foldl_about
    (events : List FrontendEvent)
    (frontend : Frontend) :
    (events.foldl (fun frontend event => frontend.update (.about event))
      frontend).parts.map size = frontend.parts.map size := by
  induction events generalizing frontend with
  | nil => rfl
  | cons event events hypothesis =>
      rw [List.foldl_cons, hypothesis, sizes_update_about]

end Frontend

/-! ## Rows and what they hold -/

namespace GeometryState

/-- What is held was held for a uid a spawn was issued. -/
def HoldsIssued (state : GeometryState) : Prop :=
  ∀ uid built, state.session.producers uid = some built ->
    uid ∈ state.session.jobs.issued

/-- The machine with its terminals takes steps of the job machine. -/
theorem session_of_step
    {state next : GeometryState}
    {step : GeometryStep}
    (steps : state.Steps step next) :
    next.session = state.session ∨
      ∃ own, step = .session own ∧ state.session.Steps own next.session := by
  cases step with
  | session own =>
      obtain ⟨session, steps, -, rfl⟩ := steps
      exact .inr ⟨own, rfl, steps⟩
  | resize size =>
      obtain ⟨-, rfl⟩ := steps
      exact .inl rfl
  | apply | announce | settle =>
      obtain ⟨rest, -, rfl⟩ := steps
      exact .inl rfl

/-- The jobs stay well formed, and what they hold is of uids issued. -/
theorem formed_of_reachable
    {state : GeometryState}
    (reachable : geometryMachine.Reachable state) :
    state.session.jobs.WellFormed ∧ state.HoldsIssued := by
  refine reachable.invariant
    (fun state => state.session.jobs.WellFormed ∧ state.HoldsIssued) ?_ ?_
  · rintro _ ⟨frontend, -, rfl⟩
    exact ⟨.empty, fun _ _ holds => by contradiction⟩
  · rintro state step next - ⟨formed, issued⟩ steps
    obtain same | ⟨own, rfl, moves⟩ := session_of_step steps
    · rw [HoldsIssued, same]
      exact ⟨formed, issued⟩
    · refine ⟨DeliveryState.formed_of_step formed moves, ?_⟩
      intro uid built holds
      refine DeliveryState.issued_of_step moves ?_
      obtain old | ⟨id, sandbox, cmd, done, exitCode, job, -, found, rfl, -⟩ :=
        DeliveryState.OwnRows.producers_of_step moves holds
      · exact issued uid built old
      · exact formed.known job (JobTable.mem_of_find found)

variable {state next : GeometryState}

/-- A terminal that is open after a step of the job machine was open before, or
has just been built. -/
theorem open_of_session
    (issued : state.HoldsIssued)
    {step : DeliveryStep}
    (steps : state.session.Steps step next.session)
    {uid : String}
    (isOpen : uid ∈ next.openTerminals) :
    uid ∈ state.openTerminals ∨
      ∃ id sandbox cmd done exitCode,
        step = .job (.build id sandbox cmd) done exitCode ∧
          sandbox.uid = uid := by
  obtain ⟨job, member, holds⟩ := List.mem_filterMap.mp isOpen
  obtain old | ⟨id, sandbox, cmd, done, exitCode, _, builds, -, -, built⟩ :=
    DeliveryState.OwnRows.producers_of_step steps holds
  · obtain ⟨row, rowMember, -, same⟩ |
        ⟨id, fresh, anonymous, cmd, done, exitCode, rfl, -, rfl⟩ :=
      DeliveryState.OwnRows.row_of_step steps member
    · exact .inl (List.mem_filterMap.mpr ⟨row, rowMember, same ▸ old⟩)
    · obtain ⟨jobs, ⟨counter, -, unissued, -⟩, -⟩ := steps
      exact absurd (issued fresh uid old) unissued
  · exact .inr ⟨id, sandbox, cmd, done, exitCode, builds, built⟩

end GeometryState

/-! ## Writes in flight -/

namespace GeometryState

/-- The table's size, the sizes of the screens and the writes still to be
made. -/
def copies (state : GeometryState) : PendingWrites Screen TerminalSize where
  current := state.terminalSize
  copy
    | .terminal uid => state.terminals uid
    | .displays => state.resized.getLast?.getD state.frontend.size
  pending := state.tasks.bind fun task => task.writes

theorem awaits_iff (state : GeometryState) (screen : Screen) :
    state.copies.Awaits screen ↔ state.Awaits screen := by
  rw [PendingWrites.Awaits, copies, Multiset.mem_bind]
  rfl

/-- The writes of one task are among those in flight. -/
theorem pending_of_cons
    {state : GeometryState}
    {task : GeometryTask}
    {rest : Multiset GeometryTask}
    (tasks : state.tasks = task ::ₘ rest) :
    state.copies.pending =
      (task.writes : Multiset (Screen × TerminalSize)) +
        rest.bind fun task => task.writes := by
  rw [copies, tasks, Multiset.cons_bind]

variable {state next : GeometryState}

/-- `resize` sends a new size to every open screen. -/
theorem copies_resize
    {size : TerminalSize}
    (steps : state.Steps (.resize size) next) :
    next.copies = state.copies.set size
      (state.openTerminals.map Screen.terminal ++ [.displays] : List Screen) := by
  obtain ⟨-, rfl⟩ := steps
  simp only [copies, PendingWrites.set, Multiset.cons_bind, GeometryTask.writes,
    Multiset.map_coe, List.map_append, List.map_map, List.map_cons,
    List.map_nil]
  rfl

/-- A step that writes a size lands one of the writes in flight. -/
theorem copies_land
    {step : GeometryStep}
    (steps : state.Steps step next)
    {screen : Screen}
    {size : TerminalSize}
    (writes : step.write = some (screen, size)) :
    ∃ rest, state.copies.pending = (screen, size) ::ₘ rest ∧
      next.copies = state.copies.land screen size rest := by
  cases step with
  | session | resize => cases writes
  | apply own uid left =>
      obtain ⟨rest, tasks, rfl⟩ := steps
      cases writes
      refine ⟨((GeometryTask.resizing size left).writes : Multiset _) +
        rest.bind fun task => task.writes, ?_, ?_⟩
      · have writes : (GeometryTask.resizing size (uid :: left)).writes =
            (.terminal uid, size) :: (GeometryTask.resizing size left).writes :=
          rfl
        rw [pending_of_cons tasks, writes, ← Multiset.cons_coe,
          Multiset.cons_add]
      · rw [copies, PendingWrites.land, Multiset.cons_bind]
        congr 1
        funext screen
        cases screen with
        | terminal other => simp [Function.update_apply, copies]
        | displays => rfl
  | announce own =>
      obtain ⟨rest, tasks, rfl⟩ := steps
      cases writes
      refine ⟨rest.bind fun task => task.writes, ?_, ?_⟩
      · rw [pending_of_cons tasks]
        rfl
      · rw [copies, PendingWrites.land]
        congr 1
        funext screen
        cases screen with
        | terminal other => rfl
        | displays =>
            simp only [List.getLast?_append, List.getLast?_singleton,
              Option.some_or, Option.getD_some, Function.update_self]
  | settle uid latest =>
      obtain ⟨rest, tasks, rfl⟩ := steps
      cases writes
      refine ⟨rest.bind fun task => task.writes, ?_, ?_⟩
      · rw [pending_of_cons tasks]
        rfl
      · rw [copies, PendingWrites.land]
        congr 1
        funext screen
        cases screen with
        | terminal other => simp [Function.update_apply, copies]
        | displays => rfl

section Session

variable {step : DeliveryStep}

theorem size_frontendAfter :
    (state.frontendAfter step).size = state.frontend.size :=
  Frontend.size_foldl_about step.tells state.frontend

theorem sizes_frontendAfter :
    (state.frontendAfter step).parts.map Frontend.size =
      state.frontend.parts.map Frontend.size :=
  Frontend.sizes_foldl_about step.tells state.frontend

/-- What is in progress goes on. -/
theorem mem_tasksAfter
    {task : GeometryTask}
    (member : task ∈ state.tasks) : task ∈ state.tasksAfter step := by
  unfold tasksAfter
  split
  · split_ifs
    · exact Multiset.mem_cons_of_mem member
    · exact member
  · exact member

/-- Only a construction gives its terminal a size. -/
theorem terminalsAfter_of_other
    {uid : String}
    (other : ¬∃ id sandbox cmd done exitCode,
      step = .job (.build id sandbox cmd) done exitCode ∧ sandbox.uid = uid) :
    state.terminalsAfter step uid = state.terminals uid := by
  unfold terminalsAfter
  split
  · next id sandbox cmd done exitCode =>
      refine Function.update_of_ne ?_ _ _
      rintro rfl
      exact other ⟨id, sandbox, cmd, done, exitCode, rfl, rfl⟩
  · rfl

/-- A write in flight stays in flight. -/
theorem awaits_of_session
    (steps : state.Steps (.session step) next)
    {screen : Screen}
    (awaits : state.copies.Awaits screen) : next.copies.Awaits screen := by
  obtain ⟨session, -, -, rfl⟩ := steps
  obtain ⟨task, member, writes⟩ := (state.awaits_iff screen).mp awaits
  exact (awaits_iff _ screen).mpr ⟨task, mem_tasksAfter member, writes⟩

/-- A terminal just built has the table's size, or is to be set to it. -/
theorem upheld_build
    {id : String}
    {sandbox : Sandbox}
    {cmd : Option String}
    {done : Option Nat}
    {exitCode : Int}
    (steps : state.Steps (.session (.job (.build id sandbox cmd) done exitCode))
      next) :
    next.copies.Upheld (.terminal sandbox.uid) := by
  obtain ⟨session, -, -, rfl⟩ := steps
  by_cases same : state.terminalSize = state.sizes sandbox.uid
  · left
    change Function.update state.terminals sandbox.uid
      (state.sizes sandbox.uid) sandbox.uid = state.terminalSize
    rw [Function.update_self, same]
  · right
    refine (awaits_iff _ _).mpr
      ⟨.settling sandbox.uid state.terminalSize, ?_, List.mem_singleton_self _⟩
    change _ ∈ state.tasksAfter (.job (.build id sandbox cmd) done exitCode)
    rw [tasksAfter, if_pos same]
    exact Multiset.mem_cons_self _ _

end Session

/-- Every open screen has the table's size or is still to be given it, and the
displays report the size announced last. -/
structure Upheld (state : GeometryState) : Prop where
  screens : ∀ screen, state.Open screen -> state.copies.Upheld screen
  reported : ∀ size ∈ state.resized.getLast?,
    ∀ part ∈ state.frontend.parts, part.size = size

namespace Upheld

theorem start (frontend : Frontend) : (GeometryState.start frontend).Upheld where
  screens screen isOpen := by
    cases screen with
    | terminal uid => exact absurd isOpen List.not_mem_nil
    | displays =>
        left
        change ((frontend.bind true).update .changed).size = frontend.size
        rw [Frontend.update_changed, Frontend.size_bind]
  reported size member := by cases member

/-- A step of the job machine leaves the screens it does not build. -/
theorem of_session
    (upheld : state.Upheld)
    (issued : state.HoldsIssued)
    {step : DeliveryStep}
    (steps : state.Steps (.session step) next) : next.Upheld := by
  have inFlight := @awaits_of_session _ _ _ steps
  obtain ⟨session, moves, -, rfl⟩ := id steps
  refine ⟨?_, ?_⟩
  · intro screen isOpen
    cases screen with
    | displays =>
        refine (upheld.screens .displays trivial).imp (fun copied => ?_) inFlight
        change state.resized.getLast?.getD (state.frontendAfter step).size =
          state.terminalSize
        rw [size_frontendAfter]
        exact copied
    | terminal uid =>
        by_cases builds : ∃ id sandbox cmd done exitCode,
            step = .job (.build id sandbox cmd) done exitCode ∧
              sandbox.uid = uid
        · obtain ⟨id, sandbox, cmd, done, exitCode, rfl, rfl⟩ := builds
          exact upheld_build steps
        · have old := (open_of_session issued moves isOpen).resolve_right builds
          refine (upheld.screens (.terminal uid) old).imp (fun copied => ?_) inFlight
          exact (terminalsAfter_of_other builds).trans copied
  · intro size last part member
    obtain ⟨before, beforeMember, same⟩ := List.mem_map.mp
      (sizes_frontendAfter ▸ List.mem_map_of_mem member)
    rw [← same]
    exact upheld.reported size last before beforeMember

/-- A step that writes in time, or writes nothing, leaves the screens upheld. -/
theorem of_step
    (upheld : state.Upheld)
    (issued : state.HoldsIssued)
    {step : GeometryStep}
    (steps : state.Steps step next)
    (timely : state.Timely step) : next.Upheld := by
  have landed : ∀ {screen size}, step.write = some (screen, size) ->
      (∀ other, next.Open other -> state.Open other) ->
      ∀ other, next.Open other -> next.copies.Upheld other := by
    intro screen size writes opened other isOpen
    obtain ⟨rest, pending, lands⟩ := copies_land steps writes
    rw [lands]
    refine PendingWrites.upheld_land pending ?_
      (upheld.screens other (opened other isOpen))
    rintro rfl
    exact (timely other size writes (opened other isOpen)).imp_right
      (state.awaits_iff other).mpr
  cases step with
  | session step => exact upheld.of_session issued steps
  | resize size =>
      refine ⟨?_, ?_⟩
      · intro screen isOpen
        rw [copies_resize steps]
        refine PendingWrites.upheld_set ?_
        obtain ⟨-, rfl⟩ := steps
        cases screen with
        | terminal uid =>
            exact List.mem_append_left _ (List.mem_map_of_mem isOpen)
        | displays => exact List.mem_append_right _ List.mem_cons_self
      · obtain ⟨-, rfl⟩ := steps
        exact upheld.reported
  | apply size uid left =>
      refine ⟨landed rfl ?_, ?_⟩ <;> obtain ⟨rest, -, rfl⟩ := steps
      · exact fun other isOpen => isOpen
      · exact upheld.reported
  | settle uid latest =>
      refine ⟨landed rfl ?_, ?_⟩ <;> obtain ⟨rest, -, rfl⟩ := steps
      · exact fun other isOpen => isOpen
      · exact upheld.reported
  | announce size =>
      refine ⟨landed rfl ?_, ?_⟩ <;> obtain ⟨rest, -, rfl⟩ := steps
      · exact fun other isOpen => isOpen
      · intro last member
        rw [List.getLast?_concat] at member
        obtain rfl := Option.some.inj member
        exact state.frontend.size_of_mem_parts_resized size

end Upheld

/-- Where every write was made in time, all agree once nothing is in
progress. -/
theorem Upheld.agrees
    (upheld : state.Upheld)
    (settled : state.Settled) : state.Agrees := by
  have landed : state.copies.pending = 0 := by
    rw [copies, settled]
    rfl
  have agrees : ∀ screen, state.Open screen ->
      state.copies.copy screen = state.terminalSize :=
    fun screen isOpen =>
      PendingWrites.copy_of_upheld landed (upheld.screens screen isOpen)
  have displayed := agrees .displays trivial
  have announced : ∀ size ∈ state.resized.getLast?,
      size = state.terminalSize := by
    intro size last
    have same : state.resized.getLast?.getD state.frontend.size =
        state.terminalSize := displayed
    rwa [Option.mem_def.mp last] at same
  refine ⟨fun uid isOpen => agrees (.terminal uid) isOpen, announced, ?_, ?_⟩
  · cases last : state.resized.getLast? with
    | none =>
        change state.resized.getLast?.getD state.frontend.size = _ at displayed
        rwa [last] at displayed
    | some size =>
        rw [upheld.reported size last _ (Frontend.self_mem_parts _),
          announced size last]
  · intro resized part member
    obtain ⟨size, last⟩ := Option.isSome_iff_exists.mp
      (List.getLast?_isSome.mpr resized)
    rw [upheld.reported size last part member, announced size last]

end GeometryState

/-! ## The result -/

/-- In every run that writes in time, every open terminal and every display has
the table's size once nothing is in progress. -/
theorem agrees_of_timely
    {state : GeometryState}
    (reachable : (geometryMachine.restrict GeometryState.Timely).Reachable state)
    (settled : state.Settled) : state.Agrees := by
  refine GeometryState.Upheld.agrees ?_ settled
  refine reachable.invariant GeometryState.Upheld ?_ ?_
  · rintro _ ⟨frontend, -, rfl⟩
    exact .start frontend
  · intro state step next reachable upheld steps
    exact upheld.of_step (GeometryState.formed_of_reachable
      reachable.of_restrict).2 steps.1 steps.2

/-! ## Resizes one at a time -/

namespace GeometryState

/-- A resize begins only once nothing is in progress. -/
def OneAtATime (state : GeometryState) : GeometryStep -> Prop
  | .resize _ => state.Settled
  | .session _ | .apply _ _ _ | .announce _ | .settle _ _ => True

variable {state next : GeometryState}

/-- Every size still to be written is the table's. -/
def Current (state : GeometryState) : Prop :=
  ∀ task ∈ state.tasks, ∀ write ∈ task.writes, write.2 = state.terminalSize

/-- A task with fewer writes keeps all sizes current. -/
theorem Current.of_fewer
    (current : state.Current)
    {task : GeometryTask}
    {rest : Multiset GeometryTask}
    (tasks : state.tasks = task ::ₘ rest)
    (size : next.terminalSize = state.terminalSize)
    (fewer : ∀ other ∈ next.tasks, other ∈ rest ∨
      ∀ write ∈ other.writes, write ∈ task.writes) : next.Current := by
  intro other member write writes
  rw [size]
  rcases fewer other member with same | part
  · exact current other (tasks ▸ Multiset.mem_cons_of_mem same) write writes
  · exact current task (tasks ▸ Multiset.mem_cons_self _ _) write
      (part write writes)

theorem Current.of_step
    (current : state.Current)
    {step : GeometryStep}
    (steps : state.Steps step next)
    (alone : state.OneAtATime step) : next.Current := by
  cases step with
  | session step =>
      obtain ⟨session, -, -, rfl⟩ := steps
      intro task member write writes
      change task ∈ state.tasksAfter step at member
      unfold tasksAfter at member
      split at member
      · split_ifs at member
        · rcases Multiset.mem_cons.mp member with rfl | old
          · rw [List.mem_singleton.mp writes]
          · exact current task old write writes
        · exact current task member write writes
      · exact current task member write writes
  | resize size =>
      obtain ⟨-, rfl⟩ := steps
      intro task member write writes
      rcases Multiset.mem_cons.mp member with rfl | old
      · rcases List.mem_append.mp writes with terminal | displays
        · obtain ⟨uid, -, rfl⟩ := List.mem_map.mp terminal
          rfl
        · rw [List.mem_singleton.mp displays]
      · rw [alone] at old
        exact absurd old (Multiset.notMem_zero _)
  | apply size uid left =>
      obtain ⟨rest, tasks, rfl⟩ := steps
      refine current.of_fewer tasks rfl fun other member => ?_
      rcases Multiset.mem_cons.mp member with rfl | same
      · exact .inr fun write writes => List.mem_cons_of_mem _ writes
      · exact .inl same
  | announce | settle =>
      obtain ⟨rest, tasks, rfl⟩ := steps
      exact current.of_fewer tasks rfl fun other member => .inl member

/-- With current sizes only, every write is made in time. -/
theorem Current.timely
    (current : state.Current)
    {step : GeometryStep}
    (steps : state.Steps step next) : state.Timely step := by
  intro screen size writes _
  obtain ⟨rest, pending, -⟩ := copies_land steps writes
  obtain ⟨task, member, own⟩ := Multiset.mem_bind.mp
    (pending ▸ Multiset.mem_cons_self (screen, size) rest)
  exact .inl (current task member _ own)

end GeometryState

/-- Where resizes begin only once the one before has returned and every new
terminal is set, all agree whenever nothing is in progress. -/
theorem agrees_of_oneAtATime
    {state : GeometryState}
    (reachable :
      (geometryMachine.restrict GeometryState.OneAtATime).Reachable state)
    (settled : state.Settled) : state.Agrees := by
  have both : state.Upheld ∧ state.Current := by
    refine reachable.invariant (fun state => state.Upheld ∧ state.Current) ?_ ?_
    · rintro _ ⟨frontend, -, rfl⟩
      exact ⟨.start frontend, fun _ member =>
        absurd member (Multiset.notMem_zero _)⟩
    · intro state step next reachable holds steps
      exact ⟨holds.1.of_step (GeometryState.formed_of_reachable
        reachable.of_restrict).2 steps.1 (holds.2.timely steps.1),
        holds.2.of_step steps.1 steps.2⟩
  exact both.1.agrees settled

/-! ## Runs -/

namespace GeometryState

/-- A step that writes nothing comes in time. -/
theorem timely_of_silent
    {state : GeometryState}
    {step : GeometryStep}
    (silent : step.write = none) : state.Timely step := by
  intro screen size writes
  rw [silent] at writes
  exact absurd writes.symm (Option.some_ne_none _)

end GeometryState

/-- A mux over one display of 24 rows and 80 columns. -/
def smallState : GeometryState :=
  .start (.display (.new ⟨24, 80⟩))

/-- A mux with one open job. -/
def builtState : GeometryState :=
  { smallState with
    session := DeliveryState.openingState
    sizes := Function.update smallState.sizes "u1" ⟨24, 80⟩
    terminals := Function.update smallState.terminals "u1" ⟨24, 80⟩ }

theorem openTerminals_builtState : builtState.openTerminals = ["u1"] := by
  decide

/-- Two resizes have taken their size, and neither has set the terminal. -/
def overlappingState : GeometryState :=
  { builtState with
    terminalSize := ⟨40, 120⟩
    tasks := {.resizing ⟨40, 120⟩ ["u1"], .resizing ⟨30, 100⟩ ["u1"]} }

theorem openTerminals_overlappingState :
    overlappingState.openTerminals = ["u1"] :=
  openTerminals_builtState

theorem reachable_overlappingState :
    (geometryMachine.restrict GeometryState.Timely).Reachable
      overlappingState := by
  let timely := geometryMachine.restrict GeometryState.Timely
  have started : timely.Reachable smallState := .start ⟨_, by decide, rfl⟩
  have spawned : timely.Reachable _ :=
    .step (.session (.job (.spawn "job" "u1" false none) none 0)) started
      ⟨⟨_, ⟨spawnedState, spawnedState_steps, rfl, rfl⟩, trivial, rfl⟩,
        GeometryState.timely_of_silent rfl⟩
  have built : timely.Reachable builtState :=
    .step (.session (.job (.build "job" ⟨"job", "u1"⟩ none) none 0)) spawned
      ⟨⟨_, ⟨_, ⟨0, rfl, rfl, rfl⟩, trivial, rfl⟩, trivial, rfl⟩,
        GeometryState.timely_of_silent rfl⟩
  have first : timely.Reachable
      { builtState with
        terminalSize := ⟨30, 100⟩
        tasks := {.resizing ⟨30, 100⟩ ["u1"]} } :=
    .step (.resize ⟨30, 100⟩) built
      ⟨⟨by decide, by rw [openTerminals_builtState]; rfl⟩,
        GeometryState.timely_of_silent rfl⟩
  exact .step (.resize ⟨40, 120⟩) first
    ⟨⟨by decide, by
      change _ = { builtState with
        terminalSize := ⟨40, 120⟩
        tasks := GeometryTask.resizing ⟨40, 120⟩ builtState.openTerminals ::ₘ
          {GeometryTask.resizing ⟨30, 100⟩ ["u1"]} }
      rw [openTerminals_builtState]
      rfl⟩, GeometryState.timely_of_silent rfl⟩

/-- Of two resizes that overlap, the first sets the terminal and the displays
before the second does. -/
theorem agrees_of_timely_overlap :
    ∃ state : GeometryState, state.openTerminals = ["u1"] ∧
      state.resized = [⟨30, 100⟩, ⟨40, 120⟩] ∧
      state.terminals "u1" = ⟨40, 120⟩ ∧ state.Agrees := by
  let timely := geometryMachine.restrict GeometryState.Timely
  have swapped : overlappingState.tasks =
      {.resizing ⟨30, 100⟩ ["u1"], .resizing ⟨40, 120⟩ ["u1"]} :=
    Multiset.pair_comm _ _
  have applied : timely.Reachable _ :=
    .step (.apply ⟨30, 100⟩ "u1" []) reachable_overlappingState
      ⟨⟨{.resizing ⟨40, 120⟩ ["u1"]}, swapped, rfl⟩,
        fun _ _ writes _ => by
          cases writes
          exact .inr ⟨.resizing ⟨40, 120⟩ ["u1"], by decide,
            List.mem_cons_self⟩⟩
  have announced : timely.Reachable _ :=
    .step (.announce ⟨30, 100⟩) applied
      ⟨⟨{.resizing ⟨40, 120⟩ ["u1"]}, rfl, rfl⟩,
        fun _ _ writes _ => by
          cases writes
          exact .inr ⟨.resizing ⟨40, 120⟩ ["u1"],
            Multiset.mem_cons_of_mem (Multiset.mem_singleton_self _),
            List.mem_cons_of_mem _ List.mem_cons_self⟩⟩
  have overtaken : timely.Reachable _ :=
    .step (.apply ⟨40, 120⟩ "u1" []) announced
      ⟨⟨0, rfl, rfl⟩, fun _ _ writes _ => by cases writes; exact .inl rfl⟩
  have finished : timely.Reachable _ :=
    .step (.announce ⟨40, 120⟩) overtaken
      ⟨⟨0, rfl, rfl⟩, fun _ _ writes _ => by cases writes; exact .inl rfl⟩
  refine ⟨_, ?_, ?_, ?_, agrees_of_timely finished rfl⟩
  · exact openTerminals_overlappingState
  · rfl
  · rfl

/-- Of two resizes that overlap, the first sets the terminals and the displays
last. -/
theorem not_agrees_of_overlap :
    ∃ state, geometryMachine.Reachable state ∧ state.Settled ∧
      ¬state.Agrees ∧ state.terminalSize = ⟨40, 120⟩ ∧
      state.openTerminals.map state.terminals = [⟨30, 100⟩] ∧
      state.resized.getLast? = some ⟨30, 100⟩ ∧
      state.frontend.size = ⟨30, 100⟩ := by
  have applied : geometryMachine.Reachable _ :=
    .step (.apply ⟨40, 120⟩ "u1" []) reachable_overlappingState.of_restrict
      ⟨{.resizing ⟨30, 100⟩ ["u1"]}, rfl, rfl⟩
  have announced : geometryMachine.Reachable _ :=
    .step (.announce ⟨40, 120⟩) applied
      ⟨{.resizing ⟨30, 100⟩ ["u1"]}, rfl, rfl⟩
  have overtaken : geometryMachine.Reachable _ :=
    .step (.apply ⟨30, 100⟩ "u1" []) announced ⟨0, rfl, rfl⟩
  have finished : geometryMachine.Reachable _ :=
    .step (.announce ⟨30, 100⟩) overtaken ⟨0, rfl, rfl⟩
  refine ⟨_, finished, rfl, fun agrees => ?_, rfl, ?_, rfl, rfl⟩
  · exact absurd agrees.reported (by decide)
  · change overlappingState.openTerminals.map _ = _
    rw [openTerminals_overlappingState]
    rfl

end Shellmux
end Marsh
