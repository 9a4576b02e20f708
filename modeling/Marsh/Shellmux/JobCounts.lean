import Mathlib.Data.Multiset.Filter
import Marsh.Shellmux.JobMachine

/-!
# Counting a job's commands

Where the commands of each job are: in a row, in the queue, or in an operation
between two of its sections.  The table lemmas say what each section does to
the row of a name.
-/

namespace Marsh
namespace Shellmux

/-! ## Rows by name -/

namespace JobTable

variable (table : JobTable)

theorem find_some_id {table : JobTable} {id : String} {job : Job}
    (found : table.find id = some job) : job.id = id := by
  simpa using List.find?_some found

theorem mem_of_find {table : JobTable} {id : String} {job : Job}
    (found : table.find id = some job) : job ∈ table.rows :=
  List.mem_of_find?_eq_some found

/-- With distinct names a row is the one its name finds. -/
theorem find_of_mem {table : JobTable}
    (named : (table.rows.map Job.id).Nodup)
    {job : Job}
    (member : job ∈ table.rows) : table.find job.id = some job := by
  obtain ⟨before, after, split⟩ := List.append_of_mem member
  rw [find, split, List.find?_append]
  rw [split, List.map_append, List.map_cons, List.nodup_append] at named
  have absent : before.find? (fun other => other.id = job.id) = none := by
    rw [List.find?_eq_none]
    intro other otherMember same
    exact named.2.2 other.id (List.mem_map_of_mem otherMember) job.id (by simp)
      (by simpa using same)
  simp [absent]

/-- A name finds its row, or the one that is added. -/
theorem find_push (job : Job) (counter : Nat) (id : String) :
    find ⟨table.rows ++ [job], counter⟩ id =
      (table.find id).or (if job.id = id then some job else none) := by
  rw [find, List.find?_append, ← find]
  by_cases same : job.id = id <;> simp [same]

theorem find_change
    {change : Job -> Job}
    (keeps : ∀ job, (change job).id = job.id)
    (id : String) :
    (table.change change).find id = (table.find id).map change := by
  have same : ((fun job : Job => decide (job.id = id)) ∘ change) =
      fun job => decide (job.id = id) := by
    funext job
    simp [keeps]
  rw [find, JobTable.change, List.find?_map, same, ← find]

theorem names_change
    {change : Job -> Job}
    (keeps : ∀ job, (change job).id = job.id) :
    (table.change change).rows.map Job.id = table.rows.map Job.id := by
  rw [JobTable.change, List.map_map]
  exact List.map_congr_left fun job _ => keeps job

theorem uids_change
    {change : Job -> Job}
    (keeps : ∀ job, (change job).sandbox = job.sandbox) :
    (table.change change).rows.map (fun job => job.sandbox.uid) =
      table.rows.map fun job => job.sandbox.uid := by
  rw [JobTable.change, List.map_map]
  exact List.map_congr_left fun job _ => congrArg Sandbox.uid (keeps job)

theorem find_update
    {change : Job -> Job}
    (keeps : ∀ job, (change job).id = job.id)
    (id other : String) :
    (table.update id change).find other =
      if other = id then (table.find other).map change
      else table.find other := by
  rw [update, find_change]
  · cases found : table.find other with
    | none => simp
    | some job =>
        have named := find_some_id found
        by_cases updated : other = id <;> simp [updated, named]
  · intro job
    by_cases named : job.id = id <;> simp [named, keeps]

/-- Removing rows of one name leaves the others. -/
theorem find_remove_of_ne
    {removed : Job -> Bool}
    {other : String}
    (named : ∀ job, removed job = true -> job.id ≠ other) :
    (table.remove removed).find other = table.find other := by
  rw [find, find, remove]
  induction table.rows with
  | nil => rfl
  | cons job rows hypothesis =>
      by_cases gone : removed job = true
      · rw [List.eraseP_cons_of_pos gone,
          List.find?_cons_of_neg (by simpa using named job gone)]
      · rw [List.eraseP_cons_of_neg gone, List.find?_cons, List.find?_cons,
          hypothesis]

/-- Removing the row of a name leaves none. -/
theorem find_remove_self
    {removed : Job -> Bool}
    {table : JobTable}
    (distinct : (table.rows.map Job.id).Nodup)
    {job : Job}
    (found : table.rows.find? removed = some job) :
    (table.remove removed).find job.id = none := by
  obtain ⟨holds, before, after, split, earlier⟩ :=
    List.find?_eq_some_iff_append.mp found
  rw [find, remove, split, List.eraseP_append_right _ (by simpa using earlier),
    List.eraseP_cons_of_pos holds, List.find?_eq_none]
  rw [split, List.map_append, List.map_cons, List.nodup_middle] at distinct
  intro other member same
  refine (List.nodup_cons.mp distinct).1 ?_
  rw [← List.map_append]
  exact List.mem_map.mpr ⟨other, member, by simpa using same⟩

/-- Removing a row leaves the names but its own. -/
theorem find_remove
    {table : JobTable}
    (distinct : (table.rows.map Job.id).Nodup)
    (removed : Job -> Bool)
    (id : String) :
    (table.remove removed).find id = table.find id ∨
      ∃ job, table.rows.find? removed = some job ∧ job.id = id ∧
        (table.remove removed).find id = none := by
  cases first : table.rows.find? removed with
  | none =>
      refine .inl ?_
      rw [remove, List.eraseP_of_forall_not (by simpa using first)]
  | some job =>
      by_cases same : job.id = id
      · refine .inr ⟨job, rfl, same, ?_⟩
        rw [← same]
        exact find_remove_self distinct first
      · refine .inl ?_
        obtain ⟨holds, before, after, rows, earlier⟩ :=
          List.find?_eq_some_iff_append.mp first
        have erased : (before ++ job :: after).eraseP removed = before ++ after := by
          rw [List.eraseP_append_right _ (by simpa using earlier),
            List.eraseP_cons_of_pos holds]
        simp only [find, remove, rows, erased, List.find?_append]
        rw [List.find?_cons_of_neg (by simpa using same)]

/-- A row is kept unless it is the one removed. -/
theorem mem_remove
    {table : JobTable}
    (removed : Job -> Bool)
    {job : Job}
    (member : job ∈ table.rows) :
    job ∈ (table.remove removed).rows ∨ table.rows.find? removed = some job := by
  obtain ⟨rows, counter⟩ := table
  simp only [remove] at member ⊢
  induction rows with
  | nil => simp at member
  | cons row rows hypothesis =>
      by_cases gone : removed row = true
      · rw [List.eraseP_cons_of_pos gone, List.find?_cons_of_pos gone]
        rcases List.mem_cons.mp member with rfl | later
        · exact .inr rfl
        · exact .inl later
      · rw [List.eraseP_cons_of_neg gone, List.find?_cons_of_neg gone]
        rcases List.mem_cons.mp member with rfl | later
        · exact .inl List.mem_cons_self
        · exact (hypothesis later).imp_left (List.mem_cons_of_mem _)

/-- What taking a closable row does. -/
theorem takeClosable_eq_some
    {table taken : JobTable}
    {id : String}
    {sandbox : Sandbox}
    (distinct : (table.rows.map Job.id).Nodup)
    (takes : table.takeClosable id = some (sandbox, taken)) :
    ∃ job, table.find id = some job ∧ job.sandbox = sandbox ∧
      job.running = none ∧ job.starting = false ∧
      taken = table.remove (closable id) ∧
      ∀ other, taken.find other =
        if other = id then none else table.find other := by
  rw [takeClosable, Option.map_eq_some_iff] at takes
  obtain ⟨job, found, pair⟩ := takes
  obtain ⟨rfl, rfl⟩ := Prod.mk.inj pair
  have holds := List.find?_some found
  simp only [closable, Bool.and_eq_true, decide_eq_true_eq,
    Option.isNone_iff_eq_none, Bool.not_eq_true'] at holds
  obtain ⟨⟨⟨rfl, -⟩, quiet⟩, unreserved⟩ := holds
  refine ⟨job, find_of_mem distinct (List.mem_of_find?_eq_some found), rfl,
    quiet, unreserved, rfl, fun other => ?_⟩
  split_ifs with same
  · rw [same]
    exact find_remove_self distinct found
  · refine find_remove_of_ne table fun row gone => ?_
    simp only [closable, Bool.and_eq_true, decide_eq_true_eq] at gone
    rw [gone.1.1.1]
    exact Ne.symm same

/-- How many rows of a name there are. -/
def presentCount (id : String) : Nat :=
  if (table.find id).isSome then 1 else 0

/-- How many rows of a name are reserved for a launch. -/
def startingCount (id : String) : Nat :=
  if (table.find id).any Job.starting then 1 else 0

/-- How many rows of a name hold a running command. -/
def runningCount (id : String) : Nat :=
  if (table.find id).any fun job => job.running.isSome then 1 else 0

theorem presentCount_of_find {table : JobTable} {id : String} {job : Job}
    (found : table.find id = some job) : table.presentCount id = 1 := by
  simp [presentCount, found]

theorem startingCount_of_find {table : JobTable} {id : String} {job : Job}
    (found : table.find id = some job) :
    table.startingCount id = if job.starting then 1 else 0 := by
  simp [startingCount, found]

theorem runningCount_of_find {table : JobTable} {id : String} {job : Job}
    (found : table.find id = some job) :
    table.runningCount id = if job.running.isSome then 1 else 0 := by
  simp [runningCount, found]

theorem counts_of_find_none {table : JobTable} {id : String}
    (absent : table.find id = none) :
    table.presentCount id = 0 ∧ table.startingCount id = 0 ∧
      table.runningCount id = 0 := by
  simp [presentCount, startingCount, runningCount, absent]

end JobTable

/-! ## Operations by name -/

/-- The name and the sandbox of the row a launch in progress is reserved
for. -/
def Task.reservation : Task -> Option (String × Sandbox)
  | .building id sandbox (some _) => some (id, sandbox)
  | .waiting id _ origin => some (id, origin)
  | .preparing id _ origin _ => some (id, origin)
  | .launching id _ origin _ _ => some (id, origin)
  | .publishing id origin _ => some (id, origin)
  | .building _ _ none | .failing _ _ | .watching _ _ | .submitting _
  | .reclaiming _ => none

/-- The name a launch in progress is reserved for. -/
def Task.reservedName (task : Task) : Option String :=
  task.reservation.map Prod.fst

/-- The name of the job a command is being launched into, or was reaped
from. -/
def Task.flightName : Task -> Option String
  | .preparing id _ _ _ => some id
  | .launching id _ _ _ _ => some id
  | .publishing id _ _ => some id
  | .submitting conclusion => some conclusion.id
  | .building _ _ _ | .waiting _ _ _ | .failing _ _ | .watching _ _
  | .reclaiming _ => none

/-- How many operations are of a name. -/
def taskCount
    (name : Task -> Option String)
    (tasks : Multiset Task)
    (id : String) : Nat :=
  tasks.countP fun task => name task = some id

section TaskCount

variable (name : Task -> Option String) (id : String)

@[simp] theorem taskCount_cons (task : Task) (tasks : Multiset Task) :
    taskCount name (task ::ₘ tasks) id =
      taskCount name tasks id + if name task = some id then 1 else 0 :=
  Multiset.countP_cons _ task tasks

@[simp] theorem taskCount_add (tasks others : Multiset Task) :
    taskCount name (tasks + others) id =
      taskCount name tasks id + taskCount name others id :=
  Multiset.countP_add _ tasks others

variable {name id}

theorem taskCount_pos
    {tasks : Multiset Task}
    {task : Task}
    (member : task ∈ tasks)
    (named : name task = some id) : 0 < taskCount name tasks id :=
  Multiset.countP_pos.mpr ⟨task, member, named⟩

end TaskCount

/-- How many queued conclusions are of a name. -/
def pendingCount (pending : List Conclusion) (id : String) : Nat :=
  pending.countP fun conclusion => conclusion.id = id

@[simp] theorem pendingCount_cons
    (conclusion : Conclusion)
    (pending : List Conclusion)
    (id : String) :
    pendingCount (conclusion :: pending) id =
      pendingCount pending id + if conclusion.id = id then 1 else 0 := by
  simp [pendingCount, List.countP_cons]

@[simp] theorem pendingCount_append_singleton
    (pending : List Conclusion)
    (conclusion : Conclusion)
    (id : String) :
    pendingCount (pending ++ [conclusion]) id =
      pendingCount pending id + if conclusion.id = id then 1 else 0 := by
  simp [pendingCount, List.countP_append]

namespace ConcludeTask

/-- How many conclusions of a name are being concluded. -/
def concludingCount (id : String) : ConcludeTask -> Nat
  | .concluding conclusion => if conclusion.id = id then 1 else 0
  | .taking | .reporting _ _ | .closing _ _ | .reclaiming _ => 0

/-- How many conclusions of a name have run and are not marked reported. -/
def reportingCount (id : String) : ConcludeTask -> Nat
  | .reporting reported _ => if reported = id then 1 else 0
  | .taking | .concluding _ | .closing _ _ | .reclaiming _ => 0

end ConcludeTask

/-! ## Commands with a tree -/

/-- The job and the sandbox of a command an operation holds. -/
def Task.command : Task -> Option (String × Sandbox)
  | .launching id _ _ sandbox _ => some (id, sandbox)
  | .publishing id _ started => some (id, started.sandbox)
  | .submitting conclusion => some (conclusion.id, conclusion.started.sandbox)
  | .building _ _ _ | .waiting _ _ _ | .preparing _ _ _ _ | .failing _ _
  | .watching _ _ | .reclaiming _ => none

/-- The running command of a row. -/
def Job.command (job : Job) : Option (String × Sandbox) :=
  job.running.map fun started => (job.id, started.sandbox)

/-- The command of a conclusion. -/
def Conclusion.command (conclusion : Conclusion) : String × Sandbox :=
  (conclusion.id, conclusion.started.sandbox)

/-- The command the conclusion task is concluding. -/
def ConcludeTask.command : ConcludeTask -> Option (String × Sandbox)
  | .concluding conclusion => some conclusion.command
  | .taking | .reporting _ _ | .closing _ _ | .reclaiming _ => none

/-- Every command that is being launched into its tree, runs in it, or has run
in it and is not concluded, with its job's name. -/
def JobState.commands (state : JobState) : Multiset (String × Sandbox) :=
  state.tasks.filterMap Task.command +
    (state.table.rows.filterMap Job.command : List (String × Sandbox)) +
    (state.queue.pending.map Conclusion.command : List (String × Sandbox)) +
    (state.concluder.command.toList : List (String × Sandbox))

theorem JobState.mem_commands {state : JobState} {command : String × Sandbox} :
    command ∈ state.commands ↔
      (∃ task ∈ state.tasks, task.command = some command) ∨
        (∃ job ∈ state.table.rows, job.command = some command) ∨
        (∃ conclusion ∈ state.queue.pending, conclusion.command = command) ∨
        state.concluder.command = some command := by
  simp [commands, Multiset.mem_filterMap, or_assoc]

theorem countP_le_countP_of_imp
    {Element : Type}
    {holds other : Element -> Prop}
    [DecidablePred holds]
    [DecidablePred other]
    {elements : Multiset Element}
    (implies : ∀ element ∈ elements, holds element -> other element) :
    elements.countP holds ≤ elements.countP other := by
  induction elements using Quotient.inductionOn with
  | h elements =>
      exact List.countP_mono_left (by simpa using implies)

/-- Every command an operation holds is in flight. -/
theorem countP_taskCommands_le (tasks : Multiset Task) (id : String) :
    (tasks.filterMap Task.command).countP (fun command => command.1 = id) ≤
      taskCount Task.flightName tasks id := by
  induction tasks using Multiset.induction with
  | empty => simp
  | cons task tasks hypothesis =>
      rw [taskCount_cons]
      cases held : task.command with
      | none =>
          rw [Multiset.filterMap_cons_none _ _ held]
          omega
      | some command =>
          have named : task.flightName = some command.1 := by
            cases task <;> simp_all [Task.command, Task.flightName] <;>
              rw [← held]
          rw [Multiset.filterMap_cons_some _ _ _ held, Multiset.countP_cons,
            named]
          simp only [Option.some.injEq]
          omega

/-- With distinct names, the running commands of a name are those of its
row. -/
theorem countP_jobCommands
    {table : JobTable}
    (named : (table.rows.map Job.id).Nodup)
    (id : String) :
    (table.rows.filterMap Job.command).countP (fun command => command.1 = id) =
      table.runningCount id := by
  rw [JobTable.runningCount, JobTable.find]
  generalize table.rows = rows at named
  induction rows with
  | nil => rfl
  | cons job rows hypothesis =>
      rw [List.map_cons, List.nodup_cons] at named
      by_cases same : job.id = id
      · have absent : (rows.filterMap Job.command).countP
            (fun command => command.1 = id) = 0 := by
          rw [List.countP_eq_zero]
          intro command member
          obtain ⟨other, otherMember, holds⟩ := List.mem_filterMap.mp member
          obtain ⟨started, -, rfl⟩ := Option.map_eq_some_iff.mp holds
          intro equal
          refine named.1 (List.mem_map.mpr ⟨other, otherMember, ?_⟩)
          simpa [same] using equal
        cases running : job.running <;>
          simp [Job.command, running, same, absent]
      · rw [List.find?_cons_of_neg (by simpa using same), ← hypothesis named.2]
        cases running : job.running <;>
          simp [Job.command, running, same]

/-- How many commands of a name are being launched, run, or have run and are not
concluded. -/
def JobState.inFlight (state : JobState) (id : String) : Nat :=
  taskCount Task.flightName state.tasks id + state.table.runningCount id +
    pendingCount state.queue.pending id + state.concluder.concludingCount id

/-- Every command with a tree is in flight. -/
theorem JobState.countP_commands_le
    {state : JobState}
    (named : (state.table.rows.map Job.id).Nodup)
    (id : String) :
    state.commands.countP (fun command => command.1 = id) ≤
      state.inFlight id := by
  have queued : ((state.queue.pending.map Conclusion.command :
      List (String × Sandbox)) : Multiset (String × Sandbox)).countP
      (fun command => command.1 = id) = pendingCount state.queue.pending id := by
    rw [Multiset.coe_countP, List.countP_map]
    rfl
  have concluding : ((state.concluder.command.toList :
      List (String × Sandbox)) : Multiset (String × Sandbox)).countP
      (fun command => command.1 = id) = state.concluder.concludingCount id := by
    cases state.concluder with
    | concluding conclusion =>
        by_cases same : conclusion.id = id <;>
          simp [ConcludeTask.command, ConcludeTask.concludingCount,
            Conclusion.command, same, ← Multiset.cons_zero]
    | taking => rfl
    | reporting id retained => rfl
    | closing id retained => rfl
    | reclaiming sandbox => rfl
  have held := countP_taskCommands_le state.tasks id
  rw [commands, Multiset.countP_add, Multiset.countP_add, Multiset.countP_add,
    Multiset.coe_countP, countP_jobCommands named, queued, concluding, inFlight]
  omega

end Shellmux
end Marsh
