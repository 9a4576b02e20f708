import Mathlib.Data.Finset.Basic
import Mathlib.Data.Multiset.Filter
import Mathlib.Logic.Function.Basic
import Marsh.Library.TransitionSystem

/-!
# Leases on reader trees

Bypassed commands share one snapshot of each version of the seed.  The map of
readers counts who is in a tree; the trees themselves are deleted after the
map's lock is dropped.
-/

namespace Marsh
namespace Shellmux

open Library

/-! ## The machine -/

/-- What a bypassed command does about its reader tree. -/
inductive ReaderTask
  /-- It runs in the tree of `version`, in which it found `snapshot`. -/
  | reading (version : Nat) (snapshot : Option Nat)
  /-- It released the tree last and is to delete it; whether it then concludes. -/
  | retiring (version : Nat) (concludes : Bool)
  /-- It has released the tree and is being concluded. -/
  | concluding (version : Nat)
  /-- It escaped, took the tree out of the map and is to delete it. -/
  | discarding (version : Nat)
  deriving DecidableEq

namespace ReaderTask

/-- The command holds a lease on the tree of `version`. -/
def reads (version : Nat) : ReaderTask -> Bool
  | .reading other _ => other = version
  | _ => false

/-- The command is to delete the tree of `version`. -/
def deletes (version : Nat) : ReaderTask -> Bool
  | .retiring other _ | .discarding other => other = version
  | _ => false

/-- A command that has released its tree. -/
def released (version : Nat) : Bool -> Multiset ReaderTask
  | true => {.concluding version}
  | false => 0

end ReaderTask

/-- The reader trees of a mux, on disk and in its map of readers. -/
structure ReaderState where
  /-- `AuthorityState::seq`, the version of the seed. -/
  seq : Nat
  /-- `ShellMux::readers`. -/
  readers : Nat -> Option Nat
  /-- The snapshot at the reader path of each version. -/
  trees : Nat -> Option Nat
  /-- Snapshots taken so far. -/
  taken : Nat
  /-- The commands between two of their locked sections. -/
  tasks : Multiset ReaderTask

/-- One locked section, or one deletion outside of any.  A deletion whose every
mechanism fails leaks the tree. -/
inductive ReaderStep
  | acquire (leaked : Finset Nat)
  | failAcquire (leaked : Bool)
  | release (version : Nat) (snapshot : Option Nat) (concludes : Bool)
  | discard (version : Nat)
  | delete (task : ReaderTask) (version : Nat) (leaked : Bool)
  | finish (version : Nat)
  | commit

namespace ReaderState

/-- Commands that hold a lease on the tree of `version`. -/
def users (state : ReaderState) (version : Nat) : Nat :=
  state.tasks.countP fun task => task.reads version

/-- `delete_subvolume` of the tree of `version`. -/
def deleteTree (state : ReaderState) (version : Nat) (leaked : Bool) :
    ReaderState :=
  if leaked then state
  else { state with trees := Function.update state.trees version none }

/-- The first half of `acquire_reader`: the current version's entry is used, or
its tree is taken. -/
def lend (state : ReaderState) : ReaderState :=
  match state.readers state.seq with
  | some users =>
      { state with
        readers := Function.update state.readers state.seq (some (users + 1)) }
  | none =>
      { state with
        readers := Function.update state.readers state.seq (some 1)
        trees := Function.update state.trees state.seq (some state.taken)
        taken := state.taken + 1 }

/-- An entry of an earlier version nobody is left reading. -/
def Superseded (state : ReaderState) (version : Nat) : Prop :=
  version ≠ state.seq ∧ state.readers version = some 0

instance (state : ReaderState) (version : Nat) :
    Decidable (state.Superseded version) :=
  inferInstanceAs (Decidable (_ ∧ _))

/-- The second half of `acquire_reader`. -/
def reclaimSuperseded (state : ReaderState) (leaked : Finset Nat) :
    ReaderState :=
  { state with
    readers := fun version =>
      if state.Superseded version then none else state.readers version
    trees := fun version =>
      if state.Superseded version ∧ version ∉ leaked then none
      else state.trees version }

/-- `acquire_reader`. -/
def acquire (state : ReaderState) (leaked : Finset Nat) : ReaderState :=
  let lent := state.lend.reclaimSuperseded leaked
  { lent with
    tasks := .reading state.seq (lent.trees state.seq) ::ₘ state.tasks }

/-- `release_reader` under the lock, and whether it goes on to delete the
tree. -/
def release (state : ReaderState) (version : Nat) : ReaderState × Bool :=
  match state.readers version with
  | none => (state, false)
  | some users =>
      if 0 < users - 1 ∨ version = state.seq then
        ({ state with
          readers := Function.update state.readers version (some (users - 1)) },
          false)
      else
        ({ state with readers := Function.update state.readers version none },
          true)

/-- `discard_reader` under the lock, and whether it goes on to delete the
tree. -/
def discard (state : ReaderState) (version : Nat) : ReaderState × Bool :=
  match state.readers version with
  | none => (state, false)
  | some users =>
      if 0 < users then (state, false)
      else
        ({ state with readers := Function.update state.readers version none },
          true)

/-- The sections of bypassed commands, and the commits of others. -/
def Steps (state : ReaderState) : ReaderStep -> ReaderState -> Prop
  | .acquire leaked, next => next = state.acquire leaked
  | .failAcquire leaked, next =>
      state.readers state.seq = none ∧ next = state.deleteTree state.seq leaked
  | .release version snapshot concludes, next =>
      ∃ rest, state.tasks = .reading version snapshot ::ₘ rest ∧
        next = { (state.release version).1 with
          tasks := (if (state.release version).2 then
            {.retiring version concludes}
            else ReaderTask.released version concludes) + rest }
  | .discard version, next =>
      ∃ rest, state.tasks = .concluding version ::ₘ rest ∧
        next = { (state.discard version).1 with
          tasks := (if (state.discard version).2 then {.discarding version}
            else 0) + rest }
  | .delete task version leaked, next =>
      ∃ rest, state.tasks = task ::ₘ rest ∧ task.deletes version = true ∧
        next = { state.deleteTree version leaked with
          tasks := (match task with
            | .retiring _ concludes => ReaderTask.released version concludes
            | _ => 0) + rest }
  | .finish version, next =>
      ∃ rest, state.tasks = .concluding version ::ₘ rest ∧
        next = { state with tasks := rest }
  | .commit, next => next = { state with seq := state.seq + 1 }

/-- A mux that has just opened: every reader tree a former session left behind
is swept. -/
def empty (seq : Nat) : ReaderState where
  seq := seq
  readers := fun _ => none
  trees := fun _ => none
  taken := 0
  tasks := 0

/-- The tree a command acquired stands until the command releases it. -/
def LeasesHold (state : ReaderState) : Prop :=
  ∀ version snapshot, .reading version (some snapshot) ∈ state.tasks ->
    state.trees version = some snapshot

/-- No command takes a tree at a version whose discarded tree is yet to be
deleted. -/
def AwaitsDiscard (state : ReaderState) : ReaderStep -> Prop
  | .acquire _ => .discarding state.seq ∉ state.tasks
  | _ => True

end ReaderState

/-- Reader trees under any order of the sections. -/
def readerMachine : TransitionSystem ReaderState ReaderStep where
  initial state := ∃ seq, state = .empty seq
  step := ReaderState.Steps

/-! ## The map and the leases -/

namespace ReaderState

section Sections

variable {state : ReaderState}

@[simp] theorem deleteTree_seq (version : Nat) (leaked : Bool) :
    (state.deleteTree version leaked).seq = state.seq := by
  cases leaked <;> rfl

@[simp] theorem deleteTree_readers (version : Nat) (leaked : Bool) :
    (state.deleteTree version leaked).readers = state.readers := by
  cases leaked <;> rfl

theorem deleteTree_trees_self (version : Nat) :
    (state.deleteTree version false).trees version = none :=
  Function.update_self _ _ _

@[simp] theorem deleteTree_tasks (version : Nat) (leaked : Bool) :
    (state.deleteTree version leaked).tasks = state.tasks := by
  cases leaked <;> rfl

/-- A deletion leaves the trees of the other versions alone. -/
theorem deleteTree_trees_of_ne
    {version other : Nat}
    (apart : other ≠ version)
    (leaked : Bool) :
    (state.deleteTree version leaked).trees other = state.trees other := by
  cases leaked
  · exact Function.update_of_ne apart _ _
  · rfl

/-- A release takes one reader off its version; it removes the entry only of an
earlier version whose last reader it was. -/
theorem release_cases {version users : Nat}
    (listed : state.readers version = some users) :
    state.release version =
        ({ state with
          readers := Function.update state.readers version (some (users - 1)) },
          false) ∨
      users ≤ 1 ∧ version ≠ state.seq ∧ state.release version =
        ({ state with readers := Function.update state.readers version none },
          true) := by
  unfold release
  rw [listed]
  dsimp only
  split_ifs with stays
  · exact .inl rfl
  · push Not at stays
    exact .inr ⟨by omega, stays.2, rfl⟩

/-- A discard removes an entry without readers, or nothing. -/
theorem discard_cases (state : ReaderState) (version : Nat) :
    state.discard version = (state, false) ∨
      state.readers version = some 0 ∧ state.discard version =
        ({ state with readers := Function.update state.readers version none },
          true) := by
  unfold discard
  split
  · exact .inl rfl
  · next users listed =>
    split_ifs with used
    · exact .inl rfl
    · obtain rfl : users = 0 := by omega
      exact .inr ⟨listed, rfl⟩

@[simp] theorem lend_seq : state.lend.seq = state.seq := by
  unfold lend
  split <;> rfl

/-- An acquisition gives the current version one reader more. -/
@[simp] theorem lend_readers :
    state.lend.readers = Function.update state.readers state.seq
      (some ((state.readers state.seq).getD 0 + 1)) := by
  unfold lend
  split
  · next users listed => rw [listed, Option.getD_some]
  · next vacant => rw [vacant, Option.getD_none]

/-- An acquisition takes no tree but that of a version nobody is in. -/
theorem lend_trees_of_listed
    {version : Nat}
    (listed : state.readers version ≠ none) :
    state.lend.trees version = state.trees version := by
  unfold lend
  split
  · rfl
  · next vacant =>
    refine Function.update_of_ne ?_ _ _
    rintro rfl
    exact listed vacant

/-- An acquisition does not reclaim the tree it acquired. -/
theorem reclaimSuperseded_trees_seq (leaked : Finset Nat) :
    (state.lend.reclaimSuperseded leaked).trees state.seq =
      state.lend.trees state.seq := by
  refine if_neg fun superseded => superseded.1.1 ?_
  rw [lend_seq]

end Sections

/-- The map counts the leases; a tree that is to be deleted is in the map no
more, and only a discarded one can be current. -/
structure Accounted (state : ReaderState) : Prop where
  counted : ∀ version,
    (state.readers version).getD 0 = state.users version
  placed : state.LeasesHold
  unlisted : ∀ task ∈ state.tasks, ∀ version,
    task.deletes version = true -> state.readers version = none
  past : ∀ version concludes,
    .retiring version concludes ∈ state.tasks -> version < state.seq
  known : ∀ version, state.readers version ≠ none -> version ≤ state.seq

namespace Accounted

variable {state : ReaderState}

/-- A version with a lease is in the map. -/
theorem listed_of_reading
    (accounted : state.Accounted)
    {version : Nat}
    {snapshot : Option Nat}
    (reading : .reading version snapshot ∈ state.tasks) :
    ∃ users, state.readers version = some (users + 1) := by
  have leased : 0 < state.users version :=
    Multiset.countP_pos.mpr ⟨_, reading, by simp [ReaderTask.reads]⟩
  rw [← accounted.counted version] at leased
  cases listed : state.readers version with
  | none => simp [listed] at leased
  | some users =>
      rw [listed, Option.getD_some] at leased
      exact ⟨users - 1, congrArg some (by omega)⟩

/-- No command is left in a tree that is to be deleted. -/
theorem not_reading_of_deletes
    (accounted : state.Accounted)
    {task : ReaderTask}
    (member : task ∈ state.tasks)
    {version : Nat}
    (deletes : task.deletes version = true)
    (snapshot : Option Nat) : .reading version snapshot ∉ state.tasks := by
  intro reading
  obtain ⟨users, listed⟩ := accounted.listed_of_reading reading
  rw [accounted.unlisted task member version deletes] at listed
  contradiction

/-- A mux that has just opened has no lease. -/
theorem empty (seq : Nat) : (ReaderState.empty seq).Accounted where
  counted _ := rfl
  placed _ _ reading := absurd reading (Multiset.notMem_zero _)
  unlisted _ member := absurd member (Multiset.notMem_zero _)
  past _ _ member := absurd member (Multiset.notMem_zero _)
  known _ listed := absurd rfl listed

/-- A commit takes the version on. -/
theorem commit (accounted : state.Accounted) :
    { state with seq := state.seq + 1 : ReaderState }.Accounted where
  counted := accounted.counted
  placed := accounted.placed
  unlisted := accounted.unlisted
  past version concludes member :=
    (accounted.past version concludes member).trans (Nat.lt_succ_self _)
  known version listed :=
    (accounted.known version listed).trans (Nat.le_succ _)

/-- A section of one command that changes no entry but that of `version` keeps
the map in step when the entry counts the leases that are left, and a deletion
is of a version taken out of the map. -/
theorem revise
    (accounted : state.Accounted)
    {task : ReaderTask}
    {rest after : Multiset ReaderTask}
    (tasks : state.tasks = task ::ₘ rest)
    {version : Nat}
    {entry : Option Nat}
    (own : ∀ other, other ≠ version -> task.reads other = false)
    (idle : ∀ task ∈ after, ∀ other, task.reads other = false)
    (entered : entry.getD 0 = rest.countP fun task => task.reads version)
    (listed : entry ≠ none -> state.readers version ≠ none)
    (removed : ∀ task ∈ after, ∀ other, task.deletes other = true ->
      other = version ∧ entry = none)
    (before : ∀ other concludes, .retiring other concludes ∈ after ->
      other < state.seq) :
    { state with
      readers := Function.update state.readers version entry
      tasks := after + rest }.Accounted := by
  have later : ∀ task ∈ rest, task ∈ state.tasks :=
    fun task member => tasks ▸ Multiset.mem_cons_of_mem member
  refine ⟨fun other => ?_, fun other found reading => ?_,
    fun task member other deletes => ?_, fun other ends member => ?_,
    fun other known => ?_⟩
  · have none : after.countP (fun task => task.reads other) = 0 :=
      Multiset.countP_eq_zero.mpr fun task member => by
        simp [idle task member]
    dsimp only [users]
    rw [Multiset.countP_add, none, Nat.zero_add]
    by_cases same : other = version
    · rw [same, Function.update_self, entered]
    · rw [Function.update_of_ne same, accounted.counted, users, tasks,
        Multiset.countP_cons_of_neg _ (by simp [own other same])]
  · rcases Multiset.mem_add.mp reading with new | old
    · have leased := idle _ new other
      simp [ReaderTask.reads] at leased
    · exact accounted.placed other found (later _ old)
  · dsimp only
    rcases Multiset.mem_add.mp member with new | old
    · obtain ⟨rfl, gone⟩ := removed task new other deletes
      rw [Function.update_self, gone]
    · have unlisted := accounted.unlisted task (later _ old) other deletes
      by_cases same : other = version
      · rw [same, Function.update_self]
        by_contra entry
        exact listed entry (same ▸ unlisted)
      · rw [Function.update_of_ne same, unlisted]
  · rcases Multiset.mem_add.mp member with new | old
    · exact before other ends new
    · exact accounted.past other ends (later _ old)
  · dsimp only at known
    by_cases same : other = version
    · rw [same, Function.update_self] at known
      exact same ▸ accounted.known version (listed known)
    · rw [Function.update_of_ne same] at known
      exact accounted.known other known

/-- A command without a lease leaves, or goes on to its conclusion. -/
theorem replace
    (accounted : state.Accounted)
    {task : ReaderTask}
    {rest after : Multiset ReaderTask}
    (tasks : state.tasks = task ::ₘ rest)
    (leaseless : ∀ version, task.reads version = false)
    (idle : ∀ task ∈ after, ∃ version, task = .concluding version) :
    { state with tasks := after + rest }.Accounted := by
  have entered : (state.readers 0).getD 0 =
      rest.countP fun task => task.reads 0 := by
    rw [accounted.counted, users, tasks,
      Multiset.countP_cons_of_neg _ (by simp [leaseless])]
  rw [← Function.update_eq_self 0 state.readers]
  refine accounted.revise tasks (fun other _ => leaseless other) ?_ entered id
    ?_ ?_
  · intro task member other
    obtain ⟨version, rfl⟩ := idle task member
    rfl
  · intro task member other deletes
    obtain ⟨version, rfl⟩ := idle task member
    contradiction
  · intro other concludes member
    obtain ⟨version, same⟩ := idle _ member
    contradiction

/-- A tree without leases may go. -/
theorem deleteTree
    (accounted : state.Accounted)
    {version : Nat}
    (unread : ∀ snapshot, .reading version snapshot ∉ state.tasks)
    (leaked : Bool) : (state.deleteTree version leaked).Accounted where
  counted other := by
    rw [deleteTree_readers, users, deleteTree_tasks]
    exact accounted.counted other
  placed other snapshot reading := by
    rw [deleteTree_tasks] at reading
    rw [deleteTree_trees_of_ne]
    · exact accounted.placed other snapshot reading
    · rintro rfl
      exact unread _ reading
  unlisted task member other deletes := by
    rw [deleteTree_readers]
    exact accounted.unlisted task (by simpa using member) other deletes
  past other concludes member := by
    rw [deleteTree_seq]
    exact accounted.past other concludes (by simpa using member)
  known other listed := by
    rw [deleteTree_seq]
    exact accounted.known other (by simpa using listed)

/-- A release keeps the map in step with the leases. -/
theorem release
    (accounted : state.Accounted)
    {version : Nat}
    {snapshot : Option Nat}
    {concludes : Bool}
    {next : ReaderState}
    (steps : state.Steps (.release version snapshot concludes) next) :
    next.Accounted := by
  obtain ⟨rest, tasks, rfl⟩ := steps
  obtain ⟨users, listed⟩ : ∃ users, state.readers version = some (users + 1) :=
    accounted.listed_of_reading (tasks ▸ Multiset.mem_cons_self _ _)
  have own : ∀ other, other ≠ version ->
      (ReaderTask.reading version snapshot).reads other = false :=
    fun other apart => decide_eq_false apart.symm
  have left : users = rest.countP fun task => task.reads version := by
    have counted := accounted.counted version
    rw [listed, Option.getD_some, ReaderState.users, tasks,
      Multiset.countP_cons_of_pos _ (by simp [ReaderTask.reads])] at counted
    omega
  obtain stays | ⟨last, apart, goes⟩ := release_cases listed
  · rw [stays]
    refine accounted.revise tasks own ?_ left (by simp [listed]) ?_ ?_ <;>
      cases concludes <;>
      simp [ReaderTask.released, ReaderTask.reads, ReaderTask.deletes]
  · have before : version < state.seq :=
      Nat.lt_of_le_of_ne (accounted.known version (by simp [listed])) apart
    rw [goes]
    refine accounted.revise tasks own ?_ ?_ (by simp) ?_ ?_
    · simp [ReaderTask.reads]
    · rw [← left, Option.getD_none]
      omega
    · intro task member other deletes
      obtain rfl := Multiset.mem_singleton.mp member
      exact ⟨(of_decide_eq_true deletes).symm, rfl⟩
    · intro other ends member
      obtain ⟨rfl, -⟩ := ReaderTask.retiring.inj (Multiset.mem_singleton.mp member)
      exact before

/-- A discard takes out of the map a tree without leases, if any. -/
theorem discard
    (accounted : state.Accounted)
    {version : Nat}
    {next : ReaderState}
    (steps : state.Steps (.discard version) next) : next.Accounted := by
  obtain ⟨rest, tasks, rfl⟩ := steps
  obtain stays | ⟨unused, goes⟩ := state.discard_cases version
  · rw [stays]
    exact accounted.replace tasks (fun _ => rfl) (by simp)
  · have left : 0 = rest.countP fun task => task.reads version := by
      have counted := accounted.counted version
      rwa [unused, Option.getD_some, ReaderState.users, tasks,
        Multiset.countP_cons_of_neg _ (by simp [ReaderTask.reads])] at counted
    rw [goes]
    refine accounted.revise tasks (fun _ _ => rfl) ?_ left (by simp) ?_
      (by simp)
    · simp [ReaderTask.reads]
    · intro task member other deletes
      obtain rfl := Multiset.mem_singleton.mp member
      exact ⟨(of_decide_eq_true deletes).symm, rfl⟩

/-- Reclaiming the superseded trees takes none that is leased. -/
theorem reclaimSuperseded
    (accounted : state.Accounted)
    (leaked : Finset Nat) : (state.reclaimSuperseded leaked).Accounted where
  counted version := by
    dsimp only [ReaderState.reclaimSuperseded]
    split_ifs with superseded
    · have counted := accounted.counted version
      rwa [superseded.2] at counted
    · exact accounted.counted version
  placed version snapshot reading := by
    obtain ⟨users, listed⟩ := accounted.listed_of_reading reading
    dsimp only [ReaderState.reclaimSuperseded]
    rw [if_neg fun superseded => ?_]
    · exact accounted.placed version snapshot reading
    · rw [superseded.1.2, Option.some.injEq] at listed
      omega
  unlisted task member version deletes := by
    dsimp only [ReaderState.reclaimSuperseded]
    rw [accounted.unlisted task member version deletes, ite_self]
  past := accounted.past
  known version listed := by
    dsimp only [ReaderState.reclaimSuperseded] at listed
    split_ifs at listed
    · contradiction
    · exact accounted.known version listed

/-- A command that leases the current tree finds it on disk, unless its
deletion is still owed. -/
theorem lend
    (accounted : state.Accounted)
    (settled : .discarding state.seq ∉ state.tasks) :
    { state.lend with
      tasks := .reading state.seq (state.lend.trees state.seq) ::ₘ
        state.tasks : ReaderState }.Accounted := by
  refine ⟨fun other => ?_, fun other found reading => ?_,
    fun task member other deletes => ?_, fun other ends member => ?_,
    fun other known => ?_⟩
  · dsimp only [users]
    rw [lend_readers]
    by_cases same : other = state.seq
    · rw [same, Function.update_self, accounted.counted,
        Multiset.countP_cons_of_pos _ (by simp [ReaderTask.reads])]
      rfl
    · rw [Function.update_of_ne same, accounted.counted,
        Multiset.countP_cons_of_neg _ (by
          simp [ReaderTask.reads, Ne.symm same])]
      rfl
  · rcases Multiset.mem_cons.mp reading with new | old
    · obtain ⟨rfl, same⟩ := ReaderTask.reading.inj new
      exact same.symm
    · obtain ⟨users, listed⟩ := accounted.listed_of_reading old
      dsimp only
      rw [lend_trees_of_listed (by simp [listed])]
      exact accounted.placed other found old
  · rcases Multiset.mem_cons.mp member with rfl | old
    · contradiction
    · dsimp only
      rw [lend_readers, Function.update_of_ne]
      · exact accounted.unlisted task old other deletes
      · -- Neither a retired nor a discarded tree is the current one.
        rintro rfl
        cases task with
        | retiring version concludes =>
            obtain rfl := of_decide_eq_true deletes
            exact (accounted.past _ concludes old).false
        | discarding version =>
            obtain rfl := of_decide_eq_true deletes
            exact settled old
        | reading | concluding => contradiction
  · rw [lend_seq]
    rcases Multiset.mem_cons.mp member with new | old
    · contradiction
    · exact accounted.past other ends old
  · rw [lend_seq]
    dsimp only at known
    by_cases same : other = state.seq
    · exact same.le
    · rw [lend_readers, Function.update_of_ne same] at known
      exact accounted.known other known

/-- A section keeps the map in step with the leases when no command takes the
tree of a version whose discarded tree is yet to be deleted. -/
theorem of_step
    (accounted : state.Accounted)
    {step : ReaderStep}
    {next : ReaderState}
    (steps : state.Steps step next)
    (awaits : state.AwaitsDiscard step) : next.Accounted := by
  cases step with
  | acquire leaked =>
      obtain rfl := steps
      rw [acquire, reclaimSuperseded_trees_seq]
      exact (accounted.lend awaits).reclaimSuperseded leaked
  | failAcquire leaked =>
      obtain ⟨vacant, rfl⟩ := steps
      refine accounted.deleteTree (fun snapshot reading => ?_) leaked
      obtain ⟨users, listed⟩ := accounted.listed_of_reading reading
      rw [vacant] at listed
      contradiction
  | release version snapshot concludes => exact accounted.release steps
  | discard version => exact accounted.discard steps
  | delete task version leaked =>
      obtain ⟨rest, tasks, deletes, rfl⟩ := steps
      have member : task ∈ state.tasks := tasks ▸ Multiset.mem_cons_self _ _
      have deleted := accounted.deleteTree
        (accounted.not_reading_of_deletes member deletes) leaked
      refine deleted.replace (by rw [deleteTree_tasks, tasks]) ?_ ?_
      · cases task <;> first | contradiction | exact fun _ => rfl
      · cases task with
        | retiring other concludes =>
            cases concludes <;> simp [ReaderTask.released]
        | reading | concluding | discarding => simp
  | finish version =>
      obtain ⟨rest, tasks, rfl⟩ := steps
      have left : { state with tasks := 0 + rest }.Accounted :=
        accounted.replace tasks (fun _ => rfl) (by simp)
      rwa [Multiset.zero_add] at left
  | commit =>
      obtain rfl := steps
      exact accounted.commit

/-- Every run that awaits its discarded trees keeps the map in step. -/
theorem of_reachable
    (reachable :
      (readerMachine.restrict ReaderState.AwaitsDiscard).Reachable state) :
    state.Accounted := by
  refine reachable.invariant ReaderState.Accounted ?_ ?_
  · rintro state ⟨seq, rfl⟩
    exact .empty seq
  · rintro state step next - accounted ⟨steps, awaits⟩
    exact accounted.of_step steps awaits

end Accounted

end ReaderState

/-- In every run in which no command takes a tree at a version whose discarded
tree is yet to be deleted, the tree a command acquired stands until the command
releases it. -/
theorem leasesHold_of_awaitsDiscard
    {state : ReaderState}
    (reachable :
      (readerMachine.restrict ReaderState.AwaitsDiscard).Reachable state) :
    state.LeasesHold :=
  (ReaderState.Accounted.of_reachable reachable).placed

/-- Two commands that share the first version's tree find it standing. -/
theorem leasesHold_of_awaitsDiscard_shared :
    (((ReaderState.empty 0).acquire ∅).acquire ∅).LeasesHold :=
  leasesHold_of_awaitsDiscard
    (.step (.acquire ∅)
      (.step (.acquire ∅) (.start ⟨0, rfl⟩) ⟨rfl, Multiset.notMem_zero _⟩)
      ⟨rfl, (by decide :
        .discarding 0 ∉ ((ReaderState.empty 0).acquire ∅).tasks)⟩)

/-! ## A tree taken again before its deletion -/

/-- A command that takes the tree of a version whose discarded tree is yet to be
deleted can have it deleted under it. -/
theorem not_leasesHold_of_discarding
    {state : ReaderState}
    (reachable :
      (readerMachine.restrict ReaderState.AwaitsDiscard).Reachable state)
    (discarding : .discarding state.seq ∈ state.tasks) :
    ∃ acquired deleted : ReaderState,
      state.Steps (.acquire ∅) acquired ∧
        acquired.Steps (.delete (.discarding state.seq) state.seq false)
          deleted ∧ ¬ deleted.LeasesHold := by
  have vacant : state.readers state.seq = none :=
    (ReaderState.Accounted.of_reachable reachable).unlisted _ discarding _
      (by simp [ReaderTask.deletes])
  obtain ⟨rest, tasks⟩ := Multiset.exists_cons_of_mem discarding
  have lent : state.lend.trees state.seq = some state.taken := by
    unfold ReaderState.lend
    rw [vacant]
    exact Function.update_self _ _ _
  have found : (state.lend.reclaimSuperseded ∅).trees state.seq =
      some state.taken := by
    rw [ReaderState.reclaimSuperseded_trees_seq, lent]
  refine ⟨state.acquire ∅, _, rfl,
    ⟨.reading state.seq (some state.taken) ::ₘ rest, ?_, by
      simp [ReaderTask.deletes], rfl⟩, fun hold => ?_⟩
  · rw [ReaderState.acquire, found, tasks, Multiset.cons_swap]
  · have stands := hold state.seq state.taken (by simp)
    dsimp only at stands
    rw [ReaderState.deleteTree_trees_self] at stands
    contradiction

/-- An escaped command discards the current tree, which another command takes
before it is deleted. -/
theorem not_leasesHold :
    ∃ state, readerMachine.Reachable state ∧ ¬ state.LeasesHold := by
  let system := readerMachine.restrict ReaderState.AwaitsDiscard
  let acquired := (ReaderState.empty 0).acquire ∅
  let released : ReaderState :=
    { (acquired.release 0).1 with tasks := {.concluding 0} }
  let discarded : ReaderState :=
    { (released.discard 0).1 with tasks := {.discarding 0} }
  have reaches : system.Reachable discarded :=
    .step (.discard 0)
      (.step (.release 0 (some 0) true)
        (.step (.acquire ∅) (.start ⟨0, rfl⟩) ⟨rfl, Multiset.notMem_zero _⟩)
        ⟨⟨0, rfl, rfl⟩, trivial⟩)
      ⟨⟨0, rfl, rfl⟩, trivial⟩
  obtain ⟨taken, deleted, takes, deletes, broken⟩ :=
    not_leasesHold_of_discarding reaches (Multiset.mem_singleton_self _)
  have took : readerMachine.Reachable taken :=
    .step (.acquire ∅) reaches.of_restrict takes
  exact ⟨deleted, .step (.delete (.discarding 0) 0 false) took deletes, broken⟩

end Shellmux
end Marsh
