import Marsh.Library.TransitionSystem
import Marsh.Shellmux.History

/-!
# Interleavings of launches and conclusions

Commands launch under the authority's read lock, noting the sequence number
their tree copied, and conclude under its write lock.  Any number of them run
at once; between two such steps they may change the storage at will.
-/

namespace Marsh
namespace Shellmux

open Library Validator Policy

/-- One launched command that has not been concluded. -/
structure Command where
  /-- The sandbox it runs in. -/
  sandbox : Sandbox
  /-- The submitted command line. -/
  cmd : String
  /-- How it is run. -/
  plan : Plan
  /-- Seed version its tree copied. -/
  baseSeq : Nat
  /-- Operations recorded by other commands since its launch. -/
  landed : List CommitOp

/-- Notes operations that were recorded while the command ran. -/
def Command.land (command : Command) (ops : List CommitOp) : Command :=
  { command with landed := command.landed ++ ops }

/-- The mux between two steps. -/
structure MuxState (Storage : Type) where
  /-- The authority. -/
  authority : AuthorityState
  /-- The storage. -/
  storage : Storage
  /-- The commands launched and not concluded. -/
  running : List Command

/-- A step of the mux. -/
inductive MuxStep
  /-- Launch a command. -/
  | launch (sandbox : Sandbox) (cmd : String) (plan : Plan)
  /-- Conclude a command whose run left this. -/
  | conclude (command : Command) (completed : Except MuxError Execution)
  /-- A running command, or a failing launch, changes the storage. -/
  | act

section System

variable {Storage : Type}
variable (decide : List Event -> Event -> PolicyDecision)
variable (persistence : Persistence Storage)

/-- The operations a conclusion recorded: its write set, if the sequence number
advanced. -/
def recordedOps
    (command : Command)
    (completed : Except MuxError Execution)
    (storage : Storage)
    (before after : AuthorityState) : List CommitOp :=
  if before.seq < after.seq then
    match completed with
    | .ok ⟨_, some translation⟩ =>
        match writeSet persistence command.sandbox translation storage with
        | .ok ops => ops
        | .error _ => []
    | _ => []
  else []

/-- The steps of the mux. -/
def MuxState.Steps
    (state : MuxState Storage)
    (step : MuxStep)
    (next : MuxState Storage) : Prop :=
  match step with
  | .launch sandbox cmd plan =>
      next.authority = state.authority ∧
        next.running = state.running ++
          [⟨sandbox, cmd, plan, state.authority.seq, []⟩]
  | .conclude command completed =>
      command ∈ state.running ∧
        ∃ outcome, conclude decide persistence command.sandbox command.cmd
            completed command.baseSeq command.plan state.authority
            state.storage = (outcome, next.authority, next.storage) ∧
          ∃ before after, state.running = before ++ command :: after ∧
            next.running = (before ++ after).map fun other => other.land <|
              recordedOps persistence command completed state.storage
                state.authority next.authority
  | .act =>
      next.authority = state.authority ∧ next.running = state.running

/-- The mux as a transition system: it starts with nothing running, on the
generations and the sequence number of some history log. -/
def mux : TransitionSystem (MuxState Storage) MuxStep where
  initial state := state.running = [] ∧ ∃ records,
    state.authority.generations = (load records).generations ∧
      state.authority.seq = (load records).seq
  step := MuxState.Steps decide persistence

variable {decide persistence}

/-- What holds of every running command: its tree is no newer than the seed,
and exactly the paths recorded since its launch are newer than its tree. -/
structure MuxState.Versioned (state : MuxState Storage) : Prop where
  bounded : state.authority.Bounded
  base : ∀ command ∈ state.running,
    command.baseSeq ≤ state.authority.seq
  newer : ∀ command ∈ state.running, ∀ path : String,
    (∃ merged ∈ state.authority.generations[path]?,
      command.baseSeq < merged) ↔ path ∈ command.landed.map CommitOp.path

/-- What one conclusion recorded, seen from the generations. -/
theorem newer_of_concludes
    {command : Command}
    {completed : Except MuxError Execution}
    {state next : AuthorityState}
    {storage stored : Storage}
    {outcome : Except MuxError CmdOutcome}
    (concludes : Concludes decide persistence command.sandbox command.cmd
      completed command.baseSeq command.plan state storage outcome next stored)
    (bounded : state.Bounded) :
    next.Bounded ∧ state.seq ≤ next.seq ∧
      ∀ base ≤ state.seq, ∀ path : String,
        (∃ merged ∈ next.generations[path]?, base < merged) ↔
          (∃ merged ∈ state.generations[path]?, base < merged) ∨
            path ∈ (recordedOps persistence command completed storage state
              next).map CommitOp.path := by
  have same : ∀ history : List Event, recordedOps persistence command completed
      storage state { state with history } = [] :=
    fun history => if_neg (lt_irrefl _)
  cases concludes with
  | unchanged =>
      refine ⟨bounded, le_rfl, fun base _ path => ?_⟩
      rw [show recordedOps persistence command completed storage state state =
        [] from if_neg (lt_irrefl _)]
      simp
  | reads translation logged stored bypass left onlyReads granted appended =>
      refine ⟨bounded, le_rfl, fun base _ path => ?_⟩
      rw [same]
      simp
  | failed translation ops failure stored transaction left publishable =>
      refine ⟨bounded, le_rfl, fun base _ path => ?_⟩
      rw [same]
      simp
  | recorded translation ops applied stored transaction left publishable =>
      have opsEq : recordedOps persistence command completed storage state
          (state.record (state.history ++ translation.events) ops) = ops := by
        have advanced : state.seq <
            (state.record (state.history ++ translation.events) ops).seq :=
          Nat.lt_succ_self state.seq
        unfold recordedOps
        rw [if_pos advanced, left]
        dsimp only
        rw [publishable.diffed]
      have generation : ∀ path : String,
          (state.record (state.history ++ translation.events)
              ops).generations[path]? =
            if path ∈ ops.map CommitOp.path then some (state.seq + 1)
            else state.generations[path]? :=
        getElem?_recorded ops (state.seq + 1) state.generations
      refine ⟨fun path merged mergedEq => ?_, Nat.le_succ _,
        fun base within path => ?_⟩
      · rw [generation] at mergedEq
        split_ifs at mergedEq with written
        · exact (Option.some.inj mergedEq).ge
        · exact (bounded path merged mergedEq).trans (Nat.le_succ _)
      · rw [opsEq, generation]
        by_cases written : path ∈ ops.map CommitOp.path
        · simp only [written, if_true, or_true, iff_true]
          exact ⟨_, rfl, Nat.lt_succ_of_le within⟩
        · simp [written]

/-- Every step keeps the versions of the running commands. -/
theorem MuxState.Versioned.step
    {state next : MuxState Storage}
    {step : MuxStep}
    (versioned : state.Versioned)
    (steps : state.Steps decide persistence step next) :
    next.Versioned := by
  cases step with
  | launch sandbox cmd plan =>
      obtain ⟨authority, running⟩ := steps
      refine ⟨authority ▸ versioned.bounded, ?_, ?_⟩
      · rw [authority, running]
        intro command member
        rcases List.mem_append.mp member with member | member
        · exact versioned.base command member
        · rw [List.mem_singleton.mp member]
      · rw [authority, running]
        intro command member path
        rcases List.mem_append.mp member with member | member
        · exact versioned.newer command member path
        · rw [List.mem_singleton.mp member]
          simp only [List.map_nil, List.not_mem_nil, iff_false, not_exists,
            not_and, Nat.not_lt]
          exact fun merged mergedEq => versioned.bounded path merged mergedEq
  | conclude command completed =>
      obtain ⟨-, outcome, concluded, before, after, runningEq, nextRunning⟩ :=
        steps
      obtain ⟨bounded, advanced, newer⟩ :=
        newer_of_concludes (concludes_of_conclude concluded) versioned.bounded
      have kept : ∀ other ∈ before ++ after, other ∈ state.running := by
        intro other member
        rw [runningEq]
        simp only [List.mem_append, List.mem_cons] at member ⊢
        tauto
      refine ⟨bounded, ?_, ?_⟩
      · rw [nextRunning]
        intro other member
        obtain ⟨earlier, earlierMember, rfl⟩ := List.mem_map.mp member
        exact (versioned.base earlier (kept earlier earlierMember)).trans
          advanced
      · rw [nextRunning]
        intro other member path
        obtain ⟨earlier, earlierMember, rfl⟩ := List.mem_map.mp member
        have running := kept earlier earlierMember
        rw [Command.land, newer _ (versioned.base earlier running) path,
          versioned.newer earlier running path, List.map_append,
          List.mem_append]
  | act =>
      obtain ⟨authority, running⟩ := steps
      exact ⟨authority ▸ versioned.bounded,
        by rw [authority, running]; exact versioned.base,
        by rw [authority, running]; exact versioned.newer⟩

/-- In every reachable state the versions of the running commands are right. -/
theorem versioned_of_reachable
    {state : MuxState Storage}
    (reachable : (mux decide persistence).Reachable state) :
    state.Versioned := by
  refine reachable.invariant MuxState.Versioned ?_
    fun _ _ _ _ versioned steps => versioned.step steps
  rintro state ⟨running, records, generations, seq⟩
  refine ⟨?_, by simp [running], by simp [running]⟩
  intro path merged mergedEq
  rw [generations] at mergedEq
  rw [seq]
  exact bounded_load records path merged mergedEq

end System

end Shellmux
end Marsh
