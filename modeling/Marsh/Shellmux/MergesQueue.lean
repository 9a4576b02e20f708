import Marsh.Library.TransitionSystem
import Marsh.Shellmux.JobTable

/-!
# The merges queue under any callers

The queue with its counters as they are stored, while any number of callers
submit, take, finish and wait.  Its counters are those the job machine reads.
-/

namespace Marsh
namespace Shellmux

open Library

/-! ## The queue -/

/-- The conclusions handed off, and what each job still owes. -/
structure Merges where
  /-- Conclusions nobody has taken yet. -/
  pending : List Conclusion
  /-- Per-job count of conclusions submitted and not yet reported. -/
  active : String -> Option Nat
  /-- The session ended. -/
  closed : Bool

namespace Merges

/-- An empty queue. -/
def new : Merges where
  pending := []
  active _ := none
  closed := false

/-- Hands a conclusion over and counts it against its job. -/
def submit (queue : Merges) (conclusion : Conclusion) : Merges :=
  if queue.closed then queue
  else
    { queue with
      active := Function.update queue.active conclusion.id
        (some ((queue.active conclusion.id).getD 0 + 1))
      pending := queue.pending ++ [conclusion] }

/-- What one look of `take` finds: the next conclusion, the end of a closed and
empty queue, or nothing yet. -/
def take (queue : Merges) : Option (Option Conclusion × Merges) :=
  match queue.pending with
  | conclusion :: pending =>
      some (some conclusion, { queue with pending := pending })
  | [] => if queue.closed then some (none, queue) else none

/-- Marks one conclusion of a job reported. -/
def finish (queue : Merges) (id : String) : Merges :=
  match queue.active id with
  | none => queue
  | some count =>
      { queue with
        active := Function.update queue.active id
          (if count - 1 = 0 then none else some (count - 1)) }

/-- Whether one look of `wait_for` lets its caller go on. -/
def waitOver (queue : Merges) (id : String) : Bool :=
  queue.closed || (queue.active id).isNone

/-- Whether a job owes nothing. -/
def idle (queue : Merges) (id : String) : Bool :=
  (queue.active id).isNone

/-- Whether a job has a conclusion in flight. -/
def isMerging (queue : Merges) (id : String) : Bool :=
  (queue.active id).isSome

/-- Closes the queue. -/
def cancel (queue : Merges) : Merges :=
  { queue with closed := true }

/-- How much a job owes. -/
def owed (queue : Merges) (id : String) : Nat :=
  (queue.active id).getD 0

/-- The queue as the job machine has it. -/
def toQueue (queue : Merges) : ConclusionQueue where
  pending := queue.pending
  active := queue.owed
  closed := queue.closed

/-- Whether no job has a count of nothing. -/
def Counted (queue : Merges) : Prop :=
  ∀ id, queue.active id ≠ some 0

section Operations

variable {queue : Merges}

theorem owed_submit
    (opened : queue.closed = false)
    (conclusion : Conclusion)
    (id : String) :
    (queue.submit conclusion).owed id =
      queue.owed id + if conclusion.id = id then 1 else 0 := by
  rw [submit, if_neg (by simp [opened])]
  by_cases same : conclusion.id = id
  · subst same
    simp [owed]
  · simp [owed, Function.update_of_ne (Ne.symm same), same]

theorem owed_finish (queue : Merges) (id other : String) :
    (queue.finish id).owed other =
      queue.owed other - if id = other then 1 else 0 := by
  unfold finish
  cases counted : queue.active id with
  | none =>
      by_cases same : id = other
      · subst same
        simp [owed, counted]
      · simp [same]
  | some count =>
      by_cases same : id = other
      · subst same
        by_cases last : count - 1 = 0
        · simp [owed, counted, last]
        · simp [owed, counted, last]
      · simp [owed, Function.update_of_ne (Ne.symm same), same]

theorem Counted.submit
    (counted : queue.Counted)
    (conclusion : Conclusion) : (queue.submit conclusion).Counted := by
  intro id
  unfold Merges.submit
  split_ifs
  · exact counted id
  · dsimp only
    by_cases same : id = conclusion.id
    · subst same
      simp
    · rw [Function.update_of_ne same]
      exact counted id

theorem Counted.finish
    (counted : queue.Counted)
    (id : String) : (queue.finish id).Counted := by
  intro other
  unfold Merges.finish
  cases found : queue.active id with
  | none => exact counted other
  | some count =>
      dsimp only
      by_cases same : other = id
      · subst same
        rw [Function.update_self]
        split_ifs with last
        · simp
        · simpa using last
      · rw [Function.update_of_ne same]
        exact counted other

/-- A job without an entry owes nothing, and one with an entry does. -/
theorem Counted.active_eq_none_iff
    (counted : queue.Counted)
    (id : String) : queue.active id = none ↔ queue.owed id = 0 := by
  unfold owed
  cases found : queue.active id with
  | none => simp
  | some count =>
      have positive : count ≠ 0 := by
        rintro rfl
        exact counted id found
      simp [positive]

/-! ## The queue of the job machine -/

theorem toQueue_submit (queue : Merges) (conclusion : Conclusion) :
    (queue.submit conclusion).toQueue = queue.toQueue.submit conclusion := by
  cases closed : queue.closed with
  | true =>
      have stays : queue.toQueue.closed = true := closed
      rw [submit, if_pos closed, ConclusionQueue.submit, if_pos stays]
  | false =>
      have opened : ¬ queue.toQueue.closed = true := by simp [toQueue, closed]
      have counts : (queue.submit conclusion).owed =
          Function.update queue.owed conclusion.id
            (queue.owed conclusion.id + 1) := by
        funext id
        rw [owed_submit closed]
        by_cases same : conclusion.id = id
        · subst same
          simp
        · simp [Function.update_of_ne (Ne.symm same), same]
      rw [toQueue, counts, ConclusionQueue.submit, if_neg opened, submit,
        if_neg (by simp [closed])]
      rfl

theorem toQueue_finish (queue : Merges) (id : String) :
    (queue.finish id).toQueue = queue.toQueue.finish id := by
  have counts : (queue.finish id).owed =
      Function.update queue.owed id (queue.owed id - 1) := by
    funext other
    rw [owed_finish]
    by_cases same : id = other
    · subst same
      simp
    · simp [Function.update_of_ne (Ne.symm same), same]
  have kept : (queue.finish id).pending = queue.pending ∧
      (queue.finish id).closed = queue.closed := by
    unfold finish
    cases queue.active id <;> exact ⟨rfl, rfl⟩
  rw [toQueue, counts, kept.1, kept.2]
  rfl

theorem toQueue_cancel (queue : Merges) :
    queue.cancel.toQueue = queue.toQueue.cancel := rfl

theorem Counted.idle_toQueue
    (counted : queue.Counted)
    (id : String) : queue.toQueue.idle id = queue.idle id := by
  have same := counted.active_eq_none_iff id
  rw [ConclusionQueue.idle, idle, toQueue, Bool.eq_iff_iff,
    Option.isNone_iff_eq_none, same, decide_eq_true_iff]

end Operations

end Merges

/-! ## Its callers -/

/-- One lock section of a caller. -/
inductive MergesStep
  | submit (conclusion : Conclusion)
  /-- A caller of `take` is given a conclusion. -/
  | take (conclusion : Conclusion)
  /-- A caller of `take` is told that there will be none. -/
  | takeEnd
  /-- A caller has reported a conclusion it has taken. -/
  | finish (conclusion : Conclusion)
  | cancel
  /-- A caller is told whether a job is idle. -/
  | idle (id : String) (answer : Bool)
  /-- A caller of `wait_for` goes on. -/
  | waited (id : String)
  /-- A caller is told whether a job is merging. -/
  | isMerging (id : String) (answer : Bool)

/-- The queue and what its callers hold.  The last two fields record what
happened; no section reads them. -/
structure MergesState where
  /-- The queue. -/
  queue : Merges
  /-- Conclusions that were taken and are not reported. -/
  unfinished : Multiset Conclusion
  /-- Conclusions the queue has accepted, in order. -/
  accepted : List Conclusion
  /-- Conclusions that were taken, in order. -/
  taken : List Conclusion

namespace MergesState

/-- The sections of the callers. -/
def Steps (state : MergesState) (step : MergesStep) (next : MergesState) :
    Prop :=
  match step with
  | .submit conclusion =>
      next =
        { state with
          queue := state.queue.submit conclusion
          accepted :=
            if state.queue.closed then state.accepted
            else state.accepted ++ [conclusion] }
  | .take conclusion =>
      ∃ queue, state.queue.take = some (some conclusion, queue) ∧
        next =
          { state with
            queue := queue
            unfinished := conclusion ::ₘ state.unfinished
            taken := state.taken ++ [conclusion] }
  | .takeEnd => state.queue.take = some (none, state.queue) ∧ next = state
  | .finish conclusion =>
      ∃ rest, state.unfinished = conclusion ::ₘ rest ∧
        next =
          { state with
            queue := state.queue.finish conclusion.id
            unfinished := rest }
  | .cancel => next = { state with queue := state.queue.cancel }
  | .idle id answer => answer = state.queue.idle id ∧ next = state
  | .waited id => state.queue.waitOver id = true ∧ next = state
  | .isMerging id answer => answer = state.queue.isMerging id ∧ next = state

/-- How many conclusions of a job are queued, or taken and not reported. -/
def unreported (state : MergesState) (id : String) : Nat :=
  state.queue.pending.countP (fun conclusion => conclusion.id = id) +
    state.unfinished.countP fun conclusion => conclusion.id = id

/-- What holds between any two sections. -/
structure Accounts (state : MergesState) : Prop where
  /-- Conclusions are taken in the order they were submitted, each once. -/
  ordered : state.accepted = state.taken ++ state.queue.pending
  counted : state.queue.Counted
  tallied : ∀ id, state.queue.owed id = state.unreported id

end MergesState

/-- The queue and its callers as a transition system. -/
def mergesMachine : TransitionSystem MergesState MergesStep where
  initial state := state = ⟨.new, 0, [], []⟩
  step := MergesState.Steps

namespace MergesState

variable {state next : MergesState} {step : MergesStep}

theorem Accounts.submit
    {conclusion : Conclusion}
    (accounts : state.Accounts)
    (steps : state.Steps (.submit conclusion) next) : next.Accounts := by
  obtain rfl := steps
  cases closed : state.queue.closed with
  | true =>
      have same : state.queue.submit conclusion = state.queue := by
        rw [Merges.submit, if_pos closed]
      simpa [same] using accounts
  | false =>
      have pending : (state.queue.submit conclusion).pending =
          state.queue.pending ++ [conclusion] := by
        rw [Merges.submit, if_neg (by simp [closed])]
      refine ⟨?_, accounts.counted.submit conclusion, fun id => ?_⟩
      · dsimp only
        rw [pending, if_neg Bool.false_ne_true, accounts.ordered,
          List.append_assoc]
      · have counts := accounts.tallied id
        rw [unreported] at counts ⊢
        rw [Merges.owed_submit closed, counts]
        dsimp only
        rw [pending, List.countP_append, List.countP_singleton]
        simp only [decide_eq_true_eq]
        omega

theorem accounts_of_step
    (accounts : state.Accounts)
    (steps : state.Steps step next) : next.Accounts := by
  cases step with
  | submit conclusion => exact accounts.submit steps
  | take conclusion =>
      obtain ⟨queue, takes, rfl⟩ := steps
      obtain ⟨ordered, counted, tallied⟩ := accounts
      unfold Merges.take at takes
      split at takes
      next first pending queued =>
        obtain ⟨rfl, rfl⟩ := by simpa using takes
        refine ⟨?_, counted, fun id => ?_⟩
        · dsimp only
          rw [ordered, queued, List.append_assoc]
          rfl
        · have counts := tallied id
          rw [unreported, queued, List.countP_cons] at counts
          change state.queue.owed id = _
          rw [counts, unreported, Multiset.countP_cons]
          simp only [decide_eq_true_eq]
          omega
      next =>
        split_ifs at takes
        simp at takes
  | takeEnd =>
      obtain ⟨-, rfl⟩ := steps
      exact accounts
  | finish conclusion =>
      obtain ⟨rest, holds, rfl⟩ := steps
      have kept : (state.queue.finish conclusion.id).pending =
          state.queue.pending := by
        unfold Merges.finish
        cases state.queue.active conclusion.id <;> rfl
      refine ⟨?_, accounts.counted.finish _, fun id => ?_⟩
      · dsimp only
        rw [kept, accounts.ordered]
      · have counts := accounts.tallied id
        rw [unreported, holds, Multiset.countP_cons] at counts
        rw [Merges.owed_finish, counts, unreported]
        dsimp only
        rw [kept]
        split_ifs <;> omega
  | cancel =>
      obtain rfl := steps
      exact ⟨accounts.ordered, accounts.counted, accounts.tallied⟩
  | idle id answer =>
      obtain ⟨-, rfl⟩ := steps
      exact accounts
  | waited id =>
      obtain ⟨-, rfl⟩ := steps
      exact accounts
  | isMerging id answer =>
      obtain ⟨-, rfl⟩ := steps
      exact accounts

theorem accounts_of_reachable (reachable : mergesMachine.Reachable state) :
    state.Accounts := by
  induction reachable with
  | start initial =>
      obtain rfl := initial
      exact ⟨rfl, fun id => by simp [Merges.new], fun id => rfl⟩
  | step label _ steps hypothesis => exact accounts_of_step hypothesis steps

/-- Whatever the callers do and in whatever order, conclusions are taken in the
order they were submitted, each at most once; a job's count is that of its
conclusions that are queued, or taken and not reported; and a job is reported
idle only when that is none, or to a waiting caller when the queue is closed. -/
theorem merges_account (reachable : mergesMachine.Reachable state) :
    state.accepted = state.taken ++ state.queue.pending ∧
      (∀ id, state.queue.owed id = state.unreported id) ∧
      (∀ id next, state.Steps (.idle id true) next ->
        state.unreported id = 0) ∧
      (∀ id next, state.Steps (.isMerging id false) next ->
        state.unreported id = 0) ∧
      ∀ id next, state.Steps (.waited id) next ->
        state.unreported id = 0 ∨ state.queue.closed = true := by
  obtain ⟨ordered, counted, tallied⟩ := accounts_of_reachable reachable
  have unowed : ∀ {id}, state.queue.active id = none ->
      state.unreported id = 0 := by
    intro id absent
    rw [← tallied, ← counted.active_eq_none_iff]
    exact absent
  refine ⟨ordered, tallied, fun id next steps => ?_, fun id next steps => ?_,
    fun id next steps => ?_⟩
  · exact unowed (Option.isNone_iff_eq_none.mp steps.1.symm)
  · exact unowed (Option.isSome_eq_false_iff.mp steps.1.symm |>
      Option.isNone_iff_eq_none.mp)
  · obtain closed | absent := Bool.or_eq_true_iff.mp steps.1
    · exact .inr closed
    · exact .inl (unowed (Option.isNone_iff_eq_none.mp absent))

/-! ## A conclusion in flight -/

/-- A conclusion of a job. -/
def someConclusion : Conclusion := ⟨"job", ⟨7, ⟨"job", "u1"⟩, "make", false⟩⟩

/-- A job with a conclusion that was taken and one that is queued owes two. -/
theorem merges_account_inFlight :
    ∃ state, mergesMachine.Reachable state ∧
      state.accepted = [someConclusion, someConclusion] ∧
      state.taken = [someConclusion] ∧ state.queue.owed "job" = 2 := by
  have first : mergesMachine.Reachable ⟨.new, 0, [], []⟩ := .start rfl
  have second : mergesMachine.Reachable
      ⟨Merges.new.submit someConclusion, 0, [someConclusion], []⟩ :=
    .step (.submit someConclusion) first rfl
  have third : mergesMachine.Reachable
      ⟨(Merges.new.submit someConclusion).submit someConclusion, 0,
        [someConclusion, someConclusion], []⟩ :=
    .step (.submit someConclusion) second rfl
  have fourth : mergesMachine.Reachable
      ⟨{ (Merges.new.submit someConclusion).submit someConclusion with
          pending := [someConclusion] },
        {someConclusion}, [someConclusion, someConclusion],
        [someConclusion]⟩ :=
    .step (.take someConclusion) third ⟨_, rfl, rfl⟩
  obtain ⟨ordered, tallied, -⟩ := merges_account fourth
  refine ⟨_, fourth, rfl, rfl, ?_⟩
  rw [tallied]
  decide

end MergesState

end Shellmux
end Marsh
