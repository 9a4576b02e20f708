import Marsh.Shellmux.Authority

/-!
# What a conclusion can do

A conclusion leaves the authority alone, appends the granted reads of a bypass,
or records a transaction whose paths nobody wrote since its snapshot.
-/

namespace Marsh
namespace Shellmux

open Validator Policy

/-! ## Checks -/

theorem checkEvents_append
    (decide : List Event -> Event -> PolicyDecision)
    {history extended : List Event}
    {events : List Event}
    (granted : checkEvents decide history events = ([], extended)) :
    extended = history ++ events := by
  induction events generalizing history with
  | nil =>
      rw [checkEvents, Prod.mk.injEq] at granted
      rw [← granted.2, List.append_nil]
  | cons event events hypothesis =>
      rw [checkEvents] at granted
      cases decided : decide history event with
      | grant =>
          rw [decided] at granted
          rw [hypothesis granted, List.append_assoc]
          rfl
      | deny failedPrecondition allowedFixes =>
          rw [decided, Prod.mk.injEq] at granted
          exact absurd granted.1 (List.cons_ne_nil _ _)

/-- A path of the write set, of an event or of a git read. -/
def Checked
    (ops : List CommitOp)
    (events : List Event)
    (gitReads : List String)
    (path : String) : Prop :=
  (∃ op ∈ ops, op.path = path) ∨
    (∃ event ∈ events, event.resource.display = path) ∨ path ∈ gitReads

/-- Nothing is stale exactly when no checked path was written after the
snapshot. -/
theorem stalePaths_eq_nil_iff
    {generations : Std.TreeMap String Nat}
    {baseSeq : Nat}
    {ops : List CommitOp}
    {events : List Event}
    {gitReads : List String} :
    stalePaths generations baseSeq ops events gitReads = [] ↔
      ∀ path, Checked ops events gitReads path ->
        ∀ merged ∈ generations[path]?, merged ≤ baseSeq := by
  rw [stalePaths, List.filterMap_eq_nil_iff]
  simp only [List.mem_dedup, List.mem_mergeSort, List.mem_append,
    List.mem_map, Option.map_eq_none_iff, Option.filter_eq_none_iff,
    decide_eq_true_eq, Nat.not_lt, or_assoc]
  rfl

/-- Generations after some paths are set to one number. -/
theorem getElem?_foldl_insert
    (paths : List String)
    (seq : Nat)
    (generations : Std.TreeMap String Nat)
    (path : String) :
    (paths.foldl (fun generations path => generations.insert path seq)
        generations)[path]? =
      if path ∈ paths then some seq else generations[path]? := by
  induction paths generalizing generations with
  | nil => simp
  | cons written paths hypothesis =>
      rw [List.foldl_cons, hypothesis, Std.TreeMap.getElem?_insert]
      simp only [Std.LawfulEqCmp.compare_eq_iff_eq, List.mem_cons]
      by_cases same : path = written
      · simp [same]
      · simp [same, Ne.symm same]

/-- Generations after the operations of a commit are set to its number. -/
theorem getElem?_recorded
    (ops : List CommitOp)
    (seq : Nat)
    (generations : Std.TreeMap String Nat)
    (path : String) :
    (ops.foldl (fun generations op => generations.insert op.path seq)
        generations)[path]? =
      if path ∈ ops.map CommitOp.path then some seq
      else generations[path]? := by
  rw [← getElem?_foldl_insert, List.foldl_map]

/-! ## Conclusions -/

section Conclusion

variable {Storage : Type}
variable {decide : List Event -> Event -> PolicyDecision}
variable {persistence : Persistence Storage}

/-- A transaction is published only when it succeeded, its checked paths were
not written since its snapshot, and all its events were granted. -/
structure Publishable
    (decide : List Event -> Event -> PolicyDecision)
    (persistence : Persistence Storage)
    (sandbox : Sandbox)
    (translation : Translation)
    (exitCode : Int)
    (baseSeq : Nat)
    (state : AuthorityState)
    (storage : Storage)
    (history : List Event)
    (ops : List CommitOp) : Prop where
  supported : translation.unsupported = none
  succeeded : exitCode = 0
  diffed : writeSet persistence sandbox translation storage = .ok ops
  acted : translation.events ≠ [] ∨ ops ≠ []
  fresh : ∀ path, Checked ops translation.events translation.gitReads path ->
    ∀ merged ∈ state.generations[path]?, merged ≤ baseSeq
  granted : checkEvents decide state.history translation.events = ([], history)

theorem publishable_of_authorize
    {sandbox : Sandbox}
    {translation : Translation}
    {exitCode : Int}
    {baseSeq : Nat}
    {state : AuthorityState}
    {storage : Storage}
    {history : List Event}
    {ops : List CommitOp}
    (authorized : authorize decide persistence sandbox translation exitCode
      baseSeq state storage = .ok (.publish history ops)) :
    Publishable decide persistence sandbox translation exitCode baseSeq state
      storage history ops := by
  unfold authorize at authorized
  split at authorized
  · simp at authorized
  · rename_i supported
    split_ifs at authorized with failed
    · simp at authorized
    · split at authorized
      · simp at authorized
      · rename_i computed diffed
        dsimp only at authorized
        split_ifs at authorized with idle
        · simp at authorized
        · split at authorized
          · simp at authorized
          · rename_i fresh
            split at authorized
            · simp at authorized
            · rename_i extended granted
              obtain ⟨rfl, rfl⟩ : extended = history ∧ computed = ops := by
                simpa using authorized
              refine ⟨supported, not_not.mp failed, diffed, ?_,
                stalePaths_eq_nil_iff.mp fresh, granted⟩
              simpa [List.isEmpty_iff, ← not_and_or] using idle

/-- The authority after a recorded transaction. -/
def AuthorityState.record
    (state : AuthorityState)
    (history : List Event)
    (ops : List CommitOp) : AuthorityState where
  history := history
  generations := ops.foldl
    (fun generations op => generations.insert op.path (state.seq + 1))
    state.generations
  seq := state.seq + 1

/-- What a conclusion does to the authority and the storage. -/
inductive Concludes
    (decide : List Event -> Event -> PolicyDecision)
    (persistence : Persistence Storage)
    (sandbox : Sandbox)
    (cmd : String)
    (completed : Except MuxError Execution)
    (baseSeq : Nat)
    (plan : Plan)
    (state : AuthorityState)
    (storage : Storage) :
    Except MuxError CmdOutcome -> AuthorityState -> Storage -> Prop
  /-- Nothing is touched. -/
  | unchanged (outcome : Except MuxError CmdOutcome) :
      Concludes decide persistence sandbox cmd completed baseSeq plan state
        storage outcome state storage
  /-- A bypass appended its granted reads, whether or not the log took them. -/
  | reads (translation : Translation) (logged : Except MuxError Unit)
      (stored : Storage)
      (bypass : plan = .bypass)
      (left : completed = .ok ⟨0, some translation⟩)
      (onlyReads : ∀ event ∈ translation.events, event.action = .read)
      (granted : checkEvents decide state.history translation.events =
        ([], state.history ++ translation.events))
      (appended : persistence.append state.seq sandbox.principal cmd
        translation.events [] storage = (logged, stored)) :
      Concludes decide persistence sandbox cmd completed baseSeq plan state
        storage (logged.map fun _ => .bypassed 0 translation.events)
        { state with history := state.history ++ translation.events } stored
  /-- A transaction was granted, but a log or the seed failed. -/
  | failed (translation : Translation) (ops : List CommitOp)
      (failure : MuxError) (stored : Storage)
      (transaction : plan = .transaction)
      (left : completed = .ok ⟨0, some translation⟩)
      (publishable : Publishable decide persistence sandbox translation 0
        baseSeq state storage (state.history ++ translation.events) ops) :
      Concludes decide persistence sandbox cmd completed baseSeq plan state
        storage (.error failure)
        { state with history := state.history ++ translation.events } stored
  /-- A transaction was applied and recorded. -/
  | recorded (translation : Translation) (ops : List CommitOp)
      (applied stored : Storage)
      (transaction : plan = .transaction)
      (left : completed = .ok ⟨0, some translation⟩)
      (publishable : Publishable decide persistence sandbox translation 0
        baseSeq state storage (state.history ++ translation.events) ops)
      (applies : persistence.apply sandbox.uid (state.seq + 1)
        sandbox.principal cmd translation.events ops storage =
          (.ok (), applied))
      (appends : persistence.append (state.seq + 1) sandbox.principal cmd
        translation.events ops applied = (.ok (), stored)) :
      Concludes decide persistence sandbox cmd completed baseSeq plan state
        storage (.ok (.committed (state.seq + 1) 0 translation.events))
        (state.record (state.history ++ translation.events) ops) stored

theorem concludes_of_concludeBypass
    {sandbox : Sandbox}
    {cmd : String}
    {translation : Translation}
    {exitCode : Int}
    {baseSeq : Nat}
    {state next : AuthorityState}
    {storage stored : Storage}
    {outcome : Except MuxError CmdOutcome}
    (concluded : concludeBypass decide persistence sandbox cmd translation
      exitCode state storage = (outcome, next, stored)) :
    Concludes decide persistence sandbox cmd (.ok ⟨exitCode, some translation⟩)
      baseSeq .bypass state storage outcome next stored := by
  unfold concludeBypass at concluded
  dsimp only at concluded
  split_ifs at concluded with escaped failed idle
  · obtain ⟨-, rfl, rfl⟩ := by simpa using concluded
    exact .unchanged _
  · obtain ⟨-, rfl, rfl⟩ := by simpa using concluded
    exact .unchanged _
  · obtain ⟨-, rfl, rfl⟩ := by simpa using concluded
    exact .unchanged _
  · split at concluded
    · obtain ⟨-, rfl, rfl⟩ := by simpa using concluded
      exact .unchanged _
    · rename_i history granted
      obtain rfl := checkEvents_append decide granted
      obtain rfl : exitCode = 0 := not_not.mp failed
      have onlyReads : ∀ event ∈ translation.events, event.action = .read := by
        simp only [Bool.or_eq_true, not_or, List.any_eq_true, not_exists,
          not_and, decide_eq_true_eq, ne_eq, not_not] at escaped
        exact escaped.2
      split at concluded
      · rename_i failure failedStorage appended
        rw [Prod.mk.injEq, Prod.mk.injEq] at concluded
        obtain ⟨rfl, rfl, rfl⟩ := concluded
        exact .reads translation (.error failure) failedStorage rfl rfl
          onlyReads granted appended
      · rename_i loggedStorage appended
        rw [Prod.mk.injEq, Prod.mk.injEq] at concluded
        obtain ⟨rfl, rfl, rfl⟩ := concluded
        exact .reads translation (.ok ()) loggedStorage rfl rfl onlyReads
          granted appended

theorem concludes_of_concludeTransaction
    {sandbox : Sandbox}
    {cmd : String}
    {translation : Translation}
    {exitCode : Int}
    {baseSeq : Nat}
    {state next : AuthorityState}
    {storage stored : Storage}
    {outcome : Except MuxError CmdOutcome}
    (concluded : concludeTransaction decide persistence sandbox cmd translation
      exitCode baseSeq state storage = (outcome, next, stored)) :
    Concludes decide persistence sandbox cmd (.ok ⟨exitCode, some translation⟩)
      baseSeq .transaction state storage outcome next stored := by
  unfold concludeTransaction at concluded
  split at concluded
  · obtain ⟨-, rfl, rfl⟩ := by simpa using concluded
    exact .unchanged _
  · obtain ⟨-, rfl, rfl⟩ := by simpa using concluded
    exact .unchanged _
  · rename_i history ops authorized
    have publishable := publishable_of_authorize authorized
    obtain rfl := checkEvents_append decide publishable.granted
    obtain rfl := publishable.succeeded
    unfold recordCommit at concluded
    dsimp only at concluded
    split at concluded
    · rename_i failure failedState failedStorage recorded
      rw [Prod.mk.injEq, Prod.mk.injEq] at concluded
      obtain ⟨rfl, rfl, -⟩ := concluded
      have kept : failedState =
          { state with history := state.history ++ translation.events } := by
        split at recorded
        · rw [Prod.mk.injEq, Prod.mk.injEq] at recorded
          exact recorded.2.1.symm
        · split at recorded
          · rw [Prod.mk.injEq, Prod.mk.injEq] at recorded
            exact recorded.2.1.symm
          · simp at recorded
      rw [kept]
      exact .failed translation ops failure _ rfl rfl publishable
    · rename_i seq recordedState recordedStorage recorded
      rw [Prod.mk.injEq, Prod.mk.injEq] at concluded
      obtain ⟨rfl, rfl, rfl⟩ := concluded
      split at recorded
      · simp at recorded
      · rename_i appliedStorage applies
        split at recorded
        · simp at recorded
        · rename_i loggedStorage appends
          rw [Prod.mk.injEq, Prod.mk.injEq, Except.ok.injEq] at recorded
          obtain ⟨rfl, rfl, rfl⟩ := recorded
          exact .recorded translation ops appliedStorage loggedStorage rfl rfl
            publishable applies appends

/-- Everything a conclusion can do. -/
theorem concludes_of_conclude
    {sandbox : Sandbox}
    {cmd : String}
    {completed : Except MuxError Execution}
    {baseSeq : Nat}
    {plan : Plan}
    {state next : AuthorityState}
    {storage stored : Storage}
    {outcome : Except MuxError CmdOutcome}
    (concluded : conclude decide persistence sandbox cmd completed baseSeq plan
      state storage = (outcome, next, stored)) :
    Concludes decide persistence sandbox cmd completed baseSeq plan state storage
      outcome next stored := by
  unfold conclude at concluded
  split at concluded
  · obtain ⟨-, rfl, rfl⟩ := by simpa using concluded
    exact .unchanged _
  · rename_i execution
    obtain ⟨exitCode, translation⟩ := execution
    cases translation with
    | none =>
        obtain ⟨-, rfl, rfl⟩ := by simpa using concluded
        exact .unchanged _
    | some translation =>
        cases plan with
        | bypass => exact concludes_of_concludeBypass concluded
        | transaction => exact concludes_of_concludeTransaction concluded

end Conclusion

end Shellmux
end Marsh
