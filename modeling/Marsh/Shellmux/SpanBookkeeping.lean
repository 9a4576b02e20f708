import Marsh.Shellmux.ExecutionEvidence

/-!
# What is tracked of a span

How one element of the evidence moves the two things that say whether a git
builtin runs on a thread: the builtins that have not finished, and the span a
thread stands in.
-/

namespace Marsh
namespace Shellmux

open Library
open Exec
open Validator

/-! ## Lookups -/

namespace Observed

variable (observed : Observed)

/-- The git builtin that executes on a thread. -/
def spanOf (tid : Nat) : Option Nat :=
  (observed.states tid).bind TidState.span

/-- The unfinished builtin of an invocation. -/
def openSpan (id : Nat) : Option BuiltinBegin :=
  observed.openSpans.find? fun span => span.id = id

theorem stateFor_span (tid : Nat) (cwd : Path) :
    (observed.stateFor tid cwd).span = observed.spanOf tid := by
  unfold stateFor spanOf
  cases observed.states tid <;> rfl

theorem spanOf_track (tid other : Nat) (state : TidState) :
    (observed.track tid state).spanOf other =
      if other = tid then state.span else observed.spanOf other := by
  change (Function.update observed.states tid (some state) other).bind _ = _
  by_cases same : other = tid
  · rw [if_pos same, same, Function.update_self, Option.bind_some]
  · rw [if_neg same, Function.update_of_ne same]
    rfl

/-- Two observations agree on every span. -/
def SameSpans (next : Observed) : Prop :=
  next.states = observed.states ∧ next.openSpans = observed.openSpans

variable {observed}

theorem SameSpans.spanOf
    {next : Observed}
    (same : observed.SameSpans next)
    (tid : Nat) : next.spanOf tid = observed.spanOf tid := by
  unfold Observed.spanOf
  rw [same.1]

end Observed

/-- A step that keeps every span does so any number of times. -/
theorem sameSpans_foldl
    {Item : Type}
    {step : Observed -> Item -> Observed}
    (keeps : ∀ (observed : Observed) (item : Item),
      observed.SameSpans (step observed item))
    (items : List Item)
    (observed : Observed) :
    observed.SameSpans (items.foldl step observed) := by
  induction items generalizing observed with
  | nil => exact ⟨rfl, rfl⟩
  | cons item items hypothesis =>
      have first := keeps observed item
      have rest := hypothesis (step observed item)
      exact ⟨rest.1.trans first.1, rest.2.trans first.2⟩

/-! ## Syscalls -/

/-- A call that made a thread. -/
def Spawns (line : TraceLine) (tid : Nat) : Prop :=
  match line.call with
  | .exited _ => False
  | .syscall name _ ret _ =>
      (name = "clone".toList ∨ name = "clone3".toList ∨
        name = "fork".toList ∨ name = "vfork".toList) ∧
      0 < ret ∧ ret < 2 ^ 32 ∧ ret.toNat = tid

theorem sameSpans_recordGitEffect
    (frame : Frame)
    (observed : Observed)
    (effect : Action × Path) :
    observed.SameSpans (recordGitEffect frame observed effect) := by
  unfold recordGitEffect
  split
  · exact ⟨rfl, rfl⟩
  · split_ifs <;> exact ⟨rfl, rfl⟩

theorem sameSpans_recordEffect
    (frame : Frame)
    (observed : Observed)
    (effect : Action × Path) :
    observed.SameSpans (recordEffect frame observed effect) := by
  unfold recordEffect
  split_ifs <;> dsimp only <;> split <;> exact ⟨rfl, rfl⟩

/-- A syscall finishes no builtin. -/
theorem openSpans_recordLine
    (frame : Frame)
    (observed : Observed)
    (line : TraceLine) :
    (recordLine frame observed line).openSpans = observed.openSpans := by
  unfold recordLine
  cases line.call with
  | exited status => rfl
  | syscall name args ret retPath =>
      dsimp only
      unfold recordSyscall
      dsimp only
      split_ifs
      · split <;> rfl
      · split <;> rfl
      · rfl
      · rfl
      · rfl
      · rfl
      · rfl
      · rfl
      · exact (sameSpans_foldl (sameSpans_recordGitEffect frame) _ _).2
      · exact (sameSpans_foldl (sameSpans_recordEffect frame) _ _).2

/-- A thread that is tracked with the span it has keeps it, and so does every
other. -/
theorem spanOf_track_of_span
    {observed : Observed}
    {tid : Nat}
    {state : TidState}
    (same : state.span = observed.spanOf tid)
    (other : Nat) : (observed.track tid state).spanOf other =
      observed.spanOf other := by
  rw [Observed.spanOf_track]
  split_ifs with own
  · rw [own, same]
  · rfl

/-- A syscall moves no thread out of its span, unless it made the thread. -/
theorem spanOf_recordLine
    (frame : Frame)
    (observed : Observed)
    (line : TraceLine)
    (tid : Nat) :
    ((recordLine frame observed line).spanOf tid = observed.spanOf tid ∧
        ¬Spawns line tid) ∨
      ((recordLine frame observed line).spanOf tid = none ∧
        Spawns line tid) := by
  let state := observed.stateFor line.tid frame.cwd
  have own : state.span = observed.spanOf line.tid :=
    observed.stateFor_span line.tid frame.cwd
  have tracked : ∀ other, (observed.track line.tid state).spanOf other =
      observed.spanOf other := spanOf_track_of_span own
  have retracked : ∀ next : TidState, next.span = state.span ->
      ((observed.track line.tid state).track line.tid next).spanOf tid =
        observed.spanOf tid := by
    intro next same
    rw [spanOf_track_of_span (same.trans (own.trans (tracked line.tid).symm))]
    exact tracked tid
  unfold recordLine Spawns
  cases line.call with
  | exited status => exact .inl ⟨tracked tid, id⟩
  | syscall name args ret retPath =>
      dsimp only
      unfold recordSyscall
      dsimp only
      split_ifs with chdir fchdir spawns narrow execs runs failed raw inSpan
      · refine .inl ⟨?_, fun spawns => ?_⟩
        · split
          · exact tracked tid
          · exact retracked _ rfl
        · rw [chdir.1] at spawns
          exact absurd spawns.1 (by decide)
      · refine .inl ⟨?_, fun spawns => ?_⟩
        · split
          · exact tracked tid
          · exact retracked _ rfl
        · rw [fchdir.1] at spawns
          exact absurd spawns.1 (by decide)
      · rw [Observed.spanOf_track]
        by_cases own : tid = ret.toNat
        · exact .inr ⟨if_pos own, spawns.1, spawns.2, narrow, own.symm⟩
        · rw [if_neg own]
          exact .inl ⟨tracked tid, fun made => own made.2.2.2.symm⟩
      · exact .inl ⟨tracked tid, fun made => narrow made.2.2.1⟩
      all_goals
        refine .inl ⟨?_, fun made => spawns ⟨made.1, made.2.1⟩⟩
      · exact retracked { state with attr := .git } rfl
      · exact tracked tid
      · exact tracked tid
      · exact tracked tid
      · rw [(sameSpans_foldl (sameSpans_recordGitEffect frame) _ _).spanOf]
        exact tracked tid
      · rw [(sameSpans_foldl (sameSpans_recordEffect frame) _ _).spanOf]
        exact tracked tid

/-! ## Builtins -/

/-- A builtin that begins is unfinished. -/
theorem openSpan_recordBegin
    (frame : Frame)
    (observed : Observed)
    (record : BuiltinBegin)
    (id : Nat) :
    (recordBegin frame observed record).openSpan id =
      if record.id = id then some record else observed.openSpan id := by
  have shape : (recordBegin frame observed record).openSpans =
      observed.openSpans.filter (·.id ≠ record.id) ++ [record] := by
    unfold recordBegin
    dsimp only
    split_ifs <;> rfl
  unfold Observed.openSpan
  rw [shape, List.find?_append, List.find?_filter]
  by_cases same : record.id = id
  · have others : observed.openSpans.find? (fun span =>
        decide (decide (span.id ≠ record.id) = true ∧
          decide (span.id = id) = true)) = none := by
      rw [List.find?_eq_none]
      intro span _
      simp [same]
    rw [if_pos same, others]
    simp [same]
  · have others : (fun span : BuiltinBegin =>
        decide (decide (span.id ≠ record.id) = true ∧
          decide (span.id = id) = true)) = fun span => decide (span.id = id) := by
      funext span
      apply decide_eq_decide.mpr
      simp only [decide_eq_true_eq]
      omega
    rw [if_neg same, others]
    simp [same]

/-- A git builtin that begins is the span of its thread. -/
theorem spanOf_recordBegin
    (frame : Frame)
    (observed : Observed)
    (record : BuiltinBegin)
    (tid : Nat) :
    (recordBegin frame observed record).spanOf tid =
      if isGitBuiltin record.builtin = true ∧ record.tid = tid then
        some record.id
      else observed.spanOf tid := by
  have tracked : ∀ (next : Observed) (state : TidState),
      observed.states = next.states ->
      (next.track record.tid { state with span := some record.id }).spanOf tid =
        if record.tid = tid then some record.id else observed.spanOf tid := by
    intro next state same
    rw [Observed.spanOf_track, eq_comm, Observed.spanOf, Observed.spanOf, same]
    exact ite_congr (propext eq_comm) (fun _ => rfl) fun _ => rfl
  by_cases git : isGitBuiltin record.builtin = true
  · unfold recordBegin
    dsimp only
    rw [if_pos git]
    refine (tracked _ _ ?_).trans (ite_congr ?_ (fun _ => rfl) fun _ => rfl)
    · split_ifs <;> rfl
    · exact (propext (and_iff_right git)).symm
  · unfold recordBegin
    dsimp only
    rw [if_neg git]
    refine Eq.trans ?_ (if_neg fun both => git both.1).symm
    split_ifs <;> rfl

theorem sameSpans_recordPathspec
    (frame : Frame)
    (action : Action)
    (cwd : Path)
    (observed : Observed)
    (pathspec : Text) :
    observed.SameSpans (recordPathspec frame action cwd observed pathspec) := by
  unfold recordPathspec
  split <;> exact ⟨rfl, rfl⟩

/-- What a builtin that finishes leaves: it is no longer open, and a git builtin
is no longer its thread's span. -/
theorem recordEnd_of_openSpan
    {observed : Observed}
    {record : BuiltinEnd}
    {began : BuiltinBegin}
    (unfinished : observed.openSpan record.id = some began)
    (frame : Frame) :
    (recordEnd frame observed record).openSpans =
        observed.openSpans.filter (·.id ≠ record.id) ∧
      ∀ tid, (recordEnd frame observed record).spanOf tid =
        if isGitBuiltin began.builtin = true ∧ began.tid = tid then none
        else observed.spanOf tid := by
  have tracked : ∀ (next : Observed) (state : TidState),
      observed.states = next.states -> isGitBuiltin began.builtin = true ->
      ∀ tid, (next.track began.tid { state with span := none }).spanOf tid =
        if isGitBuiltin began.builtin = true ∧ began.tid = tid then none
        else observed.spanOf tid := by
    intro next state same git tid
    rw [Observed.spanOf_track, Observed.spanOf, Observed.spanOf, same]
    apply ite_congr _ (fun _ => rfl) fun _ => rfl
    rw [git]
    simp [eq_comm]
  unfold recordEnd
  unfold Observed.openSpan at unfinished
  rw [unfinished]
  dsimp only
  split_ifs with git failed
  · exact ⟨rfl, tracked _ _ rfl git⟩
  · split
    · exact ⟨rfl, tracked _ _ rfl git⟩
    · next invocation _ =>
      have same := sameSpans_foldl (sameSpans_recordPathspec frame
        (capabilityOf invocation.action) began.cwd) invocation.pathspecs
      refine ⟨(same _).2, fun tid => ?_⟩
      rw [(same _).spanOf]
      exact tracked _ _ rfl git tid
  · exact ⟨rfl, fun tid => (if_neg fun both => git both.1).symm⟩

/-- A builtin that finishes is no longer open. -/
theorem openSpan_recordEnd
    (frame : Frame)
    (observed : Observed)
    (record : BuiltinEnd)
    (id : Nat) :
    (recordEnd frame observed record).openSpan id =
      if record.id = id then none else observed.openSpan id := by
  cases found : observed.openSpan record.id with
  | none =>
      have unchanged : (recordEnd frame observed record).openSpans =
          observed.openSpans := by
        unfold recordEnd
        unfold Observed.openSpan at found
        rw [found]
        rfl
      rw [Observed.openSpan, unchanged]
      split_ifs with same
      · rw [← same]
        exact found
      · rfl
  | some began =>
      rw [Observed.openSpan, (recordEnd_of_openSpan found frame).1,
        List.find?_filter]
      split_ifs with same
      · apply List.find?_eq_none.mpr
        intro span _
        simp [same]
      · apply congrArg (fun test => observed.openSpans.find? test)
        funext span
        apply decide_eq_decide.mpr
        simp only [decide_eq_true_eq]
        omega

/-- A builtin that was not open leaves every thread in its span. -/
theorem spanOf_recordEnd_of_none
    {observed : Observed}
    {record : BuiltinEnd}
    (missing : observed.openSpan record.id = none)
    (frame : Frame)
    (tid : Nat) :
    (recordEnd frame observed record).spanOf tid = observed.spanOf tid := by
  unfold recordEnd
  unfold Observed.openSpan at missing
  rw [missing]
  rfl

/-! ## Runs -/

theorem observe_concat
    (frame : Frame)
    (before : List ExecutionEvent)
    (event : ExecutionEvent) :
    observe frame (before ++ [event]) =
      recordItem frame (observe frame before) event :=
  List.foldl_append

/-- What is open was begun. -/
theorem began_mem_of_openSpan
    {frame : Frame}
    {before : List ExecutionEvent}
    {id : Nat}
    {began : BuiltinBegin}
    (unfinished : (observe frame before).openSpan id = some began) :
    began.id = id ∧ .began began ∈ before := by
  induction before using List.reverseRecOn with
  | nil => cases unfinished
  | append_singleton before event hypothesis =>
      rw [observe_concat] at unfinished
      have earlier : (observe frame before).openSpan id = some began ->
          began.id = id ∧ .began began ∈ before ++ [event] := by
        intro stillOpen
        have both := hypothesis stillOpen
        exact ⟨both.1, List.mem_append_left _ both.2⟩
      cases event with
      | system line =>
          apply earlier
          rw [← unfinished]
          exact congrArg (List.find? _)
            (openSpans_recordLine frame _ line).symm
      | began record =>
          change (recordBegin frame _ record).openSpan id = _ at unfinished
          rw [openSpan_recordBegin] at unfinished
          split_ifs at unfinished with same
          · cases unfinished
            exact ⟨same, List.mem_append_right _ List.mem_cons_self⟩
          · exact earlier unfinished
      | finished record =>
          change (recordEnd frame _ record).openSpan id = _ at unfinished
          rw [openSpan_recordEnd] at unfinished
          split_ifs at unfinished
          exact earlier unfinished

end Shellmux
end Marsh
