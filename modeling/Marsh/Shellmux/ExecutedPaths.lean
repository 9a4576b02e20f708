import Marsh.Exec.GitShell
import Marsh.Shellmux.Translate

/-!
# Executed and authorised paths

A git builtin and the translator resolve the same argument vector on their own.
The path one acts on and the resource the other reports agree.
-/

namespace Marsh
namespace Shellmux

open Library
open Exec
open Validator

/-- The segments below a root inside another one are appended to its own. -/
theorem relativeSegments_append
    {outer root path : Path}
    {rootSegments segments : List Text}
    (inside : relativeSegments outer root = some rootSegments)
    (below : relativeSegments root path = some segments) :
    relativeSegments outer path = some (rootSegments ++ segments) := by
  rw [relativeSegments, Option.map_eq_some_iff] at inside below
  obtain ⟨rootRest, rootStripped, rfl⟩ := inside
  obtain ⟨rest, stripped, rfl⟩ := below
  rw [Path.stripPrefix] at rootStripped stripped
  split_ifs at rootStripped with outerStarts
  split_ifs at stripped with starts
  obtain rfl := Option.some.inj rootStripped
  obtain rfl := Option.some.inj stripped
  obtain ⟨middle, rfl⟩ := outerStarts
  obtain ⟨last, rfl⟩ := starts
  rw [relativeSegments, Path.stripPrefix, if_pos ⟨middle ++ last, by simp⟩,
    Option.map_some, List.append_assoc, List.drop_left, List.drop_left,
    ← List.append_assoc, List.drop_left, List.filterMap_append]

theorem eq_of_repoSegments
    {root path : Path}
    {segments : List Text}
    (found : repoSegments root path = some segments) :
    relativeSegments root path = some segments := by
  rw [repoSegments, Option.bind_eq_bind, Option.bind_eq_some_iff] at found
  obtain ⟨own, ownFound, same⟩ := found
  split_ifs at same
  rw [ownFound, same]

theorem eq_of_seedResource
    {root path : Path}
    {segments : List Text}
    (found : seedResource root path = some segments) :
    relativeSegments root path = some segments := by
  rw [seedResource, Option.bind_eq_bind, Option.bind_eq_some_iff] at found
  obtain ⟨own, ownFound, same⟩ := found
  split_ifs at same
  rw [ownFound, same]

theorem refuse_unsupported_ne_none (observed : Observed) (refusal : Refusal) :
    (observed.refuse refusal).unsupported ≠ none := by
  rw [Observed.refuse]
  cases observed.unsupported <;> exact Option.some_ne_none _

/-! ## What later evidence keeps -/

/-- What was read stays: the events are the first of the later ones, and a
refusal stays one. -/
structure Observed.Grows (observed later : Observed) : Prop where
  events : observed.events <+: later.events
  refused : observed.unsupported ≠ none -> later.unsupported ≠ none

namespace Observed

theorem Grows.refl (observed : Observed) : observed.Grows observed :=
  ⟨List.prefix_refl _, id⟩

theorem Grows.trans
    {observed middle later : Observed}
    (first : observed.Grows middle)
    (second : middle.Grows later) : observed.Grows later :=
  ⟨first.events.trans second.events, second.refused ∘ first.refused⟩

theorem grows_refuse (observed : Observed) (refusal : Refusal) :
    observed.Grows (observed.refuse refusal) :=
  ⟨List.prefix_refl _, fun _ => refuse_unsupported_ne_none _ _⟩

theorem grows_refuseIf
    (observed : Observed)
    (refusal : Refusal)
    (condition : Bool) :
    observed.Grows (if condition then observed.refuse refusal else observed) := by
  split_ifs
  · exact observed.grows_refuse refusal
  · exact .refl observed

theorem grows_track (observed : Observed) (tid : Nat) (state : TidState) :
    observed.Grows (observed.track tid state) :=
  ⟨List.prefix_refl _, id⟩

theorem grows_openSpans (observed : Observed) (spans : List BuiltinBegin) :
    observed.Grows { observed with openSpans := spans } :=
  ⟨List.prefix_refl _, id⟩

/-- Steps that keep what was read keep it together. -/
theorem grows_foldl
    {α : Type}
    {step : Observed -> α -> Observed}
    (grows : ∀ (observed : Observed) (item : α),
      observed.Grows (step observed item))
    (items : List α)
    (observed : Observed) : observed.Grows (items.foldl step observed) := by
  induction items generalizing observed with
  | nil => exact .refl observed
  | cons item items hypothesis =>
      exact (grows observed item).trans (hypothesis _)

end Observed

section Records

variable (frame : Frame) (observed : Observed)

theorem grows_recordPathspec
    (action : Action)
    (cwd : Path)
    (pathspec : Text) :
    observed.Grows (recordPathspec frame action cwd observed pathspec) := by
  unfold recordPathspec
  split
  · exact ⟨List.prefix_append _ _, id⟩
  · exact observed.grows_refuse _

theorem grows_recordBegin (record : BuiltinBegin) :
    observed.Grows (recordBegin frame observed record) := by
  have opened := observed.grows_openSpans
    (observed.openSpans.filter (·.id ≠ record.id) ++ [record])
  have begun := opened.trans (Observed.grows_refuseIf _ (.beganTwice record.id)
    (observed.openSpans.any (·.id = record.id)))
  rw [recordBegin]
  dsimp only
  by_cases git : isGitBuiltin record.builtin = true
  · rw [if_pos git]
    exact begun.trans ((Observed.grows_refuseIf _ .overlappingSpans _).trans
      (Observed.grows_track _ _ _))
  · rw [if_neg git]
    exact begun

theorem grows_recordEnd (record : BuiltinEnd) :
    observed.Grows (recordEnd frame observed record) := by
  unfold recordEnd
  split
  · exact observed.grows_refuse _
  · have closed := observed.grows_openSpans
      (observed.openSpans.filter (·.id ≠ record.id))
    dsimp only
    split_ifs
    · exact closed.trans (Observed.grows_track _ _ _)
    · split
      · exact closed.trans
          ((Observed.grows_track _ _ _).trans (Observed.grows_refuse _ _))
      · exact closed.trans ((Observed.grows_track _ _ _).trans
          (Observed.grows_foldl (fun observed pathspec =>
            grows_recordPathspec frame observed _ _ pathspec) _ _))
    · exact closed

theorem grows_recordGitEffect (effect : Action × Path) :
    observed.Grows (recordGitEffect frame observed effect) := by
  unfold recordGitEffect
  split
  · exact .refl observed
  · split_ifs
    · exact ⟨List.prefix_refl _, id⟩
    · exact ⟨List.prefix_refl _, id⟩

theorem grows_recordEffect (effect : Action × Path) :
    observed.Grows (recordEffect frame observed effect) := by
  rw [recordEffect]
  split_ifs
  · split
    · exact ⟨List.prefix_refl _, id⟩
    · exact ⟨List.prefix_append _ _, id⟩
  · split
    · exact .refl observed
    · exact ⟨List.prefix_append _ _, id⟩

theorem grows_recordSyscall
    (tid : Nat)
    (name : Text)
    (args : List Text)
    (ret : Int)
    (retPath : Option Text) :
    observed.Grows
      (recordSyscall frame observed tid name args ret retPath) := by
  have tracked := observed.grows_track tid (observed.stateFor tid frame.cwd)
  rw [recordSyscall]
  split_ifs
  · split
    · exact tracked
    · exact tracked.trans (Observed.grows_track _ _ _)
  · split
    · exact tracked
    · exact tracked.trans (Observed.grows_track _ _ _)
  · exact tracked.trans (Observed.grows_track _ _ _)
  · exact tracked
  · exact tracked.trans
      ((Observed.grows_track _ _ _).trans (Observed.grows_refuse _ _))
  · exact tracked
  · exact tracked
  · exact tracked
  · exact tracked.trans
      (Observed.grows_foldl (grows_recordGitEffect frame) _ _)
  · exact tracked.trans
      (Observed.grows_foldl (grows_recordEffect frame) _ _)

theorem grows_recordItem (item : ExecutionEvent) :
    observed.Grows (recordItem frame observed item) := by
  cases item with
  | began record => exact grows_recordBegin frame observed record
  | finished record => exact grows_recordEnd frame observed record
  | system line =>
      change observed.Grows (recordLine frame observed line)
      unfold recordLine
      split
      · exact observed.grows_track _ _
      · exact grows_recordSyscall frame observed _ _ _ _ _

end Records

/-- What is read from the first part of the evidence is translated. -/
theorem grows_translate
    (debug : Text -> Text)
    (frame : Frame)
    (before after : List ExecutionEvent) :
    (∀ event ∈ (observe frame before).events,
        event ∈ (translate debug frame (before ++ after)).events) ∧
      ((observe frame before).unsupported ≠ none ->
        (translate debug frame (before ++ after)).unsupported ≠ none) := by
  have grows : (observe frame before).Grows
      (observe frame (before ++ after)) := by
    rw [observe, observe, List.foldl_append]
    exact Observed.grows_foldl (grows_recordItem frame) after _
  have whole := grows.trans (Observed.grows_refuseIf _ .spanNeverClosed
    ((observe frame (before ++ after)).openSpans.any (isGitBuiltin ·.builtin)))
  refine ⟨fun event member => ?_, fun refused => ?_⟩
  · rw [translate, dedupPreservingOrder_eq, List.mem_eraseDups]
    exact whole.events.subset member
  · exact mt Option.map_eq_none_iff.mp (whole.refused refused)

/-! ## The events of a record -/

/-- The events of a command are on some of the paths that were acted on: on all
of them, or the command is refused. -/
theorem recordPathspecs_events
    {frame : Frame}
    {action : Action}
    {root cwd : Path}
    {rootSegments : List Text}
    (inside : relativeSegments frame.workRoot root = some rootSegments)
    {pathspecs : List Text}
    {executed : List (List Text)}
    (acted : (pathspecs.map fun pathspec =>
      repoSegments root (resolve cwd pathspec)) = executed.map some)
    (observed : Observed) :
    ∃ emitted, List.Sublist emitted executed ∧
      (pathspecs.foldl (recordPathspec frame action cwd) observed).events =
        observed.events ++ emitted.map (fun segments =>
          eventOn frame action (rootSegments ++ segments)) ∧
      (emitted = executed ∨
        (pathspecs.foldl (recordPathspec frame action cwd)
          observed).unsupported ≠ none) := by
  induction pathspecs generalizing executed observed with
  | nil =>
      obtain rfl := List.map_eq_nil_iff.mp acted.symm
      exact ⟨[], List.Sublist.refl [], (List.append_nil _).symm, .inl rfl⟩
  | cons pathspec pathspecs hypothesis =>
      cases executed with
      | nil => cases acted
      | cons segments executed =>
          obtain ⟨own, rest⟩ := List.cons_eq_cons.mp acted
          have whole := relativeSegments_append inside (eq_of_repoSegments own)
          obtain ⟨emitted, among, events, complete⟩ := hypothesis rest
            (recordPathspec frame action cwd observed pathspec)
          rw [List.foldl_cons, events]
          cases found : seedResource frame.workRoot (resolve cwd pathspec) with
          | none =>
              refine ⟨emitted, among.cons segments, ?_, .inr ?_⟩
              · rw [recordPathspec, found]
                rfl
              · have later := Observed.grows_foldl
                  (fun observed pathspec =>
                    grows_recordPathspec frame observed action cwd pathspec)
                  pathspecs (recordPathspec frame action cwd observed pathspec)
                refine later.refused ?_
                rw [recordPathspec, found]
                exact refuse_unsupported_ne_none _ _
          | some resource =>
              have same : resource = rootSegments ++ segments :=
                Option.some.inj ((eq_of_seedResource found).symm.trans whole)
              refine ⟨segments :: emitted, among.cons_cons segments, ?_,
                complete.imp_left fun same => congrArg _ same⟩
              rw [recordPathspec, found, same, List.map_cons]
              exact List.append_assoc _ _ _

/-- The events a record adds are on some of the paths the builtin acted on: on
all of them once it succeeded, or the command is refused. -/
theorem recordEnd_events
    {hasGit : Path -> Bool}
    {snapshotRoot : Option Text}
    {identityFromEnv : Text -> Except Text GitEnvIdentity}
    {frame : Frame}
    (observed : Observed)
    {span : BuiltinBegin}
    (record : BuiltinEnd)
    {root : Path}
    {rootSegments : List Text}
    {invocation : GitInvocation}
    {author committer : GitEnvIdentity}
    (runs : execute hasGit snapshotRoot identityFromEnv span.cwd span.argv =
      .runs invocation root author committer)
    (inside : relativeSegments frame.workRoot root = some rootSegments)
    (git : isGitBuiltin span.builtin = true)
    (opened : observed.openSpans.find? (·.id = record.id) = some span) :
    ∃ (requested : GitInvocation) (executed emitted : List (List Text)),
      parse span.argv = .ok requested ∧
      (requested.pathspecs.map fun pathspec =>
        repoSegments root (resolve span.cwd pathspec)) = executed.map some ∧
      invocation.pathspecs = executed.map (['/'].intercalate ·) ∧
      List.Sublist emitted executed ∧
      (recordEnd frame observed record).events =
        observed.events ++ emitted.map (fun segments =>
          eventOn frame (capabilityOf invocation.action)
            (rootSegments ++ segments)) ∧
      (record.exit = 0 -> emitted = executed ∨
        (recordEnd frame observed record).unsupported ≠ none) := by
  obtain ⟨requested, parsed, sameAction, resolved⟩ := execute_eq_runs runs
  obtain ⟨executed, acted, same⟩ := resolvePathspecs_eq_ok resolved
  unfold recordEnd
  rw [opened]
  dsimp only
  rw [if_pos git]
  by_cases failed : record.exit ≠ 0
  · rw [if_pos failed]
    exact ⟨requested, executed, [], parsed, acted, same,
      List.nil_sublist executed, (List.append_nil _).symm,
      fun succeeded => absurd succeeded failed⟩
  · rw [if_neg failed, parsed, sameAction]
    obtain ⟨emitted, among, events, complete⟩ :=
      recordPathspecs_events inside acted _
    exact ⟨requested, executed, emitted, rfl, acted, same, among, events,
      fun _ => complete⟩

/-- A work root with a repository below it. -/
def workFrame : Frame :=
  ⟨⟨"agent0"⟩, Path.ofText "/work".toList, Path.ofText "/work".toList⟩

/-- A file that is staged from the repository's root. -/
def stageSpan : BuiltinBegin where
  id := 0
  ts := 1
  tid := 10
  builtin := "git add".toList
  argv := ["git".toList, "add".toList, "--".toList, "src/./a.txt".toList]
  cwd := Path.ofText "/work/repo".toList

/-- The identity of a commit. -/
def agentIdentity (_ : Text) : Except Text GitEnvIdentity :=
  .ok ⟨"agent".toList, "agent@example".toList, "1 +0000".toList⟩

theorem execute_stageSpan :
    execute (fun _ => true) (some "/work".toList) agentIdentity stageSpan.cwd
        stageSpan.argv =
      .runs ⟨.stage, ["src/a.txt".toList]⟩ stageSpan.cwd
        ⟨"agent".toList, "agent@example".toList, "1 +0000".toList⟩
        ⟨"agent".toList, "agent@example".toList, "1 +0000".toList⟩ := by
  have inside : Path.ofText "/work".toList <+: stageSpan.cwd := by decide
  have here : repoRoot (fun _ => true) (Path.ofText "/work".toList)
      stageSpan.cwd = some stageSpan.cwd := by
    rw [repoRoot, if_neg (not_not.mpr inside), if_pos rfl]
  have parsed : parse stageSpan.argv =
      .ok ⟨.stage, ["src/./a.txt".toList]⟩ := rfl
  have resolved : resolvePathspecs stageSpan.cwd stageSpan.cwd
      ["src/./a.txt".toList] = .ok ["src/a.txt".toList] := by decide
  rw [execute, parsed]
  dsimp only
  rw [Option.map_some, Option.getD_some, here]
  dsimp only
  rw [resolved]
  rfl

end Shellmux
end Marsh
