import Marsh.Library.Absorption
import Marsh.Shellmux.Authority
import Marsh.Shellmux.EventDedup
import Marsh.Shellmux.ResourceNames

/-!
# From evidence to capability events

The evidence of one execution, syscalls and builtin records in one order, read
as the capability events the command requested.
-/

namespace Marsh
namespace Shellmux

open Library
open Exec
open Validator

/-! ## Evidence -/

/-- A builtin that began. -/
structure BuiltinBegin where
  id : Nat
  ts : Nat
  tid : Nat
  /-- The name it is registered under. -/
  builtin : Text
  /-- Its argument vector, its own name included. -/
  argv : List Text
  /-- The shell's directory at the call. -/
  cwd : Path
  deriving DecidableEq, Repr

/-- A builtin that finished. -/
structure BuiltinEnd where
  id : Nat
  ts : Nat
  tid : Nat
  exit : Nat
  deriving DecidableEq, Repr

/-- One element of the ordered execution record. -/
inductive ExecutionEvent
  | system (line : TraceLine)
  | began (record : BuiltinBegin)
  | finished (record : BuiltinEnd)
  deriving DecidableEq, Repr

/-! ## Refusals -/

/-- Why a command cannot be expressed as capabilities. -/
inductive Refusal
  | beganTwice (id : Nat)
  | overlappingSpans
  | endedWithoutBeginning (id : Nat)
  | gitCommand (reason : GitCmdError)
  | outsideSnapshot (pathspec : Text)
  | gitProcess
  | spanNeverClosed
  deriving DecidableEq, Repr

/-- The sentence a git builtin prints.  Quoting a string for display is left to
`debug`. -/
def gitCmdErrorText (debug : Text -> Text) : GitCmdError -> Text
  | .noSubcommand =>
      "git without a subcommand is not mappable to capabilities".toList
  | .globalFlags => "git global flags not supported".toList
  | .leadingArguments subcommand expected got =>
      "git ".toList ++ subcommand ++ " expects ".toList ++
        Nat.toDigits 10 expected ++ " leading argument(s), got [".toList ++
        ", ".toList.intercalate (got.map debug) ++ "]".toList
  | .restoreWithoutStaged =>
      ("git restore without --staged is not a capability; " ++
        "use git checkout HEAD -- <path>").toList
  | .checkout revision =>
      "git checkout of ".toList ++ debug revision ++
        " is not mappable to capabilities".toList
  | .stash => "only `git stash push` is mappable to capabilities".toList
  | .cleanWithoutForce => "git clean requires -f".toList
  | .unknownSubcommand subcommand =>
      "git ".toList ++ subcommand ++ " not mappable to capabilities".toList
  | .emptyPathspecs subcommand =>
      "git ".toList ++ subcommand ++ " with an empty pathspec list".toList
  | .pathspecPattern pathspec =>
      "git pathspec pattern ".toList ++ debug pathspec ++
        " is not a resource".toList
  | .commitFromFile =>
      "git commit -F/--file is not mappable to capabilities".toList
  | .commitMessageMissing => "git commit -m without a message".toList

/-- The text of a refusal. -/
def Refusal.text (debug : Text -> Text) : Refusal -> Text
  | .beganTwice id =>
      "builtin record ".toList ++ Nat.toDigits 10 id ++ " began twice".toList
  | .overlappingSpans => "overlapping git builtin spans on one thread".toList
  | .endedWithoutBeginning id =>
      "builtin record ".toList ++ Nat.toDigits 10 id ++
        " ended without beginning".toList
  | .gitCommand reason => gitCmdErrorText debug reason
  | .outsideSnapshot pathspec =>
      "git pathspec ".toList ++ debug pathspec ++
        " is outside the snapshot or inside .git/".toList
  | .gitProcess =>
      "git invoked outside the git builtin is not instrumentable".toList
  | .spanNeverClosed => "a git builtin span never closed".toList

/-! ## What is tracked -/

/-- How a thread's syscalls are interpreted. -/
inductive Attr
  | shell
  | git
  deriving DecidableEq, Repr

/-- What is tracked of one thread. -/
structure TidState where
  cwd : Path
  attr : Attr
  /-- The git builtin that is executing on the thread. -/
  span : Option Nat
  deriving DecidableEq, Repr

/-- The frame one evidence item is interpreted in. -/
structure Frame where
  principal : Principal
  /-- The work snapshot. -/
  workRoot : Path
  /-- Directory the command itself started in. -/
  cwd : Path

/-- What the items read so far amount to. -/
structure Observed where
  states : Nat -> Option TidState
  /-- The builtins that have not finished. -/
  openSpans : List BuiltinBegin
  events : List Event
  gitReads : List Text
  /-- The first refusal. -/
  unsupported : Option Refusal
  wroteInRoot : Bool

namespace Observed

/-- Nothing was read. -/
def empty : Observed := ⟨fun _ => none, [], [], [], none, false⟩

/-- Records the first refusal only. -/
def refuse (observed : Observed) (refusal : Refusal) : Observed :=
  { observed with unsupported := observed.unsupported.orElse fun _ => refusal }

/-- Sets what is tracked of a thread. -/
def track (observed : Observed) (tid : Nat) (state : TidState) : Observed :=
  { observed with states := Function.update observed.states tid (some state) }

/-- The per-thread state, or that of a thread first seen in a directory. -/
def stateFor (observed : Observed) (tid : Nat) (cwd : Path) : TidState :=
  (observed.states tid).getD ⟨cwd, .shell, none⟩

end Observed

/-! ## Builtins -/

/-- One of the git variants, or the refusing catch-all. -/
def isGitBuiltin (name : Text) : Bool :=
  name = "git".toList || "git ".toList.isPrefixOf name

/-- `record_begin`. -/
def recordBegin (frame : Frame) (observed : Observed) (record : BuiltinBegin) :
    Observed :=
  let repeated := observed.openSpans.any (·.id = record.id)
  let others := observed.openSpans.filter (·.id ≠ record.id)
  let observed := { observed with openSpans := others ++ [record] }
  let observed :=
    if repeated then observed.refuse (.beganTwice record.id) else observed
  if isGitBuiltin record.builtin then
    let state := observed.stateFor record.tid frame.cwd
    let observed :=
      if state.span.isSome then observed.refuse .overlappingSpans else observed
    observed.track record.tid { state with span := some record.id }
  else observed

/-- The capability a git operation requests. -/
def capabilityOf : GitAction -> Action
  | .stage => .stage
  | .delete => .delete
  | .commit message => .commit (message.map String.ofList)
  | .unstage => .unstage
  | .checkout => .checkout
  | .stash => .stash
  | .clean => .clean
  | .diff => .diff
  | .history => .history

/-- An event on the resource of some segments. -/
def eventOn (frame : Frame) (action : Action) (segments : List Text) : Event :=
  ⟨frame.principal, action, ⟨segments.map String.ofList⟩⟩

/-- One pathspec of a git command that ran in `cwd`. -/
def recordPathspec
    (frame : Frame)
    (action : Action)
    (cwd : Path)
    (observed : Observed)
    (pathspec : Text) : Observed :=
  match seedResource frame.workRoot (resolve cwd pathspec) with
  | some segments =>
      { observed with
        events := observed.events ++ [eventOn frame action segments] }
  | none => observed.refuse (.outsideSnapshot pathspec)

/-- `record_end`. -/
def recordEnd (frame : Frame) (observed : Observed) (record : BuiltinEnd) :
    Observed :=
  match observed.openSpans.find? (·.id = record.id) with
  | none => observed.refuse (.endedWithoutBeginning record.id)
  | some span =>
      let others := observed.openSpans.filter (·.id ≠ record.id)
      let observed := { observed with openSpans := others }
      if isGitBuiltin span.builtin then
        let state := observed.stateFor span.tid span.cwd
        let observed := observed.track span.tid { state with span := none }
        -- A git builtin that failed obtained nothing.
        if record.exit ≠ 0 then observed
        else
          match parse span.argv with
          | .error reason => observed.refuse (.gitCommand reason)
          | .ok invocation =>
              invocation.pathspecs.foldl
                (recordPathspec frame (capabilityOf invocation.action) span.cwd)
                observed
      else observed

/-! ## Effects of a syscall -/

/-- `open_effect`. -/
def openEffect (flags : Option Text) (path : Option Path) :
    List (Action × Path) :=
  match path with
  | none => []
  | some path =>
      let flags := flags.getD []
      if "O_DIRECTORY".toList <:+: flags then []
      else if ["O_WRONLY", "O_RDWR", "O_CREAT", "O_TRUNC", "O_APPEND"].any
          fun flag => decide (flag.toList <:+: flags) then [(.edit, path)]
      else [(.read, path)]

/-- `edit_at`. -/
def editAt (path : Option Path) : List (Action × Path) :=
  path.toList.map fun path => (.edit, path)

/-- `file_effects`, of a thread in the directory `cwd`. -/
def fileEffects
    (name : Text)
    (args : List Text)
    (retPath : Option Text)
    (cwd : Path) : List (Action × Path) :=
  let named (names : List String) : Bool := names.any (·.toList = name)
  let path (dirfd path : Option Text) : Option Path :=
    pathAt dirfd path cwd none
  if named ["open"] then
    openEffect args[1]? (pathAt args[0]? args[0]? cwd retPath)
  else if named ["openat", "openat2"] then
    openEffect args[2]? (pathAt args[0]? args[1]? cwd retPath)
  else if named ["creat"] then editAt (pathAt args[0]? args[0]? cwd retPath)
  else if named ["unlink", "rmdir", "mkdir", "chmod", "truncate"] then
    editAt (path none args[0]?)
  else if named ["unlinkat", "mkdirat", "fchmodat"] then
    editAt (path args[0]? args[1]?)
  else if named ["symlink"] then editAt (path none args[1]?)
  else if named ["symlinkat"] then editAt (path args[1]? args[2]?)
  else if named ["link"] then editAt (path none args[1]?)
  else if named ["linkat"] then editAt (path args[2]? args[3]?)
  else if named ["rename"] then
    editAt (path none args[0]?) ++ editAt (path none args[1]?)
  else if named ["renameat", "renameat2"] then
    editAt (path args[0]? args[1]?) ++ editAt (path args[2]? args[3]?)
  else []

/-- An effect inside a git builtin: its reads are what it depends on. -/
def recordGitEffect
    (frame : Frame)
    (observed : Observed)
    (effect : Action × Path) : Observed :=
  match workRelative frame.workRoot effect.2 with
  | none => observed
  | some relative =>
      if effect.1 = .read then
        { observed with gitReads := observed.gitReads ++ [relative] }
      else { observed with wroteInRoot := true }

/-- An effect of the command itself. -/
def recordEffect
    (frame : Frame)
    (observed : Observed)
    (effect : Action × Path) : Observed :=
  let observed :=
    -- A write under `.git/` names no resource but is what the diff would find.
    if effect.1 ≠ .read ∧ (workRelative frame.workRoot effect.2).isSome then
      { observed with wroteInRoot := true }
    else observed
  match seedResource frame.workRoot effect.2 with
  | none => observed
  | some segments =>
      { observed with
        events := observed.events ++ [eventOn frame effect.1 segments] }

/-! ## Syscalls -/

/-- `basename`. -/
def basename (path : Text) : Text := (path.splitOn '/').getLastD []

/-- `argv_strings`. -/
def argvStrings (arg : Text) : List Text :=
  let inner := do
    let rest ← Text.stripPrefix ['['] (Text.trim arg)
    Text.stripSuffix [']'] rest
  (splitArgs (inner.getD arg)).filterMap parseQuoted

/-- Whether an `execve` or `execveat` runs a git binary. -/
def runsGit (name : Text) (args : List Text) : Bool :=
  let first := if name = "execve".toList then 0 else 1
  let program := (args[first]?.bind parseQuoted).getD []
  let argv := (args[first + 1]?.map argvStrings).getD []
  decide (basename program = "git".toList) ||
    argv.head?.any fun arg => decide (basename arg = "git".toList)

/-- A completed syscall, its arguments already split. -/
def recordSyscall
    (frame : Frame)
    (observed : Observed)
    (tid : Nat)
    (name : Text)
    (args : List Text)
    (ret : Int)
    (retPath : Option Text) : Observed :=
  let state := observed.stateFor tid frame.cwd
  let observed := observed.track tid state
  if name = "chdir".toList ∧ ret = 0 then
    match args.head?.bind parseQuoted with
    | none => observed
    | some path =>
        observed.track tid { state with cwd := resolve state.cwd path }
  else if name = "fchdir".toList ∧ ret = 0 then
    match args.head?.bind decoratedPath with
    | none => observed
    | some dir => observed.track tid { state with cwd := dir }
  else if (name = "clone".toList ∨ name = "clone3".toList ∨
      name = "fork".toList ∨ name = "vfork".toList) ∧ 0 < ret then
    -- A span belongs to the thread that opened it.
    if ret < 2 ^ 32 then observed.track ret.toNat { state with span := none }
    else observed
  else if (name = "execve".toList ∨ name = "execveat".toList) ∧ ret = 0 then
    if runsGit name args then
      (observed.track tid { state with attr := .git }).refuse .gitProcess
    else observed
  else if ret < 0 then observed
  -- Inside a raw-git subtree nothing is attributable.
  else if state.attr = .git then observed
  else if state.span.isSome then
    (fileEffects name args retPath state.cwd).foldl (recordGitEffect frame)
      observed
  else
    (fileEffects name args retPath state.cwd).foldl (recordEffect frame)
      observed

/-- `record_line`. -/
def recordLine (frame : Frame) (observed : Observed) (line : TraceLine) :
    Observed :=
  match line.call with
  | .exited _ =>
      observed.track line.tid (observed.stateFor line.tid frame.cwd)
  | .syscall name args ret retPath =>
      recordSyscall frame observed line.tid name (splitArgs args) ret retPath

/-! ## The whole execution -/

/-- One element of the evidence. -/
def recordItem (frame : Frame) (observed : Observed) :
    ExecutionEvent -> Observed
  | .system line => recordLine frame observed line
  | .began record => recordBegin frame observed record
  | .finished record => recordEnd frame observed record

/-- The evidence read from the start. -/
def observe (frame : Frame) (evidence : List ExecutionEvent) : Observed :=
  evidence.foldl (recordItem frame) .empty

/-- `translate`. -/
def translate
    (debug : Text -> Text)
    (frame : Frame)
    (evidence : List ExecutionEvent) : Translation :=
  let observed := observe frame evidence
  let observed :=
    if observed.openSpans.any (isGitBuiltin ·.builtin) then
      observed.refuse .spanNeverClosed
    else observed
  { events := dedupPreservingOrder observed.events
    unsupported := observed.unsupported.map fun refusal =>
      String.ofList (refusal.text debug)
    gitReads := sortDedup (observed.gitReads.map String.ofList)
    wroteInRoot := observed.wroteInRoot }

end Shellmux
end Marsh
