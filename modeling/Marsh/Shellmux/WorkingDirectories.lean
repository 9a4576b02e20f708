import Marsh.Exec.ArgumentDecoding
import Marsh.Shellmux.OneName
import Marsh.Shellmux.Translate

/-!
# Working directories

The working directory belongs to an object that threads may share.  The
translator keeps one directory for each thread, and they agree while no shared
object changes under another thread.
-/

namespace Marsh
namespace Shellmux

open Library
open Exec
open Validator

/-! ## The kernel -/

/-- A thread: its group's leader, the object its directory belongs to, and the
thread it has created while its own call has not been seen. -/
structure Thread where
  leader : Nat
  fs : Nat
  creating : Option Nat

/-- The live threads and the directories of their objects. -/
structure Kernel where
  threads : Nat -> Option Thread
  directory : Nat -> List FileName
  /-- The next object. -/
  next : Nat
  bounded : ∀ tid thread, threads tid = some thread -> thread.fs < next

/-- Where a path without links leads from a directory. -/
inductive Walks : List FileName -> Path -> List FileName -> Prop
  | here (dir : List FileName) : Walks dir [] dir
  | root {dir names : List FileName} {rest : Path}
      (walks : Walks [] rest names) : Walks dir (.rootDir :: rest) names
  | stay {dir names : List FileName} {rest : Path}
      (walks : Walks dir rest names) : Walks dir (.curDir :: rest) names
  | up {dir names : List FileName} {rest : Path}
      (walks : Walks dir.dropLast rest names) :
      Walks dir (.parentDir :: rest) names
  | down {dir names : List FileName} {rest : Path} (name : FileName)
      (walks : Walks (dir ++ [name]) rest names) :
      Walks dir (.normal name.bytes :: rest) names

/-- What a created thread shares with its creator. -/
structure Sharing where
  directory : Bool
  group : Bool

namespace Kernel

/-- One thread in a directory. -/
def start (tid : Nat) (names : List FileName) : Kernel where
  threads := Function.update (fun _ => none) tid (some ⟨tid, 0, none⟩)
  directory _ := names
  next := 1
  bounded other thread live := by
    by_cases same : other = tid
    · subst same
      rw [Function.update_self] at live
      cases live
      exact Nat.zero_lt_one
    · rw [Function.update_of_ne same] at live
      cases live

/-- An object gets another directory. -/
def change (kernel : Kernel) (fs : Nat) (names : List FileName) : Kernel :=
  { kernel with directory := Function.update kernel.directory fs names }

/-- A thread is created. -/
def create
    (kernel : Kernel)
    (creator : Thread)
    (object : creator.fs < kernel.next)
    (child : Nat)
    (sharing : Sharing) : Kernel where
  threads := Function.update kernel.threads child (some
    { leader := if sharing.group then creator.leader else child
      fs := if sharing.directory then creator.fs else kernel.next
      creating := none })
  directory :=
    if sharing.directory then kernel.directory
    else Function.update kernel.directory kernel.next
      (kernel.directory creator.fs)
  next := kernel.next + 1
  bounded tid thread live := by
    by_cases same : tid = child
    · subst same
      rw [Function.update_self] at live
      cases live
      dsimp only
      split_ifs <;> omega
    · rw [Function.update_of_ne same] at live
      exact (kernel.bounded tid thread live).trans (Nat.lt_succ_self _)

/-- A thread's call in flight changes. -/
def mark
    (kernel : Kernel)
    (tid : Nat)
    (thread : Thread)
    (live : kernel.threads tid = some thread)
    (creating : Option Nat) : Kernel where
  threads := Function.update kernel.threads tid
    (some { thread with creating := creating })
  directory := kernel.directory
  next := kernel.next
  bounded other found otherLive := by
    by_cases same : other = tid
    · subst same
      rw [Function.update_self] at otherLive
      cases otherLive
      exact kernel.bounded other thread live
    · rw [Function.update_of_ne same] at otherLive
      exact kernel.bounded other found otherLive

/-- A thread ends. -/
def finish (kernel : Kernel) (tid : Nat) : Kernel where
  threads := Function.update kernel.threads tid none
  directory := kernel.directory
  next := kernel.next
  bounded other thread live := by
    by_cases same : other = tid
    · subst same
      rw [Function.update_self] at live
      cases live
    · rw [Function.update_of_ne same] at live
      exact kernel.bounded other thread live

/-- A thread runs another program: it takes its leader's place, and the others
of its group end. -/
def exec
    (kernel : Kernel)
    (thread : Thread)
    (object : thread.fs < kernel.next) : Kernel where
  threads other :=
    if other = thread.leader then some { thread with creating := none }
    else (kernel.threads other).filter (·.leader ≠ thread.leader)
  directory := kernel.directory
  next := kernel.next
  bounded other found live := by
    split_ifs at live
    · cases live
      exact object
    · exact kernel.bounded other found (Option.eq_some_of_filter_eq_some live)

end Kernel

/-! ## Calls -/

/-- A call of a thread. -/
inductive ThreadCall
  /-- Its directory becomes that of a path. -/
  | chdir (path : List UInt8) (names : List FileName)
  /-- Its directory becomes that of a descriptor. -/
  | fchdir (fd : Nat) (names : List FileName)
  /-- It creates a thread, whose calls come after this one in the trace. -/
  | create (how args : Text) (sharing : Sharing) (child : Nat)
  /-- It creates a thread whose calls come before this one in the trace. -/
  | createEarly (sharing : Sharing) (child : Nat)
  /-- The call that created a thread comes after calls of that thread. -/
  | created (how args : Text) (child : Nat)
  /-- It runs another program; the call is seen under some thread id. -/
  | execve (name args : Text) (seen : Nat)
  /-- It ends. -/
  | finish (status : Int)
  /-- A call that changes no directory and creates no thread. -/
  | other (name args : Text) (ret : Int) (retPath : Option Text)

/-- A call that creates a thread; only some of them can share. -/
def Creates (how : Text) (sharing : Sharing) : Prop :=
  how = "clone".toList ∨ how = "clone3".toList ∨
    (how = "fork".toList ∨ how = "vfork".toList) ∧
      sharing.directory = false ∧ sharing.group = false

/-- A call that changes its thread's directory when it succeeds, or creates a
thread. -/
def Moves (name : Text) (ret : Int) : Prop :=
  (name = "chdir".toList ∨ name = "fchdir".toList) ∧ ret = 0 ∨
    (name = "clone".toList ∨ name = "clone3".toList ∨ name = "fork".toList ∨
      name = "vfork".toList) ∧ 0 < ret

instance (name : Text) (ret : Int) : Decidable (Moves name ret) :=
  inferInstanceAs (Decidable (_ ∨ _))

/-- What one call does. -/
inductive CallStep (kernel : Kernel) (tid : Nat) :
    ThreadCall -> Kernel -> Prop
  | chdir {thread : Thread} {path : List UInt8} {names : List FileName}
      (live : kernel.threads tid = some thread)
      (free : thread.creating = none)
      (walks :
        Walks (kernel.directory thread.fs) (Path.ofBytes path) names) :
      CallStep kernel tid (.chdir path names) (kernel.change thread.fs names)
  | fchdir {thread : Thread} (fd : Nat) (names : List FileName)
      (live : kernel.threads tid = some thread)
      (free : thread.creating = none) :
      CallStep kernel tid (.fchdir fd names) (kernel.change thread.fs names)
  | create {thread : Thread} {how : Text} {sharing : Sharing} {child : Nat}
      (args : Text)
      (live : kernel.threads tid = some thread)
      (free : thread.creating = none)
      (creates : Creates how sharing)
      (unused : kernel.threads child = none)
      (positive : 0 < child)
      (small : child < 2 ^ 32) :
      CallStep kernel tid (.create how args sharing child)
        (kernel.create thread (kernel.bounded tid thread live) child sharing)
  | createEarly {thread : Thread} {child : Nat} (sharing : Sharing)
      (live : kernel.threads tid = some thread)
      (free : thread.creating = none)
      (unused : kernel.threads child = none) :
      CallStep kernel tid (.createEarly sharing child)
        ((kernel.mark tid thread live (some child)).create thread
          (kernel.bounded tid thread live) child sharing)
  | created {thread : Thread} {how : Text} {child : Nat} {sharing : Sharing}
      (args : Text)
      (live : kernel.threads tid = some thread)
      (creating : thread.creating = some child)
      (creates : Creates how sharing)
      (positive : 0 < child)
      (small : child < 2 ^ 32) :
      CallStep kernel tid (.created how args child)
        (kernel.mark tid thread live none)
  | execve {thread : Thread} {name : Text} (args : Text) {seen : Nat}
      (live : kernel.threads tid = some thread)
      (free : thread.creating = none)
      (named : name = "execve".toList ∨ name = "execveat".toList)
      (own : seen = tid ∨ seen = thread.leader) :
      CallStep kernel tid (.execve name args seen)
        (kernel.exec thread (kernel.bounded tid thread live))
  | finish {thread : Thread} (status : Int)
      (live : kernel.threads tid = some thread) :
      CallStep kernel tid (.finish status) (kernel.finish tid)
  | other {thread : Thread} {name : Text} {ret : Int} (args : Text)
      (retPath : Option Text)
      (live : kernel.threads tid = some thread)
      (free : thread.creating = none)
      (still : ¬Moves name ret) :
      CallStep kernel tid (.other name args ret retPath) kernel

/-- The payload of the trace line of a call. -/
def ThreadCall.payload : ThreadCall -> Option Call
  | .chdir path _ =>
      some (.syscall "chdir".toList (quote path) 0 none)
  | .fchdir fd names =>
      some (.syscall "fchdir".toList (decorate (Nat.toDigits 10 fd) names) 0
        none)
  | .create how args _ child => some (.syscall how args child none)
  | .createEarly _ _ => none
  | .created how args child => some (.syscall how args child none)
  | .execve name args _ => some (.syscall name args 0 none)
  | .finish status => some (.exited status)
  | .other name args ret retPath => some (.syscall name args ret retPath)

/-- The thread id of the trace line of a call. -/
def ThreadCall.seenAs (tid : Nat) : ThreadCall -> Nat
  | .execve _ _ seen => seen
  | _ => tid

/-- The translator after a call was made, with its line if it has one. -/
def recordCall
    (frame : Frame)
    (observed : Observed)
    (tid tsUs : Nat)
    (call : ThreadCall) : Observed :=
  match call.payload with
  | none => observed
  | some payload =>
      recordLine frame observed ⟨call.seenAs tid, tsUs, payload⟩

/-! ## Runs -/

/-- The directory the translator resolves a thread's relative paths from. -/
def Observed.directory (observed : Observed) (frame : Frame) (tid : Nat) :
    Path :=
  (observed.stateFor tid frame.cwd).cwd

/-- The translator resolves the relative paths of every live thread from the
thread's directory. -/
def Tracks (frame : Frame) (kernel : Kernel) (observed : Observed) : Prop :=
  ∀ tid thread, kernel.threads tid = some thread ->
    observed.directory frame tid = exactPath (kernel.directory thread.fs)

/-- The kernel and the translator along a trace, every call of which is
allowed. -/
inductive Traced
    (allowed : Kernel -> Nat -> ThreadCall -> Prop)
    (frame : Frame) :
    Kernel -> Observed -> Prop
  | start (tid : Nat) {names : List FileName}
      (starts : frame.cwd = exactPath names) :
      Traced allowed frame (Kernel.start tid names) .empty
  | call {kernel next : Kernel} {observed : Observed} {tid : Nat}
      {call : ThreadCall} (tsUs : Nat)
      (traced : Traced allowed frame kernel observed)
      (step : CallStep kernel tid call next)
      (permitted : allowed kernel tid call) :
      Traced allowed frame next (recordCall frame observed tid tsUs call)

/-! ## The condition -/

/-- A directory that only one thread is in changes, or none does. -/
def Alone (kernel : Kernel) (tid : Nat) (names : List FileName) : Prop :=
  ∀ thread, kernel.threads tid = some thread ->
    names = kernel.directory thread.fs ∨
      ∀ other found, other ≠ tid -> kernel.threads other = some found ->
        found.fs ≠ thread.fs

/-- A byte of a descriptor's path that is read back. -/
def isDescriptorByte (byte : UInt8) : Bool :=
  isPlainByte byte && isWordChar (Char.ofNat byte.toNat)

/-- A call that keeps the translator and the kernel together. -/
def Careful (kernel : Kernel) (tid : Nat) : ThreadCall -> Prop
  | .chdir path names => Readable path ∧ Alone kernel tid names
  | .fchdir _ names =>
      (∀ byte ∈ FileName.absolute names, isDescriptorByte byte = true) ∧
        Alone kernel tid names
  | .createEarly _ _ => False
  | .created _ _ _ => False
  | .execve _ _ _ =>
      ∀ thread, kernel.threads tid = some thread ->
        ∃ leader, kernel.threads thread.leader = some leader ∧
          kernel.directory leader.fs = kernel.directory thread.fs
  | _ => True

/-! ## What a line changes -/

namespace Observed

variable {frame : Frame} {observed : Observed}

theorem stateFor_track (tid other : Nat) (state : TidState) (cwd : Path) :
    (observed.track tid state).stateFor other cwd =
      if other = tid then state else observed.stateFor other cwd := by
  change (Function.update observed.states tid (some state) other).getD _ = _
  split_ifs with same
  · subst same
    rw [Function.update_self]
    rfl
  · rw [Function.update_of_ne same]
    rfl

theorem directory_track (tid other : Nat) (state : TidState) :
    (observed.track tid state).directory frame other =
      if other = tid then state.cwd else observed.directory frame other := by
  unfold directory
  rw [stateFor_track]
  split_ifs <;> rfl

/-- Tracking a thread where it was tracked changes no directory. -/
theorem directory_track_same
    {tid : Nat}
    {state : TidState}
    (same : state.cwd = observed.directory frame tid)
    (other : Nat) :
    (observed.track tid state).directory frame other =
      observed.directory frame other := by
  rw [directory_track]
  split_ifs with equal
  · rw [same, equal]
  · rfl

theorem directory_foldl
    {Effect : Type}
    {record : Observed -> Effect -> Observed}
    (keeps : ∀ observed effect, (record observed effect).states =
      Observed.states observed)
    (effects : List Effect)
    (other : Nat) :
    (effects.foldl record observed).directory frame other =
      observed.directory frame other := by
  induction effects generalizing observed with
  | nil => rfl
  | cons effect effects hypothesis =>
      rw [List.foldl_cons, hypothesis, directory, stateFor, keeps]
      rfl

end Observed

theorem recordGitEffect_states
    (frame : Frame)
    (observed : Observed)
    (effect : Action × Path) :
    (recordGitEffect frame observed effect).states = observed.states := by
  unfold recordGitEffect
  split
  · rfl
  · split_ifs <;> rfl

theorem recordEffect_states
    (frame : Frame)
    (observed : Observed)
    (effect : Action × Path) :
    (recordEffect frame observed effect).states = observed.states := by
  unfold recordEffect
  dsimp only
  split
  · split_ifs <;> rfl
  · split_ifs <;> rfl

/-- A call that moves no thread changes no directory. -/
theorem directory_recordSyscall_of_still
    {frame : Frame}
    {observed : Observed}
    {tid : Nat}
    {name : Text}
    {args : List Text}
    {ret : Int}
    {retPath : Option Text}
    (still : ¬Moves name ret)
    (other : Nat) :
    (recordSyscall frame observed tid name args ret retPath).directory frame
        other = observed.directory frame other := by
  have seen : ∀ other, (observed.track tid
      (observed.stateFor tid frame.cwd)).directory frame other =
        observed.directory frame other :=
    Observed.directory_track_same rfl
  have notChdir : ¬(name = "chdir".toList ∧ ret = 0) :=
    fun both => still (.inl ⟨.inl both.1, both.2⟩)
  have notFchdir : ¬(name = "fchdir".toList ∧ ret = 0) :=
    fun both => still (.inl ⟨.inr both.1, both.2⟩)
  have notClone : ¬((name = "clone".toList ∨ name = "clone3".toList ∨
      name = "fork".toList ∨ name = "vfork".toList) ∧ 0 < ret) :=
    fun both => still (.inr both)
  unfold recordSyscall
  dsimp only
  rw [if_neg notChdir, if_neg notFchdir, if_neg notClone]
  split_ifs
  · change ((observed.track tid _).track tid _).directory frame other = _
    rw [Observed.directory_track, seen]
    split_ifs with same
    · rw [same]
      rfl
    · rfl
  · exact seen other
  · exact seen other
  · exact seen other
  · rw [Observed.directory_foldl (recordGitEffect_states frame), seen]
  · rw [Observed.directory_foldl (recordEffect_states frame), seen]

/-! ## Calls that move a thread -/

/-- A path without links is resolved as the kernel walks it. -/
theorem foldl_resolveStep_of_walks
    {dir names : List FileName}
    {path : Path}
    (walks : Walks dir path names) :
    path.foldl resolveStep (exactPath dir) = exactPath names := by
  induction walks with
  | here dir => rfl
  | root walks hypothesis => exact hypothesis
  | stay walks hypothesis => exact hypothesis
  | @up dir names rest walks hypothesis =>
      have popped : (exactPath dir).pop = exactPath dir.dropLast := by
        rcases List.eq_nil_or_concat dir with rfl | ⟨front, last, rfl⟩
        · rfl
        · rw [List.concat_eq_append, exactPath_append, List.dropLast_concat]
          have notRoot : (exactPath front ++ FileName.path [last]).getLast? ≠
              some .rootDir := by
            simp [FileName.path]
          rw [Path.pop, if_neg notRoot]
          exact List.dropLast_concat
      rw [List.foldl_cons]
      change rest.foldl resolveStep (exactPath dir).pop = _
      rw [popped]
      exact hypothesis
  | @down dir names rest name walks hypothesis =>
      rw [exactPath_append] at hypothesis
      exact hypothesis

theorem foldl_resolveStep_filter (path out : Path) :
    (path.filter (· ≠ .curDir)).foldl resolveStep out =
      path.foldl resolveStep out := by
  induction path generalizing out with
  | nil => rfl
  | cons component path hypothesis =>
      cases component with
      | curDir => exact hypothesis out
      | rootDir => exact hypothesis _
      | parentDir => exact hypothesis _
      | normal name => exact hypothesis _

theorem resolve_of_walks
    {dir names : List FileName}
    {text : Text}
    (walks : Walks dir (Path.ofBytes text.bytes) names) :
    resolve (exactPath dir) text = exactPath names := by
  have walked := foldl_resolveStep_of_walks walks
  rw [resolve_eq, Path.ofText, Path.join]
  have some : exactPath dir ≠ [] := List.cons_ne_nil _ _
  split_ifs with absolute
  · obtain absolute := absolute.resolve_right some
    obtain ⟨rest, split⟩ := List.head?_eq_some_iff.mp absolute
    rw [split] at walked ⊢
    exact walked
  · rw [List.foldl_append, foldl_resolveStep_exactPath,
      foldl_resolveStep_filter]
    exact walked

theorem splitArgs_of_passes
    {text : Text}
    (tight : Text.Tight text)
    (passes : Passes Scan.start text Scan.start) : splitArgs text = [text] := by
  have clean : ∀ arg ∈ [text], Clean arg := by
    intro arg member
    obtain rfl := List.mem_singleton.mp member
    exact ⟨passes.runs, passes.commaFree⟩
  have tightAll : ∀ arg ∈ [text], Text.Tight arg := by
    intro arg member
    obtain rfl := List.mem_singleton.mp member
    exact tight
  exact ((splitArgs_joinArgs_iff tightAll).mpr clean).2

theorem splitArgs_quote (bytes : List UInt8) :
    splitArgs (quote bytes) = [quote bytes] :=
  splitArgs_of_passes
    ⟨⟨'"', _, rfl, by decide⟩, ⟨'"' :: escape bytes, '"', rfl, by decide⟩⟩
    (passes_quote 0 bytes)

theorem isDescriptorByte_iff (byte : UInt8) :
    isDescriptorByte byte = true ↔
      isPlainByte byte = true ∧
        isWordChar (Char.ofNat byte.toNat) = true := by
  rw [isDescriptorByte, Bool.and_eq_true]

/-- The decoration of a descriptor is one argument, and gives its path. -/
theorem decoratedPath_splitArgs
    {fd : Nat}
    {names : List FileName}
    (printed : ∀ byte ∈ FileName.absolute names,
      isDescriptorByte byte = true) :
    (splitArgs (decorate (Nat.toDigits 10 fd) names)).head?.bind
      decoratedPath = some (exactPath names) := by
  have plain : ∀ byte ∈ FileName.absolute names, isPlainByte byte = true :=
    fun byte member => ((isDescriptorByte_iff byte).mp (printed byte member)).1
  have word : ∀ char ∈ decorate (Nat.toDigits 10 fd) names,
      isWordChar char = true := by
    intro char member
    rw [decorate, decoration, List.mem_append, List.mem_cons, List.mem_append,
      List.mem_singleton, escape_of_plain plain, List.mem_map] at member
    rcases member with digit | rfl | ⟨byte, listed, rfl⟩ | rfl
    · exact isWordChar_digit digit
    · decide
    · exact ((isDescriptorByte_iff byte).mp (printed byte listed)).2
    · decide
  have tight : Text.Tight (decorate (Nat.toDigits 10 fd) names) :=
    (Text.tight_toDigits (by decide) (by decide) fd).append
      ⟨'<' :: escape (FileName.absolute names), '>', rfl, by decide⟩
  have descriptor : '<' ∉ Nat.toDigits 10 fd := by
    intro member
    have digit := Nat.isDigit_of_mem_toDigits (by decide) (by decide) member
    cases digit
  rw [splitArgs_of_passes tight (passes_word word 0), List.head?_cons,
    Option.bind_some, decoratedPath_decorate descriptor, Path.ofText,
    bytes_escape_of_plain plain, FileName.ofBytes_absolute]
  rfl

/-- A printed path is one argument, and gives back its bytes. -/
theorem parseQuoted_splitArgs
    {path : List UInt8}
    (readable : Readable path) :
    ∃ text, (splitArgs (quote path)).head?.bind parseQuoted = some text ∧
      text.bytes = path := by
  have read := (parseQuoted_quote_iff path).mpr readable
  obtain ⟨text, found, same⟩ := Option.map_eq_some_iff.mp read
  refine ⟨text, ?_, same⟩
  rw [splitArgs_quote, List.head?_cons, Option.bind_some]
  exact found

/-! ## One call -/

section OneCall

variable {frame : Frame} {observed : Observed} {tid : Nat}

theorem directory_chdir
    {names newNames : List FileName}
    {path : List UInt8}
    (tracked : observed.directory frame tid = exactPath names)
    (readable : Readable path)
    (walks : Walks names (Path.ofBytes path) newNames)
    (tsUs other : Nat) :
    (recordCall frame observed tid tsUs (.chdir path newNames)).directory frame
        other =
      if other = tid then exactPath newNames
      else observed.directory frame other := by
  obtain ⟨text, read, rfl⟩ := parseQuoted_splitArgs readable
  change (recordSyscall frame observed tid "chdir".toList
    (splitArgs (quote text.bytes)) 0 none).directory frame other = _
  unfold recordSyscall
  dsimp only
  rw [if_pos ⟨rfl, rfl⟩, read]
  dsimp only
  rw [Observed.directory_track]
  split_ifs with same
  · change resolve (observed.directory frame tid) text = _
    rw [tracked]
    exact resolve_of_walks walks
  · exact Observed.directory_track_same rfl other

theorem directory_fchdir
    {fd : Nat}
    {names : List FileName}
    (printed : ∀ byte ∈ FileName.absolute names,
      isDescriptorByte byte = true)
    (tsUs other : Nat) :
    (recordCall frame observed tid tsUs (.fchdir fd names)).directory frame
        other =
      if other = tid then exactPath names
      else observed.directory frame other := by
  change (recordSyscall frame observed tid "fchdir".toList
    (splitArgs (decorate (Nat.toDigits 10 fd) names)) 0 none).directory frame
      other = _
  unfold recordSyscall
  dsimp only
  have notChdir : ¬("fchdir".toList = "chdir".toList ∧ (0 : Int) = 0) := by
    decide
  rw [if_neg notChdir, if_pos ⟨rfl, rfl⟩, decoratedPath_splitArgs printed]
  dsimp only
  rw [Observed.directory_track]
  split_ifs with same
  · rfl
  · exact Observed.directory_track_same rfl other

theorem directory_create
    {how args : Text}
    {sharing : Sharing}
    {child : Nat}
    (creates : Creates how sharing)
    (positive : 0 < child)
    (small : child < 2 ^ 32)
    (tsUs other : Nat) :
    (recordCall frame observed tid tsUs
        (.create how args sharing child)).directory frame other =
      if other = child then observed.directory frame tid
      else observed.directory frame other := by
  change (recordSyscall frame observed tid how (splitArgs args) child
    none).directory frame other = _
  have named : how = "clone".toList ∨ how = "clone3".toList ∨
      how = "fork".toList ∨ how = "vfork".toList := by
    rcases creates with same | same | ⟨same | same, _⟩
    · exact .inl same
    · exact .inr (.inl same)
    · exact .inr (.inr (.inl same))
    · exact .inr (.inr (.inr same))
  have notChdir : ¬(how = "chdir".toList ∧ (child : Int) = 0) := by omega
  have notFchdir : ¬(how = "fchdir".toList ∧ (child : Int) = 0) := by omega
  have fits : (child : Int) < 2 ^ 32 := by exact_mod_cast small
  unfold recordSyscall
  dsimp only
  rw [if_neg notChdir, if_neg notFchdir,
    if_pos ⟨named, by exact_mod_cast positive⟩, if_pos fits,
    Int.toNat_natCast, Observed.directory_track]
  split_ifs with same
  · rfl
  · exact Observed.directory_track_same rfl other

end OneCall

/-! ## Every run -/

theorem tracks_start
    {frame : Frame}
    {names : List FileName}
    (starts : frame.cwd = exactPath names)
    (tid : Nat) : Tracks frame (Kernel.start tid names) .empty := by
  intro other thread _
  exact starts

/-- A thread that changes its directory alone stays tracked with the others. -/
theorem Tracks.change
    {frame : Frame}
    {kernel : Kernel}
    {observed after : Observed}
    {tid : Nat}
    {thread : Thread}
    {names : List FileName}
    (tracks : Tracks frame kernel observed)
    (live : kernel.threads tid = some thread)
    (alone : Alone kernel tid names)
    (moved : ∀ other, after.directory frame other =
      if other = tid then exactPath names
      else observed.directory frame other) :
    Tracks frame (kernel.change thread.fs names) after := by
  intro other found otherLive
  change after.directory frame other =
    exactPath (Function.update kernel.directory thread.fs names found.fs)
  rw [moved]
  split_ifs with same
  · subst same
    obtain rfl := Option.some.inj (live.symm.trans otherLive)
    rw [Function.update_self]
  · rw [tracks other found otherLive]
    rcases alone thread live with unchanged | separate
    · rw [unchanged, Function.update_eq_self]
    · rw [Function.update_of_ne (separate other found same otherLive)]

/-- A created thread is tracked where its creator is. -/
theorem Tracks.create
    {frame : Frame}
    {kernel : Kernel}
    {observed after : Observed}
    {tid child : Nat}
    {thread : Thread}
    {sharing : Sharing}
    (tracks : Tracks frame kernel observed)
    (live : kernel.threads tid = some thread)
    (moved : ∀ other, after.directory frame other =
      if other = child then observed.directory frame tid
      else observed.directory frame other) :
    Tracks frame
      (kernel.create thread (kernel.bounded tid thread live) child sharing)
      after := by
  intro other found otherLive
  change Function.update kernel.threads child _ other = some found at otherLive
  change after.directory frame other = exactPath
    ((if sharing.directory then kernel.directory
      else Function.update kernel.directory kernel.next
        (kernel.directory thread.fs)) found.fs)
  rw [moved]
  split_ifs with same shared shared
  · subst same
    rw [Function.update_self] at otherLive
    cases otherLive
    dsimp only
    rw [if_pos shared]
    exact tracks tid thread live
  · subst same
    rw [Function.update_self] at otherLive
    cases otherLive
    dsimp only
    rw [if_neg shared, Function.update_self]
    exact tracks tid thread live
  · rw [Function.update_of_ne same] at otherLive
    exact tracks other found otherLive
  · rw [Function.update_of_ne same] at otherLive
    have older := kernel.bounded other found otherLive
    rw [Function.update_of_ne (Nat.ne_of_lt older)]
    exact tracks other found otherLive

/-- A careful call keeps every live thread tracked. -/
theorem Tracks.call
    {frame : Frame}
    {kernel next : Kernel}
    {observed : Observed}
    {tid : Nat}
    {call : ThreadCall}
    (tracks : Tracks frame kernel observed)
    (step : CallStep kernel tid call next)
    (careful : Careful kernel tid call)
    (tsUs : Nat) :
    Tracks frame next (recordCall frame observed tid tsUs call) := by
  cases step with
  | chdir live free walks =>
      exact tracks.change live careful.2
        (directory_chdir (tracks tid _ live) careful.1 walks tsUs)
  | fchdir fd names live free =>
      exact tracks.change live careful.2 (directory_fchdir careful.1 tsUs)
  | create args live free creates unused positive small =>
      exact tracks.create live (directory_create creates positive small tsUs)
  | createEarly sharing live free unused => exact careful.elim
  | created args live creating creates positive small => exact careful.elim
  | @execve thread name args seen live free named own =>
      have still : ¬Moves name 0 := by
        rcases named with rfl | rfl <;> decide
      intro other found otherLive
      change (if other = thread.leader then _ else _) = some found at otherLive
      change (recordSyscall frame observed seen name (splitArgs args) 0
        none).directory frame other = exactPath (kernel.directory found.fs)
      rw [directory_recordSyscall_of_still still]
      split_ifs at otherLive with leads
      · cases otherLive
        obtain ⟨leader, leaderLive, together⟩ := careful thread live
        rw [leads, tracks thread.leader leader leaderLive, together]
      · exact tracks other found
          (Option.eq_some_of_filter_eq_some otherLive)
  | finish status live =>
      intro other found otherLive
      change Function.update kernel.threads tid none other = some found
        at otherLive
      change (observed.track tid (observed.stateFor tid frame.cwd)).directory
        frame other = exactPath (kernel.directory found.fs)
      rw [Observed.directory_track_same rfl]
      by_cases same : other = tid
      · subst same
        rw [Function.update_self] at otherLive
        cases otherLive
      · rw [Function.update_of_ne same] at otherLive
        exact tracks other found otherLive
  | other args retPath live free still =>
      intro other found otherLive
      change (recordSyscall frame observed tid _ (splitArgs args) _
        retPath).directory frame other = _
      rw [directory_recordSyscall_of_still still]
      exact tracks other found otherLive

/-- Along every trace of careful calls the translator resolves the relative
paths of every live thread from the directory the thread is in. -/
theorem tracks_of_careful
    {frame : Frame}
    {kernel : Kernel}
    {observed : Observed}
    (traced : Traced Careful frame kernel observed) :
    Tracks frame kernel observed := by
  induction traced with
  | start tid starts => exact tracks_start starts tid
  | call tsUs traced step permitted hypothesis =>
      exact hypothesis.call step permitted tsUs

/-! ## A shared directory -/

/-- The name of a directory. -/
def srcName : FileName where
  bytes := [115, 114, 99]
  ne_nil := by decide
  not_curDir := by decide
  not_parentDir := by decide
  slash_notMem := by decide
  nul_notMem := by decide

/-- A command that starts at the root. -/
def rootFrame : Frame := ⟨⟨"agent0"⟩, exactPath [], exactPath []⟩

/-- The thread 11 that thread 10 created, and changed directory in. -/
def movedChild (sharing : Sharing) : Kernel :=
  ((Kernel.start 10 []).create ⟨10, 0, none⟩ Nat.zero_lt_one 11
    sharing).change (if sharing.directory then 0 else 1) [srcName]

/-- The translator after thread 10 created thread 11, which changed directory. -/
def recordedChild (sharing : Sharing) : Observed :=
  recordCall rootFrame
    (recordCall rootFrame .empty 10 1
      (.create "clone".toList "flags=CLONE_FS".toList sharing 11))
    11 2 (.chdir srcName.bytes [srcName])

theorem creates_child (sharing : Sharing) :
    CallStep (Kernel.start 10 []) 10
      (.create "clone".toList "flags=CLONE_FS".toList sharing 11)
      ((Kernel.start 10 []).create ⟨10, 0, none⟩ Nat.zero_lt_one 11
        sharing) :=
  .create _ rfl rfl (.inl rfl) rfl (by decide) (by decide)

theorem moves_child (sharing : Sharing) :
    CallStep
      ((Kernel.start 10 []).create ⟨10, 0, none⟩ Nat.zero_lt_one 11 sharing)
      11 (.chdir srcName.bytes [srcName]) (movedChild sharing) := by
  obtain ⟨shared, group⟩ := sharing
  have walks : Walks [] (Path.ofBytes srcName.bytes) [srcName] :=
    .down srcName (.here [srcName])
  cases shared with
  | false =>
      exact @CallStep.chdir _ 11 ⟨if group then 10 else 11, 1, none⟩ _ _ rfl
        rfl walks
  | true =>
      exact @CallStep.chdir _ 11 ⟨if group then 10 else 11, 0, none⟩ _ _ rfl
        rfl walks

/-- Every call of a trace. -/
def anyCall (_ : Kernel) (_ : Nat) (_ : ThreadCall) : Prop := True

/-- A directory changed by a thread that shares it is not tracked for the other
one. -/
theorem not_tracks_shared :
    ∃ kernel observed, Traced anyCall rootFrame kernel observed ∧
      ¬Tracks rootFrame kernel observed := by
  refine ⟨movedChild ⟨true, true⟩, recordedChild ⟨true, true⟩, ?_, ?_⟩
  · exact .call 2 (.call 1 (.start 10 rfl) (creates_child _) trivial)
      (moves_child _) trivial
  · intro tracks
    have same := tracks 10 ⟨10, 0, none⟩ rfl
    revert same
    decide

/-- A directory changed by a thread of its own is tracked. -/
theorem tracks_of_careful_child :
    Tracks rootFrame (movedChild ⟨false, false⟩)
      (recordedChild ⟨false, false⟩) := by
  have separate : Alone
      ((Kernel.start 10 []).create ⟨10, 0, none⟩ Nat.zero_lt_one 11
        ⟨false, false⟩) 11 [srcName] := by
    intro thread live
    cases live
    refine .inr fun other found different otherLive => ?_
    have older : (Kernel.start 10 []).threads other = some found := by
      rw [← otherLive]
      exact (Function.update_of_ne different _ _).symm
    exact Nat.ne_of_lt ((Kernel.start 10 []).bounded other found older)
  exact tracks_of_careful
    (.call 2 (.call 1 (.start 10 rfl) (creates_child _) trivial)
      (moves_child _) ⟨readable_of_plain (by decide +kernel), separate⟩)

end Shellmux
end Marsh
