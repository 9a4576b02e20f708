import Marsh.Trace.Execution

/-!
# Granted traces execute

In a repository that starts as the seed commit, every operation the policy
grants on a path where the generator's model allows it exits with zero, and the
policy's rows and the generator's model stay true of the repository.
-/

namespace Marsh
namespace Trace

open Library Exec Validator Policy Policy.Git Gitexec
open Operation

/-! ## Lines that name their step -/

/-- A list that starts with an item found nowhere else in it ends in no other
such list. -/
theorem eq_of_suffix_of_mark
    {α : Type}
    {mark : α}
    {short long : List α}
    (once : mark ∉ long)
    (suffix : mark :: short <:+ mark :: long) : short = long := by
  rcases List.suffix_cons_iff.mp suffix with same | inside
  · exact (List.cons.inj same).2
  · exact absurd (inside.subset List.mem_cons_self) once

/-- Two such lists a third one ends in are one. -/
theorem eq_of_common_suffix
    {α : Type}
    {mark : α}
    {one other whole : List α}
    (once : mark ∉ one)
    (otherOnce : mark ∉ other)
    (first : mark :: one <:+ whole)
    (second : mark :: other <:+ whole) : one = other := by
  rcases Nat.le_total (mark :: one).length (mark :: other).length with
    shorter | longer
  · exact eq_of_suffix_of_mark otherOnce
      (List.suffix_of_suffix_length_le first second shorter)
  · exact (eq_of_suffix_of_mark once
      (List.suffix_of_suffix_length_le second first longer)).symm

theorem digit_of_toDigits
    {number : Nat}
    {char : Char}
    (member : char ∈ Nat.toDigits 10 number) :
    48 ≤ char.toNat ∧ char.toNat ≤ 57 := by
  have digit := Nat.isDigit_of_mem_toDigits (by decide) (by decide) member
  exact ⟨of_decide_eq_true (Bool.and_eq_true _ _ ▸ digit).1,
    of_decide_eq_true (Bool.and_eq_true _ _ ▸ digit).2⟩

/-- The bytes of a line that names its step. -/
theorem bytes_stepLine (step : Nat) :
    (stepLine step).bytes =
      115 :: ([116, 101, 112, 32] ++
        ((Nat.toDigits 10 step).map fun char => UInt8.ofNat char.toNat) ++
        [10]) := by
  rw [stepLine, Text.bytes_append, Text.bytes_append,
    Text.bytes_of_ascii fun char member =>
      Nat.lt_of_le_of_lt (digit_of_toDigits member).2 (by decide)]
  rfl

/-- The codes of digits. -/
theorem toNat_code
    {number : Nat}
    {char : Char}
    (member : char ∈ Nat.toDigits 10 number) :
    (UInt8.ofNat char.toNat).toNat = char.toNat := by
  have small : char.toNat < 256 :=
    Nat.lt_of_le_of_lt (digit_of_toDigits member).2 (by decide)
  simp [Nat.mod_eq_of_lt small]

/-- Digits are read back from their codes. -/
theorem map_ofNat_codes (number : Nat) :
    ((Nat.toDigits 10 number).map fun char => UInt8.ofNat char.toNat).map
      (fun byte => Char.ofNat byte.toNat) = Nat.toDigits 10 number := by
  rw [List.map_map]
  refine (List.map_congr_left fun char member => ?_).trans (List.map_id _)
  rw [Function.comp_apply, toNat_code member, Char.ofNat_toNat, id]

/-- Content ends in the line of one step at most. -/
theorem step_eq_of_suffix
    {step other : Nat}
    {content : List UInt8}
    (first : (stepLine step).bytes <:+ content)
    (second : (stepLine other).bytes <:+ content) : step = other := by
  have once : ∀ number : Nat, (115 : UInt8) ∉ [116, 101, 112, 32] ++
      ((Nat.toDigits 10 number).map fun char => UInt8.ofNat char.toNat) ++
      [10] := by
    intro number member
    simp only [List.mem_append, List.mem_map] at member
    rcases member with (start | ⟨char, digit, same⟩) | last
    · exact absurd start (by decide)
    · have code := toNat_code digit
      rw [same] at code
      have high := (digit_of_toDigits digit).2
      rw [← code] at high
      exact absurd high (by decide)
    · exact absurd last (by decide)
  rw [bytes_stepLine] at first second
  have same := eq_of_common_suffix (once step) (once other) first second
  have digits := List.append_cancel_right (List.append_cancel_left
    (by simpa only [List.append_assoc] using same))
  have texts : Nat.toDigits 10 step = Nat.toDigits 10 other := by
    rw [← map_ofNat_codes step, digits, map_ofNat_codes]
  rw [← @Nat.ofDigitChars_ten_toDigits step, texts,
    Nat.ofDigitChars_ten_toDigits]

/-! ## What stays true -/

section Faithful

variable {Oid Index Tree : Type}
variable {git : Libgit2 Oid Index Tree} {workdir : Location}
variable {start state next : GitState Index Tree}

/-- Whether a blob is a stored file that ends in the line of no step from this
one on. -/
structure Past
    (git : Libgit2 Oid Index Tree)
    (step : Nat)
    (blob : Blob Oid) : Prop where
  stored : Stored git blob
  older : ∀ content, git.findBlob blob.id = .ok content -> ∀ later, step ≤ later ->
    ¬ (stepLine later).bytes <:+ content

theorem Past.succ
    {step : Nat}
    {blob : Blob Oid}
    (past : Past git step blob) : Past git (step + 1) blob :=
  ⟨past.stored, fun content found later after =>
    past.older content found later (Nat.le_of_succ_le after)⟩

/-- Whether a blob is at one of the places of a path. -/
def Holds {β : Type} (places : Places β) (blob : β) : Prop :=
  places.head = some blob ∨ places.index = some blob ∨
    places.working = some blob

/-- An action brings nothing to a path's places but what an edit leaves. -/
theorem holds_of_after
    {β : Type}
    {places : Places β}
    {edited : Option β}
    {action : Action}
    {blob : β}
    (holds : Holds (places.after edited action) blob) :
    Holds places blob ∨ action = .edit ∧ edited = some blob := by
  rw [Holds] at holds ⊢
  cases action with
  | edit =>
      rcases holds with head | index | working
      · exact .inl (.inl head)
      · exact .inl (.inr (.inl index))
      · exact .inr ⟨rfl, working⟩
  | stage =>
      rcases holds with head | index | working
      · exact .inl (.inl head)
      · exact .inl (.inr (.inr index))
      · exact .inl (.inr (.inr working))
  | unstage =>
      rcases holds with head | index | working
      · exact .inl (.inl head)
      · exact .inl (.inl index)
      · exact .inl (.inr (.inr working))
  | commit =>
      rcases holds with head | index | working
      · exact .inl (.inr (.inr head))
      · exact .inl (.inr (.inr index))
      · exact .inl (.inr (.inr working))
  | checkout =>
      rcases holds with head | index | working
      · exact .inl (.inl head)
      · exact .inl (.inl index)
      · exact .inl (.inl working)
  | stash =>
      rcases holds with head | index | working
      · exact .inl (.inl head)
      · exact .inl (.inl index)
      · exact .inl (.inl working)
  | delete =>
      rcases holds with head | index | working
      · exact .inl (.inl head)
      · cases index
      · cases working
  | clean =>
      rcases holds with head | index | working
      · exact .inl (.inl head)
      · exact .inl (.inr (.inl index))
      · rw [Places.after] at working
        dsimp only at working
        split_ifs at working
        exact .inl (.inr (.inr working))
  | read => exact .inl holds
  | diff => exact .inl holds
  | history => exact .inl holds

/-- Whether the policy's rows and the generator's model are true of a repository
that changed on the pooled paths only. -/
structure Faithful
    (git : Libgit2 Oid Index Tree)
    (workdir : Location)
    (start : GitState Index Tree)
    (pool : PoolState)
    (history : List Event)
    (step : Nat)
    (state : GitState Index Tree) : Prop where
  home : ∀ file, Home state.files workdir (pathFor file)
  agrees : ∀ file,
    Agrees (stateOf (resourceFor file) history).row (pool.present file)
      (pool.tracked file) (placesOf git workdir state (pathFor file))
  past : ∀ file blob, Holds (placesOf git workdir state (pathFor file)) blob ->
    Past git step blob
  elsewhere : ∀ other, (∀ file, other ≠ workdir ++ pathFor file) ->
    state.files.find other = start.files.find other
  branch : state.branch = start.branch

variable {pool : PoolState} {history : List Event} {step : Nat}

/-- A refused candidate takes a step that changes nothing. -/
theorem Faithful.skip
    (faithful : Faithful git workdir start pool history step state) :
    Faithful git workdir start pool history (step + 1) state :=
  { faithful with
    past := fun file blob holds => (faithful.past file blob holds).succ }

/-- What a command that performs a candidate does. -/
structure Performs
    (git : Libgit2 Oid Index Tree)
    (workdir : Location)
    (candidate : Candidate)
    (state : GitState Index Tree)
    (result : Int × GitState Index Tree) : Prop where
  zero : result.1 = 0
  changes : ChangesOnly git workdir (pathFor candidate.file) state result.2
  home : Home result.2.files workdir (pathFor candidate.file)
  places : ∃ edited,
    placesOf git workdir result.2 (pathFor candidate.file) =
      (placesOf git workdir state (pathFor candidate.file)).after edited
        (candidate.operation.action candidate.step) ∧
      (candidate.operation.action candidate.step = .edit ->
        Edits candidate.operation edited
            (placesOf git workdir state (pathFor candidate.file)).head ∧
          ∀ blob ∈ edited, Past git (candidate.step + 1) blob)

/-- The row of a resource after an event on another one. -/
theorem stateOf_append_of_ne
    {event : Event}
    {resource : Resource}
    (apart : event.resource ≠ resource) :
    stateOf resource (history ++ [event]) = stateOf resource history := by
  rw [stateOf_append_singleton, advance, if_neg apart]

/-- The row of a resource after an event on it. -/
theorem row_append_self (event : Event) :
    (stateOf event.resource (history ++ [event])).row =
      (stateOf event.resource history).row.next event.principal
        event.action := by
  rw [stateOf_append_singleton, advance, if_pos rfl]
  rfl

/-- What a granted candidate whose command performs it leaves true. -/
theorem Faithful.perform
    (faithful : Faithful git workdir start pool history step state)
    {candidate : Candidate}
    (drawn : candidate.step = step)
    (allowed : pool.allows candidate.operation candidate.file = true)
    (granted : rowCell (candidate.operation.action candidate.step)
      ((stateOf (resourceFor candidate.file) history).row.view
        (principalFor candidate.agent)) = none)
    {result : Int × GitState Index Tree}
    (performs : Performs git workdir candidate state result) :
    Faithful git workdir start (pool.recordGrant candidate)
      (history ++ [candidate.event]) (step + 1) result.2 := by
  obtain ⟨edited, places, edits⟩ := performs.places
  refine ⟨fun file => ?_, fun file => ?_, fun file blob holds => ?_,
    fun other away => ?_, performs.changes.branch.trans faithful.branch⟩
  · by_cases own : file = candidate.file
    · rw [own]
      exact performs.home
    · exact performs.changes.home (pathFor_apart _ _ (Ne.symm own))
        (faithful.home file)
  · by_cases own : file = candidate.file
    · rw [own, places]
      have row := @row_append_self history candidate.event
      rw [show resourceFor candidate.file = candidate.event.resource from rfl,
        row]
      exact (faithful.agrees candidate.file).step allowed granted
        fun edit => (edits edit).1
    · have apart : candidate.event.resource ≠ resourceFor file :=
        fun same => own (resourceFor_injective same).symm
      obtain ⟨present, tracked⟩ := @PoolState.recordGrant_of_ne pool _ _ own
      rw [stateOf_append_of_ne apart, present, tracked,
        performs.changes.placesOf_eq (pathFor_apart _ _ (Ne.symm own))]
      exact faithful.agrees file
  · by_cases own : file = candidate.file
    · rw [own, places] at holds
      rcases holds_of_after holds with earlier | ⟨edit, new⟩
      · exact (faithful.past _ blob earlier).succ
      · exact drawn ▸ (edits edit).2 blob new
    · rw [performs.changes.placesOf_eq (pathFor_apart _ _ (Ne.symm own))]
        at holds
      exact (faithful.past file blob holds).succ
  · rw [performs.changes.files other (away candidate.file)]
    exact faithful.elsewhere other away

end Faithful

/-! ## What a command does -/

/-- What a repository that hosts a trace provides: the library behaves as it is
documented to, opens the repository while nothing but the pooled paths changed,
and takes their names and the identities. -/
structure Hosts
    {Oid Index Tree : Type}
    (git : Libgit2 Oid Index Tree)
    (workdir : Location)
    (creation : Nat)
    (author committer : GitEnvIdentity)
    (start : GitState Index Tree) : Prop where
  lawful : git.Lawful
  opens : ∀ files : FileTree,
    (∀ other, (∀ file, other ≠ workdir ++ pathFor file) ->
      files.find other = start.files.find other) ->
    git.openRepository files workdir = .ok ()
  author : git.signature author = true
  committer : git.signature committer = true
  prints : ∀ index files specs, ∃ patch,
    git.printDiff index files workdir specs = .ok patch
  walks : ∀ head, ∃ commits, git.revwalk head = .ok commits
  accepts : ∀ file, git.accepts (pathFor file) = true
  branch : '\x00' ∉ start.branch
  uniform : UniformMode creation

section Commands

variable {Oid Index Tree : Type}
variable {git : Libgit2 Oid Index Tree} {workdir : Location}
variable {creation : Nat} {author committer : GitEnvIdentity}
variable {start state next : GitState Index Tree}
variable {pool : PoolState} {history : List Event} {candidate : Candidate}

/-- A path that ends in the line of a step gets content that `HEAD` does not
have. -/
theorem performs_of_line
    (lawful : git.Lawful)
    (faithful : Faithful git workdir start pool history candidate.step state)
    (edits : candidate.operation.action candidate.step = .edit)
    (kept : candidate.operation ≠ .delete)
    {content : List UInt8}
    {mode : Nat}
    (uniform : UniformMode mode)
    (line : (stepLine candidate.step).bytes <:+ content) :
    Performs git workdir candidate state
      (0, { state with
        files := state.files.set (workdir ++ pathFor candidate.file)
          (.file content mode) (faithful.home candidate.file).vacant }) := by
  have home := faithful.home candidate.file
  have after := @Home.of_set _ _ _ home content mode uniform
  have found := @FileTree.find_set_self state.files
    (workdir ++ pathFor candidate.file) (.file content mode) home.vacant
  have working : workingBlob git
      (state.files.set (workdir ++ pathFor candidate.file) (.file content mode)
        home.vacant) workdir (pathFor candidate.file) =
      some ⟨git.blob content,
        if isExecutable mode then .blobExecutable else .blob⟩ := by
    rw [workingBlob, found]
    rfl
  have stored := lawful.findBlob_blob content
  refine ⟨rfl, ⟨fun _ _ => rfl, fun _ _ => rfl, fun other apart => ?_, rfl⟩,
    after, some ⟨git.blob content,
      if isExecutable mode then .blobExecutable else .blob⟩, ?_, fun _ => ⟨⟨?_,
      ?_⟩, fun blob is => ⟨?_, fun other same later afterwards ends => ?_⟩⟩⟩
  · exact @FileTree.find_set_of_ne state.files _ _ home.vacant _ apart
  · rw [edits]
    ext1
    · rfl
    · rfl
    · exact working
  · intro same
    exact (faithful.past candidate.file _ (.inl same.symm)).older content stored
      candidate.step (Nat.le_refl _) line
  · exact ⟨fun missing => absurd missing (Option.some_ne_none _),
      fun gone => absurd gone kept⟩
  · exact stored_of_home lawful after (is ▸ working)
  · cases is
    rw [stored] at same
    cases same
    have step := step_eq_of_suffix ends line
    omega

/-- A path at home is written with a line. -/
theorem performs_create
    [DecidableEq Oid]
    (hosts : Hosts git workdir creation author committer start)
    (faithful : Faithful git workdir start pool history candidate.step state)
    (operation : candidate.operation = .create) :
    Performs git workdir candidate state
      (commandOf git workdir creation author committer candidate state) := by
  have home := faithful.home candidate.file
  obtain ⟨mode, writes, was⟩ :=
    home.write (stepLine candidate.step).bytes creation
  have uniform : UniformMode mode := by
    rcases was with ⟨-, rfl⟩ | ⟨old, found⟩
    · exact hosts.uniform
    · obtain ⟨content, other, same, uniform⟩ := home.regular _ found
      cases same
      exact uniform
  rw [commandOf, operation, commandFor]
  rw [onWorkTree, writes]
  exact performs_of_line hosts.lawful faithful (by rw [operation]; rfl)
    (by rw [operation]; decide) uniform (List.suffix_refl _)

/-- What a path that is present holds. -/
theorem file_of_present
    (faithful : Faithful git workdir start pool history candidate.step state)
    (present : pool.present candidate.file = true) :
    ∃ content mode, state.files.find (workdir ++ pathFor candidate.file) =
      some (.file content mode) ∧ UniformMode mode := by
  have working := (faithful.agrees candidate.file).present_iff.mp present
  obtain ⟨blob, is⟩ := Option.ne_none_iff_exists'.mp working
  obtain ⟨node, found, -⟩ := Option.bind_eq_some_iff.mp is
  obtain ⟨content, mode, rfl, uniform⟩ :=
    (faithful.home candidate.file).regular node found
  exact ⟨content, mode, found, uniform⟩

/-- A present path gets one more line. -/
theorem performs_modify
    [DecidableEq Oid]
    (hosts : Hosts git workdir creation author committer start)
    (faithful : Faithful git workdir start pool history candidate.step state)
    (operation : candidate.operation = .modify)
    (allowed : pool.allows candidate.operation candidate.file = true) :
    Performs git workdir candidate state
      (commandOf git workdir creation author committer candidate state) := by
  rw [operation] at allowed
  obtain ⟨content, mode, found, uniform⟩ := file_of_present faithful allowed
  have home := faithful.home candidate.file
  have appends : state.files.append (absolute workdir (pathFor candidate.file))
      (stepLine candidate.step).bytes creation =
      .ok (state.files.set (workdir ++ pathFor candidate.file)
        (.file (content ++ (stepLine candidate.step).bytes) mode)
        home.vacant) := by
    rw [FileTree.append, home.follow]
    simp only [bind, Except.bind, found]
    exact FileTree.put_of_vacant home.vacant
  rw [commandOf, operation, commandFor]
  rw [onWorkTree, appends]
  exact performs_of_line hosts.lawful faithful (by rw [operation]; rfl)
    (by rw [operation]; decide) uniform (List.suffix_append _ _)

/-- A present path is removed. -/
theorem performs_delete
    [DecidableEq Oid]
    (faithful : Faithful git workdir start pool history candidate.step state)
    (operation : candidate.operation = .delete)
    (allowed : pool.allows candidate.operation candidate.file = true) :
    Performs git workdir candidate state
      (commandOf git workdir creation author committer candidate state) := by
  rw [operation] at allowed
  obtain ⟨content, mode, found, -⟩ := file_of_present faithful allowed
  have home := faithful.home candidate.file
  have unlinks := FileTree.unlink_of_leaf
    (FileTree.locate_of_found (by rw [found]; exact Option.some_ne_none _))
    (FileTree.leaf_eq_some.mpr ⟨found, by simp⟩) home.direct.nonroot
  have gone := @replaced_of_unlink _ _ state _ workdir (pathFor candidate.file)
    home.direct (onFiles_of_ok (change_of_ok unlinks))
  rw [commandOf, operation, commandFor]
  rw [onWorkTree, absolute, unlinks]
  dsimp only
  have changes : ChangesOnly git workdir (pathFor candidate.file) state
      { state with files := state.files.drop _ home.direct.nonroot } :=
    ⟨fun _ _ => rfl, fun _ _ => rfl, gone.there, rfl⟩
  refine ⟨rfl, changes, changes.home_self home fun node there => ?_, none, ?_,
    fun _ => ⟨⟨?_, ?_⟩, fun blob is => by cases is⟩⟩
  · rw [gone.here] at there
    cases there
  · rw [operation]
    ext1
    · rfl
    · rfl
    · exact workingBlob_of_none gone.here
  · exact (faithful.agrees candidate.file).committed.symm
  · exact ⟨fun _ => operation, fun _ => rfl⟩

/-- A present path is read. -/
theorem performs_read
    [DecidableEq Oid]
    (faithful : Faithful git workdir start pool history candidate.step state)
    (operation : candidate.operation = .read)
    (allowed : pool.allows candidate.operation candidate.file = true) :
    Performs git workdir candidate state
      (commandOf git workdir creation author committer candidate state) := by
  rw [operation] at allowed
  obtain ⟨content, mode, found, -⟩ := file_of_present faithful allowed
  have reads := FileTree.read_of_file
    (FileTree.locate_of_found (by rw [found]; exact Option.some_ne_none _))
    found
  rw [commandOf, operation, commandFor]
  rw [absolute, reads]
  refine ⟨rfl, ⟨fun _ _ => rfl, fun _ _ => rfl, fun _ _ => rfl, rfl⟩,
    faithful.home candidate.file, none, ?_, fun edit => ?_⟩
  · rw [operation]
    rfl
  · rw [operation] at edit
    cases edit

/-! ## What a builtin does -/

variable [DecidableEq Oid]

/-- A builtin of a repository that opens. -/
theorem run_of_perform
    {action : GitAction}
    {specs : List Location}
    {code : Int}
    (opens : git.openRepository state.files workdir = .ok ())
    (signs : git.signature author = true ∧ git.signature committer = true)
    (performs : perform git workdir creation action specs author committer
      state = (.ok code, next)) :
    run git workdir creation action specs author committer state =
      (code, next) := by
  rw [run, opens]
  dsimp only
  rw [if_pos (by rw [signs.1, signs.2]; rfl), performs]

/-- A builtin that refines the action of its candidate performs it. -/
theorem performs_builtin
    (hosts : Hosts git workdir creation author committer start)
    (faithful : Faithful git workdir start pool history candidate.step state)
    (action : GitAction)
    (command : commandOf git workdir creation author committer candidate state =
      run git workdir creation action [pathFor candidate.file] author committer
        state)
    (builtin : candidate.operation.action candidate.step ≠ .edit)
    (succeeds : (perform git workdir creation action [pathFor candidate.file]
      author committer state).1 = .ok 0)
    (refines : ∀ next, perform git workdir creation action
        [pathFor candidate.file] author committer state = (.ok 0, next) ->
      Refines git workdir (pathFor candidate.file)
        (candidate.operation.action candidate.step) state next) :
    Performs git workdir candidate state
      (commandOf git workdir creation author committer candidate state) := by
  cases ran : perform git workdir creation action [pathFor candidate.file]
      author committer state with
  | mk result next =>
      rw [ran] at succeeds
      dsimp only at succeeds
      subst succeeds
      have opens := hosts.opens state.files faithful.elsewhere
      rw [command, run_of_perform opens ⟨hosts.author, hosts.committer⟩ ran]
      obtain ⟨changes, places, home⟩ := refines next ran
      exact ⟨rfl, changes, home, none, places,
        fun edit => absurd edit builtin⟩

omit [DecidableEq Oid] in
/-- A builtin that changes nothing refines an action that does not. -/
theorem refines_of_untouched
    {spec : Location}
    {action : Action}
    (home : Home state.files workdir spec)
    (same : ∀ places : Places (Blob Oid), places.after none action = places)
    (untouched : state.Untouched next) :
    Refines git workdir spec action state next := by
  have head : headTree next = headTree state := by
    rw [headTree, headTree, untouched.head]
  refine ⟨⟨fun _ _ => by rw [head], fun _ _ => by rw [untouched.index],
    fun _ _ => by rw [untouched.files], untouched.branch⟩, ?_,
    by rw [untouched.files]; exact home⟩
  rw [same]
  ext1
  · exact congrArg (committedBlob git · spec) head
  · exact congrArg (indexBlob git · spec) untouched.index
  · exact congrArg (workingBlob git · workdir spec) untouched.files

omit [DecidableEq Oid] in
theorem indexGet_ne_none
    {spec : Location}
    (known : (placesOf git workdir state spec).index ≠ none) :
    git.indexGet state.index spec ≠ none := by
  intro missing
  refine known ?_
  change indexBlob git state.index spec = none
  rw [indexBlob, missing]
  rfl

omit [DecidableEq Oid] in
theorem find_ne_none
    {spec : Location}
    (there : (placesOf git workdir state spec).working ≠ none) :
    state.files.find (workdir ++ spec) ≠ none :=
  fun missing => there (workingBlob_of_none missing)

/-- The commits that can be walked are listed. -/
theorem history_succeeds
    (walks : ∀ head, ∃ commits, git.revwalk head = .ok commits)
    (specs : List Location) :
    (Gitexec.history git specs state).1 = .ok 0 := by
  cases head : state.head with
  | none =>
      rw [Gitexec.history, look_bind, head]
      rfl
  | some commit =>
      obtain ⟨commits, found⟩ := walks commit
      rw [Gitexec.history, look_bind, head]
      dsimp only
      rw [look_bind, found]
      rfl

/-- A commit message has no NUL. -/
theorem printable_step (step : Nat) :
    '\x00' ∉ "step ".toList ++ Nat.toDigits 10 step := by
  intro member
  rcases List.mem_append.mp member with start | digit
  · exact absurd start (by decide)
  · exact absurd (digit_of_toDigits digit).1 (by decide)

omit [DecidableEq Oid] in
theorem printable_branchName (printable : '\x00' ∉ state.branch) :
    '\x00' ∉ branchName state := by
  rw [branchName]
  split_ifs
  · exact printable
  · decide

/-- Every granted candidate that is allowed is performed by its command. -/
theorem performs_of_granted
    (hosts : Hosts git workdir creation author committer start)
    (faithful : Faithful git workdir start pool history candidate.step state)
    (allowed : pool.allows candidate.operation candidate.file = true)
    (granted : rowCell (candidate.operation.action candidate.step)
      ((stateOf (resourceFor candidate.file) history).row.view
        (principalFor candidate.agent)) = none) :
    Performs git workdir candidate state
      (commandOf git workdir creation author committer candidate state) := by
  have home := faithful.home candidate.file
  have agrees := faithful.agrees candidate.file
  have accepted := hosts.accepts candidate.file
  obtain ⟨committed, head⟩ := Option.ne_none_iff_exists'.mp agrees.committed
  have stored := (faithful.past candidate.file committed (.inl head)).stored
  obtain ⟨content, found⟩ := stored.content
  cases operation : candidate.operation with
  | create => exact performs_create hosts faithful operation
  | modify => exact performs_modify hosts faithful operation allowed
  | delete => exact performs_delete faithful operation allowed
  | read => exact performs_read faithful operation allowed
  | stage =>
      rw [operation] at granted
      have row := row_of_stage granted
      have holds := agrees.row
      rw [row] at holds
      refine performs_builtin hosts faithful .stage
        (by rw [commandOf, operation, commandFor])
        (by rw [operation]; exact fun edit => by cases edit)
        (stage_succeeds hosts.lawful home accepted
          (.inr (indexGet_ne_none holds.1))) fun next runs => ?_
      rw [operation]
      exact refines_of_stage hosts.lawful home runs
  | unstage =>
      refine performs_builtin hosts faithful .unstage
        (by rw [commandOf, operation, commandFor])
        (by rw [operation]; exact fun edit => by cases edit)
        (unstage_succeeds hosts.lawful accepted head found stored.file)
        fun next runs => ?_
      rw [operation]
      exact refines_of_unstage hosts.lawful home runs
  | commit =>
      rw [operation] at granted allowed
      have row := row_of_commit granted
      have present := agrees.present_iff.mp allowed
      obtain ⟨working, there⟩ := Option.ne_none_iff_exists'.mp present
      have differs := agrees.working_ne_head
        (by rw [row]; exact fun same => by cases same)
      rw [there, head] at differs
      refine performs_builtin hosts faithful
        (.commit (some ("step ".toList ++ Nat.toDigits 10 candidate.step)))
        (by rw [commandOf, operation, commandFor])
        (by rw [operation]; exact fun edit => by cases edit)
        (commit_succeeds hosts.lawful home accepted (printable_step _) author
          committer head stored there (mt (congrArg some) differs))
        fun next runs => ?_
      rw [operation]
      exact refines_of_commit hosts.lawful home present runs
  | checkout =>
      refine performs_builtin hosts faithful .checkout
        (by rw [commandOf, operation, commandFor])
        (by rw [operation]; exact fun edit => by cases edit)
        (checkout_succeeds hosts.lawful home accepted hosts.uniform head found
          stored.file stored.linkless) fun next runs => ?_
      rw [operation]
      exact refines_of_checkout hosts.lawful home head stored runs
  | stash =>
      rw [operation] at granted
      have row := row_of_stash granted
      have holds := agrees.row
      rw [row] at holds
      obtain ⟨staged, indexed⟩ := Option.ne_none_iff_exists'.mp holds.1
      have differs := holds.2
      rw [head] at differs
      refine performs_builtin hosts faithful .stash
        (by rw [commandOf, operation, commandFor])
        (by rw [operation]; exact fun edit => by cases edit)
        (stash_succeeds hosts.lawful home accepted hosts.uniform committer
          (printable_branchName (faithful.branch ▸ hosts.branch)) head stored
          indexed (faithful.past _ staged (.inr (.inl indexed))).stored differs)
        fun next runs => ?_
      rw [operation]
      exact refines_of_stash hosts.lawful home head stored differs runs
  | diff =>
      obtain ⟨patch, prints⟩ := hosts.prints state.index state.files
        [pathFor candidate.file]
      refine performs_builtin hosts faithful .diff
        (by rw [commandOf, operation, commandFor])
        (by rw [operation]; exact fun edit => by cases edit)
        ?_ fun next runs => ?_
      · rw [perform, diff, look_bind, prints]
        rfl
      · have kept := keeps_diff git workdir [pathFor candidate.file] state
        rw [perform] at runs
        rw [runs] at kept
        rw [operation]
        exact refines_of_untouched home (fun _ => rfl) kept
  | history =>
      refine performs_builtin hosts faithful .history
        (by rw [commandOf, operation, commandFor])
        (by rw [operation]; exact fun edit => by cases edit)
        (history_succeeds hosts.walks [pathFor candidate.file])
        fun next runs => ?_
      have kept := keeps_history git [pathFor candidate.file] state
      rw [perform] at runs
      rw [runs] at kept
      rw [operation]
      exact refines_of_untouched home (fun _ => rfl) kept
  | remove =>
      rw [operation] at granted allowed
      have row := row_of_delete granted
      have holds := agrees.row
      rw [row] at holds
      refine performs_builtin hosts faithful .delete
        (by rw [commandOf, operation, commandFor])
        (by rw [operation]; exact fun edit => by cases edit)
        (delete_succeeds hosts.lawful home (holds.1.trans (holds.2.trans head))
          head (holds.2.trans head)) fun next runs => ?_
      rw [operation]
      exact refines_of_delete hosts.lawful home runs
  | clean =>
      have known : git.indexGet state.index (pathFor candidate.file) ≠ none ∨
          state.files.find (workdir ++ pathFor candidate.file) = none := by
        cases there : state.files.find (workdir ++ pathFor candidate.file) with
        | none => exact .inr rfl
        | some node =>
            obtain ⟨content, mode, rfl, -⟩ := home.regular node there
            have working : workingBlob git state.files workdir
                (pathFor candidate.file) ≠ none := by
              rw [workingBlob, there]
              exact Option.some_ne_none _
            exact .inl (indexGet_ne_none (agrees.tracked_iff.mp
              (agrees.tracked_of_present (agrees.present_iff.mpr working))))
      have succeeds := @clean_succeeds _ _ _ git _ _ _ home known
      refine performs_builtin hosts faithful .clean
        (by rw [commandOf, operation, commandFor])
        (by rw [operation]; exact fun edit => by cases edit)
        (by rw [perform, succeeds]) fun next runs => ?_
      rw [operation]
      exact refines_of_clean home runs

/-- A granted candidate that is allowed exits with zero, and what stays true
does. -/
theorem faithful_of_granted
    (hosts : Hosts git workdir creation author committer start)
    (faithful : Faithful git workdir start pool history candidate.step state)
    (allowed : pool.allows candidate.operation candidate.file = true)
    (granted : (stateOf candidate.event.resource history).decide
      candidate.event = .grant) :
    (commandOf git workdir creation author committer candidate state).1 = 0 ∧
      Faithful git workdir start (pool.recordGrant candidate)
        (history ++ [candidate.event]) (candidate.step + 1)
        (commandOf git workdir creation author committer candidate state).2 := by
  have cells := ResourceState.decide_eq_grant_iff.mp granted
  have row := (Option.or_eq_none_iff.mp cells).1
  have performs := performs_of_granted hosts faithful allowed row
  exact ⟨performs.zero, faithful.perform rfl allowed row performs⟩

end Commands

end Trace
end Marsh
