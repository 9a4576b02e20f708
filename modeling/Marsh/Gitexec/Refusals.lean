import Marsh.Gitexec.Builtins
import Marsh.Gitexec.EntryLists

/-!
# Refused builtins

A builtin that is refused, and one that only changes the index and fails,
leaves the repository as it was.
-/

namespace Marsh
namespace Gitexec

open Library Exec
open Operation

/-! ## What changes nothing but what is printed -/

section Parts

variable {Index Tree : Type}

theorem keeps_println (line : Text) :
    Keeps (@GitState.Untouched Index Tree) (println line) :=
  Keeps.change fun changes => by
    cases changes
    exact ⟨rfl, rfl, rfl, rfl, rfl, rfl⟩

theorem keeps_eprintln (line : Text) :
    Keeps (@GitState.Untouched Index Tree) (eprintln line) :=
  Keeps.change fun changes => by
    cases changes
    exact ⟨rfl, rfl, rfl, rfl, rfl, rfl⟩

theorem keeps_present (workdir spec : Location) :
    Keeps (@GitState.Untouched Index Tree) (present workdir spec) :=
  Keeps.look _

/-- A loop's turn that prints why it returns. -/
theorem keeps_returning
    {ρ α : Type}
    (line : Text)
    (returned : ρ) :
    Keeps (@GitState.Untouched Index Tree) (do
      eprintln line
      return (.error returned : Except ρ α)) :=
  (keeps_eprintln line).bind fun _ => Keeps.pure _

/-- A turn that looks at the next value. -/
theorem keeps_looking
    {ρ α : Type}
    (question : GitState Index Tree -> Except GitError α) :
    Keeps (@GitState.Untouched Index Tree) (do
      let next ← look question
      return (.ok next : Except ρ α)) :=
  (Keeps.look question).bind fun _ => Keeps.pure _

end Parts

section Builtins

variable {Oid Index Tree : Type} [DecidableEq Oid]
variable (git : Libgit2 Oid Index Tree) (workdir : Location)

/-! ## Checks -/

omit [DecidableEq Oid] in
theorem keeps_stageEach (spec : Location) (index : Index) :
    Keeps (@GitState.Untouched Index Tree)
      (stageEach git workdir spec index) := by
  refine (keeps_present workdir spec).bind fun here => ?_
  split_ifs
  · exact keeps_looking _
  · exact keeps_looking _
  · exact keeps_returning _ _

omit [DecidableEq Oid] in
theorem keeps_unstageEach
    (head : Option Tree)
    (spec : Location)
    (index : Index) :
    Keeps (@GitState.Untouched Index Tree)
      (unstageEach git head spec index) := by
  unfold unstageEach
  split
  · exact keeps_looking _
  · split_ifs
    · exact keeps_looking _
    · exact keeps_returning _ _

theorem keeps_deleteCheck
    (index : Index)
    (head : Option Tree)
    (spec : Location)
    (done : Unit) :
    Keeps (@GitState.Untouched Index Tree)
      (deleteCheck git workdir index head spec done) := by
  unfold deleteCheck
  split
  · exact keeps_returning _ _
  · refine (Keeps.look _).bind fun working => ?_
    split
    · exact keeps_returning _ _
    · exact Keeps.pure _

omit [DecidableEq Oid] in
theorem keeps_commitEach
    (index : Index)
    (base : Tree)
    (spec : Location)
    (updates : List (TreeUpdate Oid)) :
    Keeps (@GitState.Untouched Index Tree)
      (commitEach git workdir index base spec updates) := by
  unfold commitEach
  split_ifs
  · exact (Keeps.look _).bind fun blob => Keeps.pure _
  · exact keeps_returning _ _

omit [DecidableEq Oid] in
theorem keeps_restorableEach
    (head : Option Tree)
    (spec : Location)
    (restorable : List (Location × Blob Oid)) :
    Keeps (@GitState.Untouched Index Tree)
      (restorableEach git head spec restorable) := by
  unfold restorableEach
  split
  · exact Keeps.pure _
  · exact keeps_returning _ _

theorem keeps_stashCheck
    (index : Index)
    (base : Tree)
    (spec : Location)
    (found : List (StashedState Oid) × Bool) :
    Keeps (@GitState.Untouched Index Tree)
      (stashCheck git workdir index base spec found) := by
  unfold stashCheck
  split
  · exact keeps_returning _ _
  · exact (Keeps.look _).bind fun working => Keeps.pure _

/-! ## Effects that return no code -/

omit [DecidableEq Oid] in
theorem continues_deleteEach (spec : Location) (index : Index) :
    Yields Continues (deleteEach git workdir spec index) :=
  .after (fun _ => .after (fun _ => .after (fun _ => yields_continues_pure _)
    continues_error) continues_error) continues_error

omit [DecidableEq Oid] in
theorem continues_indexEach (spec : Location) (index : Index) :
    Yields Continues (indexEach git workdir spec index) := by
  refine .after (fun here => ?_) continues_error
  split_ifs
  · exact .after (fun _ => yields_continues_pure _) continues_error
  · exact .after (fun _ => yields_continues_pure _) continues_error

omit [DecidableEq Oid] in
theorem continues_checkoutEach
    (creation : Nat)
    (restored : Location × Blob Oid)
    (index : Index) :
    Yields Continues
      (checkoutEach git workdir creation restored index) :=
  .after (fun _ => .after (fun _ => yields_continues_pure _) continues_error)
    continues_error

omit [DecidableEq Oid] in
theorem continues_stashEach
    (creation : Nat)
    (base : Tree)
    (saved : StashedState Oid)
    (index : Index) :
    Yields Continues (stashEach git workdir creation base saved index) := by
  unfold stashEach
  split
  · exact .after (fun _ => .after (fun _ => yields_continues_pure _)
      continues_error) continues_error
  · exact .after (fun _ => .after (fun _ => yields_continues_pure _)
      continues_error) continues_error

omit [DecidableEq Oid] in
theorem continues_cleanEach (index : Index) (spec : Location) (done : Unit) :
    Yields Continues
      (cleanEach git workdir index spec done) := by
  refine .after (fun here => ?_) continues_error
  split_ifs
  · exact .after (fun _ => .after (fun _ => yields_continues_pure _)
      continues_error) continues_error
  · exact yields_continues_pure _

/-- An operation that does not return the code of a refusal. -/
def Accepted (result : Except GitError Int) : Prop :=
  result ≠ .ok refused

theorem accepted_error (error : GitError) : Accepted (.error error) :=
  fun same => by cases same

theorem yields_accepted_zero :
    Yields Accepted (pure 0 : GitOperation Index Tree Int) :=
  fun _ same => absurd (Except.ok.inj same) (by decide)

/-- A loop of effects, and what is left to do when it is through. -/
theorem yields_accepted_of_loop
    {κ α : Type}
    {body : κ -> α -> GitOperation Index Tree (Except Int α)}
    {rest : Except Int α -> GitOperation Index Tree Int}
    (each : ∀ turn value, Yields Continues (body turn value))
    (after : ∀ value, Yields Accepted (rest (.ok value)))
    (turns : List κ)
    (value : α) :
    Yields Accepted (forEach body turns value >>= rest) := by
  refine (Yields.forEach each turns value).bind (fun ended others => ?_)
    accepted_error
  cases ended with
  | error code => exact absurd rfl (others code)
  | ok next => exact after next

/-! ## Refusals -/

/-- Whether a builtin changes nothing when its result is such. -/
abbrev UntouchedWhen
    (such : Except GitError Int -> Prop)
    (action : GitOperation Index Tree Int) : Prop :=
  KeepsWhen GitState.Untouched such action

/-- A loop of checks before what is done when all of them pass. -/
theorem untouchedWhen_checked
    {κ α : Type}
    {such : Except GitError Int -> Prop}
    {body : κ -> α -> GitOperation Index Tree (Except Int α)}
    {rest : Except Int α -> GitOperation Index Tree Int}
    (each : ∀ turn value, Keeps GitState.Untouched (body turn value))
    (returns : ∀ code, rest (.error code) = pure code)
    (after : ∀ value, UntouchedWhen such (rest (.ok value)))
    (turns : List κ)
    (value : α) :
    UntouchedWhen such (forEach body turns value >>= rest) := by
  refine KeepsWhen.bind (Keeps.forEach (fun turn _ value => each turn value) _)
    fun ended => ?_
  cases ended with
  | error code =>
      rw [returns code]
      exact (Keeps.pure code).keepsWhen such
  | ok next => exact after next

/-- Printing why and returning. -/
theorem untouchedWhen_printing
    (such : Except GitError Int -> Prop)
    {print : GitOperation Index Tree Unit}
    (prints : Keeps GitState.Untouched print)
    (code : Int) :
    UntouchedWhen such (do
      print
      return code) :=
  (prints.bind fun _ => Keeps.pure code).keepsWhen such

/-- Writing the index and returning zero. -/
theorem untouchedWhen_writing (index : Index) :
    UntouchedWhen (· ≠ .ok 0) (do
      writeIndex index
      return 0 : GitOperation Index Tree Int) :=
  fun _ differs => absurd rfl differs

omit [DecidableEq Oid] in
theorem untouched_stage (specs : List Location) :
    UntouchedWhen (· ≠ .ok 0) (stage git workdir specs) :=
  KeepsWhen.bind (Keeps.look _) fun index =>
    untouchedWhen_checked (keeps_stageEach git workdir) (fun _ => rfl)
      untouchedWhen_writing specs index

omit [DecidableEq Oid] in
theorem untouched_unstage (specs : List Location) :
    UntouchedWhen (· ≠ .ok 0) (unstage git specs) :=
  KeepsWhen.bind (Keeps.look _) fun index =>
    KeepsWhen.bind (Keeps.look _) fun head =>
      untouchedWhen_checked (keeps_unstageEach git head) (fun _ => rfl)
        untouchedWhen_writing specs index

theorem untouched_delete (specs : List Location) :
    UntouchedWhen (· = .ok refused)
      (delete git workdir specs) := by
  refine KeepsWhen.bind (Keeps.look _) fun index =>
    KeepsWhen.bind (Keeps.look _) fun head =>
      untouchedWhen_checked (keeps_deleteCheck git workdir index head)
        (fun _ => rfl) (fun _ => Yields.keepsWhen ?_ _) specs ()
  exact yields_accepted_of_loop (continues_deleteEach git workdir)
    (fun _ => .after (fun _ => yields_accepted_zero) accepted_error) specs index

omit [DecidableEq Oid] in
theorem untouched_checkout (creation : Nat) (specs : List Location) :
    UntouchedWhen (· = .ok refused)
      (checkout git workdir creation specs) := by
  refine KeepsWhen.bind (Keeps.look _) fun index =>
    KeepsWhen.bind (Keeps.look _) fun head =>
      untouchedWhen_checked (keeps_restorableEach git head)
        (fun _ => rfl) (fun restorable => Yields.keepsWhen ?_ _) specs []
  exact yields_accepted_of_loop (continues_checkoutEach git workdir creation)
    (fun _ => .after (fun _ => yields_accepted_zero) accepted_error) restorable
    index

omit [DecidableEq Oid] in
theorem untouched_clean (specs : List Location) :
    UntouchedWhen (· = .ok refused)
      (clean git workdir specs) := by
  refine KeepsWhen.bind (Keeps.look _) fun index => Yields.keepsWhen ?_ _
  exact yields_accepted_of_loop (continues_cleanEach git workdir index)
    (fun _ => yields_accepted_zero) specs ()

theorem untouched_commit
    (specs : List Location)
    (message : Option Text)
    (author committer : GitEnvIdentity) :
    UntouchedWhen (· = .ok refused)
      (commit git workdir specs message author committer) := by
  unfold commit
  cases message with
  | none => exact untouchedWhen_printing _ (keeps_eprintln _) _
  | some message =>
      refine KeepsWhen.bind (Keeps.look _) fun message =>
        KeepsWhen.bind (Keeps.look _) fun head => ?_
      cases head with
      | none => exact untouchedWhen_printing _ (keeps_eprintln _) _
      | some parent =>
          refine KeepsWhen.bind (Keeps.look _) fun index =>
            untouchedWhen_checked (keeps_commitEach git workdir index _)
              (fun _ => rfl) (fun updates => KeepsWhen.bind (Keeps.look _) fun tree => ?_)
              specs []
          split_ifs
          · exact untouchedWhen_printing _ (keeps_println _) _
          · refine Yields.keepsWhen (.after (fun _ => ?_) accepted_error) _
            exact yields_accepted_of_loop (continues_indexEach git workdir)
              (fun _ => .after (fun _ => .after (fun _ => .after
                (fun _ => yields_accepted_zero) accepted_error) accepted_error)
                accepted_error) specs index

theorem untouched_stash
    (creation : Nat)
    (specs : List Location)
    (committer : GitEnvIdentity) :
    UntouchedWhen (· = .ok refused)
      (stash git workdir creation specs committer) := by
  unfold stash
  refine KeepsWhen.bind (Keeps.look _) fun head => ?_
  cases head with
  | none => exact untouchedWhen_printing _ (keeps_eprintln _) _
  | some parent =>
      refine KeepsWhen.bind (Keeps.look _) fun index =>
        untouchedWhen_checked (keeps_stashCheck git workdir index _)
          (fun _ => rfl) (fun found => ?_) specs ([], false)
      obtain ⟨states, dirty⟩ := found
      dsimp only
      split_ifs
      · refine Yields.keepsWhen (.after (fun _ => .after (fun _ => .after
          (fun _ => .after (fun _ => .after (fun _ => .after (fun _ => ?_)
          accepted_error) accepted_error) accepted_error) accepted_error)
          accepted_error) accepted_error) _
        exact yields_accepted_of_loop
          (continues_stashEach git workdir creation _)
          (fun _ => .after (fun _ => .after (fun _ => yields_accepted_zero)
            accepted_error) accepted_error) states index
      · exact untouchedWhen_printing _ (keeps_println _) _

omit [DecidableEq Oid] in
theorem keeps_diff (specs : List Location) :
    Keeps (@GitState.Untouched Index Tree) (diff git workdir specs) := by
  refine (Keeps.look _).bind fun patch => (Keeps.change fun changes => ?_).bind
    fun _ => Keeps.pure _
  cases changes
  exact ⟨rfl, rfl, rfl, rfl, rfl, rfl⟩

theorem keeps_history (specs : List Location) :
    Keeps (@GitState.Untouched Index Tree) (history git specs) := by
  refine (Keeps.look _).bind fun head => ?_
  cases head with
  | none => exact Keeps.pure _
  | some head =>
      refine (Keeps.look _).bind fun commits =>
        (Keeps.change fun changes => ?_).bind fun _ => Keeps.pure _
      cases changes
      exact ⟨rfl, rfl, rfl, rfl, rfl, rfl⟩

/-- Whether an action changes the index at most, which it writes last. -/
def IndexOnly : GitAction -> Bool
  | .stage | .unstage | .diff | .history => true
  | .delete | .commit _ | .checkout | .stash | .clean => false

theorem untouched_perform
    (creation : Nat)
    (action : GitAction)
    (specs : List Location)
    (author committer : GitEnvIdentity) :
    UntouchedWhen
      (fun result => result = .ok refused ∨
        result ≠ .ok 0 ∧ IndexOnly action = true)
      (perform git workdir creation action specs author committer) := by
  intro state result
  cases action with
  | stage =>
      refine untouched_stage git workdir specs state ?_
      rcases result with same | ⟨differs, -⟩
      · rw [perform] at same
        rw [same]
        decide
      · exact differs
  | unstage =>
      refine untouched_unstage git specs state ?_
      rcases result with same | ⟨differs, -⟩
      · rw [perform] at same
        rw [same]
        decide
      · exact differs
  | diff => exact keeps_diff git workdir specs state
  | history => exact keeps_history git specs state
  | delete =>
      exact untouched_delete git workdir specs state
        (result.resolve_right (by simp [IndexOnly]))
  | commit message =>
      exact untouched_commit git workdir specs message author committer state
        (result.resolve_right (by simp [IndexOnly]))
  | checkout =>
      exact untouched_checkout git workdir creation specs state
        (result.resolve_right (by simp [IndexOnly]))
  | stash =>
      exact untouched_stash git workdir creation specs committer state
        (result.resolve_right (by simp [IndexOnly]))
  | clean =>
      exact untouched_clean git workdir specs state
        (result.resolve_right (by simp [IndexOnly]))

/-- A builtin that is refused leaves the repository and the work tree as they
were, and one that changes the index at most does so whenever it does not
succeed. -/
theorem untouched_of_refused
    (creation : Nat)
    (action : GitAction)
    (specs : List Location)
    (author committer : GitEnvIdentity)
    (state : GitState Index Tree)
    (refuses :
      (run git workdir creation action specs author committer state).1 =
          refused ∨
        (run git workdir creation action specs author committer state).1 ≠ 0 ∧
          IndexOnly action = true) :
    state.Untouched
      (run git workdir creation action specs author committer state).2 := by
  have kept := untouched_perform git workdir creation action specs author
    committer state
  unfold run at refuses ⊢
  dsimp only at refuses ⊢
  split at refuses
  · exact ⟨rfl, rfl, rfl, rfl, rfl, rfl⟩
  · split_ifs at refuses ⊢
    · split at refuses
      next code next performed =>
        rw [performed] at kept
        refine kept ?_
        rcases refuses with same | ⟨differs, only⟩
        · exact .inl (congrArg Except.ok same)
        · exact .inr ⟨fun same => differs (Except.ok.inj same), only⟩
      next error next performed =>
        rw [performed] at kept
        have failed := refuses.resolve_left (by simp [fatal, refused])
        have same := kept (.inr ⟨by simp, failed.2⟩)
        exact ⟨same.head, same.branch, same.stash, same.stashLog, same.index,
          same.files⟩
    · exact ⟨rfl, rfl, rfl, rfl, rfl, rfl⟩

end Builtins

/-! ## A refused removal -/

/-- A file name. -/
def nameA : FileName where
  bytes := [97]
  ne_nil := by decide
  not_curDir := by decide
  not_parentDir := by decide
  slash_notMem := by decide
  nul_notMem := by decide

/-- A tree of one file. -/
def oneFile (content : List UInt8) : EntryList where
  entries := [⟨[nameA], content, .blob⟩]
  apart := List.pairwise_singleton _ _
  files entry member := by
    rw [List.mem_singleton.mp member]
    exact .inl rfl

/-- Who commits. -/
def someone : GitEnvIdentity where
  name := ['m']
  email := ['m', '@', 'm']
  time := ['0']

/-- A repository whose file is modified in the work tree. -/
def modified : GitState EntryList EntryList where
  head := some ⟨oneFile [1], [], someone, someone, ['s', '\n']⟩
  branch := ['m']
  stash := none
  stashLog := []
  index := oneFile [1]
  files := FileTree.bare.set [nameA] (.file [2] 0o644) (by decide)
  stdout := []
  stderr := []

/-- A modified file is not removed. -/
theorem untouched_of_refused_modified :
    modified.Untouched
      (run entryLists [] 0o644 .delete [[nameA]] someone someone modified).2 :=
  untouched_of_refused entryLists [] 0o644 .delete [[nameA]] someone someone
    modified (.inl (by decide +kernel))

end Gitexec
end Marsh
