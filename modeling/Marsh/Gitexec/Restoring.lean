import Marsh.Gitexec.Committing
import Marsh.Gitexec.Removals

/-!
# What checking out and stashing do

Both take the named paths of the work tree and the index back to `HEAD`.  A
stash first saves what they were as two commits.
-/

namespace Marsh
namespace Gitexec

open Library Exec
open Operation

section Restoring

variable {Oid Index Tree : Type}
variable {git : Libgit2 Oid Index Tree}
variable {workdir : Location}

/-! ## Paths that can be restored -/

/-- Whether a path can be taken back to a blob: it is a file, it is not written
through a symbolic link, and it is text if it is a link. -/
structure Restorable
    (git : Libgit2 Oid Index Tree)
    (files : FileTree)
    (workdir spec : Location)
    (target : Option (Blob Oid)) : Prop
    extends Direct files workdir spec where
  file : ∀ blob ∈ target, blob.mode.IsFile
  linkless : ∀ blob ∈ target, blob.mode ≠ .link -> ∀ there,
    files.find (workdir ++ spec) ≠ some (.symlink there)
  text : ∀ blob ∈ target, blob.mode = .link -> ∀ content,
    git.findBlob blob.id = .ok content -> (Text.lossy content).bytes = content

/-- What the entry of a restored blob is taken for. -/
theorem nodeBlob_blobNode
    (lawful : git.Lawful)
    {blob : Blob Oid}
    {content : List UInt8}
    (stored : git.findBlob blob.id = .ok content)
    (file : blob.mode.IsFile)
    (text : blob.mode = .link -> (Text.lossy content).bytes = content) :
    nodeBlob git (blobNode blob.mode content) = some blob := by
  have id := lawful.blob_of_findBlob stored
  obtain ⟨name, mode⟩ := blob
  rcases file with kind | kind | kind
  · subst kind
    simpa [blobNode, nodeBlob, isExecutable] using id
  · subst kind
    simpa [blobNode, nodeBlob, isExecutable] using id
  · subst kind
    rw [blobNode, if_pos rfl, nodeBlob, text rfl, id]

/-- A file is written with bits that are uniform. -/
theorem uniformMode_of_blobNode
    {kind : FileMode}
    {content bytes : List UInt8}
    {mode : Nat}
    (writes : blobNode kind content = .file bytes mode) : UniformMode mode := by
  rw [blobNode] at writes
  split_ifs at writes
  · cases writes
    decide
  · cases writes
    decide

/-! ## Bringing the work tree to what paths are -/

variable {target : Location -> Option (Blob Oid)}

/-- Whether a directory was made at a location on the way to some paths. -/
def MadeAbove
    (files next : FileTree)
    (workdir : Location)
    (specs : List Location)
    (other : Location) : Prop :=
  files.find other = none ∧ next.find other = some .directory ∧
    ∃ spec ∈ specs, other <+: workdir ++ spec.dropLast

/-- Whether anyone may execute the file at a path only if its owner may. -/
def UniformFile (files : FileTree) (workdir spec : Location) : Prop :=
  ∀ content mode, files.find (workdir ++ spec) = some (.file content mode) ->
    UniformMode mode

/-- Whether a work tree has been brought to what some paths are, and changed
nowhere else but for directories made on the way. -/
structure Restored
    (git : Libgit2 Oid Index Tree)
    (target : Location -> Option (Blob Oid))
    (files next : FileTree)
    (workdir : Location)
    (specs : List Location) : Prop where
  here : ∀ spec ∈ specs, workingBlob git next workdir spec = target spec
  uniform : ∀ spec ∈ specs, UniformFile next workdir spec
  there : ∀ other, (∀ spec ∈ specs, other ≠ workdir ++ spec) ->
    next.find other = files.find other ∨
      MadeAbove files next workdir specs other

theorem restored_nil {files : FileTree} :
    Restored git target files files workdir [] where
  here spec member := by cases member
  uniform spec member := by cases member
  there _ _ := .inl rfl

/-- A turn that takes one path back. -/
structure RestoreTurn
    (git : Libgit2 Oid Index Tree)
    (target : Location -> Option (Blob Oid))
    (workdir spec : Location)
    (index taken : Index)
    (state next : GitState Index Tree) : Prop where
  index : IndexTurn git target spec index taken
  only : next = { state with files := next.files }
  here : workingBlob git next.files workdir spec = target spec
  uniform : UniformFile next.files workdir spec
  there : ∀ other, other ≠ workdir ++ spec ->
    next.files.find other = state.files.find other ∨
      MadeAbove state.files next.files workdir [spec] other

section Turns

variable {files middle next : FileTree}
variable {done : List Location} {spec : Location}

/-- What is taken for nothing can become a directory. -/
theorem workingBlob_of_directory
    (directory : next.find (workdir ++ spec) = some .directory) :
    workingBlob git next workdir spec = none := by
  rw [workingBlob, directory]
  rfl

/-- One more path goes back. -/
theorem Restored.turn
    (restored : Restored git target files middle workdir done)
    (here : workingBlob git next workdir spec = target spec)
    (uniform : UniformFile next workdir spec)
    (there : ∀ other, other ≠ workdir ++ spec ->
      next.find other = middle.find other ∨
        MadeAbove middle next workdir [spec] other) :
    Restored git target files next workdir (done ++ [spec]) where
  here path member := by
    by_cases same : path = spec
    · rw [same, here]
    · have earlier : path ∈ done := by simpa [same] using member
      have was := restored.here path earlier
      rcases there (workdir ++ path)
        fun equal => same (List.append_cancel_left equal) with kept | made
      · rw [workingBlob, kept]
        exact was
      · rw [← was, workingBlob_of_directory made.2.1,
          workingBlob_of_none made.1]
  uniform path member content mode found := by
    by_cases same : path = spec
    · rw [same] at found
      exact uniform content mode found
    · have earlier : path ∈ done := by simpa [same] using member
      rcases there (workdir ++ path)
        fun equal => same (List.append_cancel_left equal) with kept | made
      · rw [kept] at found
        exact restored.uniform path earlier content mode found
      · rw [made.2.1] at found
        cases found
  there other away := by
    have earlier := restored.there other
      fun path member => away path (List.mem_append_left _ member)
    rcases there other (away spec (by simp)) with kept | made
    · rcases earlier with same | ⟨missing, directory, path, member, above⟩
      · exact .inl (kept.trans same)
      · exact .inr ⟨missing, kept.trans directory, path,
          List.mem_append_left _ member, above⟩
    · obtain ⟨missing, directory, path, member, above⟩ := made
      rcases earlier with same | ⟨-, found, -⟩
      · exact .inr ⟨same ▸ missing, directory, path,
          List.mem_append_right _ member, above⟩
      · rw [missing] at found
        cases found

/-- Whether no path is below another one that is a link. -/
def Clear
    (target : Location -> Option (Blob Oid))
    (specs : List Location) : Prop :=
  ∀ spec ∈ specs, ∀ other ∈ specs, other ≠ spec -> other <+: spec ->
    ∀ blob ∈ target other, blob.mode ≠ .link

/-- A link that is there after a restoration. -/
theorem Restored.link
    (restored : Restored git target files next workdir done)
    {location : Location}
    {link : List UInt8}
    (found : next.find location = some (.symlink link)) :
    files.find location = some (.symlink link) ∨
      ∃ path ∈ done, location = workdir ++ path ∧
        ∃ blob ∈ target path, blob.mode = .link := by
  by_cases own : ∃ path ∈ done, location = workdir ++ path
  · obtain ⟨path, member, rfl⟩ := own
    refine .inr ⟨path, member, rfl, ⟨git.blob link, .link⟩, ?_, rfl⟩
    rw [← restored.here path member, workingBlob, found]
    rfl
  · simp only [not_exists, not_and] at own
    rcases restored.there location own with same | ⟨-, directory, -⟩
    · exact .inl (same ▸ found)
    · rw [directory] at found
      cases found

/-- A path can be restored after others were. -/
theorem Restored.restorable
    (restored : Restored git target files next workdir done)
    {specs : List Location}
    (clear : Clear target specs)
    (listed : ∀ path ∈ done, path ∈ specs)
    (member : spec ∈ specs)
    (can : Restorable git files workdir spec (target spec)) :
    Restorable git next workdir spec (target spec) where
  nonempty := can.nonempty
  unlinked above before link found := by
    rcases restored.link found with was | ⟨path, own, rfl, blob, is, kind⟩
    · exact can.unlinked above before link was
    · have below := (List.prefix_append_right_inj workdir).mp before
      refine clear spec member path (listed path own) ?_
        (below.trans (List.dropLast_prefix spec)) blob is kind
      rintro rfl
      have short := below.length_le
      have long := List.length_pos_of_ne_nil can.nonempty
      rw [List.length_dropLast] at short
      omega
  file := can.file
  linkless blob is kind link found := by
    rcases restored.link found with was | ⟨path, -, same, other, also, linked⟩
    · exact can.linkless blob is kind link was
    · rw [← List.append_cancel_left same, is] at also
      cases also
      exact kind linked
  text := can.text

end Turns

/-- A loop whose turns each take one path back takes all of them back. -/
theorem restored_of_forEach
    (lawful : git.Lawful)
    {κ : Type}
    {place : κ -> Location}
    {turns : List κ}
    {body : κ -> Index -> GitOperation Index Tree (Except Int Index)}
    {state last : GitState Index Tree}
    {start taken : Index}
    (separate : Separate target (turns.map place))
    (clear : Clear target (turns.map place))
    (can : ∀ turn ∈ turns,
      Restorable git state.files workdir (place turn) (target (place turn)))
    (each : ∀ turn ∈ turns, ∀ index next before after,
      Restorable git before.files workdir (place turn) (target (place turn)) ->
      body turn index before = (.ok (.ok next), after) ->
      RestoreTurn git target workdir (place turn) index next before after)
    (runs : forEach body turns start state = (.ok (.ok taken), last)) :
    last = { state with files := last.files } ∧
      Indexed git target start (turns.map place) taken ∧
      Restored git target state.files last.files workdir (turns.map place) := by
  refine @forEach_invariant _ _ _ _ _ _
    (fun done index reached => reached = { state with files := reached.files } ∧
      Indexed git target start (done.map place) index ∧
      Restored git target state.files reached.files workdir (done.map place))
    turns ?_ _ _ _ _ ⟨rfl, indexed_nil, restored_nil⟩ runs
  intro done turn later index next reached middle split held ran
  obtain ⟨only, indexed, restored⟩ := held
  have member : turn ∈ turns := by simp [split]
  have listed : ∀ path ∈ (done ++ [turn]).map place, path ∈ turns.map place := by
    intro path own
    rw [split, List.append_cons, List.map_append]
    exact List.mem_append_left _ own
  rw [List.map_append] at listed ⊢
  have step := each turn member index next reached middle
    (restored.restorable clear
      (fun path own => listed path (List.mem_append_left _ own))
      (List.mem_map_of_mem member) (can turn member)) ran
  exact ⟨filesOnly_trans only step.only,
    indexed.turn lawful (separate.mono listed) step.index,
    restored.turn step.here step.uniform step.there⟩

/-! ## Checking out -/

section Checkout

variable {state next : GitState Index Tree} {specs : List Location}

/-- Writing a blob and adding its entry takes a path back. -/
theorem restoreTurn_of_write
    (lawful : git.Lawful)
    {creation : Nat}
    {spec : Location}
    {blob : Blob Oid}
    {index taken : Index}
    (is : target spec = some blob)
    (can : Restorable git state.files workdir spec (target spec))
    (writes : writeBlob git workdir creation spec blob state = (.ok (), next))
    (adds : addEntry git spec blob index = .ok taken) :
    RestoreTurn git target workdir spec index taken state next := by
  rw [is] at can
  obtain ⟨content, stored, only, written⟩ := written_of_writeBlob can.toDirect
    (can.linkless blob rfl) writes
  refine ⟨.added blob is adds, only, ?_, fun bytes mode found => ?_,
    fun other apart => ?_⟩
  · rw [workingBlob, written.here, Option.bind_some, is]
    exact nodeBlob_blobNode lawful stored (can.file blob rfl)
      fun kind => can.text blob rfl kind content stored
  · rw [written.here] at found
    exact uniformMode_of_blobNode (Option.some.inj found)
  · rcases written.there other apart with same | ⟨above, missing, directory⟩
    · exact .inl same
    · exact .inr ⟨missing, directory, spec, by simp, above⟩

/-- The paths a checkout restores, with what `HEAD` has there. -/
theorem restorable_of_forEach
    {head : Option Tree}
    {restorable : List (Location × Blob Oid)}
    (runs : forEach (restorableEach git head) specs [] state =
      (.ok (.ok restorable), next)) :
    restorable.map Prod.fst = specs ∧
      (∀ restored ∈ restorable,
        committedBlob git head restored.1 = some restored.2) ∧
      next = state := by
  refine @forEach_invariant _ _ _ _ _ _
    (fun done restorable reached => restorable.map Prod.fst = done ∧
      (∀ restored ∈ restorable,
        committedBlob git head restored.1 = some restored.2) ∧
      reached = state) specs ?_ _ _ _ _
    ⟨rfl, fun restored member => (List.not_mem_nil member).elim, rfl⟩ runs
  intro done turn later restorable more reached middle split held ran
  obtain ⟨rfl, committed, rfl⟩ := held
  rw [restorableEach.eq_def] at ran
  cases is : committedBlob git head turn with
  | none =>
      rw [committedBlob] at is
      rw [is] at ran
      obtain ⟨printed, last, -, ends⟩ := bind_eq_ok ran
      cases ends
  | some blob =>
      rw [committedBlob] at is
      rw [is] at ran
      cases ran
      refine ⟨by simp, fun restored member => ?_, rfl⟩
      rcases List.mem_append.mp member with earlier | last
      · exact committed restored earlier
      · rw [List.mem_singleton.mp last]
        exact is

theorem nonzero_of_restorableEach
    {head : Option Tree}
    {spec : Location}
    {restorable : List (Location × Blob Oid)}
    {code : Int}
    (runs : restorableEach git head spec restorable state =
      (.ok (.error code), next)) : code ≠ 0 := by
  rw [restorableEach.eq_def] at runs
  cases is : head.bind fun tree => treeBlob git tree spec with
  | some blob =>
      rw [is] at runs
      cases runs
  | none =>
      rw [is] at runs
      obtain ⟨printed, last, -, ends⟩ := bind_eq_ok runs
      cases ends
      decide

/-- Of two nested paths `HEAD` does not have a file at both. -/
theorem clear_of_committed
    (lawful : git.Lawful)
    {head : Option Tree}
    (nonempty : ∀ spec ∈ specs, spec ≠ [])
    (known : ∀ spec ∈ specs, committedBlob git head spec ≠ none)
    (file : ∀ spec ∈ specs, ∀ blob ∈ committedBlob git head spec,
      blob.mode.IsFile) : Clear (committedBlob git head) specs := by
  intro spec member other listed apart below blob is kind
  obtain ⟨inner, same⟩ := Option.ne_none_iff_exists'.mp (known spec member)
  have isTree := separate_committedBlob lawful head nonempty other listed spec
    member apart.symm (.inl below) blob is (by rw [kind]; decide) inner same
  have isFile := file spec member inner same
  rw [isTree] at isFile
  exact absurd isFile (by decide)

/-- A checkout that returns zero takes the named paths, which `HEAD` all has,
back to it in the work tree and the index, and changes nothing else. -/
theorem restored_of_checkout
    (lawful : git.Lawful)
    {creation : Nat}
    (can : ∀ spec ∈ specs, Restorable git state.files workdir spec
      (committedBlob git (headTree state) spec))
    (runs : checkout git workdir creation specs state = (.ok 0, next)) :
    (∀ spec ∈ specs, committedBlob git (headTree state) spec ≠ none) ∧
      Indexed git (committedBlob git (headTree state)) state.index specs
        next.index ∧
      Restored git (committedBlob git (headTree state)) state.files next.files
        workdir specs ∧
      next = { state with files := next.files, index := next.index } := by
  obtain ⟨index, first, looked, rest⟩ := bind_eq_ok runs
  obtain ⟨same, rfl⟩ := look_eq_ok looked
  cases same
  obtain ⟨head, second, found, more⟩ := bind_eq_ok rest
  obtain ⟨same, rfl⟩ := look_eq_ok found
  cases same
  obtain ⟨ended, third, looped, restores⟩ := bind_eq_ok more
  cases ended with
  | error code =>
      obtain ⟨spec, -, reached, between, -, ran⟩ := forEach_returned
        (fun _ _ _ _ _ _ _ _ => trivial) trivial looped
      cases restores
      exact absurd rfl (nonzero_of_restorableEach ran)
  | ok restorable =>
      obtain ⟨rfl, committed, rfl⟩ := restorable_of_forEach looped
      have known : ∀ spec ∈ restorable.map Prod.fst,
          committedBlob git (headTree third) spec ≠ none := by
        intro spec member
        obtain ⟨restored, own, rfl⟩ := List.mem_map.mp member
        rw [committed restored own]
        exact Option.some_ne_none _
      obtain ⟨ended, last, looped, writes⟩ := bind_eq_ok restores
      cases ended with
      | error code =>
          exact absurd (congrArg Prod.fst looped)
            (Yields.forEach (continues_checkoutEach git workdir creation) _ _ _
              code)
      | ok taken =>
          obtain ⟨only, indexed, restored⟩ := restored_of_forEach lawful
            (separate_committedBlob lawful (headTree third)
              fun spec member => (can spec member).nonempty)
            (clear_of_committed lawful
              (fun spec member => (can spec member).nonempty) known
              fun spec member => (can spec member).file)
            (fun turn member => can turn.1 (List.mem_map_of_mem member))
            (fun turn member index next before after able ran => by
              obtain ⟨done, middle, wrote, ends⟩ := bind_eq_ok ran
              obtain ⟨added, finish, looked, taken⟩ := bind_eq_ok ends
              obtain ⟨adds, rfl⟩ := look_eq_ok looked
              cases taken
              exact restoreTurn_of_write lawful (committed turn member) able
                wrote adds)
            looped
          cases writes
          refine ⟨known, indexed, restored, ?_⟩
          dsimp only
          rw [only]

end Checkout

end Restoring

end Gitexec
end Marsh
