import Marsh.Gitexec.IndexEffects
import Marsh.Gitexec.Refusals

/-!
# What committing does

A commit that returns zero has one parent, `HEAD`, and differs from it: its tree
holds the work tree at the named paths and what `HEAD` has apart from them.  The
index then agrees with it.
-/

namespace Marsh
namespace Gitexec

open Library Exec
open Operation

section Committing

variable {Oid Index Tree : Type}
variable {git : Libgit2 Oid Index Tree}
variable {workdir : Location} {specs : List Location}

/-! ## What trees record -/

/-- Whether a tree has a file at a path, or none. -/
def Recorded
    (git : Libgit2 Oid Index Tree)
    (tree : Tree)
    (spec : Location)
    (blob : Option (Blob Oid)) : Prop :=
  match blob with
  | some blob => treeBlob git tree spec = some blob
  | none => ∀ found ∈ treeBlob git tree spec, found.mode = .tree

/-- What an update that stands records. -/
theorem recorded_of_stands
    {tree : Tree}
    {update : TreeUpdate Oid}
    (stands : update.Stands (git.treeGet tree update.path)) :
    Recorded git tree update.path update.blob := by
  rw [TreeUpdate.Stands] at stands
  rw [Recorded.eq_def]
  cases here : update.blob with
  | some blob =>
      rw [here] at stands
      dsimp only at stands ⊢
      rw [treeBlob, stands, Option.map_some, fileMode_raw]
  | none =>
      rw [here] at stands
      intro found is
      obtain ⟨entry, there, rfl⟩ := Option.map_eq_some_iff.mp is
      exact stands entry there

/-- A tree is updated to what paths are, when a path is one thing. -/
theorem recorded_of_createUpdated
    (lawful : git.Lawful)
    {κ : Type}
    {place : κ -> Location}
    {blobOf : κ -> Option (Blob Oid)}
    {turns : List κ}
    (agree : ∀ turn ∈ turns, ∀ other ∈ turns, place other = place turn ->
      blobOf other = blobOf turn)
    {base tree : Tree}
    (creates : git.createUpdated base
      (turns.map fun turn => ⟨place turn, blobOf turn⟩) = .ok tree) :
    (∀ turn ∈ turns, Recorded git tree (place turn) (blobOf turn)) ∧
      ∀ path, (∀ turn ∈ turns, ¬ Nested (place turn) path) ->
        git.treeGet tree path = git.treeGet base path := by
  refine ⟨fun turn member => ?_, fun path apart => ?_⟩
  · refine @recorded_of_stands _ _ _ git tree ⟨place turn, blobOf turn⟩ ?_
    refine lawful.treeGet_updated creates _
      (List.mem_map.mpr ⟨turn, member, rfl⟩) fun other listed same => ?_
    obtain ⟨another, own, rfl⟩ := List.mem_map.mp listed
    dsimp only at same ⊢
    rw [same, agree turn member another own same]
  · refine lawful.treeGet_apart creates path fun update listed => ?_
    obtain ⟨turn, own, rfl⟩ := List.mem_map.mp listed
    exact apart turn own

/-! ## Committing -/

variable {state next : GitState Index Tree}

/-- A turn that collects an update knows its path. -/
theorem update_of_commitEach
    {index : Index}
    {base : Tree}
    {spec : Location}
    {updates more : List (TreeUpdate Oid)}
    (direct : Direct state.files workdir spec)
    (runs : commitEach git workdir index base spec updates state =
      (.ok (.ok more), next)) :
    (indexBlob git index spec ≠ none ∨ treeBlob git base spec ≠ none) ∧
      more = updates ++ [⟨spec, workingBlob git state.files workdir spec⟩] ∧
      next = state := by
  rw [commitEach] at runs
  by_cases known :
      ((git.indexGet index spec).isSome || (treeBlob git base spec).isSome) =
        true
  · rw [if_pos known] at runs
    obtain ⟨blob, middle, ran, ends⟩ := bind_eq_ok runs
    obtain ⟨reads, rfl⟩ := look_eq_ok ran
    cases ends
    refine ⟨?_, ?_, rfl⟩
    · rw [indexBlob, ← Option.isSome_iff_ne_none, Option.isSome_map,
        ← Option.isSome_iff_ne_none]
      exact Bool.or_eq_true_iff.mp known
    · rw [direct.worktreeBlob_eq_ok reads]
  · rw [if_neg known] at runs
    obtain ⟨printed, last, -, ends⟩ := bind_eq_ok runs
    cases ends

theorem nonzero_of_commitEach
    {index : Index}
    {base : Tree}
    {spec : Location}
    {updates : List (TreeUpdate Oid)}
    {code : Int}
    (runs : commitEach git workdir index base spec updates state =
      (.ok (.error code), next)) : code ≠ 0 := by
  rw [commitEach] at runs
  by_cases known :
      ((git.indexGet index spec).isSome || (treeBlob git base spec).isSome) =
        true
  · rw [if_pos known] at runs
    obtain ⟨blob, middle, -, ends⟩ := bind_eq_ok runs
    cases ends
  · rw [if_neg known] at runs
    obtain ⟨printed, last, -, ends⟩ := bind_eq_ok runs
    cases ends
    decide

/-- A turn of a commit's index takes the work tree. -/
theorem indexTurn_of_indexEach
    (lawful : git.Lawful)
    {index taken : Index}
    {spec : Location}
    (plain : Plain state.files workdir spec)
    (runs : indexEach git workdir spec index state = (.ok (.ok taken), next)) :
    IndexTurn git (workingBlob git state.files workdir) spec index taken ∧
      next = state := by
  obtain ⟨here, middle, looked, rest⟩ := bind_eq_ok runs
  obtain ⟨same, rfl⟩ := present_eq_ok looked
  by_cases found : here = true
  · rw [if_pos found] at rest
    obtain ⟨added, last, ran, ends⟩ := bind_eq_ok rest
    obtain ⟨adds, rfl⟩ := look_eq_ok ran
    cases ends
    rw [same, plain.isOk_lstat] at found
    obtain ⟨node, found⟩ := Option.ne_none_iff_exists'.mp found
    obtain ⟨blob, is, adds⟩ := addEntry_of_addPath lawful plain found adds
    exact ⟨.added blob is adds, rfl⟩
  · rw [if_neg found] at rest
    rw [same, plain.isOk_lstat, not_not] at found
    obtain ⟨removed, last, ran, ends⟩ := bind_eq_ok rest
    obtain ⟨removes, rfl⟩ := look_eq_ok ran
    cases ends
    exact ⟨.removed (workingBlob_of_none found) removes, rfl⟩

/-- What a commit made of a state. -/
structure Committed
    (git : Libgit2 Oid Index Tree)
    (workdir : Location)
    (specs : List Location)
    (text : Text)
    (author committer : GitEnvIdentity)
    (state next : GitState Index Tree)
    (parent made : Commit Tree) : Prop where
  before : state.head = some parent
  after : next.head = some made
  parents : made.parents = [parent]
  author : made.author = author
  committer : made.committer = committer
  message : git.messagePrettify text = .ok made.message
  known : ∀ spec ∈ specs, indexBlob git state.index spec ≠ none ∨
    treeBlob git parent.tree spec ≠ none
  differs : git.treeId made.tree ≠ git.treeId parent.tree
  recorded : ∀ spec ∈ specs, Recorded git made.tree spec
    (workingBlob git state.files workdir spec)
  apart : ∀ path, (∀ spec ∈ specs, ¬ Nested spec path) ->
    git.treeGet made.tree path = git.treeGet parent.tree path
  index : Indexed git (workingBlob git state.files workdir) state.index specs
    next.index
  files : next.files = state.files
  branch : next.branch = state.branch
  stash : next.stash = state.stash
  stashLog : next.stashLog = state.stashLog

/-- The updates a commit collects. -/
theorem updates_of_commitEach
    {index : Index}
    {base : Tree}
    {updates : List (TreeUpdate Oid)}
    (plain : ∀ spec ∈ specs, Plain state.files workdir spec)
    (runs : forEach (commitEach git workdir index base) specs [] state =
      (.ok (.ok updates), next)) :
    (∀ spec ∈ specs,
        indexBlob git index spec ≠ none ∨ treeBlob git base spec ≠ none) ∧
      updates = specs.map (fun spec =>
        ⟨spec, workingBlob git state.files workdir spec⟩) ∧
      next = state := by
  refine @forEach_invariant _ _ _ _ _ _
    (fun done updates reached =>
      (∀ spec ∈ done,
        indexBlob git index spec ≠ none ∨ treeBlob git base spec ≠ none) ∧
      updates = done.map (fun spec =>
        ⟨spec, workingBlob git state.files workdir spec⟩) ∧
      reached = state) specs ?_ _ _ _ _
    ⟨fun spec member => (List.not_mem_nil member).elim, rfl, rfl⟩ runs
  intro done turn later updates more reached middle split held ran
  obtain ⟨known, rfl, rfl⟩ := held
  have member : turn ∈ specs := by simp [split]
  obtain ⟨own, rfl, rfl⟩ := update_of_commitEach (plain turn member).toDirect
    ran
  refine ⟨fun spec listed => ?_, by simp, rfl⟩
  rcases List.mem_append.mp listed with earlier | last
  · exact known spec earlier
  · rw [List.mem_singleton.mp last]
    exact own

/-- A commit that returns zero. -/
theorem committed_of_commit
    [DecidableEq Oid]
    (lawful : git.Lawful)
    {message : Option Text}
    {author committer : GitEnvIdentity}
    (plain : ∀ spec ∈ specs, Plain state.files workdir spec)
    (runs : commit git workdir specs message author committer state =
      (.ok 0, next)) :
    ∃ text ∈ message, ∃ parent made,
      Committed git workdir specs text author committer state next parent
        made := by
  rw [commit.eq_def] at runs
  cases message with
  | none =>
      obtain ⟨printed, last, -, ends⟩ := bind_eq_ok runs
      cases ends
  | some text =>
      -- Each step only looks, up to the one that moves the head.
      refine ⟨text, rfl, ?_⟩
      obtain ⟨pretty, first, looked, rest⟩ := bind_eq_ok runs
      obtain ⟨prettified, rfl⟩ := look_eq_ok looked
      obtain ⟨head, second, found, more⟩ := bind_eq_ok rest
      obtain ⟨same, rfl⟩ := look_eq_ok found
      cases head with
      | none =>
          obtain ⟨printed, last, -, ends⟩ := bind_eq_ok more
          cases ends
      | some parent =>
          obtain ⟨index, third, taken, checks⟩ := bind_eq_ok more
          obtain ⟨known, rfl⟩ := look_eq_ok taken
          cases known
          obtain ⟨ended, fourth, looped, updated⟩ := bind_eq_ok checks
          cases ended with
          | error code =>
              obtain ⟨spec, -, reached, between, -, ran⟩ := forEach_returned
                (fun _ _ _ _ _ _ _ _ => trivial) trivial looped
              cases updated
              exact absurd rfl (nonzero_of_commitEach ran)
          | ok updates =>
              obtain ⟨known, rfl, rfl⟩ := updates_of_commitEach plain looped
              obtain ⟨tree, fifth, created, compared⟩ := bind_eq_ok updated
              obtain ⟨creates, rfl⟩ := look_eq_ok created
              obtain ⟨recorded, apart⟩ := recorded_of_createUpdated lawful
                (fun spec _ other _ (same : other = spec) => by rw [same])
                creates
              by_cases unchanged : git.treeId tree = git.treeId parent.tree
              · rw [if_pos unchanged] at compared
                obtain ⟨printed, last, -, ends⟩ := bind_eq_ok compared
                cases ends
              · rw [if_neg unchanged] at compared
                obtain ⟨done, sixth, changed, indexes⟩ := bind_eq_ok compared
                cases change_eq_ok changed
                obtain ⟨ended, last, looped, writes⟩ := bind_eq_ok indexes
                cases ended with
                | error code =>
                    exact absurd (congrArg Prod.fst looped)
                      (Yields.forEach (continues_indexEach git workdir) _ _ _
                        code)
                | ok taken =>
                    obtain ⟨rfl, indexed⟩ := indexed_of_forEach lawful
                      (separate_workingBlob plain)
                      (by
                        intro spec member index next after ran
                        refine indexTurn_of_indexEach lawful ?_ ran
                        exact plain spec member)
                      looped
                    cases writes
                    exact ⟨parent,
                      ⟨tree, [parent], author, committer, pretty⟩,
                      Except.ok.inj same, rfl, rfl, rfl, rfl, prettified, known,
                      unchanged, recorded, apart, indexed, rfl, rfl, rfl, rfl⟩

end Committing

end Gitexec
end Marsh
