import Marsh.Shellmux.Commit
import Marsh.Shellmux.DiffApply
import Marsh.Shellmux.Sweep
import Marsh.Shellmux.WalFrames

/-!
# What commits and startups leave alone

Applying operations, or replaying their records, without links on their way
touches what they name and the temporaries of what they write.
-/

namespace Marsh
namespace Shellmux

open Library Operation

/-! ## What is named -/

/-- What an operation, or a record of the log, asks of the seed. -/
inductive Reach
  | nothing
  | write (source target : Path)
  | remove (target : Path)

/-- The path it names. -/
def Reach.target : Reach -> Option Path
  | .nothing => none
  | .write _ target => some target
  | .remove target => some target

/-- Whether an entry is at a named path. -/
def Named (reaches : List Reach) (location : Location) : Prop :=
  ∃ reach ∈ reaches, reach.target = some (FileTree.absolutePath location)

/-- Whether a turn has changed no entry that is not named, but for directories
that its removal has left empty. -/
structure Frames
    (reaches : List Reach)
    (reach : Reach)
    (tree next : FileTree) : Prop where
  leaves : ∀ {location}, ¬ Named reaches location ->
    next.leaf location = tree.leaf location
  directories : ∀ {location}, ¬ Named reaches location ->
    tree.find location = some .directory -> next.find location = none ->
    ∃ target, reach = .remove (FileTree.absolutePath target) ∧
      location <+: target ∧ location ≠ target ∧
      ∀ other, location <+: other -> tree.find other ≠ none ->
        other <+: target ∨ target <+: other

/-- Whether no entry that is not named has changed in the end, but for
directories on the way to a removed one. -/
structure Framed (reaches : List Reach) (tree next : FileTree) : Prop where
  leaves : ∀ {location}, ¬ Named reaches location ->
    next.leaf location = tree.leaf location
  directories : ∀ {location}, ¬ Named reaches location ->
    tree.find location = some .directory -> next.find location = none ->
    ∃ target, .remove (FileTree.absolutePath target) ∈ reaches ∧
      location <+: target ∧ location ≠ target

instance (reaches : List Reach) : Std.Refl (Framed reaches) where
  refl _ := by
    refine ⟨fun _ => rfl, fun _ found missing => ?_⟩
    rw [missing] at found
    contradiction

instance (reaches : List Reach) : IsTrans FileTree (Framed reaches) where
  trans tree middle next first second := by
    refine ⟨fun outside => (second.leaves outside).trans (first.leaves outside),
      fun {location} outside found gone => ?_⟩
    have leaf : middle.leaf location = none := by
      rw [first.leaves outside]
      exact FileTree.leaf_eq_none.mpr (.inr found)
    obtain missing | directory := FileTree.leaf_eq_none.mp leaf
    · exact first.directories outside found missing
    · exact second.directories outside directory gone

theorem Frames.framed
    {reaches : List Reach}
    {reach : Reach}
    {tree next : FileTree}
    (frames : Frames reaches reach tree next)
    (member : reach ∈ reaches) : Framed reaches tree next := by
  refine ⟨frames.leaves, fun outside found gone => ?_⟩
  obtain ⟨target, rfl, above, apart, -⟩ := frames.directories outside found gone
  exact ⟨target, member, above, apart⟩

/-! ## One turn -/

/-- Whether an operation does what is asked.  A write of what is not there may
leave out the write. -/
def Performs (root : Location) : Reach -> SeedOperation Unit -> Prop
  | .nothing, run => ∀ tree, (run tree).2 = tree
  | .write source target, run => ∀ tree,
      run tree = Wal.applyWrite source target tree ∨
        present source tree = false ∧ (run tree).2 = tree
  | .remove target, run =>
      run = Wal.applyRemove (FileTree.absolutePath root) target

/-- Whether the path it names spells an entry below the root, with no symbolic
link on its way. -/
def Straight (root : Location) (reach : Reach) (tree : FileTree) : Prop :=
  ∀ target, reach.target = some target -> ∃ names name,
    target = FileTree.absolutePath (root ++ names ++ [name]) ∧
      name.IsText ∧ tree.Unlinked (root ++ names)

/-- Whether all that is below a location is named. -/
def NamedBelow
    (reaches : List Reach)
    (tree : FileTree)
    (location : Location) : Prop :=
  ∀ other, location <+: other -> other ≠ location -> tree.find other ≠ none ->
    Named reaches other

namespace Wal

/-- A tree without the temporary of a name, unless this is a directory. -/
def withoutTemporary
    (above : Location)
    (name : FileName)
    (tree : FileTree) : FileTree :=
  if tree.leaf (above ++ [temporary name]) = none then tree
  else tree.drop (above ++ [temporary name]) (by simp)

/-- Whether what is at a path can be copied: a symbolic link, or a file its owner
may read. -/
def Copyable (tree : FileTree) (source : Path) : Node -> Prop
  | .symlink _ => ∃ target, tree.readLink source = .ok target
  | .directory | .file _ _ | .other _ =>
      ∃ content, tree.ownerRead source = .ok content

/-- Whether a write gets as far as its target: its source can be copied once its
temporary is gone, and the temporary's name is short and no directory's. -/
def Replaces
    (source : Path)
    (above : Location)
    (name : FileName)
    (tree : FileTree) : Prop :=
  (∃ metadata, tree.lstat source = .ok metadata ∧
    Copyable (withoutTemporary above name tree) source metadata) ∧
    tree.find (above ++ [temporary name]) ≠ some .directory ∧
    (temporary name).bytes.length ≤ nameMax

end Wal

/-- Whether a turn spares what is not named: the temporary of what it writes is
no entry or one that is named, and so is all below what it removes or
replaces. -/
def Spares (reaches : List Reach) (reach : Reach) (tree : FileTree) : Prop :=
  match reach with
  | .nothing => True
  | .write source target => ∀ above name,
      target = FileTree.absolutePath (above ++ [name]) ->
      (present source tree = true ->
        tree.leaf (above ++ [Wal.temporary name]) = none ∨
          Named reaches (above ++ [Wal.temporary name])) ∧
      (Wal.Replaces source above name tree ->
        NamedBelow reaches tree (above ++ [name]))
  | .remove target => ∀ location, target = FileTree.absolutePath location ->
      NamedBelow reaches tree location

namespace Wal

section Temporaries

variable {tree : FileTree} {source : Path} {above : Location} {name : FileName}

/-- The directories of an entry that is there are not made. -/
theorem createDirAll_of_directory
    (found : tree.find above = some .directory) :
    FileOperation.createDirAll (FileTree.absolutePath above) tree =
      (.ok (), tree) := by
  have directories : ∀ other, other <+: above ->
      tree.find other = some .directory := by
    intro other before
    by_cases own : other = above
    · rw [own, found]
    · exact tree.directory_of_below (by simp [found]) before own
  obtain ⟨next, made, finds⟩ := FileOperation.createDirAll_absolutePath
    (fun other before => .inr (directories other before))
    (tree.short (by simp [found]))
  rw [made]
  congr 1
  ext1 other
  rw [finds]
  split_ifs with before
  · exact (directories other before).symm
  · rfl

/-- A directory is above a temporary that is there. -/
theorem directory_of_leaf_temporary
    {node : Node}
    (leaf : tree.leaf (above ++ [temporary name]) = some node) :
    tree.find above = some .directory :=
  FileTree.find_above_of_leaf leaf (List.prefix_append _ _) (by simp)

theorem find_withoutTemporary
    {other : Location}
    (apart : other ≠ above ++ [temporary name]) :
    (withoutTemporary above name tree).find other = tree.find other := by
  rw [withoutTemporary]
  split_ifs with free
  · rfl
  · obtain ⟨node, leaf⟩ := Option.ne_none_iff_exists'.mp free
    rw [FileTree.find_drop]
    split_ifs with below
    · exact (FileTree.find_of_leaf_above leaf below apart.symm).symm
    · rfl

theorem leaf_withoutTemporary (above : Location) (name : FileName)
    (tree : FileTree) :
    (withoutTemporary above name tree).leaf (above ++ [temporary name]) =
      none := by
  rw [withoutTemporary]
  split_ifs with free
  · exact free
  · exact FileTree.leaf_eq_none.mpr
      (.inl (FileTree.find_drop_of_below (List.prefix_refl _)))

theorem find_withoutTemporary_eq_directory_iff :
    (withoutTemporary above name tree).find (above ++ [temporary name]) =
        some .directory ↔
      tree.find (above ++ [temporary name]) = some .directory := by
  rw [withoutTemporary]
  split_ifs with free
  · rfl
  · rw [FileTree.find_drop_of_below (List.prefix_refl _)]
    constructor
    · intro missing
      exact absurd missing.symm (Option.some_ne_none _)
    · intro directory
      exact absurd (FileTree.leaf_eq_none.mpr (.inr directory)) free

/-- Unlinking the temporary. -/
theorem unlink_temporary (way : tree.Unlinked above) :
    recover (mapError io (change fun tree : FileTree =>
        tree.unlink (FileTree.absolutePath (above ++ [temporary name]))))
      (fun _ => pure ()) tree = (.ok (), withoutTemporary above name tree) := by
  rw [withoutTemporary]
  split_ifs with free
  · cases unlinks : tree.unlink
        (FileTree.absolutePath (above ++ [temporary name])) with
    | error error =>
        rw [recover_of_error (mapError_of_error (change_of_error unlinks))]
        rfl
    | ok next =>
        obtain ⟨location, node, _, located, leaf, -⟩ :=
          FileTree.unlink_eq_ok unlinks
        obtain ⟨rfl, -⟩ := FileTree.locate_of_unlinked way located
        rw [free] at leaf
        contradiction
  · obtain ⟨node, leaf⟩ := Option.ne_none_iff_exists'.mp free
    exact recover_of_ok (mapError_of_ok (change_of_ok (FileTree.unlink_of_leaf
      (FileTree.locate_of_found (FileTree.find_ne_none_of_leaf leaf)) leaf _)))

theorem directory_withoutTemporary
    (found : tree.find above = some .directory) :
    (withoutTemporary above name tree).find above = some .directory := by
  rw [find_withoutTemporary, found]
  intro same
  exact FileTree.not_prefix_of_append above (temporary name)
    (same ▸ List.prefix_refl _)

theorem sourceMetadata_of_ok
    {metadata : Node}
    (reads : tree.lstat source = .ok metadata) :
    sourceMetadata source tree = .ok metadata := by
  rw [sourceMetadata, reads]
  rfl

theorem sourceMetadata_of_error
    {error : Errno}
    (fails : tree.lstat source = .error error) :
    ∃ error, sourceMetadata source tree = .error error := by
  rw [sourceMetadata, fails]
  exact ⟨_, rfl⟩

/-- A write of what is not there changes nothing below a directory. -/
theorem applyWrite_of_absent
    (text : name.IsText)
    (found : tree.find above = some .directory)
    (absent : present source tree = false) :
    (applyWrite source (FileTree.absolutePath (above ++ [name])) tree).2 =
      tree := by
  rw [applyWrite_of_made text (createDirAll_of_directory found)]
  cases looked : tree.lstat source with
  | error error =>
      obtain ⟨_, fails⟩ := sourceMetadata_of_error looked
      rw [bind_of_error (look_of_error fails)]
  | ok metadata =>
      rw [present, looked] at absent
      contradiction

/-- A write of what is there removes its temporary. -/
theorem leaf_temporary_of_present
    {node : Node}
    (text : name.IsText)
    (leaf : tree.leaf (above ++ [temporary name]) = some node)
    (there : present source tree = true) :
    (applyWrite source (FileTree.absolutePath (above ++ [name])) tree).2.leaf
      (above ++ [temporary name]) = none := by
  have found := directory_of_leaf_temporary leaf
  have free : (withoutTemporary above name tree).find
      (above ++ [temporary name]) = none := by
    refine (FileTree.leaf_eq_none.mp
      (leaf_withoutTemporary above name tree)).resolve_right ?_
    rw [find_withoutTemporary_eq_directory_iff]
    intro directory
    rw [FileTree.leaf_eq_none.mpr (.inr directory)] at leaf
    contradiction
  rw [applyWrite_of_made text (createDirAll_of_directory found)]
  cases looked : tree.lstat source with
  | error error =>
      rw [present, looked] at there
      contradiction
  | ok metadata =>
      rw [bind_of_ok (look_of_ok (sourceMetadata_of_ok looked)),
        bind_of_ok (unlink_temporary (unlinked_of_directory found))]
      have way := unlinked_of_directory
        (@directory_withoutTemporary tree above name found)
      have frame := @keeps_land above name source metadata _ way
      exact FileTree.leaf_eq_none.mpr
        (frame.added (not_prefix_temporary above name) free)

/-- A short name that is no entry's has room for one. -/
theorem room_of_free
    (found : tree.find above = some .directory)
    (free : tree.leaf (above ++ [temporary name]) = none)
    (noDirectory : tree.find (above ++ [temporary name]) ≠ some .directory)
    (long : (temporary name).bytes.length ≤ nameMax) :
    tree.find (above ++ [temporary name]) = none ∧
      tree.Vacant (above ++ [temporary name]) := by
  have missing := (FileTree.leaf_eq_none.mp free).resolve_right noDirectory
  refine ⟨missing, by simp, by rwa [List.dropLast_concat], noDirectory,
    fun other member => ?_⟩
  obtain old | own := List.mem_append.mp member
  · exact tree.short (by simp [found]) other old
  · rw [List.mem_singleton.mp own]
    exact long

/-- A copy to a place without a file succeeds exactly when there is something to
copy, and room for it. -/
theorem copyEntry_succeeds_iff
    {metadata : Node}
    (found : tree.find above = some .directory)
    (free : tree.leaf (above ++ [temporary name]) = none) :
    (∃ next, copyEntry source
        (FileTree.absolutePath (above ++ [temporary name])) metadata tree =
          (.ok (), next)) ↔
      Copyable tree source metadata ∧
        tree.find (above ++ [temporary name]) ≠ some .directory ∧
        (temporary name).bytes.length ≤ nameMax := by
  have way := unlinked_of_directory found
  have noLeaf : ∀ node, node ≠ .directory ->
      tree.find (above ++ [temporary name]) ≠ some node := by
    intro node kind here
    rw [FileTree.leaf_eq_some.mpr ⟨here, kind⟩] at free
    contradiction
  have copies : (∃ next, mapError io (change fun tree : FileTree =>
        tree.copy source (FileTree.absolutePath (above ++ [temporary name])))
        tree = (.ok (), next)) ↔
      (∃ content, tree.ownerRead source = .ok content) ∧
        tree.find (above ++ [temporary name]) ≠ some .directory ∧
        (temporary name).bytes.length ≤ nameMax := by
    constructor
    · rintro ⟨next, runs⟩
      obtain ⟨origin, content, mode, location, _, _, sourced, held, reads,
        located, empty, -⟩ :=
        FileTree.copy_eq_ok (change_eq_ok (mapError_eq_ok runs))
      obtain ⟨rfl, -, long⟩ := FileTree.locate_of_unlinked way located
      refine ⟨⟨content, ?_⟩, ?_, long⟩
      · rw [FileTree.ownerRead_of_file sourced held, if_pos reads]
      · obtain missing | ⟨old, oldMode, here⟩ := empty
        · rw [missing]
          exact (Option.some_ne_none _).symm
        · exact absurd here (noLeaf _ Node.noConfusion)
    · rintro ⟨⟨content, reads⟩, noDirectory, long⟩
      obtain ⟨origin, mode, sourced, held, allowed⟩ :=
        FileTree.ownerRead_eq_ok reads
      obtain ⟨missing, vacant⟩ := room_of_free found free noDirectory long
      exact ⟨_, mapError_of_ok (change_of_ok (FileTree.copy_of_file sourced held
        allowed (FileTree.locate_absolutePath found long) missing vacant))⟩
  cases metadata with
  | directory => exact copies
  | file content mode => exact copies
  | other mode => exact copies
  | symlink target =>
      constructor
      · rintro ⟨next, runs⟩
        obtain ⟨link, middle, reads, links⟩ := bind_eq_ok runs
        obtain ⟨read, rfl⟩ := look_eq_ok (mapError_eq_ok reads)
        obtain ⟨location, _, located, missing, -⟩ :=
          FileTree.symlink_eq_ok (change_eq_ok (mapError_eq_ok links))
        obtain ⟨rfl, -, long⟩ := FileTree.locate_of_unlinked way located
        refine ⟨⟨link, read⟩, ?_, long⟩
        rw [missing]
        exact (Option.some_ne_none _).symm
      · rintro ⟨⟨link, read⟩, noDirectory, long⟩
        obtain ⟨missing, vacant⟩ := room_of_free found free noDirectory long
        have looked : mapError io (look fun tree : FileTree =>
            tree.readLink source) tree = (.ok link, tree) :=
          mapError_of_ok (look_of_ok read)
        have links : tree.symlink link
            (FileTree.absolutePath (above ++ [temporary name])) =
            .ok (tree.set _ (.symlink link) vacant) :=
          FileTree.symlink_of_none (FileTree.locate_absolutePath found long)
            missing vacant
        refine ⟨tree.set _ (.symlink link) vacant, ?_⟩
        rw [copyEntry, bind_of_ok looked]
        exact mapError_of_ok (change_of_ok links)

/-- A write that finds a directory at its target removes what is below, if it
gets as far, and else leaves it. -/
theorem applyWrite_of_directory
    {other : Location}
    (text : name.IsText)
    (found : tree.find (above ++ [name]) = some .directory)
    (below : above ++ [name] <+: other)
    (apart : other ≠ above ++ [name]) :
    (Replaces source above name tree ->
      (applyWrite source (FileTree.absolutePath (above ++ [name])) tree).2.find
        other = none) ∧
    (¬ Replaces source above name tree ->
      (applyWrite source (FileTree.absolutePath (above ++ [name])) tree).2.find
        other = tree.find other) := by
  have inside : tree.find above = some .directory := by
    have present : tree.find (above ++ [name]) ≠ none := by
      rw [found]
      exact Option.some_ne_none _
    have up := tree.inside (by simp) present
    rwa [List.dropLast_concat] at up
  have distinct : other ≠ above ++ [temporary name] := by
    rintro rfl
    exact not_prefix_temporary above name below
  have cleared := @directory_withoutTemporary tree above name inside
  rw [applyWrite_of_made text (createDirAll_of_directory inside)]
  cases looked : tree.lstat source with
  | error error =>
      obtain ⟨_, fails⟩ := sourceMetadata_of_error looked
      rw [bind_of_error (look_of_error fails)]
      refine ⟨?_, fun _ => rfl⟩
      rintro ⟨⟨metadata, reads, -⟩, -⟩
      rw [looked] at reads
      cases reads
  | ok metadata =>
      rw [bind_of_ok (look_of_ok (sourceMetadata_of_ok looked)),
        bind_of_ok (unlink_temporary (unlinked_of_directory inside))]
      have succeeds := @copyEntry_succeeds_iff (withoutTemporary above name tree)
        source above name metadata cleared
        (leaf_withoutTemporary above name tree)
      rw [ne_eq, find_withoutTemporary_eq_directory_iff] at succeeds
      have gets : Replaces source above name tree ↔
          ∃ next, copyEntry source
            (FileTree.absolutePath (above ++ [temporary name])) metadata
            (withoutTemporary above name tree) = (.ok (), next) := by
        rw [succeeds]
        constructor
        · rintro ⟨⟨other, read, copies⟩, room⟩
          rw [looked] at read
          cases read
          exact ⟨copies, room⟩
        · rintro ⟨copies, room⟩
          exact ⟨⟨metadata, looked, copies⟩, room⟩
      rw [gets]
      constructor
      · rintro ⟨next, copied⟩
        obtain ⟨node, vacant, kind, rfl⟩ := copyEntry_eq_ok
          (unlinked_of_directory cleared) copied
        obtain ⟨landed, lands, finds⟩ := land_of_leaf
          (FileTree.leaf_eq_some.mpr ⟨FileTree.find_set_self, kind⟩ :
            ((withoutTemporary above name tree).set _ node vacant).leaf
              (above ++ [temporary name]) = some node)
        rw [bind_of_ok copied, lands]
        dsimp only
        rw [finds, if_neg apart, if_pos below]
      · intro fails
        cases copied : copyEntry source
            (FileTree.absolutePath (above ++ [temporary name])) metadata
            (withoutTemporary above name tree) with
        | mk result next =>
            cases result with
            | ok done => exact absurd ⟨next, copied⟩ fails
            | error error =>
                rw [bind_of_error copied, copyEntry_eq_error copied]
                exact find_withoutTemporary distinct

end Temporaries

end Wal

section Turns

variable {root : Location} {reaches : List Reach} {reach : Reach}
  {run : SeedOperation Unit} {tree : FileTree} {location : Location}

/-- What a performed write leaves alone. -/
theorem Performs.writeFrame
    {source : Path}
    {above : Location}
    {name : FileName}
    (performs : Performs root
      (.write source (FileTree.absolutePath (above ++ [name]))) run)
    (text : name.IsText)
    (way : tree.Unlinked above) :
    Wal.WriteFrame above name tree (run tree).2 := by
  obtain same | ⟨-, same⟩ := performs tree
  · rw [same]
    exact Wal.keeps_applyWrite text source tree way
  · rw [same]
    exact Wal.WriteFrame.refl way

/-- What a performed removal leaves alone. -/
theorem Performs.removeFrame
    {names : List FileName}
    {name : FileName}
    (performs : Performs root
      (.remove (FileTree.absolutePath (root ++ names ++ [name]))) run)
    (way : tree.Unlinked (root ++ names)) :
    Wal.RemoveFrame root names name tree (run tree).2 := by
  rw [show run = _ from performs]
  exact Wal.keeps_applyRemove tree way

/-- What is not named is not the target. -/
theorem ne_of_not_named
    {target : Location}
    (member : reach ∈ reaches)
    (names : reach.target = some (FileTree.absolutePath target))
    (outside : ¬ Named reaches location) : location ≠ target := by
  rintro rfl
  exact outside ⟨reach, member, names⟩

/-- A removal takes all below a directory. -/
theorem Performs.find_of_removed
    {names : List FileName}
    {name : FileName}
    (performs : Performs root
      (.remove (FileTree.absolutePath (root ++ names ++ [name]))) run)
    (way : tree.Unlinked (root ++ names))
    (found : tree.find (root ++ names ++ [name]) = some .directory)
    (below : root ++ names ++ [name] <+: location) :
    (run tree).2.find location = none := by
  have nonroot : root ++ names ++ [name] ≠ [] := by simp
  have present : tree.find (root ++ names ++ [name]) ≠ none := by
    rw [found]
    exact Option.some_ne_none _
  have looked : look (fun tree : FileTree =>
      (.ok (tree.lstat (FileTree.absolutePath (root ++ names ++ [name]))) :
        Except Errno _)) tree =
      (.ok (.ok .directory), tree) := by
    refine look_of_ok ?_
    rw [FileTree.lstat_of_some (FileTree.locate_of_found present) found]
  have removes : Wal.removeEntry
      (FileTree.absolutePath (root ++ names ++ [name])) tree =
        (.ok (), tree.drop _ nonroot) := by
    rw [Wal.removeEntry, bind_of_ok looked]
    exact FileOperation.removeDirAll_absolutePath present nonroot
  have dropped := (@Wal.removeKeeps_of_drop root names name tree nonroot) way
  have pruned := (@Wal.keeps_pruneEmptyParents root names name
    (tree.drop _ nonroot)) dropped.unlinked
  rw [show run = _ from performs, Wal.applyRemove,
    bind_of_ok (mapError_of_ok (recover_of_ok removes))]
  exact pruned.absent (FileTree.find_drop_of_below below)

/-- What a performed write does below a directory at its target. -/
theorem Performs.find_of_replaced
    {source : Path}
    {above : Location}
    {name : FileName}
    (performs : Performs root
      (.write source (FileTree.absolutePath (above ++ [name]))) run)
    (text : name.IsText)
    (found : tree.find (above ++ [name]) = some .directory)
    (below : above ++ [name] <+: location)
    (apart : location ≠ above ++ [name]) :
    (Wal.Replaces source above name tree ->
      (run tree).2.find location = none) ∧
    (¬ Wal.Replaces source above name tree ->
      (run tree).2.find location = tree.find location) := by
  obtain same | ⟨absent, same⟩ := performs tree
  · rw [same]
    exact Wal.applyWrite_of_directory text found below apart
  · refine ⟨?_, fun _ => by rw [same]⟩
    rintro ⟨⟨metadata, reads, -⟩, -⟩
    rw [present, reads] at absent
    contradiction

/-- A write that spares what is not named changes none of it. -/
theorem frames_write_of_spares
    {source target : Path}
    (performs : Performs root (.write source target) run)
    (member : .write source target ∈ reaches)
    (straight : Straight root (.write source target) tree)
    (spares : Spares reaches (.write source target) tree) :
    Frames reaches (.write source target) tree (run tree).2 := by
  obtain ⟨names, name, rfl, text, way⟩ := straight target rfl
  obtain ⟨free, hollow⟩ := spares _ name rfl
  have frame := performs.writeFrame text way
  -- Below the target nothing is left that is not named.
  have under : ∀ {location}, ¬ Named reaches location ->
      root ++ names ++ [name] <+: location ->
      (run tree).2.leaf location = tree.leaf location ∧
        (tree.find location = some .directory ->
          (run tree).2.find location ≠ none) := by
    intro location outside below
    have apart := ne_of_not_named member rfl outside
    by_cases found : tree.find (root ++ names ++ [name]) = some .directory
    · have replaced := performs.find_of_replaced text found below apart
      by_cases gets : Wal.Replaces source (root ++ names) name tree
      · have missing : tree.find location = none := by
          by_contra present
          exact outside (hollow gets location below apart present)
        have gone := replaced.1 gets
        rw [FileTree.leaf_eq_none.mpr (.inl missing),
          FileTree.leaf_eq_none.mpr (.inl gone), missing]
        exact ⟨rfl, nofun⟩
      · have same := replaced.2 gets
        refine ⟨FileTree.leaf_congr same, fun directory => ?_⟩
        simp [same, directory]
    · have missing := tree.find_of_not_directory found below apart.symm
      have leaf := FileTree.leaf_eq_none.mpr (.inl missing)
      rw [missing, leaf]
      exact ⟨frame.below below apart leaf, nofun⟩
  refine ⟨fun {location} outside => ?_,
    fun {location} outside found gone => ?_⟩
  · by_cases below : root ++ names ++ [name] <+: location
    · exact (under outside below).1
    · cases leaf : tree.leaf location with
      | none =>
          refine FileTree.leaf_eq_none.mpr ?_
          obtain absent | directory := FileTree.leaf_eq_none.mp leaf
          · exact frame.added below absent
          · by_cases own : location = root ++ names ++ [Wal.temporary name]
            · subst own
              exact .inr (frame.directory directory)
            · rw [frame.kept below own (by simp [directory])]
              exact .inr directory
      | some node =>
          rw [← leaf]
          apply FileTree.leaf_congr
          by_cases own : location = root ++ names ++ [Wal.temporary name]
          · subst own
            have absent : present source tree = false := by
              rw [← Bool.not_eq_true]
              intro there
              obtain vacant | named := free there
              · rw [vacant] at leaf
                contradiction
              · exact outside named
            obtain same | ⟨-, same⟩ := performs tree
            · rw [same, Wal.applyWrite_of_absent text
                (Wal.directory_of_leaf_temporary leaf) absent]
            · rw [same]
          · exact frame.kept below own (FileTree.find_ne_none_of_leaf leaf)
  · by_cases below : root ++ names ++ [name] <+: location
    · exact absurd gone ((under outside below).2 found)
    · by_cases own : location = root ++ names ++ [Wal.temporary name]
      · subst own
        rw [frame.directory found] at gone
        contradiction
      · rw [frame.kept below own (by simp [found]), found] at gone
        contradiction

/-- A removal that spares what is not named changes none of it. -/
theorem frames_remove_of_spares
    {target : Path}
    (performs : Performs root (.remove target) run)
    (member : .remove target ∈ reaches)
    (straight : Straight root (.remove target) tree)
    (spares : Spares reaches (.remove target) tree) :
    Frames reaches (.remove target) tree (run tree).2 := by
  obtain ⟨names, name, rfl, -, way⟩ := straight target rfl
  have hollow := spares _ rfl
  have frame := performs.removeFrame way
  have under : ∀ {location}, ¬ Named reaches location ->
      root ++ names ++ [name] <+: location ->
      tree.find location = none ∧ (run tree).2.find location = none := by
    intro location outside below
    have missing : tree.find location = none := by
      by_contra present
      exact outside (hollow location below
        (ne_of_not_named member rfl outside) present)
    exact ⟨missing, frame.absent missing⟩
  refine ⟨fun {location} outside => ?_,
    fun {location} outside found gone => ?_⟩
  · by_cases below : root ++ names ++ [name] <+: location
    · obtain ⟨before, after⟩ := under outside below
      exact FileTree.leaf_congr (after.trans before.symm)
    · obtain same | ⟨directory, gone, -⟩ := frame.kept below
      · exact FileTree.leaf_congr same
      · rw [FileTree.leaf_eq_none.mpr (.inl gone),
          FileTree.leaf_eq_none.mpr (.inr directory)]
  · by_cases below : root ++ names ++ [name] <+: location
    · rw [(under outside below).1] at found
      contradiction
    · obtain same | ⟨-, -, -, -, above⟩ := frame.kept below
      · rw [same, found] at gone
        contradiction
      · refine ⟨_, rfl, above.trans (List.prefix_append _ _), ?_,
          fun other inside present => ?_⟩
        · rintro rfl
          exact FileTree.not_prefix_of_append _ _ above
        · -- Whatever was in the directory went with it.
          by_contra elsewhere
          obtain ⟨notAbove, notBelow⟩ := not_or.mp elsewhere
          have lost : (run tree).2.find other = none :=
            (run tree).2.find_of_none gone inside
          obtain same | ⟨-, -, -, -, before⟩ := frame.kept notBelow
          · exact present (same ▸ lost)
          · exact notAbove (before.trans (List.prefix_append _ _))

/-- A turn that spares what is not named changes none of it. -/
theorem frames_of_spares
    (performs : Performs root reach run)
    (member : reach ∈ reaches)
    (straight : Straight root reach tree)
    (spares : Spares reaches reach tree) :
    Frames reaches reach tree (run tree).2 := by
  cases reach with
  | nothing =>
      rw [performs tree]
      refine ⟨fun _ => rfl, fun _ found missing => ?_⟩
      rw [missing] at found
      contradiction
  | write source target =>
      exact frames_write_of_spares performs member straight spares
  | remove target =>
      exact frames_remove_of_spares performs member straight spares

/-- A turn that changes nothing that is not named spares it. -/
theorem spares_of_frames
    (performs : Performs root reach run)
    (straight : Straight root reach tree)
    (frames : Frames reaches reach tree (run tree).2) :
    Spares reaches reach tree := by
  -- What is lost below a target was named.
  have lost : ∀ {target location}, reach.target =
        some (FileTree.absolutePath target) ->
      target <+: location -> location ≠ target ->
      tree.find location ≠ none -> (run tree).2.find location = none ->
      Named reaches location := by
    intro target location names below apart found gone
    by_contra outside
    obtain ⟨node, held⟩ := Option.ne_none_iff_exists'.mp found
    by_cases kind : node = .directory
    · subst kind
      obtain ⟨other, rfl, above, -⟩ := frames.directories outside held gone
      obtain rfl := Diff.eq_of_path_eq
        (List.cons.inj (Option.some.inj names)).2
      exact apart (below.eq_of_length_le above.length_le).symm
    · have leaf := frames.leaves outside
      rw [FileTree.leaf_eq_none.mpr (.inl gone),
        FileTree.leaf_eq_some.mpr ⟨held, kind⟩] at leaf
      contradiction
  cases reach with
  | nothing => trivial
  | write source target =>
      rintro above name rfl
      obtain ⟨names, last, spelled, text, -⟩ := straight _ rfl
      obtain ⟨rfl, rfl⟩ : above = root ++ names ∧ name = last := by
        have same := Diff.eq_of_path_eq (List.cons.inj spelled).2
        obtain ⟨heads, lasts⟩ := List.append_inj' same rfl
        exact ⟨heads, (List.cons.inj lasts).1⟩
      refine ⟨fun there => ?_, fun gets location below apart found => ?_⟩
      · by_contra neither
        obtain ⟨occupied, outside⟩ := not_or.mp neither
        obtain ⟨node, leaf⟩ := Option.ne_none_iff_exists'.mp occupied
        have removed : (run tree).2.leaf
            (root ++ names ++ [Wal.temporary name]) = none := by
          obtain wrote | ⟨absent, -⟩ := performs tree
          · rw [wrote]
            exact Wal.leaf_temporary_of_present text leaf there
          · rw [there] at absent
            contradiction
        rw [frames.leaves outside] at removed
        exact occupied removed
      · have directory := tree.directory_of_below found below apart.symm
        exact lost rfl below apart found
          ((performs.find_of_replaced text directory below apart).1 gets)
  | remove target =>
      rintro location rfl other below apart found
      obtain ⟨names, last, spelled, -, way⟩ := straight _ rfl
      obtain rfl := Diff.eq_of_path_eq (List.cons.inj spelled).2
      have directory := tree.directory_of_below found below apart.symm
      exact lost rfl below apart found
        (performs.find_of_removed way directory below)

/-- A turn changes nothing that is not named if and only if it spares it. -/
theorem frames_iff_spares
    (performs : Performs root reach run)
    (member : reach ∈ reaches)
    (straight : Straight root reach tree) :
    Frames reaches reach tree (run tree).2 ↔ Spares reaches reach tree :=
  ⟨spares_of_frames performs straight,
    frames_of_spares performs member straight⟩

end Turns

/-! ## Runs -/

section Runs

variable {κ : Type} {reach : κ -> Reach} {run : κ -> SeedOperation Unit}
  {root : Location} {reaches : List Reach} {turns : List κ} {tree : FileTree}

/-- A run whose every turn changes nothing that is not named has changed none of
it in the end. -/
theorem framed_of_frames
    (members : ∀ turn ∈ turns, reach turn ∈ reaches)
    (frames : AtEach run (fun turn tree =>
      Frames reaches (reach turn) tree (run turn tree).2) turns tree) :
    Framed reaches tree (inOrder run turns tree).2 :=
  relates_inOrder
    (fun turn member _ own => own.framed (members turn member)) frames

/-- In a run without links on its way no turn changes what is not named if and
only if every turn spares it; and then the whole run has changed none of it. -/
theorem framed_iff_spares
    (performs : ∀ turn, Performs root (reach turn) (run turn))
    (members : ∀ turn ∈ turns, reach turn ∈ reaches)
    (straight : AtEach run (fun turn => Straight root (reach turn)) turns tree) :
    (AtEach run (fun turn tree =>
        Frames reaches (reach turn) tree (run turn tree).2) turns tree ↔
      AtEach run (fun turn => Spares reaches (reach turn)) turns tree) ∧
    (AtEach run (fun turn => Spares reaches (reach turn)) turns tree ->
      Framed reaches tree (inOrder run turns tree).2) := by
  have spared : AtEach run (fun turn => Spares reaches (reach turn)) turns tree ->
      AtEach run (fun turn tree =>
        Frames reaches (reach turn) tree (run turn tree).2) turns tree :=
    fun spares => (straight.and spares).imp fun turn member _ holds =>
      (frames_iff_spares (performs turn) (members turn member) holds.1).mpr
        holds.2
  refine ⟨⟨fun frames => ?_, spared⟩,
    fun spares => framed_of_frames members (spared spares)⟩
  exact (straight.and frames).imp fun turn member _ holds =>
    (frames_iff_spares (performs turn) (members turn member) holds.1).mp holds.2

end Runs

/-! ## Operations and records -/

/-- What an operation asks of the seed. -/
def CommitOp.reach (seed work : Location) (op : CommitOp) : Reach :=
  match op with
  | .remove _ => .remove (joined seed op.path)
  | .write _ => .write (joined work op.path) (joined seed op.path)

/-- What a record asks of the seed. -/
def WalRecord.reach (layout : Layout) (work : Path) : WalRecord -> Reach
  | .begin _ _ _ _ _ _ | .ended _ => .nothing
  | .delete path => .remove (layout.inSeed path)
  | .move source target _ =>
      .write (work.join (Path.ofText source.toList)) (layout.inSeed target)

theorem performs_applyOp (seed work : Location) (op : CommitOp) :
    Performs seed (op.reach seed work) (applyOp seed work op) := by
  cases op with
  | remove segments => rfl
  | write segments => exact fun tree => .inl rfl

theorem performs_applyRecord
    (hash : List UInt8 -> String)
    (layout : Layout)
    (work : Path)
    (record : WalRecord) :
    Performs layout.seed (record.reach layout work)
      (applyRecord hash layout work record) := by
  cases record with
  | begin => exact fun tree => rfl
  | ended => exact fun tree => rfl
  | delete path => rfl
  | move source target sha1 =>
      intro tree
      have looked : look (fun tree => (.ok (present
          (work.join (Path.ofText source.toList)) tree) :
            Except MuxError Bool)) tree =
          (.ok (present (work.join (Path.ofText source.toList)) tree), tree) :=
        rfl
      rw [applyRecord, writeMove, bind_of_ok looked]
      cases there : present (work.join (Path.ofText source.toList)) tree with
      | true => exact .inl rfl
      | false =>
          refine .inr ⟨rfl, ?_⟩
          rw [if_neg Bool.false_ne_true]
          cases carried : carries hash (layout.inSeed target) sha1 tree with
          | error error => rw [bind_of_error (look_of_error carried)]
          | ok same =>
              rw [bind_of_ok (look_of_ok carried)]
              cases same <;> rfl

theorem applyOps_eq_inOrder (seed work : Location) (ops : List CommitOp) :
    applyOps seed work ops = inOrder (applyOp seed work) ops := by
  induction ops with
  | nil => rfl
  | cons op ops hypothesis => rw [applyOps, inOrder, hypothesis]

theorem applyRecords_eq_inOrder
    (hash : List UInt8 -> String)
    (layout : Layout)
    (work : Path)
    (records : List WalRecord) :
    applyRecords hash layout work records =
      inOrder (applyRecord hash layout work) records := by
  induction records with
  | nil => rfl
  | cons record records hypothesis => rw [applyRecords, inOrder, hypothesis]

section Resembling

/-- The name `a`. -/
def letterName : FileName := Diff.letters 1 (by decide)

/-- A work tree with a new file `a`. -/
def letterTree : FileTree :=
  Diff.createdTree (show letterName.bytes.length ≤ nameMax by decide)

variable {kept : FileName} (short : kept.bytes.length ≤ nameMax)

include short in
theorem vacant_letterTree : letterTree.Vacant [Diff.seedName, kept] where
  nonroot := List.cons_ne_nil _ _
  inside := Diff.find_createdTree_seed _ []
  leaf := by
    rw [show letterTree.find [Diff.seedName, kept] = none from
      Diff.find_createdTree_seed _ [kept]]
    exact (Option.some_ne_none _).symm
  short := by
    intro name member
    obtain rfl | own := List.mem_cons.mp member
    · decide
    · rwa [List.mem_singleton.mp own]

/-- Beside it a seed in which a user keeps a file. -/
def userTree : FileTree :=
  letterTree.set [Diff.seedName, kept] (.file [120] 0o644)
    (vacant_letterTree short)

theorem find_userTree_seed :
    (userTree short).find [Diff.seedName] = some .directory :=
  (FileTree.find_set_of_ne (by simp)).trans (Diff.find_createdTree_seed _ [])

theorem find_userTree_work :
    (userTree short).find ([Diff.workName] ++ [letterName]) =
      some (.file [104, 105] 0o644) := by
  have apart : Diff.workName ≠ Diff.seedName := by decide
  rw [userTree, FileTree.find_set_of_ne (by simp [apart]), letterTree,
    Diff.find_createdTree_work, if_pos rfl]

theorem leaf_userTree_seed :
    (userTree short).leaf [Diff.seedName, kept] = some (.file [120] 0o644) :=
  FileTree.leaf_eq_some.mpr ⟨FileTree.find_set_self, Node.noConfusion⟩

theorem isText_letterName : ∀ name ∈ [letterName], name.IsText := by
  intro name member
  rw [List.mem_singleton.mp member]
  exact Diff.isText_letters _

/-- What writing `a` asks of the seed. -/
def letterReach : Reach :=
  (CommitOp.write (Diff.spelled [letterName])).reach [Diff.seedName]
    [Diff.workName]

theorem letterReach_eq :
    letterReach = .write
      (FileTree.absolutePath ([Diff.workName] ++ [letterName]))
      (FileTree.absolutePath ([Diff.seedName] ++ [letterName])) := by
  rw [← Diff.joined_key _ isText_letterName,
    ← Diff.joined_key _ isText_letterName]
  rfl

/-- Writing `a` below a seed without links. -/
theorem straight_letter
    {tree : FileTree}
    (real : tree.find [Diff.seedName] = some .directory) :
    AtEach (applyOp [Diff.seedName] [Diff.workName])
      (fun op => Straight [Diff.seedName]
        (op.reach [Diff.seedName] [Diff.workName]))
      [.write (Diff.spelled [letterName])] tree := by
  refine ⟨fun target named => ⟨[], letterName, ?_, ?_, ?_⟩, fun _ _ => trivial⟩
  · rw [← Option.some.inj named]
    exact Diff.joined_key _ isText_letterName
  · exact isText_letterName _ List.mem_cons_self
  · exact unlinked_of_directory real

/-- Nothing but `a` is named. -/
theorem named_letter_iff (location : Location) :
    Named [letterReach] location ↔ location = [Diff.seedName] ++ [letterName] := by
  constructor
  · rintro ⟨reach, member, names⟩
    rw [List.mem_singleton.mp member, letterReach_eq] at names
    exact (Diff.eq_of_path_eq (List.cons.inj (Option.some.inj names)).2).symm
  · rintro rfl
    exact ⟨letterReach, List.mem_cons_self, by rw [letterReach_eq]; rfl⟩

/-- Writing `a` spares a user's file of another name. -/
theorem spares_letter
    (own : kept ≠ letterName)
    (other : kept ≠ Wal.temporary letterName) :
    Spares [letterReach] letterReach (userTree short) := by
  have absent : ∀ names, names ≠ [kept] -> names ≠ [] ->
      (userTree short).find ([Diff.seedName] ++ names) = none := by
    intro names apart someName
    rw [userTree, FileTree.find_set_of_ne (by simpa using apart), letterTree,
      Diff.find_createdTree_seed, if_neg someName]
  rw [letterReach_eq]
  intro above name target
  have same := Diff.eq_of_path_eq (List.cons.inj target).2
  obtain ⟨rfl, last⟩ := List.append_inj' same rfl
  obtain rfl := (List.cons.inj last).1
  refine ⟨fun _ => .inl ?_, fun _ location below apart found => ?_⟩
  · refine FileTree.leaf_eq_none.mpr (.inl (absent _ ?_ (List.cons_ne_nil _ _)))
    exact fun equal => other (List.cons.inj equal).1.symm
  · obtain ⟨rest, rfl⟩ := below
    rw [List.append_assoc] at found
    refine absurd (absent _ (fun equal => ?_) (by simp)) found
    exact own (List.cons.inj equal).1.symm

/-- A user's file `aa` beside the written `a`. -/
def neighbourTree : FileTree :=
  userTree (show (Diff.letters 2 (by decide)).bytes.length ≤ nameMax by decide)

/-- A user's file `a.tmp-wal` beside the written `a`. -/
def resemblingTree : FileTree :=
  userTree (show (Wal.temporary letterName).bytes.length ≤ nameMax by decide)

end Resembling

end Shellmux
end Marsh
