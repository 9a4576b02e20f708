import Marsh.Shellmux.DiffEntries
import Marsh.Shellmux.WalRuns

/-!
# Applying a comparison

The operations of a comparison make the seed's entries those of the work tree,
unless the name of one to be written leaves no room for the suffix of its
temporary, or a file cannot be read or copied as it is.
-/

namespace Marsh
namespace Shellmux

open Library

namespace Diff

/-- Comparable trees in which no name ends as a temporary's does. -/
structure Mergeable
    (tree : FileTree)
    (identical : String -> Bool)
    (seed work : Location) : Prop
    extends Comparable tree identical seed work where
  seed_unsuffixed : ∀ {names}, tree.find (seed ++ names) ≠ none ->
    ∀ name ∈ names, ¬ Wal.suffixBytes <:+ name.bytes
  work_unsuffixed : ∀ {names}, tree.find (work ++ names) ≠ none ->
    ∀ name ∈ names, ¬ Wal.suffixBytes <:+ name.bytes

/-- The comparison succeeds, its operations apply in order without an error, and
then the seed's entries that are no directories are the work tree's. -/
def Reproduces
    (tree : FileTree)
    (listing : Listing tree)
    (identical : String -> Bool)
    (seed work : Location) : Prop :=
  ∃ ops final, diffTrees tree listing identical seed work = .ok ops ∧
    applyOps seed work ops tree = (.ok (), final) ∧
    ∀ names, final.leaf (seed ++ names) = tree.leaf (work ++ names)

/-- Whether each name to be written leaves room for the suffix, and no file that
is compared or copied lacks a permission or loses one. -/
structure Fits
    (tree : FileTree)
    (identical : String -> Bool)
    (seed work : Location) : Prop where
  short : ∀ names name, Written tree seed work (names ++ [name]) ->
    name.bytes.length + 8 ≤ nameMax
  copied : ∀ names content mode, Written tree seed work names ->
    tree.find (work ++ names) = some (.file content mode) ->
    readable mode = true
  kept : ∀ names content mode, Written tree seed work names ->
    tree.find (work ++ names) = some (.file content mode) ->
    content = [] ∨ privileged mode = false
  compared : BytesReadable tree identical seed work

/-! ## Runs of operations -/

section Runs

variable {seed work : Location} {tree : FileTree}

/-- What every operation of a list keeps holds after all of them. -/
theorem applyOps_of_step
    {ops : List CommitOp}
    {holds : List CommitOp -> FileTree -> Prop}
    (step : ∀ op ∈ ops, ∀ {done now}, holds done now ->
      ∃ next, applyOp seed work op now = (.ok (), next) ∧
        holds (op :: done) next)
    {done : List CommitOp}
    (first : holds done tree) :
    ∃ final, applyOps seed work ops tree = (.ok (), final) ∧
      holds (ops.reverse ++ done) final := by
  induction ops generalizing tree done with
  | nil => exact ⟨tree, rfl, first⟩
  | cons op ops hypothesis =>
      obtain ⟨next, runs, kept⟩ := step op List.mem_cons_self first
      obtain ⟨final, rest, last⟩ := hypothesis
        (fun other member => step other (List.mem_cons_of_mem _ member)) kept
      refine ⟨final, ?_, ?_⟩
      · rw [applyOps, Operation.bind_of_ok runs, rest]
      · rwa [List.reverse_cons, List.append_assoc, List.singleton_append]

/-- What every operation of a list keeps, where it succeeds, holds after all of
them, and each of them was good. -/
theorem applyOps_of_ok
    {ops : List CommitOp}
    {holds : List CommitOp -> FileTree -> Prop}
    {good : CommitOp -> Prop}
    (step : ∀ op ∈ ops, ∀ {done now next}, holds done now ->
      applyOp seed work op now = (.ok (), next) ->
      good op ∧ holds (op :: done) next)
    {done : List CommitOp}
    {final : FileTree}
    (first : holds done tree)
    (runs : applyOps seed work ops tree = (.ok (), final)) :
    (∀ op ∈ ops, good op) ∧ holds (ops.reverse ++ done) final := by
  induction ops generalizing tree done with
  | nil =>
      cases runs
      exact ⟨fun _ member => absurd member List.not_mem_nil, first⟩
  | cons op ops hypothesis =>
      obtain ⟨_, next, ran, rest⟩ := Operation.bind_eq_ok runs
      obtain ⟨own, kept⟩ := step op List.mem_cons_self first ran
      obtain ⟨others, last⟩ := hypothesis
        (fun other member => step other (List.mem_cons_of_mem _ member)) kept
        rest
      refine ⟨List.forall_mem_cons.mpr ⟨own, others⟩, ?_⟩
      rwa [List.reverse_cons, List.append_assoc, List.singleton_append]

theorem applyOps_append
    {ops others : List CommitOp}
    {middle : FileTree}
    (runs : applyOps seed work ops tree = (.ok (), middle)) :
    applyOps seed work (ops ++ others) tree =
      applyOps seed work others middle := by
  induction ops generalizing tree with
  | nil =>
      cases runs
      rfl
  | cons op ops hypothesis =>
      obtain ⟨_, next, first, rest⟩ := Operation.bind_eq_ok runs
      rw [List.cons_append, applyOps, Operation.bind_of_ok first,
        hypothesis rest]

end Runs

section Phases

variable {tree now : FileTree} {identical : String -> Bool}
  {seed work : Location}

/-- An entry below a directory has a last name. -/
theorem exists_last_of_leaf
    {root : Location}
    {names : List FileName}
    (directory : tree.find root = some .directory)
    (present : tree.leaf (root ++ names) ≠ none) :
    ∃ above name, names = above ++ [name] := by
  cases names using List.reverseRecOn with
  | nil =>
      rw [List.append_nil] at present
      exact absurd (FileTree.leaf_eq_none.mpr (.inr directory)) present
  | append_singleton above name => exact ⟨above, name, rfl⟩

/-! ## The removals -/

/-- What the removals done so far leave: directories of the seed may be gone,
and so are the entries that were removed. -/
structure Emptied
    (tree : FileTree)
    (seed work : Location)
    (done : List CommitOp)
    (now : FileTree) : Prop where
  kept : ∀ other, now.find other = tree.find other ∨
    now.find other = none ∧ seed <+: other ∧ seed ≠ other ∧
      (tree.find other = some .directory ∨
        ∃ names, other = seed ++ names ∧ Removed tree seed work names)
  gone : ∀ {names}, Removed tree seed work names ->
    .remove (spelled names) ∈ done -> now.find (seed ++ names) = none

theorem Emptied.remove
    (mergeable : Mergeable tree identical seed work)
    {done : List CommitOp}
    {names : List FileName}
    (removed : Removed tree seed work names)
    (holds : Emptied tree seed work done now) :
    ∃ next, applyOp seed work (.remove (spelled names)) now = (.ok (), next) ∧
      Emptied tree seed work (.remove (spelled names) :: done) next := by
  have texts := removed.texts mergeable.toComparable
  obtain ⟨above, name, rfl⟩ :=
    exists_last_of_leaf mergeable.seed_directory removed.1
  obtain ⟨node, found⟩ := Option.ne_none_iff_exists'.mp removed.1
  have place : seed ++ above ++ [name] = seed ++ (above ++ [name]) :=
    List.append_assoc ..
  have before : seed ++ above <+: seed ++ (above ++ [name]) :=
    ⟨[name], place⟩
  have passable : now.Passable (seed ++ above) := by
    intro other prior
    obtain same | ⟨absent, _⟩ := holds.kept other
    · refine .inr ?_
      rw [same]
      refine FileTree.find_above_of_leaf found (prior.trans before) ?_
      rintro rfl
      exact FileTree.not_prefix_of_append _ name (by rwa [place])
    · exact .inl absent
  have noDirectory : now.find (seed ++ above ++ [name]) ≠ some .directory := by
    rw [place]
    obtain same | ⟨absent, _⟩ := holds.kept (seed ++ (above ++ [name]))
    · rw [same, FileTree.find_of_leaf found]
      exact fun equal => (FileTree.leaf_eq_some.mp found).2
        (Option.some.inj equal)
    · simp [absent]
  have short : ∀ other ∈ seed ++ above ++ [name],
      other.bytes.length ≤ nameMax := by
    rw [place]
    exact tree.short (FileTree.find_ne_none_of_leaf found)
  obtain ⟨next, runs, gone, keeps⟩ :=
    Wal.applyRemove_absolutePath passable noDirectory short
  have absent : ∀ other, now.find other = none -> next.find other = none := by
    intro other missing
    by_cases own : other = seed ++ above ++ [name]
    · rw [own, gone]
    · obtain same | ⟨_, missed, _⟩ := keeps other own
      · rw [same, missing]
      · exact missed
  refine ⟨next, ?_, fun other => ?_, fun {others} asked member => ?_⟩
  · rw [applyOp, path_remove, joined_key seed texts, ← place]
    exact runs
  · by_cases own : other = seed ++ above ++ [name]
    · rw [place] at own gone
      rw [own]
      refine .inr ⟨gone, List.prefix_append _ _, ?_, .inr ⟨_, rfl, removed⟩⟩
      simp
    · obtain old | ⟨missing, _⟩ := holds.kept other
      · obtain same | ⟨directory, missed, below, apart⟩ := keeps other own
        · exact .inl (same.trans old)
        · exact .inr ⟨missed, below, apart, .inl (old ▸ directory)⟩
      · rename_i rest
        exact .inr ⟨absent other missing, rest⟩
  · obtain same | later := List.mem_cons.mp member
    · have equal : others = above ++ [name] := by
        refine eq_of_key_eq (asked.texts mergeable.toComparable) texts ?_
        rw [key, CommitOp.remove.inj same]
        rfl
      rw [equal, ← place, gone]
    · exact absent _ (holds.gone asked later)

/-! ## The writes -/

/-- What the writes done so far leave. -/
structure Filled
    (tree : FileTree)
    (seed work : Location)
    (done : List CommitOp)
    (now : FileTree) : Prop where
  outside : ∀ {other}, ¬ seed <+: other ∨ other = seed ->
    now.find other = tree.find other
  origin : ∀ {names}, now.find (seed ++ names) ≠ none ->
    tree.find (seed ++ names) ≠ none ∨ tree.find (work ++ names) ≠ none
  written : ∀ {names}, Written tree seed work names ->
    .write (spelled names) ∈ done ->
    now.leaf (seed ++ names) = (tree.leaf (work ++ names)).map Node.copied
  unwritten : ∀ {names}, (Written tree seed work names ->
      .write (spelled names) ∉ done) ->
    now.leaf (seed ++ names) =
      if tree.leaf (work ++ names) = none then none
      else tree.leaf (seed ++ names)

/-- Where the work tree has no entry but directories, the seed has none. -/
theorem Filled.leaf_eq_none
    {done : List CommitOp}
    {names : List FileName}
    (holds : Filled tree seed work done now)
    (missing : tree.leaf (work ++ names) = none) :
    now.leaf (seed ++ names) = none := by
  rw [holds.unwritten, if_pos missing]
  exact fun written => absurd missing written.1

/-- Nothing is written before the removals are done. -/
theorem Emptied.filled
    {ops : List CommitOp}
    (removes : ∀ names, Removed tree seed work names ->
      .remove (spelled names) ∈ ops)
    (holds : Emptied tree seed work ops now) :
    Filled tree seed work [] now := by
  refine ⟨fun {other} apart => ?_, fun {names} present => .inl fun missing => ?_,
    fun _ member => ?_, fun {names} _ => ?_⟩
  · obtain same | ⟨_, below, distinct, _⟩ := holds.kept other
    · exact same
    · obtain outside | equal := apart
      · exact absurd below outside
      · exact absurd equal.symm distinct
  · obtain same | ⟨absent, _⟩ := holds.kept (seed ++ names)
    · exact present (same.trans missing)
    · exact present absent
  · contradiction
  · split_ifs with missing
    · by_cases old : tree.leaf (seed ++ names) = none
      · obtain same | ⟨absent, _⟩ := holds.kept (seed ++ names)
        · rw [FileTree.leaf_congr same, old]
        · exact FileTree.leaf_eq_none.mpr (.inl absent)
      · have removed : Removed tree seed work names := ⟨old, missing⟩
        exact FileTree.leaf_eq_none.mpr
          (.inl (holds.gone removed (removes names removed)))
    · obtain same | ⟨absent, _, _, directory | ⟨others, equal, removed⟩⟩ :=
        holds.kept (seed ++ names)
      · exact FileTree.leaf_congr same
      · rw [FileTree.leaf_eq_none.mpr (.inl absent),
          FileTree.leaf_eq_none.mpr (.inr directory)]
      · rw [List.append_cancel_left equal] at missing
        exact absurd removed.2 missing

/-- The way down to an entry of the work tree is free in the seed. -/
theorem Filled.passable
    (mergeable : Mergeable tree identical seed work)
    {done : List CommitOp}
    {above : List FileName}
    {name : FileName}
    (present : tree.leaf (work ++ (above ++ [name])) ≠ none)
    (holds : Filled tree seed work done now) :
    now.Passable (seed ++ above) := by
  obtain ⟨node, found⟩ := Option.ne_none_iff_exists'.mp present
  have root : now.find seed = some .directory := by
    rw [holds.outside (.inr rfl), mergeable.seed_directory]
  intro other prior
  obtain within | longer := List.prefix_or_prefix_of_prefix prior
    (List.prefix_append seed above)
  · refine .inr ?_
    by_cases own : other = seed
    · rw [own, root]
    · exact now.directory_of_below (by simp [root]) within own
  · obtain ⟨rest, rfl⟩ := longer
    have below : rest <+: above := (List.prefix_append_right_inj seed).mp prior
    have directory := FileTree.find_below_root_of_leaf found below
    exact FileTree.leaf_eq_none.mp
      (holds.leaf_eq_none (FileTree.leaf_eq_none.mpr (.inr directory)))

/-- What a write finds when it is its turn. -/
theorem Filled.ready
    (mergeable : Mergeable tree identical seed work)
    {done : List CommitOp}
    {above : List FileName}
    {name : FileName}
    {node : Node}
    (found : tree.leaf (work ++ (above ++ [name])) = some node)
    (holds : Filled tree seed work done now) :
    now.leaf (work ++ (above ++ [name])) = some node ∧
      now.Passable (seed ++ above) ∧
      (∀ other ∈ seed ++ above, other.bytes.length ≤ nameMax) ∧
      now.find (seed ++ above ++ [Wal.temporary name]) = none := by
  have present : tree.leaf (work ++ (above ++ [name])) ≠ none := by
    simp [found]
  refine ⟨?_, holds.passable mergeable present, ?_, ?_⟩
  · -- The work tree is not in the seed.
    rw [← found]
    refine FileTree.leaf_congr (holds.outside (.inl fun below => ?_))
    obtain first | second := List.prefix_or_prefix_of_prefix below
      (List.prefix_append work _)
    · exact mergeable.apart.1 first
    · exact mergeable.apart.2 second
  · intro other member
    obtain root | own := List.mem_append.mp member
    · exact tree.short (by simp [mergeable.seed_directory]) other root
    · refine tree.short (FileTree.find_ne_none_of_leaf found) other ?_
      simp [own]
  · by_contra present
    rw [List.append_assoc] at present
    have suffixed : Wal.suffixBytes <:+ (Wal.temporary name).bytes :=
      List.suffix_append _ _
    obtain old | new := holds.origin present
    · exact mergeable.seed_unsuffixed old _ (by simp) suffixed
    · exact mergeable.work_unsuffixed new _ (by simp) suffixed

theorem Filled.write
    (mergeable : Mergeable tree identical seed work)
    {done : List CommitOp}
    {above : List FileName}
    {name : FileName}
    {node : Node}
    (asked : Written tree seed work (above ++ [name]))
    (found : tree.leaf (work ++ (above ++ [name])) = some node)
    (fits : name.bytes.length + 8 ≤ nameMax)
    (reads : node.readable = true)
    (holds : Filled tree seed work done now) :
    ∃ next, applyOp seed work (.write (spelled (above ++ [name]))) now =
        (.ok (), next) ∧
      Filled tree seed work (.write (spelled (above ++ [name])) :: done)
        next := by
  have texts := asked.texts mergeable.toComparable
  have here := FileTree.find_of_leaf found
  have place : seed ++ above ++ [name] = seed ++ (above ++ [name]) :=
    List.append_assoc ..
  obtain ⟨leaf, passable, short, fresh⟩ := holds.ready mergeable found
  have kind : ∀ mode, node ≠ .other mode := by
    rintro mode rfl
    exact mergeable.work_kind _ mode here
  obtain ⟨next, runs, finds⟩ := Wal.applyWrite_absolutePath leaf kind reads
    (texts name (by simp)) fits passable short fresh
  rw [place] at runs finds
  have target : next.leaf (seed ++ (above ++ [name])) = some node.copied := by
    rw [FileTree.leaf_eq_some, finds, if_pos rfl]
    exact ⟨rfl, Node.copied_ne_directory (FileTree.leaf_eq_some.mp found).2⟩
  have others : ∀ {names}, names ≠ above ++ [name] ->
      next.leaf (seed ++ names) = now.leaf (seed ++ names) := by
    intro names own
    have apart : seed ++ names ≠ seed ++ (above ++ [name]) :=
      fun same => own (List.append_cancel_left same)
    by_cases below : above ++ [name] <+: names
    · have missing := FileTree.find_of_leaf_above found
        ((List.prefix_append_right_inj work).mpr below)
        fun same => own (List.append_cancel_left same).symm
      rw [holds.leaf_eq_none (FileTree.leaf_eq_none.mpr (.inl missing)),
        FileTree.leaf_eq_none, finds, if_neg apart,
        if_pos ((List.prefix_append_right_inj seed).mpr below)]
      exact .inl rfl
    · by_cases before : names <+: above
      · have directory := FileTree.find_below_root_of_leaf found before
        rw [holds.leaf_eq_none (FileTree.leaf_eq_none.mpr (.inr directory)),
          FileTree.leaf_eq_none, finds, if_neg apart,
          if_neg (mt (List.prefix_append_right_inj seed).mp below),
          if_pos ((List.prefix_append_right_inj seed).mpr before)]
        exact .inr rfl
      · apply FileTree.leaf_congr
        rw [finds, if_neg apart,
          if_neg (mt (List.prefix_append_right_inj seed).mp below),
          if_neg (mt (List.prefix_append_right_inj seed).mp before)]
  refine ⟨next, ?_, fun {other} apart => ?_, fun {names} present => ?_,
    fun {names} written member => ?_, fun {names} unwritten => ?_⟩
  · rw [applyOp, path_write, joined_key seed texts, joined_key work texts]
    exact runs
  · have inside : ¬ seed ++ (above ++ [name]) <+: other := by
      intro below
      obtain outside | rfl := apart
      · exact outside ((List.prefix_append _ _).trans below)
      · have longer := below.length_le
        simp at longer
    rw [finds, if_neg fun same => inside (by rw [same]), if_neg inside]
    split_ifs with before
    · have root : tree.find other = some .directory := by
        obtain outside | rfl := apart
        · obtain within | below := List.prefix_or_prefix_of_prefix before
            (List.prefix_append seed above)
          · by_cases own : other = seed
            · rw [own, mergeable.seed_directory]
            · exact tree.directory_of_below (by simp [mergeable.seed_directory])
                within own
          · exact absurd below outside
        · exact mergeable.seed_directory
      exact root.symm
    · exact holds.outside apart
  · rw [finds] at present
    split_ifs at present with own below before
    · rw [List.append_cancel_left own]
      exact .inr (by simp [here])
    · contradiction
    · refine .inr ?_
      rw [List.prefix_append_right_inj] at before
      simp [FileTree.find_below_root_of_leaf found before]
    · exact holds.origin present
  · by_cases own : names = above ++ [name]
    · rw [own, target, found, Option.map_some]
    · rw [others own]
      refine holds.written written ((List.mem_cons.mp member).resolve_left ?_)
      intro same
      refine own (eq_of_key_eq (written.texts mergeable.toComparable) texts ?_)
      rw [key, CommitOp.write.inj same]
      rfl
  · by_cases own : names = above ++ [name]
    · rw [own] at unwritten
      exact absurd List.mem_cons_self (unwritten asked)
    · rw [others own]
      exact holds.unwritten fun written member =>
        unwritten written (List.mem_cons_of_mem _ member)

/-- A write that succeeds had room for the suffix and the right to read. -/
theorem Filled.write_of_ok
    (mergeable : Mergeable tree identical seed work)
    {done : List CommitOp}
    {above : List FileName}
    {name : FileName}
    {node : Node}
    {next : FileTree}
    (asked : Written tree seed work (above ++ [name]))
    (found : tree.leaf (work ++ (above ++ [name])) = some node)
    (holds : Filled tree seed work done now)
    (runs : applyOp seed work (.write (spelled (above ++ [name]))) now =
      (.ok (), next)) :
    (name.bytes.length + 8 ≤ nameMax ∧ node.readable = true) ∧
      Filled tree seed work (.write (spelled (above ++ [name])) :: done)
        next := by
  have texts := asked.texts mergeable.toComparable
  have text := texts name (by simp)
  obtain ⟨leaf, passable, short, fresh⟩ := holds.ready mergeable found
  have wrote := runs
  rw [applyOp, path_write, joined_key seed texts, joined_key work texts,
    ← List.append_assoc seed] at wrote
  have fits : name.bytes.length + 8 ≤ nameMax := by
    by_contra long
    exact Wal.applyWrite_of_long text (by omega) _ _ _ wrote
  have reads := Wal.readable_of_applyWrite leaf text fits passable short fresh
    wrote
  obtain ⟨other, ran, filled⟩ := holds.write mergeable asked found fits reads
  rw [runs] at ran
  cases ran
  exact ⟨⟨fits, reads⟩, filled⟩

/-! ## The whole comparison -/

/-- The removals of a comparison succeed. -/
theorem exists_filled
    (mergeable : Mergeable tree identical seed work)
    {removes : List CommitOp}
    (removed : ∀ op, op ∈ removes ↔ ∃ names, op = .remove (spelled names) ∧
      Removed tree seed work names) :
    ∃ middle, applyOps seed work removes tree = (.ok (), middle) ∧
      Filled tree seed work [] middle := by
  have removing : ∀ op ∈ removes, ∀ {done now},
      Emptied tree seed work done now ->
      ∃ next, applyOp seed work op now = (.ok (), next) ∧
        Emptied tree seed work (op :: done) next := by
    intro op member done now holds
    obtain ⟨names, rfl, asked⟩ := (removed op).mp member
    exact holds.remove mergeable asked
  have whole : Emptied tree seed work [] tree :=
    ⟨fun _ => .inl rfl, fun _ member => absurd member List.not_mem_nil⟩
  obtain ⟨middle, empties, emptied⟩ := applyOps_of_step removing whole
  refine ⟨middle, empties, emptied.filled fun names asked => ?_⟩
  rw [List.append_nil, List.mem_reverse]
  exact (removed _).mpr ⟨names, rfl, asked⟩

/-- Every entry of a comparison was written that is to be. -/
theorem Filled.leaf_of_written
    {writes : List CommitOp}
    {names : List FileName}
    (written : ∀ op, op ∈ writes ↔ ∃ names, op = .write (spelled names) ∧
      Written tree seed work names)
    (asked : Written tree seed work names)
    (holds : Filled tree seed work (writes.reverse ++ []) now) :
    now.leaf (seed ++ names) = (tree.leaf (work ++ names)).map Node.copied := by
  refine holds.written asked ?_
  rw [List.append_nil, List.mem_reverse]
  exact (written _).mpr ⟨names, rfl, asked⟩

/-- A comparison that is applied without an error, and then makes the seed's
entries those of the work tree, fits. -/
theorem fits_of_reproduces
    {listing : Listing tree}
    (mergeable : Mergeable tree identical seed work)
    (reproduces : Reproduces tree listing identical seed work) :
    Fits tree identical seed work := by
  obtain ⟨ops, final, compared, runs, same⟩ := reproduces
  have reads := bytesReadable_of_diffTrees mergeable.toComparable compared
  obtain ⟨removes, writes, asks, removed, written⟩ :=
    diffTrees_eq_ok mergeable.toComparable reads listing
  rw [asks] at compared
  cases compared
  obtain ⟨middle, empties, cleared⟩ := exists_filled mergeable removed
  rw [applyOps_append empties] at runs
  -- Each write that succeeded had what it needs.
  obtain ⟨good, filled⟩ := @applyOps_of_ok seed work middle writes
    (Filled tree seed work)
    (fun op => ∀ names name node, Written tree seed work (names ++ [name]) ->
      tree.leaf (work ++ (names ++ [name])) = some node ->
      op = .write (spelled (names ++ [name])) ->
      name.bytes.length + 8 ≤ nameMax ∧ node.readable = true)
    (fun op member done now next holds ran => by
      obtain ⟨names, rfl, asked⟩ := (written op).mp member
      obtain ⟨above, name, rfl⟩ :=
        exists_last_of_leaf mergeable.work_directory asked.1
      obtain ⟨node, found⟩ := Option.ne_none_iff_exists'.mp asked.1
      refine ⟨fun names last other ask leaf equal => ?_,
        (holds.write_of_ok mergeable asked found ran).2⟩
      rw [equal] at ran
      exact (holds.write_of_ok mergeable ask leaf ran).1) [] final cleared runs
  have ready : ∀ names name node, Written tree seed work (names ++ [name]) ->
      tree.leaf (work ++ (names ++ [name])) = some node ->
      name.bytes.length + 8 ≤ nameMax ∧ node.readable = true :=
    fun names name node asked leaf => good _
      ((written _).mpr ⟨_, rfl, asked⟩) names name node asked leaf rfl
  have leaf : ∀ {names content mode},
      tree.find (work ++ names) = some (.file content mode) ->
      tree.leaf (work ++ names) = some (.file content mode) :=
    fun found => FileTree.leaf_eq_some.mpr ⟨found, Node.noConfusion⟩
  refine ⟨fun names name asked => ?_, fun names content mode asked found => ?_,
    fun names content mode asked found => ?_, reads⟩
  · obtain ⟨node, found⟩ := Option.ne_none_iff_exists'.mp asked.1
    exact (ready names name node asked found).1
  · obtain ⟨above, name, rfl⟩ :=
      exists_last_of_leaf mergeable.work_directory asked.1
    exact (ready above name _ asked (leaf found)).2
  · have landed := filled.leaf_of_written written asked
    rw [same names, leaf found, Option.map_some, Option.some.injEq] at landed
    exact Node.copied_eq_self_iff.mp landed.symm content mode rfl

/-- A comparison that fits is applied without an error, and then the seed's
entries are those of the work tree. -/
theorem reproduces_of_fits
    (listing : Listing tree)
    (mergeable : Mergeable tree identical seed work)
    (fits : Fits tree identical seed work) :
    Reproduces tree listing identical seed work := by
  obtain ⟨removes, writes, compared, removed, written⟩ :=
    diffTrees_eq_ok mergeable.toComparable fits.compared listing
  have writing : ∀ op ∈ writes, ∀ {done now},
      Filled tree seed work done now ->
      ∃ next, applyOp seed work op now = (.ok (), next) ∧
        Filled tree seed work (op :: done) next := by
    intro op member done now holds
    obtain ⟨names, rfl, asked⟩ := (written op).mp member
    obtain ⟨above, name, rfl⟩ :=
      exists_last_of_leaf mergeable.work_directory asked.1
    obtain ⟨node, found⟩ := Option.ne_none_iff_exists'.mp asked.1
    refine holds.write mergeable asked found (fits.short above name asked) ?_
    cases node with
    | directory => rfl
    | symlink => rfl
    | other => rfl
    | file content mode =>
        exact fits.copied _ content mode asked (FileTree.find_of_leaf found)
  obtain ⟨middle, empties, cleared⟩ := exists_filled mergeable removed
  obtain ⟨final, fills, filled⟩ := applyOps_of_step writing cleared
  refine ⟨_, final, compared, ?_, fun names => ?_⟩
  · rw [applyOps_append empties, fills]
  · by_cases asked : Written tree seed work names
    · obtain ⟨node, found⟩ := Option.ne_none_iff_exists'.mp asked.1
      have kept : node.copied = node := by
        refine Node.copied_eq_self_iff.mpr fun content mode equal => ?_
        refine fits.kept names content mode asked ?_
        rw [FileTree.find_of_leaf found, equal]
      rw [filled.leaf_of_written written asked, found, Option.map_some, kept]
    · rw [filled.unwritten fun ask => absurd ask asked]
      split_ifs with missing
      · exact missing.symm
      · by_contra differs
        exact asked ⟨missing, fun same => differs same.symm⟩

end Phases

/-! ## A created file -/

/-- The name `s`, of a seed. -/
def seedName : FileName :=
  ⟨[115], by decide, by decide, by decide, by decide, by decide⟩

/-- The name `w`, of a work tree. -/
def workName : FileName :=
  ⟨[119], by decide, by decide, by decide, by decide, by decide⟩

section Created

variable {name : FileName} (short : name.bytes.length ≤ nameMax)

/-- An empty seed beside an empty work tree. -/
def emptyTrees : FileTree :=
  (FileTree.bare.set [seedName] .directory
    ⟨by decide, by decide, by decide, by decide⟩).set [workName] .directory
    ⟨by decide, by decide, by decide, by decide⟩

theorem find_emptyTrees (location : Location) :
    emptyTrees.find location =
      if location = [workName] then some .directory
      else if location = [seedName] then some .directory
      else if location = [] then some .directory
      else none := by
  rw [emptyTrees, FileTree.find_set, FileTree.find_set]
  rfl

include short in
theorem vacant_emptyTrees : emptyTrees.Vacant [workName, name] where
  nonroot := List.cons_ne_nil _ _
  inside := by
    rw [find_emptyTrees]
    rfl
  leaf := by
    rw [find_emptyTrees]
    simp
  short := by
    intro other member
    obtain rfl | own := List.mem_cons.mp member
    · decide
    · rwa [List.mem_singleton.mp own]

/-- An empty seed beside a work tree in which one file was created. -/
def createdTree : FileTree :=
  emptyTrees.set [workName, name] (.file [104, 105] 0o644)
    (vacant_emptyTrees short)

theorem find_createdTree_seed (names : List FileName) :
    (createdTree short).find ([seedName] ++ names) =
      if names = [] then some .directory else none := by
  rw [createdTree, FileTree.find_set, find_emptyTrees]
  cases names with
  | nil =>
      simp
  | cons first names =>
      have apart : seedName ≠ workName := by decide
      simp [apart]

theorem find_createdTree_work (names : List FileName) :
    (createdTree short).find ([workName] ++ names) =
      if names = [name] then some (.file [104, 105] 0o644)
      else if names = [] then some .directory
      else none := by
  rw [createdTree, FileTree.find_set, find_emptyTrees]
  cases names with
  | nil => simp
  | cons first names => simp

theorem mergeable_createdTree
    (text : name.IsText)
    (unsuffixed : ¬ Wal.suffixBytes <:+ name.bytes) :
    Mergeable (createdTree short) (fun _ => false) [seedName] [workName] where
  seed_directory := find_createdTree_seed short []
  work_directory := find_createdTree_work short []
  apart := by decide
  seed_text := by
    intro names present
    rw [find_createdTree_seed] at present
    split_ifs at present with empty
    · simp [empty]
    · contradiction
  work_text := by
    intro names present
    rw [find_createdTree_work] at present
    split_ifs at present with own empty
    · simpa [own] using text
    · simp [empty]
    · contradiction
  seed_kind := by
    intro names mode
    rw [find_createdTree_seed]
    split_ifs <;> simp
  work_kind := by
    intro names mode
    rw [find_createdTree_work]
    split_ifs <;> simp
  identity := by
    intro names left right leftMode rightMode same
    contradiction
  seed_unsuffixed := by
    intro names present
    rw [find_createdTree_seed] at present
    split_ifs at present with empty
    · simp [empty]
    · contradiction
  work_unsuffixed := by
    intro names present
    rw [find_createdTree_work] at present
    split_ifs at present with own empty
    · simpa [own] using unsuffixed
    · simp [empty]
    · contradiction

theorem written_createdTree :
    Written (createdTree short) [seedName] [workName] ([] ++ [name]) := by
  have new : (createdTree short).leaf ([workName] ++ ([] ++ [name])) =
      some (.file [104, 105] 0o644) := by
    rw [FileTree.leaf_eq_some, find_createdTree_work]
    simp
  have old : (createdTree short).leaf ([seedName] ++ ([] ++ [name])) = none := by
    rw [FileTree.leaf_eq_none, find_createdTree_seed]
    simp
  rw [Written, new, old]
  simp

theorem fits_createdTree
    (fits : name.bytes.length + 8 ≤ nameMax) :
    Fits (createdTree short) (fun _ => false) [seedName] [workName] := by
  have created : ∀ {names content mode},
      (createdTree short).find ([workName] ++ names) =
        some (.file content mode) -> mode = 0o644 := by
    intro names content mode found
    rw [find_createdTree_work] at found
    split_ifs at found
    · cases found
      rfl
    · cases found
  refine ⟨fun names last written => ?_, fun names content mode _ found => ?_,
    fun names content mode _ found => ?_,
    fun names left right mode before => ?_⟩
  · have present : (createdTree short).find ([workName] ++ (names ++ [last])) ≠
        none :=
      fun missing => written.1 (FileTree.leaf_eq_none.mpr (.inl missing))
    rw [find_createdTree_work] at present
    split_ifs at present with own empty
    · have equal : last = name := by
        have lasts := congrArg List.getLast? own
        simpa using lasts
      rwa [equal]
    · simp at empty
    · contradiction
  · rw [created found]
    rfl
  · rw [created found]
    exact .inr rfl
  · rw [find_createdTree_seed] at before
    split_ifs at before
    cases before

end Created

/-- The name of so many letters `a`. -/
def letters (count : Nat) (positive : 0 < count) : FileName where
  bytes := List.replicate count 97
  ne_nil := by
    rw [ne_eq, List.replicate_eq_nil_iff]
    omega
  not_curDir := by
    intro same
    have equal := List.eq_replicate_iff.mp same.symm
    exact absurd (equal.2 46 (by simp)) (by decide)
  not_parentDir := by
    intro same
    have equal := List.eq_replicate_iff.mp same.symm
    exact absurd (equal.2 46 (by simp)) (by decide)
  slash_notMem := by simp
  nul_notMem := by simp

section Letters

variable {count : Nat} (positive : 0 < count)

theorem length_letters : (letters count positive).bytes.length = count :=
  List.length_replicate

theorem isText_letters : (letters count positive).IsText := by
  refine FileName.isText_of_ascii fun byte member => ?_
  rw [List.eq_of_mem_replicate member]
  decide

theorem unsuffixed_letters :
    ¬ Wal.suffixBytes <:+ (letters count positive).bytes := by
  intro suffix
  have member : (46 : UInt8) ∈ (letters count positive).bytes :=
    suffix.subset (by decide)
  exact absurd (List.eq_of_mem_replicate member) (by decide)

end Letters

/-- A file under so many letters, created in a seed without entries. -/
def lettersTree (count : Nat) (positive : 0 < count) (bound : count ≤ nameMax) :
    FileTree :=
  createdTree (length_letters positive ▸ bound)

end Diff

end Shellmux
end Marsh
