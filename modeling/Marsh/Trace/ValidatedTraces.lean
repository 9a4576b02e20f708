import Marsh.Gitexec.EntryLists
import Marsh.Trace.GrantedTraces
import Marsh.Trace.NoSurprise

/-!
# Validated traces execute

Whatever the entropy, the operations of a validated trace are granted and
allowed one after the other, so that their commands exit with zero in a
repository that starts as the seed commit, and the model the generator ends in
is what is on disk.
-/

namespace Marsh
namespace Trace

open Library Exec Validator Policy Policy.Git Gitexec

/-! ## Runs -/

section Runs

variable {Oid Index Tree : Type} [DecidableEq Oid]
variable {git : Libgit2 Oid Index Tree} {workdir : Location}
variable {creation : Nat} {author committer : GitEnvIdentity}
variable {start state : GitState Index Tree}

/-- A repository at the seed commit: every pooled path is one committed, staged
and present file, which ends in the line of no step. -/
structure Seeded
    (git : Libgit2 Oid Index Tree)
    (workdir : Location)
    (start : GitState Index Tree) : Prop where
  home : ∀ file, Home start.files workdir (pathFor file)
  places : ∀ file, ∃ blob,
    placesOf git workdir start (pathFor file) =
        ⟨some blob, some blob, some blob⟩ ∧
      ∀ content, git.findBlob blob.id = .ok content -> ∀ step,
        ¬ (stepLine step).bytes <:+ content

omit [DecidableEq Oid] in
/-- The policy and the generator start true of the seed commit. -/
theorem Seeded.faithful
    (lawful : git.Lawful)
    (seeded : Seeded git workdir start) :
    Faithful git workdir start .seeded [] 0 start := by
  refine ⟨seeded.home, fun file => ?_, fun file blob holds => ?_,
    fun _ _ => rfl, rfl⟩
  · obtain ⟨blob, places, -⟩ := seeded.places file
    rw [places]
    refine ⟨Option.some_ne_none _, ?_, ?_, rfl, rfl⟩
    · simp [PoolState.seeded]
    · simp [PoolState.seeded]
  · obtain ⟨only, places, older⟩ := seeded.places file
    have same : only = blob := by
      rw [places] at holds
      rcases holds with head | index | working
      · exact Option.some.inj head
      · exact Option.some.inj index
      · exact Option.some.inj working
    subst same
    have working : workingBlob git start.files workdir (pathFor file) =
        some only := congrArg Places.working places
    exact ⟨stored_of_home lawful (seeded.home file) working,
      fun content found later _ => older content found later⟩

omit [DecidableEq Oid] in
/-- What is faithful says where the work tree has a pooled path. -/
theorem Faithful.present_iff
    {pool : PoolState}
    {history : List Event}
    {step : Nat}
    (faithful : Faithful git workdir start pool history step state)
    (file : Fin maxFiles) :
    pool.present file = true ↔
      state.files.find (workdir ++ pathFor file) ≠ none := by
  rw [(faithful.agrees file).present_iff]
  refine ⟨find_ne_none, fun found missing => ?_⟩
  obtain ⟨node, there⟩ := Option.ne_none_iff_exists'.mp found
  obtain ⟨content, mode, rfl, -⟩ := (faithful.home file).regular node there
  change workingBlob git state.files workdir (pathFor file) = none at missing
  rw [workingBlob, there] at missing
  cases missing

omit [DecidableEq Oid] in
/-- What is faithful says where the index has a pooled path. -/
theorem Faithful.tracked_iff
    {pool : PoolState}
    {history : List Event}
    {step : Nat}
    (faithful : Faithful git workdir start pool history step state)
    (file : Fin maxFiles) :
    pool.tracked file = true ↔
      git.indexGet state.index (pathFor file) ≠ none := by
  rw [(faithful.agrees file).tracked_iff]
  refine ⟨indexGet_ne_none, fun found missing => found ?_⟩
  change indexBlob git state.index (pathFor file) = none at missing
  exact Option.map_eq_none_iff.mp missing

/-- What a candidate asks of the policy and the generator's model. -/
structure Admits
    [LinearOrder TestNode]
    [LinearOrder Regex]
    [LinearOrder TransitionNode]
    (pool : PoolState)
    (history : List Event)
    (step : Nat)
    (candidate : Candidate) : Prop where
  later : step ≤ candidate.step
  allowed : pool.allows candidate.operation candidate.file = true
  granted : gitDecision history candidate.event = some .grant

variable [LinearOrder TestNode] [LinearOrder Regex] [LinearOrder TransitionNode]

/-- Whether each candidate of a run is allowed and granted when it comes, at
later and later steps. -/
def Admitted : PoolState -> List Event -> Nat -> List Candidate -> Prop
  | _, _, _, [] => True
  | pool, history, step, candidate :: candidates =>
      Admits pool history step candidate ∧
        Admitted (pool.recordGrant candidate) (history ++ [candidate.event])
          (candidate.step + 1) candidates

/-- The model of the pool after a run. -/
def PoolState.recordAll (pool : PoolState) (candidates : List Candidate) :
    PoolState :=
  candidates.foldl PoolState.recordGrant pool

omit [DecidableEq Oid] [LinearOrder TestNode] [LinearOrder Regex]
  [LinearOrder TransitionNode] in
theorem Faithful.mono
    {pool : PoolState}
    {history : List Event}
    {step later : Nat}
    (faithful : Faithful git workdir start pool history step state)
    (order : step ≤ later) :
    Faithful git workdir start pool history later state := by
  induction order with
  | refl => exact faithful
  | step _ hypothesis => exact hypothesis.skip

/-- The commands of an admitted run exit with zero, and leave the rows and the
model true. -/
theorem execute_of_admitted
    (hosts : Hosts git workdir creation author committer start)
    {pool : PoolState}
    {history : List Event}
    {step : Nat}
    {candidates : List Candidate}
    (faithful : Faithful git workdir start pool history step state)
    (admitted : Admitted pool history step candidates) :
    (∀ code ∈ (execute git workdir creation author committer candidates
        state).1, code = 0) ∧
      ∃ last, Faithful git workdir start (pool.recordAll candidates)
        (history ++ candidates.map Candidate.event) last
        (execute git workdir creation author committer candidates state).2 := by
  induction candidates generalizing pool history step state with
  | nil =>
      refine ⟨fun code member => absurd member List.not_mem_nil, step, ?_⟩
      rw [List.map_nil, List.append_nil]
      exact faithful
  | cons candidate candidates hypothesis =>
      obtain ⟨admits, rest⟩ := admitted
      have granted := admits.granted
      rw [gitDecision_eq] at granted
      obtain ⟨zero, next⟩ := faithful_of_granted hosts
        (faithful.mono admits.later) admits.allowed (Option.some.inj granted)
      obtain ⟨codes, last, after⟩ := hypothesis next rest
      refine ⟨fun code member => ?_, last, ?_⟩
      · rcases List.mem_cons.mp member with rfl | listed
        · exact zero
        · exact codes code listed
      · rw [List.append_assoc] at after
        exact after

/-! ## Generated traces -/

/-- One more admitted candidate. -/
theorem Admitted.append
    {pool : PoolState}
    {history : List Event}
    {step : Nat}
    {candidates : List Candidate}
    {candidate : Candidate}
    (admitted : Admitted pool history step candidates)
    (later : ∀ earlier ∈ candidates, earlier.step < candidate.step)
    (first : step ≤ candidate.step)
    (allowed : (pool.recordAll candidates).allows candidate.operation
      candidate.file = true)
    (granted : gitDecision (history ++ candidates.map Candidate.event)
      candidate.event = some .grant) :
    Admitted pool history step (candidates ++ [candidate]) := by
  induction candidates generalizing pool history step with
  | nil =>
      rw [List.map_nil, List.append_nil] at granted
      exact ⟨⟨first, allowed, granted⟩, trivial⟩
  | cons earlier candidates hypothesis =>
      obtain ⟨admits, rest⟩ := admitted
      refine ⟨admits, hypothesis rest
        (fun other listed => later other (List.mem_cons_of_mem _ listed))
        (later earlier List.mem_cons_self) allowed ?_⟩
      rw [List.append_assoc]
      exact granted

end Runs

section Generated

variable {σ : Type} {entropy : Unstructured σ}
variable {generator next : SeqGenerator σ} {candidate : Candidate}

/-- A choice is one of the list. -/
theorem mem_of_chooseOf
    {α : Type}
    {state rest : σ}
    {choices : List α}
    {choice : α}
    (draws : chooseOf entropy state choices = (some choice, rest)) :
    choice ∈ choices := by
  obtain ⟨index, -, found⟩ :=
    Option.bind_eq_some_iff.mp (congrArg Prod.fst draws)
  exact List.mem_of_getElem? found

/-- A candidate is drawn where its precondition holds. -/
theorem nextCandidate_eq_some
    (draws : generator.nextCandidate entropy = (some candidate, next)) :
    candidate.step = generator.step ∧ next.step = generator.step + 1 ∧
      next.pool = generator.pool ∧
      generator.pool.allows candidate.operation candidate.file = true := by
  unfold SeqGenerator.nextCandidate at draws
  split at draws
  next => cases draws
  next =>
    split at draws
    next => cases draws
    next agent drawn _ =>
      split at draws
      next => cases draws
      next operation _ _ =>
        split at draws
        next => cases draws
        next file _ chosen =>
          cases draws
          exact ⟨rfl, rfl, rfl,
            PoolState.mem_eligible.mp (mem_of_chooseOf chosen)⟩

theorem nextCandidate_eq_none
    (draws : generator.nextCandidate entropy = (none, next)) :
    next.step = generator.step ∧ next.pool = generator.pool := by
  unfold SeqGenerator.nextCandidate at draws
  split at draws
  next => cases draws; exact ⟨rfl, rfl⟩
  next =>
    split at draws
    next => cases draws; exact ⟨rfl, rfl⟩
    next agent drawn _ =>
      split at draws
      next => cases draws; exact ⟨rfl, rfl⟩
      next operation _ _ =>
        split at draws
        next => cases draws; exact ⟨rfl, rfl⟩
        next file _ chosen => cases draws

variable [LinearOrder TestNode] [LinearOrder Regex] [LinearOrder TransitionNode]

/-- What a trace holds while it is generated. -/
structure Valid (generator : SeqGenerator σ) (trace : ValidatedTrace) :
    Prop where
  admitted : Admitted .seeded [] 0 trace.operations
  earlier : ∀ candidate ∈ trace.operations, candidate.step < generator.step
  pool : generator.pool = PoolState.seeded.recordAll trace.operations
  history : trace.history = trace.operations.map Candidate.event
  granted : trace.summary.granted = trace.operations.length
  counted : trace.summary.granted + trace.summary.denied = generator.step
  commits : trace.summary.commits =
    trace.operations.countP fun candidate => candidate.operation = .commit

/-- A granted candidate keeps a trace valid. -/
theorem Valid.grant
    {trace : ValidatedTrace}
    (valid : Valid generator trace)
    (draws : generator.nextCandidate entropy = (some candidate, next))
    (granted : gitDecision trace.history candidate.event = some .grant) :
    Valid (next.recordGrant candidate) (trace.grant candidate) := by
  obtain ⟨step, stepped, pool, allowed⟩ := nextCandidate_eq_some draws
  have counted := valid.counted
  refine ⟨valid.admitted.append (fun earlier member => ?_) (Nat.zero_le _) ?_ ?_,
    fun earlier member => ?_, ?_, ?_, ?_, ?_, ?_⟩
  · rw [step]
    exact valid.earlier earlier member
  · rw [← valid.pool]
    exact allowed
  · rw [List.nil_append, ← valid.history]
    exact granted
  · change earlier.step < next.step
    rw [stepped]
    rcases List.mem_append.mp member with before | last
    · exact Nat.lt_succ_of_lt (valid.earlier earlier before)
    · rw [List.mem_singleton.mp last, step]
      exact Nat.lt_succ_self _
  · change next.pool.recordGrant candidate =
      PoolState.seeded.recordAll (trace.operations ++ [candidate])
    rw [pool, valid.pool, PoolState.recordAll, PoolState.recordAll,
      List.foldl_append]
    rfl
  · change trace.history ++ [candidate.event] =
      (trace.operations ++ [candidate]).map Candidate.event
    rw [valid.history, List.map_append]
    rfl
  · change trace.summary.granted + 1 = (trace.operations ++ [candidate]).length
    rw [valid.granted, List.length_append]
    rfl
  · change trace.summary.granted + 1 + trace.summary.denied = next.step
    omega
  · change (if candidate.operation = .commit then trace.summary.commits + 1
      else trace.summary.commits) = (trace.operations ++ [candidate]).countP _
    rw [List.countP_append, ← valid.commits, List.countP_singleton]
    by_cases commits : candidate.operation = .commit
    · simp [commits]
    · simp [commits]

/-- A refused candidate keeps a trace valid. -/
theorem Valid.deny
    {trace : ValidatedTrace}
    (valid : Valid generator trace)
    (draws : generator.nextCandidate entropy = (some candidate, next)) :
    Valid next trace.deny := by
  obtain ⟨-, stepped, pool, -⟩ := nextCandidate_eq_some draws
  have counted := valid.counted
  refine ⟨valid.admitted, fun earlier member => ?_, pool.trans valid.pool,
    valid.history, valid.granted, ?_, valid.commits⟩
  · rw [stepped]
    exact Nat.lt_succ_of_lt (valid.earlier earlier member)
  · change trace.summary.granted + (trace.summary.denied + 1) = next.step
    omega

/-- The loop keeps a trace valid, and takes a step for each turn at most. -/
theorem validateSteps_valid
    {policy : GitPolicy}
    {trace : ValidatedTrace}
    (budget : Nat)
    (implements : policy.Implements)
    (valid : Valid generator trace) :
    ∃ last final, validateSteps entropy budget policy generator trace =
        some (last, final) ∧
      Valid last final ∧ last.step ≤ generator.step + budget := by
  induction budget generalizing policy generator trace with
  | zero => exact ⟨generator, trace, rfl, valid, Nat.le_refl _⟩
  | succ budget hypothesis =>
      rw [validateSteps]
      cases draws : generator.nextCandidate entropy with
      | mk drawn next =>
          cases drawn with
          | none =>
              obtain ⟨step, pool⟩ := nextCandidate_eq_none draws
              refine ⟨next, trace, rfl, ?_, ?_⟩
              · exact { valid with
                  earlier := by rw [step]; exact valid.earlier
                  pool := pool.trans valid.pool
                  counted := valid.counted.trans step.symm }
              · rw [step]
                exact Nat.le_add_right _ _
          | some candidate =>
              obtain ⟨step, stepped, pool, allowed⟩ :=
                nextCandidate_eq_some draws
              obtain ⟨⟨decision, after⟩, decides, again, same⟩ :=
                implements.returns_decide trace.history candidate.event
              dsimp only at again same ⊢
              have decided := gitDecision_eq trace.history candidate.event
              rw [← same] at decided
              rw [decides]
              cases decision with
              | grant =>
                  obtain ⟨last, final, runs, kept, bound⟩ := hypothesis again
                    (valid.grant draws decided)
                  refine ⟨last, final, runs, kept, ?_⟩
                  change last.step ≤ next.step + budget at bound
                  omega
              | deny failed fixes =>
                  obtain ⟨last, final, runs, kept, bound⟩ := hypothesis again
                    (valid.deny draws)
                  refine ⟨last, final, runs, kept, ?_⟩
                  omega

/-- A validated trace of any entropy is valid, and takes a step for each unit of
its budget at most. -/
theorem validateTrace_valid (entropy : Unstructured σ) (data : σ) :
    ∃ generator trace, validateTrace entropy data = some (generator, trace) ∧
      Valid generator trace ∧
      generator.step ≤ ((SeqGenerator.new data).stepBudget entropy).1 := by
  obtain ⟨policy, new, implements⟩ := GitPolicy.returns_new
  have start : Valid ((SeqGenerator.new data).stepBudget entropy).2 .empty := by
    refine ⟨trivial, fun candidate member => absurd member List.not_mem_nil,
      rfl, rfl, rfl, rfl, rfl⟩
  obtain ⟨last, final, runs, valid, bound⟩ := @validateSteps_valid σ entropy
    _ _ _ _ policy _ ((SeqGenerator.new data).stepBudget entropy).1 implements
    start
  have fresh : ((SeqGenerator.new data).stepBudget entropy).2.step = 0 := rfl
  rw [fresh, Nat.zero_add] at bound
  refine ⟨last, final, ?_, valid, bound⟩
  rw [validateTrace, new]
  exact runs

/-- A run admitted event by event was granted. -/
theorem Admitted.calm
    {pool : PoolState}
    {history : List Event}
    {step : Nat}
    {candidates : List Candidate}
    (admitted : Admitted pool history step candidates)
    (calm : Calm history) :
    Calm (history ++ candidates.map Candidate.event) := by
  induction candidates generalizing pool history step with
  | nil =>
      rw [List.map_nil, List.append_nil]
      exact calm
  | cons candidate candidates hypothesis =>
      obtain ⟨admits, rest⟩ := admitted
      have granted := admits.granted
      rw [gitDecision_eq] at granted
      have next := hypothesis rest (calm.append (Option.some.inj granted))
      rw [List.append_assoc] at next
      exact next

/-- The operations of a validated trace are granted by the policy one after the
other where the generator's model allows them, they surprise no one, and the
counters count them. -/
theorem admitted_of_validateTrace (entropy : Unstructured σ) (data : σ) :
    ∃ generator trace, validateTrace entropy data = some (generator, trace) ∧
      Admitted .seeded [] 0 trace.operations ∧
      trace.history = trace.operations.map Candidate.event ∧
      noSurpriseViolation trace.history = none ∧
      trace.summary.granted = trace.operations.length ∧
      trace.summary.granted + trace.summary.denied = generator.step ∧
      trace.summary.commits =
        trace.operations.countP fun candidate =>
          candidate.operation = .commit := by
  obtain ⟨generator, trace, runs, valid, -⟩ := validateTrace_valid entropy data
  refine ⟨generator, trace, runs, valid.admitted, valid.history, ?_,
    valid.granted, valid.counted, valid.commits⟩
  rw [valid.history]
  exact (valid.admitted.calm calm_nil).unsurprised

end Generated

/-! ## A seed commit -/

/-- The content of every pooled path. -/
def seedContent : List UInt8 := [10]

/-- A directory of the pooled paths, each a file. -/
def seedFiles : FileTree :=
  ((((FileTree.bare.set [sourceDirectory] .directory (by decide)).set
    (pathFor (0 : Fin 4)) (.file seedContent 0o644) (by decide +kernel)).set
    (pathFor (1 : Fin 4)) (.file seedContent 0o644) (by decide +kernel)).set
    (pathFor (2 : Fin 4)) (.file seedContent 0o644) (by decide +kernel)).set
    (pathFor (3 : Fin 4)) (.file seedContent 0o644) (by decide +kernel)

/-- The pooled paths, committed. -/
def seedEntries : EntryList where
  entries := (List.finRange maxFiles).map fun file =>
    ⟨pathFor file, seedContent, .blob⟩
  apart := by
    refine List.pairwise_map.mpr ((List.nodup_finRange _).imp ?_)
    exact fun different => pathFor_apart _ _ different
  files entry member := by
    obtain ⟨file, -, rfl⟩ := List.mem_map.mp member
    exact .inl rfl

/-- A repository at its seed commit. -/
def seedState : GitState EntryList EntryList where
  head := some ⟨seedEntries, [], someone, someone, ['s', '\n']⟩
  branch := ['m']
  stash := none
  stashLog := []
  index := seedEntries
  files := seedFiles
  stdout := []
  stderr := []

theorem find_seedFiles :
    ∀ file, seedFiles.find (pathFor file) = some (.file seedContent 0o644) := by
  decide +kernel

theorem seeded_seedState : Seeded entryLists [] seedState where
  home file :=
    { nonempty := List.cons_ne_nil _ _
      inside := by revert file; decide +kernel
      regular := fun node found => by
        rw [List.nil_append] at found
        have there := find_seedFiles file
        rw [show seedState.files = seedFiles from rfl, there] at found
        cases found
        exact ⟨_, _, rfl, by decide⟩
      short := by revert file; decide +kernel }
  places file := by
    refine ⟨⟨.blob seedContent, .blob⟩, ?_, fun content found step suffix => ?_⟩
    · ext1
      · revert file
        decide +kernel
      · revert file
        decide +kernel
      · revert file
        decide +kernel
    · cases found
      have longer := suffix.length_le
      rw [bytes_stepLine] at longer
      simp [seedContent] at longer

theorem hosts_seedState :
    Hosts entryLists [] 0o644 someone someone seedState where
  lawful := entryLists_lawful
  opens _ _ := rfl
  author := by decide
  committer := by decide
  prints _ _ _ := ⟨_, rfl⟩
  walks _ := ⟨_, rfl⟩
  accepts := by decide +kernel
  branch := by decide
  uniform := by decide

/-- Two principals take turns at one path: one edits and stages it, the other
commits it. -/
def turns : List Candidate :=
  [⟨0, .modify, (0 : Fin 4), 0⟩, ⟨0, .stage, (0 : Fin 4), 1⟩,
    ⟨1, .commit, (0 : Fin 4), 2⟩]

/-- One draw from a range of at most 256 numbers. -/
def drawByte (bytes : List UInt8) (low high : Nat) : Option Nat × List UInt8 :=
  if low = high then (some low, bytes)
  else
    match bytes with
    | [] => (some low, [])
    | byte :: rest => (some (low + byte.toNat % (high - low + 1)), rest)

/-- A decoder that draws from a few choices by a byte off the front. -/
def byteDecoder : Unstructured (List UInt8) where
  isEmpty := List.isEmpty
  intInRange bytes low high := drawByte bytes low high
  choose bytes count :=
    if count = 0 then (none, bytes) else drawByte bytes 0 (count - 1)

/-! ## Traces on a repository -/

section Executed

variable {Oid Index Tree : Type} [DecidableEq Oid]
variable {git : Libgit2 Oid Index Tree} {workdir : Location}
variable {creation : Nat} {author committer : GitEnvIdentity}
variable {start : GitState Index Tree}
variable [LinearOrder TestNode] [LinearOrder Regex] [LinearOrder TransitionNode]

/-- Operations that the policy grants one after the other, where the
generator's model allows them, exit with zero at the seed commit: afterwards the
row of each path is how `HEAD`, the index and the work tree compare there, and
nothing else of the work tree changed. -/
theorem zero_of_admitted
    (hosts : Hosts git workdir creation author committer start)
    (seeded : Seeded git workdir start)
    {candidates : List Candidate}
    (admitted : Admitted .seeded [] 0 candidates) :
    (∀ code ∈ (execute git workdir creation author committer candidates
        start).1, code = 0) ∧
      (∀ file, RowHolds
        (stateOf (resourceFor file) (candidates.map Candidate.event)).row
        (placesOf git workdir
          (execute git workdir creation author committer candidates start).2
          (pathFor file))) ∧
      ∀ other, (∀ file, other ≠ workdir ++ pathFor file) ->
        (execute git workdir creation author committer candidates
          start).2.files.find other = start.files.find other := by
  obtain ⟨zero, last, faithful⟩ := execute_of_admitted hosts
    (seeded.faithful hosts.lawful) admitted
  exact ⟨zero, fun file => (faithful.agrees file).row, faithful.elsewhere⟩

omit [DecidableEq Oid] [LinearOrder TestNode] [LinearOrder Regex]
  [LinearOrder TransitionNode] in
theorem zero_of_admitted_turns :
    (∀ code ∈ (execute entryLists [] 0o644 someone someone turns seedState).1,
      code = 0) ∧
      RowHolds
        (stateOf (resourceFor (0 : Fin 4)) (turns.map Candidate.event)).row
        (placesOf entryLists []
          (execute entryLists [] 0o644 someone someone turns seedState).2
          (pathFor (0 : Fin 4))) := by
  let _ := someOrder TestNode
  let _ := someOrder Regex
  let _ := someOrder TransitionNode
  have admitted : Admitted .seeded [] 0 turns := by
    refine ⟨⟨by decide, by decide, ?_⟩, ⟨by decide, by decide, ?_⟩,
      ⟨by decide, by decide, ?_⟩, trivial⟩
    · rw [gitDecision_eq]
      decide +kernel
    · rw [gitDecision_eq]
      decide +kernel
    · rw [gitDecision_eq]
      decide +kernel
  obtain ⟨zero, rows, -⟩ :=
    zero_of_admitted hosts_seedState seeded_seedState admitted
  exact ⟨zero, rows (0 : Fin 4)⟩

/-- Whatever the entropy, the commands of a validated trace exit with zero at
the seed commit, and the model the generator ends in is what is in the work tree
and in the index. -/
theorem disk_of_validateTrace
    {σ : Type}
    (entropy : Unstructured σ)
    (data : σ)
    (hosts : Hosts git workdir creation author committer start)
    (seeded : Seeded git workdir start) :
    ∃ generator trace, validateTrace entropy data = some (generator, trace) ∧
      (∀ code ∈ (execute git workdir creation author committer
        trace.operations start).1, code = 0) ∧
      ∀ file,
        (generator.pool.present file = true ↔
          (execute git workdir creation author committer trace.operations
            start).2.files.find (workdir ++ pathFor file) ≠ none) ∧
        (generator.pool.tracked file = true ↔
          git.indexGet (execute git workdir creation author committer
            trace.operations start).2.index (pathFor file) ≠ none) := by
  obtain ⟨generator, trace, runs, valid, -⟩ := validateTrace_valid entropy data
  obtain ⟨zero, last, faithful⟩ := execute_of_admitted hosts
    (seeded.faithful hosts.lawful) valid.admitted
  refine ⟨generator, trace, runs, zero, fun file => ?_⟩
  rw [valid.pool]
  exact ⟨faithful.present_iff file, faithful.tracked_iff file⟩

omit [DecidableEq Oid] [LinearOrder TestNode] [LinearOrder Regex]
  [LinearOrder TransitionNode] in
/-- A trace whose first agent appends to two paths. -/
theorem disk_of_validateTrace_bytes :
    letI := someOrder TestNode
    letI := someOrder Regex
    letI := someOrder TransitionNode
    ∃ generator trace,
      validateTrace byteDecoder [2, 0, 0, 0, 0, 0, 1] =
          some (generator, trace) ∧
        ∀ code ∈ (execute entryLists [] 0o644 someone someone trace.operations
          seedState).1, code = 0 := by
  let _ := someOrder TestNode
  let _ := someOrder Regex
  let _ := someOrder TransitionNode
  obtain ⟨generator, trace, runs, zero, -⟩ :=
    disk_of_validateTrace byteDecoder [2, 0, 0, 0, 0, 0, 1] hosts_seedState
      seeded_seedState
  exact ⟨generator, trace, runs, zero⟩

end Executed

end Trace
end Marsh
