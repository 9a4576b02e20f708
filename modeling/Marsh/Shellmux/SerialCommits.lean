import Marsh.Library.OptimisticStore
import Marsh.Shellmux.DurableAuthority

/-!
# Commits are serial

Any number of commands run at once, each in a copy of the seed as it was when
the command launched.  The checks of a conclusion make every commit that writes
a step of a serial run: it is as if the command had run alone, on the seed as
the commit before it left it.
-/

namespace Marsh
namespace Shellmux

open Library Validator Policy

variable {Storage Value : Type}

/-! ## Contents -/

/-- What the seed and the work trees have at a path. -/
structure Contents (Storage Value : Type) where
  seed : Storage -> String -> Value
  work : (uid : String) -> Storage -> String -> Value

/-- Storage that neither fails silently nor writes elsewhere: a diff lists where
the trees differ, and a commit brings the work tree's version of its paths to
the seed. -/
structure Persistence.Publishes
    (persistence : Persistence Storage)
    (contents : Contents Storage Value) : Prop where
  diffed : ∀ {uid storage ops}, persistence.diffTrees uid storage = .ok ops ->
    ∀ path, path ∈ ops.map CommitOp.path ↔
      contents.seed storage path ≠ contents.work uid storage path
  applied : ∀ {uid seq principal cmd events ops storage stored},
    persistence.apply uid seq principal cmd events ops storage =
        (.ok (), stored) ->
      contents.seed stored = OptimisticStore.replace (contents.seed storage)
        (ops.map CommitOp.path) (contents.work uid storage)
  appended : ∀ {seq principal cmd events ops storage stored},
    persistence.append seq principal cmd events ops storage =
        (.ok (), stored) ->
      contents.seed stored = contents.seed storage

/-! ## Runs with their versions -/

/-- The mux, with the versions of the seed and the command lines of the commits
that wrote, which nothing reads. -/
structure Site (Storage Value : Type) where
  mux : MuxState Storage
  store : OptimisticStore String Value
  log : List String

/-- Whether a run opened something for writing. -/
def wroteInRoot : Except MuxError Execution -> Bool
  | .ok ⟨_, some translation⟩ => translation.wroteInRoot
  | _ => false

section System

variable (decide : List Event -> Event -> PolicyDecision)
variable (persistence : Persistence Storage)
variable (contents : Contents Storage Value)
variable (runs : String -> (String -> Value) -> (String -> Value) -> Prop)

/-- What the mux relies on of a transaction that concludes: its work tree is
what the command makes of the version it launched on, and its trace names every
path the command changed there. -/
structure Site.Ran
    (site : Site Storage Value)
    (command : Command)
    (translation : Translation) : Prop where
  ran : runs command.cmd (site.store.versions command.baseSeq)
    (contents.work command.sandbox.uid site.mux.storage)
  touched : ∀ path,
    contents.work command.sandbox.uid site.mux.storage path ≠
        site.store.versions command.baseSeq path ->
      ∃ event ∈ translation.events, event.resource.display = path

/-- The steps of the mux when no storage operation fails and only commits write
the seed. -/
def Site.Steps
    (site : Site Storage Value)
    (step : MuxStep)
    (next : Site Storage Value) : Prop :=
  site.mux.Steps decide persistence step next.mux ∧
    site.mux.Unfailing decide persistence step ∧
    match step with
    | .conclude command completed =>
        (∀ exitCode translation, completed = .ok ⟨exitCode, some translation⟩ ->
          command.plan = .transaction ->
            site.Ran contents runs command translation) ∧
        (if site.mux.authority.seq < next.mux.authority.seq then
          next.store = site.store.publish
              ((recordedOps persistence command completed site.mux.storage
                site.mux.authority next.mux.authority).map CommitOp.path)
              (contents.work command.sandbox.uid site.mux.storage) ∧
            next.log = site.log ++
              if wroteInRoot completed then [command.cmd] else []
        else next.store = site.store ∧ next.log = site.log)
    | .launch _ _ _ | .act =>
        contents.seed next.mux.storage = contents.seed site.mux.storage ∧
          next.store = site.store ∧ next.log = site.log

/-- Whether the store is what the authority and the seed are. -/
structure Site.Tracks (site : Site Storage Value) : Prop where
  contents : site.store.contents = contents.seed site.mux.storage
  changed : ∀ path : String,
    site.store.changed path = site.mux.authority.generations[path]?
  clock : site.store.clock = site.mux.authority.seq

/-- The mux with its versions, on a seed that starts so. -/
def sites (start : String -> Value) :
    TransitionSystem (Site Storage Value) MuxStep where
  initial site :=
    (mux decide persistence).initial site.mux ∧ site.Tracks contents ∧
      contents.seed site.mux.storage = start ∧ site.log = []
  step := Site.Steps decide persistence contents runs

/-- Commands that run alone, one after the other, on the seed. -/
def serialRuns (start : String -> Value) :
    TransitionSystem (String -> Value) String where
  initial contents := contents = start
  step before cmd after := runs cmd before after

end System

/-! ## One conclusion -/

section Conclusion

variable {decide : List Event -> Event -> PolicyDecision}
variable {persistence : Persistence Storage}
variable {contents : Contents Storage Value}
variable {runs : String -> (String -> Value) -> (String -> Value) -> Prop}
variable {start : String -> Value}
variable {site next : Site Storage Value}
variable {command : Command} {translation : Translation}

/-- What a recorded transaction found and left. -/
structure Commits
    (contents : Contents Storage Value)
    (site next : Site Storage Value)
    (command : Command)
    (translation : Translation)
    (ops : List CommitOp) : Prop where
  current : ∀ path, Checked ops translation.events translation.gitReads path ->
    contents.seed site.mux.storage path =
      site.store.versions command.baseSeq path
  seed : contents.seed next.mux.storage =
    OptimisticStore.replace (contents.seed site.mux.storage)
      (ops.map CommitOp.path)
      (contents.work command.sandbox.uid site.mux.storage)
  wrote : translation.wroteInRoot = true ->
    contents.seed site.mux.storage = site.store.versions command.baseSeq ∧
      contents.seed next.mux.storage =
        contents.work command.sandbox.uid site.mux.storage
  silent : translation.wroteInRoot = false -> ops = []

/-- A transaction that may be published commits when it is applied. -/
theorem commits_of_publishable
    (publishes : persistence.Publishes contents)
    (tracks : site.Tracks contents)
    (within : command.baseSeq ≤ site.mux.authority.seq)
    (ran : site.Ran contents runs command translation)
    {history : List Event}
    {ops : List CommitOp}
    (publishable : Publishable decide persistence command.sandbox translation 0
      command.baseSeq site.mux.authority site.mux.storage history ops)
    (seed : contents.seed next.mux.storage =
      OptimisticStore.replace (contents.seed site.mux.storage)
        (ops.map CommitOp.path)
        (contents.work command.sandbox.uid site.mux.storage)) :
    Commits contents site next command translation ops := by
  have fresh : site.store.Fresh command.baseSeq
      (Checked ops translation.events translation.gitReads) := by
    intro path checked last changed
    rw [tracks.changed] at changed
    exact publishable.fresh path checked last changed
  rw [← tracks.clock] at within
  refine ⟨fun path checked => ?_, seed, fun wrote => ?_, fun silent => ?_⟩
  · rw [← tracks.contents]
    exact fresh.content_eq within checked
  · have diffed := publishable.diffed
    rw [writeSet, if_pos wrote] at diffed
    have differ : ∀ path, path ∈ ops.map CommitOp.path ↔
        site.store.contents path ≠
          contents.work command.sandbox.uid site.mux.storage path := by
      rw [tracks.contents]
      exact publishes.diffed diffed
    obtain ⟨same, left⟩ := fresh.serial within
      (fun path written => .inl (List.mem_map.mp written)) differ
      (fun path differs => .inr (.inl (ran.touched path differs)))
    refine ⟨tracks.contents ▸ same, ?_⟩
    rw [seed, ← tracks.contents]
    exact left
  · have diffed := publishable.diffed
    rw [writeSet, silent] at diffed
    exact (Except.ok.inj diffed).symm

/-- What a conclusion in which no storage operation fails does. -/
inductive Concluded
    (persistence : Persistence Storage)
    (contents : Contents Storage Value)
    (site next : Site Storage Value)
    (command : Command)
    (completed : Except MuxError Execution) : Prop
  /-- Nothing is written to the seed, and no number is taken. -/
  | idle
      (seed : contents.seed next.mux.storage = contents.seed site.mux.storage)
      (generations : next.mux.authority.generations =
        site.mux.authority.generations)
      (seq : next.mux.authority.seq = site.mux.authority.seq)
  /-- A transaction commits. -/
  | commits (translation : Translation) (ops : List CommitOp)
      (left : completed = .ok ⟨0, some translation⟩)
      (transaction : command.plan = .transaction)
      (recorded : next.mux.authority = site.mux.authority.record
        (site.mux.authority.history ++ translation.events) ops)
      (diffed : writeSet persistence command.sandbox translation
        site.mux.storage = .ok ops)
      (commits : Commits contents site next command translation ops)

/-- Everything a conclusion can do when no storage operation fails. -/
theorem concluded_of_steps
    {completed : Except MuxError Execution}
    (publishes : persistence.Publishes contents)
    (versioned : site.mux.Versioned)
    (tracks : site.Tracks contents)
    (steps : Site.Steps decide persistence contents runs site
      (.conclude command completed) next) :
    Concluded persistence contents site next command completed := by
  obtain ⟨steps, unfailing, ran, -⟩ := steps
  have running := steps.1
  cases succeeds_of_steps steps unfailing with
  | unchanged authority storage =>
      exact .idle (by rw [storage]) (by rw [authority]) (by rw [authority])
  | reads translation onlyReads appended grown =>
      exact .idle (publishes.appended appended) (by rw [grown]) (by rw [grown])
  | commits translation ops applied left transaction publishable applies appends
      recorded =>
      refine .commits translation ops left transaction recorded
        publishable.diffed ?_
      refine commits_of_publishable publishes tracks
        (versioned.base command running) (ran 0 translation left transaction)
        publishable ?_
      rw [publishes.appended appends, publishes.applied applies]

/-! ## Runs -/

/-- What holds of every state of a run. -/
structure Site.Sound
    (contents : Contents Storage Value)
    (runs : String -> (String -> Value) -> (String -> Value) -> Prop)
    (start : String -> Value)
    (site : Site Storage Value) : Prop where
  versioned : site.mux.Versioned
  tracks : site.Tracks contents
  serial : (serialRuns runs start).Executes start site.log
    (contents.seed site.mux.storage)

/-- A step that publishes nothing keeps a site sound. -/
theorem Site.Sound.kept
    (sound : site.Sound contents runs start)
    (versioned : next.mux.Versioned)
    (store : next.store = site.store)
    (log : next.log = site.log)
    (seed : contents.seed next.mux.storage = contents.seed site.mux.storage)
    (generations : next.mux.authority.generations =
      site.mux.authority.generations)
    (seq : next.mux.authority.seq = site.mux.authority.seq) :
    next.Sound contents runs start where
  versioned := versioned
  tracks.contents := by rw [store, seed, sound.tracks.contents]
  tracks.changed path := by rw [store, generations, sound.tracks.changed]
  tracks.clock := by rw [store, seq, sound.tracks.clock]
  serial := by
    rw [log, seed]
    exact sound.serial

/-- Every step keeps the store on track and the run serial. -/
theorem Site.Sound.step
    (publishes : persistence.Publishes contents)
    (sound : site.Sound contents runs start)
    {step : MuxStep}
    (steps : Site.Steps decide persistence contents runs site step next) :
    next.Sound contents runs start := by
  have versioned := sound.versioned.step steps.1
  cases step with
  | launch sandbox cmd plan =>
      obtain ⟨⟨authority, -⟩, -, seed, store, log⟩ := steps
      exact sound.kept versioned store log seed (by rw [authority])
        (by rw [authority])
  | act =>
      obtain ⟨⟨authority, -⟩, -, seed, store, log⟩ := steps
      exact sound.kept versioned store log seed (by rw [authority])
        (by rw [authority])
  | conclude command completed =>
      have ghost := steps.2.2.2
      cases concluded_of_steps publishes sound.versioned sound.tracks steps with
      | idle seed generations seq =>
          rw [if_neg (by rw [seq]; exact lt_irrefl _)] at ghost
          exact sound.kept versioned ghost.1 ghost.2 seed generations seq
      | commits translation ops left transaction recorded diffed commits =>
          have advanced : site.mux.authority.seq < next.mux.authority.seq := by
            rw [recorded]
            exact Nat.lt_succ_self _
          rw [if_pos advanced] at ghost
          have opsEq : recordedOps persistence command completed
              site.mux.storage site.mux.authority next.mux.authority = ops := by
            unfold recordedOps
            rw [if_pos advanced, left]
            dsimp only
            rw [diffed]
          rw [opsEq] at ghost
          obtain ⟨store, log⟩ := ghost
          refine ⟨versioned, ⟨?_, fun path => ?_, ?_⟩, ?_⟩
          · rw [store, commits.seed, ← sound.tracks.contents]
            rfl
          · have generation := getElem?_recorded ops
              (site.mux.authority.seq + 1) site.mux.authority.generations path
            rw [store, recorded, AuthorityState.record, generation,
              ← sound.tracks.changed, ← sound.tracks.clock]
            rfl
          · rw [store, recorded, AuthorityState.record, ← sound.tracks.clock]
            rfl
          · rw [log, left]
            cases wrote : translation.wroteInRoot with
            | false =>
                rw [wroteInRoot, wrote, if_neg Bool.false_ne_true,
                  List.append_nil, commits.seed, commits.silent wrote]
                exact sound.serial
            | true =>
                obtain ⟨found, made⟩ := commits.wrote wrote
                have ran := steps.2.2.1 0 translation left transaction
                rw [wroteInRoot, wrote, if_pos rfl, made]
                refine sound.serial.snoc ?_
                change runs _ _ _
                rw [found]
                exact ran.ran

/-- Every reachable state is sound. -/
theorem sound_of_reachable
    (publishes : persistence.Publishes contents)
    (reachable : (sites decide persistence contents runs start).Reachable
      site) :
    site.Sound contents runs start := by
  refine reachable.invariant (Site.Sound contents runs start) ?_
    fun _ _ _ _ sound steps => sound.step publishes steps
  rintro first ⟨initial, tracks, seed, log⟩
  refine ⟨versioned_of_reachable (.start initial), tracks, ?_⟩
  rw [log, seed]
  exact .nil

/-- In every run in which no storage operation fails, for any order of launches
and conclusions, the seed is what the commands whose commits wrote make of the
seed it started from when they run alone, one after the other, in the order in
which they committed. -/
theorem serial_of_reachable
    (publishes : persistence.Publishes contents)
    (reachable : (sites decide persistence contents runs start).Reachable
      site) :
    (serialRuns runs start).Executes start site.log
      (contents.seed site.mux.storage) :=
  (sound_of_reachable publishes reachable).serial

/-- A transaction commits only when every path that it wrote, that its events
name, or that git read for it has the content it had when the command launched;
and when it wrote, the whole seed has, and becomes its work tree. -/
theorem current_of_committed
    (publishes : persistence.Publishes contents)
    (reachable : (sites decide persistence contents runs start).Reachable site)
    {completed : Except MuxError Execution}
    (steps : (sites decide persistence contents runs start).step site
      (.conclude command completed) next)
    (committed : site.mux.authority.seq < next.mux.authority.seq) :
    ∃ translation ops, completed = .ok ⟨0, some translation⟩ ∧
      next.mux.authority = site.mux.authority.record
        (site.mux.authority.history ++ translation.events) ops ∧
      (∀ path, Checked ops translation.events translation.gitReads path ->
        contents.seed site.mux.storage path =
          site.store.versions command.baseSeq path) ∧
      (translation.wroteInRoot = true ->
        contents.seed site.mux.storage = site.store.versions command.baseSeq ∧
          contents.seed next.mux.storage =
            contents.work command.sandbox.uid site.mux.storage) := by
  have sound := sound_of_reachable publishes reachable
  cases concluded_of_steps publishes sound.versioned sound.tracks steps with
  | idle seed generations seq =>
      rw [seq] at committed
      exact absurd committed (lt_irrefl _)
  | commits translation ops left transaction recorded diffed commits =>
      exact ⟨translation, ops, left, recorded, commits.current, commits.wrote⟩

end Conclusion

/-! ## A run -/

/-- What the files `a` and `b` hold. -/
structure FilePair where
  a : Nat
  b : Nat

/-- What is at a path. -/
def FilePair.at (files : FilePair) (path : String) : Nat :=
  if path = "a" then files.a else if path = "b" then files.b else 0

/-- A seed and two work trees. -/
structure SharedFiles where
  seed : FilePair
  first : FilePair
  second : FilePair

/-- The work tree of a sandbox. -/
def SharedFiles.work (storage : SharedFiles) (uid : String) : FilePair :=
  if uid = "u1" then storage.first else storage.second

/-- Storage of two files, on which nothing fails. -/
def sharedFiles : Persistence SharedFiles where
  diffTrees uid storage :=
    .ok ((["a", "b"].filter fun path =>
      storage.seed.at path ≠ (storage.work uid).at path).map fun path =>
        .write [path])
  apply uid _ _ _ _ ops storage :=
    (.ok (), { storage with
      seed.a := if "a" ∈ ops.map CommitOp.path then (storage.work uid).a
        else storage.seed.a
      seed.b := if "b" ∈ ops.map CommitOp.path then (storage.work uid).b
        else storage.seed.b })
  append _ _ _ _ _ storage := (.ok (), storage)

/-- What is there. -/
def sharedContents : Contents SharedFiles Nat where
  seed storage := storage.seed.at
  work uid storage := (storage.work uid).at

theorem publishes_sharedFiles :
    sharedFiles.Publishes sharedContents where
  diffed := by
    intro uid storage ops diffs path
    cases diffs
    have named : ∀ name : String, CommitOp.path (.write [name]) = name :=
      fun name => rfl
    simp only [List.map_map, List.mem_map, List.mem_filter, Function.comp,
      named, exists_eq_right, decide_eq_true_eq, sharedContents]
    refine ⟨And.right, fun differs => ⟨?_, differs⟩⟩
    by_contra elsewhere
    simp only [List.mem_cons, List.not_mem_nil, or_false, not_or] at elsewhere
    exact differs (by simp [FilePair.at, elsewhere.1, elsewhere.2])
  applied := by
    intro uid seq principal cmd events ops storage stored applies
    cases applies
    funext path
    rw [OptimisticStore.replace]
    by_cases first : path = "a"
    · subst first
      rfl
    by_cases second : path = "b"
    · subst second
      rfl
    · simp [sharedContents, FilePair.at, first, second]
  appended := by
    intro seq principal cmd events ops storage stored appends
    cases appends
    rfl

/-- A command that copies `a` to `b`, launched beside the writer. -/
def copier : Command where
  sandbox := ⟨"bob", "u2"⟩
  cmd := "cp a b"
  plan := .transaction
  baseSeq := 0
  landed := []

/-- What the copier's trace names. -/
def copyEvents : List Event :=
  [⟨⟨"bob"⟩, .read, ⟨["a"]⟩⟩, ⟨⟨"bob"⟩, .edit, ⟨["b"]⟩⟩]

/-- What the copier's run left. -/
def copied : Except MuxError Execution :=
  .ok ⟨0, some ⟨copyEvents, none, [], true⟩⟩

/-- The authority after the copier's commit. -/
def wroteBoth : AuthorityState :=
  wrote.record (wrote.history ++ copyEvents) [.write ["b"]]

/-- What the two command lines make of the files. -/
def fills (cmd : String) (before after : String -> Nat) : Prop :=
  after = if cmd = writer.cmd then Function.update before "a" 1
    else Function.update before "b" (before "a")

/-- The copier's first run read an `a` that was committed after its launch. -/
theorem conclude_copier (storage : SharedFiles) :
    ∃ stale, conclude gitDecide sharedFiles copier.sandbox copier.cmd copied
        copier.baseSeq copier.plan wrote storage =
      (.ok (.staleSnapshot copyEvents stale), wrote, storage) := by
  let translation : Translation := ⟨copyEvents, none, [], true⟩
  obtain ⟨ops, diffed⟩ : ∃ ops, writeSet sharedFiles copier.sandbox translation
      storage = .ok ops := ⟨_, rfl⟩
  obtain ⟨stale, rest, staleEq⟩ := List.exists_cons_of_ne_nil (fun none =>
    absurd (stalePaths_eq_nil_iff.mp none "a" (.inr (.inl
      ⟨_, List.mem_cons_self, rfl⟩)) 1 rfl) (by decide) :
        stalePaths wrote.generations 0 ops copyEvents [] ≠ [])
  refine ⟨stale :: rest, ?_⟩
  change concludeTransaction gitDecide sharedFiles copier.sandbox copier.cmd
    translation 0 0 wrote storage = _
  rw [concludeTransaction, authorize]
  dsimp only [translation]
  rw [if_neg (by decide), diffed]
  dsimp only
  rw [if_neg (by simp [copyEvents]), staleEq]

/-- The copier's second run commits. -/
theorem conclude_copied :
    conclude gitDecide sharedFiles copier.sandbox copier.cmd copied 1
        copier.plan wrote ⟨⟨1, 0⟩, ⟨1, 0⟩, ⟨1, 1⟩⟩ =
      (.ok (.committed 2 0 copyEvents), wroteBoth,
        ⟨⟨1, 1⟩, ⟨1, 0⟩, ⟨1, 1⟩⟩) := by
  have fresh : stalePaths wrote.generations 1 [.write ["b"]] copyEvents [] =
      [] := by
    refine stalePaths_eq_nil_iff.mpr fun path checked merged generation => ?_
    simp only [Checked, copyEvents, List.mem_cons, List.not_mem_nil,
      or_false] at checked
    rcases checked with ⟨op, rfl, rfl⟩ | ⟨event, rfl | rfl, rfl⟩
    · exact absurd generation (Option.some_ne_none _).symm
    · exact (Option.some.inj generation).ge
    · exact absurd generation (Option.some_ne_none _).symm
  have authorized : authorize gitDecide sharedFiles copier.sandbox
      ⟨copyEvents, none, [], true⟩ 0 1 wrote ⟨⟨1, 0⟩, ⟨1, 0⟩, ⟨1, 1⟩⟩ =
        .ok (.publish (wrote.history ++ copyEvents) [.write ["b"]]) := by
    have diffed : writeSet sharedFiles copier.sandbox
        ⟨copyEvents, none, [], true⟩ ⟨⟨1, 0⟩, ⟨1, 0⟩, ⟨1, 1⟩⟩ =
          .ok [.write ["b"]] := rfl
    rw [authorize]
    dsimp only
    rw [if_neg (by decide), diffed]
    dsimp only
    rw [if_neg (by simp [copyEvents]), fresh]
    rfl
  change concludeTransaction gitDecide sharedFiles copier.sandbox copier.cmd
    ⟨copyEvents, none, [], true⟩ 0 1 wrote ⟨⟨1, 0⟩, ⟨1, 0⟩, ⟨1, 1⟩⟩ = _
  rw [concludeTransaction, authorized]
  rfl

/-- The mux, the versions and the log of the run. -/
def copying : TransitionSystem (Site SharedFiles Nat) MuxStep :=
  sites gitDecide sharedFiles sharedContents fills (FilePair.at ⟨0, 0⟩)

/-- The store before any commit. -/
def emptyStore : OptimisticStore String Nat :=
  .start (FilePair.at ⟨0, 0⟩) (fun _ => none) 0 (fun _ _ is => by cases is)

/-- The store after the writer's commit. -/
def storeA : OptimisticStore String Nat :=
  emptyStore.publish ["a"] (FilePair.at ⟨1, 0⟩)

/-- The writer and the copier run side by side, and the writer has written. -/
theorem reachable_sideBySide :
    copying.Reachable ⟨⟨.fresh, ⟨⟨0, 0⟩, ⟨1, 0⟩, ⟨0, 0⟩⟩, [writer, copier]⟩,
      emptyStore, []⟩ := by
  have start : copying.Reachable
      ⟨⟨.fresh, ⟨⟨0, 0⟩, ⟨0, 0⟩, ⟨0, 0⟩⟩, []⟩, emptyStore, []⟩ := by
    refine .start ⟨⟨rfl, [], rfl, rfl⟩, ⟨rfl, fun path => ?_, rfl⟩, rfl, rfl⟩
    exact (Std.TreeMap.getElem?_emptyc).symm
  have first : copying.Reachable
      ⟨⟨.fresh, ⟨⟨0, 0⟩, ⟨0, 0⟩, ⟨0, 0⟩⟩, [writer]⟩, emptyStore, []⟩ :=
    .step (.launch writer.sandbox writer.cmd .transaction) start
      ⟨⟨rfl, rfl⟩, trivial, rfl, rfl, rfl⟩
  have second : copying.Reachable
      ⟨⟨.fresh, ⟨⟨0, 0⟩, ⟨0, 0⟩, ⟨0, 0⟩⟩, [writer, copier]⟩, emptyStore, []⟩ :=
    .step (.launch copier.sandbox copier.cmd .transaction) first
      ⟨⟨rfl, rfl⟩, trivial, rfl, rfl, rfl⟩
  exact .step .act second ⟨⟨rfl, rfl⟩, trivial, rfl, rfl, rfl⟩

/-- The writer makes its work tree of the seed it launched on. -/
theorem ran_writer
    {mux : MuxState SharedFiles}
    (storage : mux.storage = ⟨⟨0, 0⟩, ⟨1, 0⟩, ⟨0, 0⟩⟩) :
    Site.Ran sharedContents fills ⟨mux, emptyStore, []⟩ writer
      ⟨[⟨⟨"alice"⟩, .edit, ⟨["a"]⟩⟩], none, [], true⟩ where
  ran := by
    rw [storage]
    funext path
    by_cases here : path = "a"
    · subst here
      rfl
    · simp [sharedContents, SharedFiles.work, writer, FilePair.at, here,
        emptyStore, OptimisticStore.start]
  touched path differs := by
    rw [storage] at differs
    by_cases here : path = "a"
    · exact ⟨_, List.mem_cons_self, here ▸ rfl⟩
    · simp [sharedContents, SharedFiles.work, writer, FilePair.at, here,
        emptyStore, OptimisticStore.start] at differs

/-- The writer commits. -/
theorem reachable_storeA :
    copying.Reachable ⟨⟨wrote, ⟨⟨1, 0⟩, ⟨1, 0⟩, ⟨0, 0⟩⟩,
      [copier.land [.write ["a"]]]⟩, storeA, [writer.cmd]⟩ := by
  have concluded : conclude gitDecide sharedFiles writer.sandbox writer.cmd
      wroteA writer.baseSeq writer.plan .fresh ⟨⟨0, 0⟩, ⟨1, 0⟩, ⟨0, 0⟩⟩ =
        (.ok (.committed 1 0 [⟨⟨"alice"⟩, .edit, ⟨["a"]⟩⟩]), wrote,
          ⟨⟨1, 0⟩, ⟨1, 0⟩, ⟨0, 0⟩⟩) := conclude_wroteA rfl rfl rfl
  refine .step (.conclude writer wroteA) reachable_sideBySide
    ⟨⟨List.mem_cons_self, _, concluded, [], [copier], rfl, rfl⟩,
      fun execution _ => ⟨_, congrArg Prod.fst concluded⟩,
      fun exitCode translation left _ => ?_, ?_⟩
  · cases left
    exact ran_writer rfl
  · rw [if_pos (by decide)]
    exact ⟨rfl, rfl⟩

/-- The copier's first run made nothing of the seed it launched on. -/
theorem ran_copier
    {mux : MuxState SharedFiles}
    (storage : mux.storage = ⟨⟨1, 0⟩, ⟨1, 0⟩, ⟨0, 0⟩⟩) :
    Site.Ran sharedContents fills ⟨mux, storeA, [writer.cmd]⟩
      (copier.land [.write ["a"]]) ⟨copyEvents, none, [], true⟩ := by
  have same : sharedContents.work copier.sandbox.uid mux.storage =
      storeA.versions 0 := by
    rw [storage]
    rfl
  refine ⟨?_, fun path differs => absurd (congrFun same path) differs⟩
  change fills copier.cmd (storeA.versions 0)
    (sharedContents.work copier.sandbox.uid mux.storage)
  rw [same]
  funext path
  by_cases copy : path = "b"
  · subst copy
    rfl
  · rw [if_neg (by decide), Function.update_of_ne copy]

/-- The copier's first run is refused, it runs again on the new seed, and has
copied. -/
theorem reachable_copying :
    copying.Reachable ⟨⟨wrote, ⟨⟨1, 0⟩, ⟨1, 0⟩, ⟨1, 1⟩⟩,
      [{ copier with baseSeq := 1 }]⟩, storeA, [writer.cmd]⟩ := by
  obtain ⟨stale, refused⟩ := conclude_copier ⟨⟨1, 0⟩, ⟨1, 0⟩, ⟨0, 0⟩⟩
  have idle : copying.Reachable ⟨⟨wrote, ⟨⟨1, 0⟩, ⟨1, 0⟩, ⟨0, 0⟩⟩, []⟩,
      storeA, [writer.cmd]⟩ := by
    refine .step (.conclude (copier.land [.write ["a"]]) copied)
      reachable_storeA
      ⟨⟨List.mem_cons_self, _, refused, [], [], rfl, rfl⟩,
        fun execution _ => ⟨_, congrArg Prod.fst refused⟩,
        fun exitCode translation left _ => ?_, ?_⟩
    · cases left
      exact ran_copier rfl
    · rw [if_neg (by decide)]
      exact ⟨rfl, rfl⟩
  have again : copying.Reachable ⟨⟨wrote, ⟨⟨1, 0⟩, ⟨1, 0⟩, ⟨0, 0⟩⟩,
      [{ copier with baseSeq := 1 }]⟩, storeA, [writer.cmd]⟩ :=
    .step (.launch copier.sandbox copier.cmd .transaction) idle
      ⟨⟨rfl, rfl⟩, trivial, rfl, rfl, rfl⟩
  exact .step .act again ⟨⟨rfl, rfl⟩, trivial, rfl, rfl, rfl⟩

/-- The copier makes its work tree of the seed as the writer left it. -/
theorem ran_copied
    {mux : MuxState SharedFiles}
    (storage : mux.storage = ⟨⟨1, 0⟩, ⟨1, 0⟩, ⟨1, 1⟩⟩) :
    Site.Ran sharedContents fills ⟨mux, storeA, [writer.cmd]⟩
      { copier with baseSeq := 1 } ⟨copyEvents, none, [], true⟩ := by
  have launched : ∀ path, path ≠ "b" -> storeA.versions 1 path =
      FilePair.at ⟨1, 1⟩ path := by
    intro path other
    by_cases here : path = "a"
    · subst here
      rfl
    · simp [storeA, emptyStore, OptimisticStore.publish,
        OptimisticStore.replace, OptimisticStore.start, FilePair.at, here,
        other]
  constructor
  · change fills copier.cmd (storeA.versions 1) _
    rw [storage]
    funext path
    rw [if_neg (by decide)]
    by_cases copy : path = "b"
    · subst copy
      rfl
    · rw [Function.update_of_ne copy, launched path copy]
      rfl
  · intro path differs
    rw [storage] at differs
    by_cases copy : path = "b"
    · exact ⟨_, List.mem_cons_of_mem _ List.mem_cons_self, copy ▸ rfl⟩
    · exact absurd (launched path copy).symm differs

/-- The copier's second run commits. -/
theorem steps_copied :
    copying.step
      ⟨⟨wrote, ⟨⟨1, 0⟩, ⟨1, 0⟩, ⟨1, 1⟩⟩, [{ copier with baseSeq := 1 }]⟩,
        storeA, [writer.cmd]⟩
      (.conclude { copier with baseSeq := 1 } copied)
      ⟨⟨wroteBoth, ⟨⟨1, 1⟩, ⟨1, 0⟩, ⟨1, 1⟩⟩, []⟩,
        storeA.publish ["b"] (FilePair.at ⟨1, 1⟩),
        [writer.cmd, copier.cmd]⟩ := by
  refine ⟨⟨List.mem_cons_self, _, conclude_copied, [], [], rfl, rfl⟩,
    fun execution _ => ⟨_, congrArg Prod.fst conclude_copied⟩,
    fun exitCode translation left _ => ?_, ?_⟩
  · cases left
    exact ran_copied rfl
  · rw [if_pos (by decide)]
    exact ⟨rfl, rfl⟩

/-- Two writers ran at once; the one that lost ran again, and the seed is what
the two make of it one after the other. -/
theorem serial_of_reachable_copier :
    (serialRuns fills (FilePair.at ⟨0, 0⟩)).Executes (FilePair.at ⟨0, 0⟩)
      [writer.cmd, copier.cmd] (FilePair.at ⟨1, 1⟩) :=
  serial_of_reachable publishes_sharedFiles
    (.step _ reachable_copying steps_copied)

/-- The copier commits on the seed as it was when it was launched again. -/
theorem current_of_committed_copier :
    ∃ translation ops, copied = .ok ⟨0, some translation⟩ ∧
      wroteBoth = wrote.record (wrote.history ++ translation.events) ops ∧
      FilePair.at ⟨1, 0⟩ = storeA.versions 1 := by
  obtain ⟨translation, ops, left, recorded, -, current⟩ :=
    current_of_committed publishes_sharedFiles reachable_copying steps_copied
      (by decide)
  obtain rfl : ⟨copyEvents, none, [], true⟩ = translation :=
    Option.some.inj (congrArg Execution.translation (Except.ok.inj left))
  exact ⟨_, ops, left, recorded, (current rfl).1⟩

end Shellmux
end Marsh
