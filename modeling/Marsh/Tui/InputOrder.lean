import Marsh.Tui.InputRouting
import Mathlib.Data.List.Nodup

/-!
# Order of input

The bytes that reach a job's terminal should be some of those typed for it, in the
order in which they were typed, and no command should read what was typed for one
before it.  This holds as long as nothing is sent past input that is held, and no
command is started while input of an earlier one is unread.
-/

namespace Marsh
namespace Tui

open Library
open scoped List

/-! ## Typed bytes -/

@[simp]
theorem typedAmong_append (bytes more : List InputByte) :
    typedAmong (bytes ++ more) = typedAmong bytes ++ typedAmong more :=
  List.filter_append _ _

theorem typedAmong_sublist
    {bytes more : List InputByte}
    (fewer : bytes <+ more) : typedAmong bytes <+ typedAmong more :=
  fewer.filter _

theorem typedAmong_replyBytes (bytes : List UInt8) :
    typedAmong (replyBytes bytes) = [] :=
  List.filter_eq_nil_iff.mpr fun byte member => by
    obtain ⟨_, -, rfl⟩ := List.mem_map.mp member
    exact Bool.false_ne_true

theorem typedAmong_stamp (command position : Nat) (bytes : List UInt8) :
    typedAmong (stamp command position bytes) = stamp command position bytes := by
  induction bytes generalizing position with
  | nil => rfl
  | cons byte bytes hypothesis =>
      exact congrArg (List.cons _) (hypothesis (position + 1))

theorem command_of_mem_stamp
    {command position : Nat}
    {bytes : List UInt8}
    {byte : InputByte}
    (member : byte ∈ stamp command position bytes) :
    ∀ stroke ∈ byte.typed, stroke.command = command := by
  induction bytes generalizing position with
  | nil => cases member
  | cons first bytes hypothesis =>
      obtain rfl | member := List.mem_cons.mp member
      · intro stroke typed
        obtain rfl := Option.mem_some_iff.mp typed
        rfl
      · exact hypothesis member

/-- The positions of the bytes. -/
def positions (bytes : List InputByte) : List (Option Nat) :=
  bytes.map fun byte => byte.typed.map Keystroke.position

theorem positions_stamp (command position : Nat) (bytes : List UInt8) :
    positions (stamp command position bytes) =
      (List.range' position bytes.length).map some := by
  induction bytes generalizing position with
  | nil => rfl
  | cons byte bytes hypothesis =>
      exact congrArg (List.cons (some position)) (hypothesis (position + 1))

@[simp]
theorem length_stamp (command position : Nat) (bytes : List UInt8) :
    (stamp command position bytes).length = bytes.length := by
  induction bytes generalizing position with
  | nil => rfl
  | cons byte bytes hypothesis =>
      exact congrArg Nat.succ (hypothesis (position + 1))

/-- The byte was typed for this command or for a later one, if it was typed. -/
def InputByte.NotBefore (byte : InputByte) (command : Nat) : Prop :=
  ∀ stroke ∈ byte.typed, command ≤ stroke.command

instance (byte : InputByte) (command : Nat) :
    Decidable (byte.NotBefore command) :=
  inferInstanceAs (Decidable (∀ stroke ∈ byte.typed, command ≤ stroke.command))

/-! ## What should hold -/

/-- The terminal got typed bytes in typing order, each once, and no command read
one that was typed for an earlier command. -/
structure JobInput.Respected (job : JobInput) : Prop where
  order : typedAmong job.delivered <+ job.typed
  once : (typedAmong job.delivered).Nodup
  commands : ∀ entry ∈ job.read, entry.1.NotBefore entry.2

namespace InputState

/-- The input of every job is respected. -/
def InputRespected (state : InputState) : Prop :=
  ∀ uid, (state.jobs uid).Respected

/-- A step that sends no input past input that is held, and starts no command
while input typed for an earlier one is unread. -/
def Orderly (state : InputState) : InputStep -> Prop
  | .input _ =>
      ∀ uid, state.selection = some uid ->
        (state.jobs uid).isPending = false ->
        (state.jobs uid).view = some ⟨false, true⟩ ->
        (state.jobs uid).queuedInput = []
  | .accept =>
      ∀ uid command, state.worker = .calling uid command ->
        ∀ byte ∈ (state.jobs uid).unread, byte.NotBefore command
  | _ => True

end InputState

/-! ## What a job keeps -/

/-- What every orderly step keeps of a job. -/
structure JobInput.Kept (job : JobInput) : Prop where
  order : typedAmong (job.read.map Prod.fst ++ job.unread) <+ job.typed
  positions : positions job.typed = (List.range job.typed.length).map some
  commands : ∀ entry ∈ job.read, entry.1.NotBefore entry.2
  current : ∀ command, job.command = some command ->
    ∀ byte ∈ job.unread, byte.NotBefore command

/-- A change of a job that reads nothing, starts nothing and only drops input. -/
structure JobInput.Sheds (job next : JobInput) : Prop where
  typed : next.typed = job.typed
  read : next.read = job.read
  unread : typedAmong next.unread <+ typedAmong job.unread
  command : ∀ command, next.command = some command -> job.command = some command

namespace JobInput

variable {job next : JobInput}

theorem unopened_kept : unopened.Kept where
  order := List.nil_sublist _
  positions := rfl
  commands := fun _ member => absurd member List.not_mem_nil
  current := fun _ _ _ member => absurd member List.not_mem_nil

theorem Kept.nodup (kept : job.Kept) : job.typed.Nodup := by
  have distinct : (Tui.positions job.typed).Nodup := by
    rw [kept.positions]
    exact List.nodup_range.map fun _ _ => Option.some.inj
  exact List.Nodup.of_map (fun byte : InputByte =>
    byte.typed.map Keystroke.position) distinct

theorem Kept.respected (kept : job.Kept) : job.Respected := by
  have start : job.delivered <+ job.read.map Prod.fst ++ job.unread := by
    rw [delivered, unread, ← List.append_assoc]
    exact List.sublist_append_left _ _
  have order := (typedAmong_sublist start).trans kept.order
  exact ⟨order, kept.nodup.sublist order, kept.commands⟩

theorem Sheds.refl (job : JobInput) : job.Sheds job :=
  ⟨rfl, rfl, List.Sublist.refl _, fun _ current => current⟩

/-- What holds of typed bytes among more of them. -/
theorem notBefore_of_typedAmong
    {bytes more : List InputByte}
    {command : Nat}
    (fewer : typedAmong bytes <+ typedAmong more)
    (all : ∀ byte ∈ more, byte.NotBefore command) :
    ∀ byte ∈ bytes, byte.NotBefore command := by
  intro byte member stroke typed
  have among : byte ∈ typedAmong bytes :=
    List.mem_filter.mpr ⟨member, Option.isSome_of_mem typed⟩
  exact all byte (List.mem_of_mem_filter (fewer.subset among)) stroke typed

theorem Kept.of_sheds (kept : job.Kept) (sheds : job.Sheds next) : next.Kept where
  order := by
    rw [sheds.read, sheds.typed, typedAmong_append]
    refine List.Sublist.trans ?_ kept.order
    rw [typedAmong_append]
    exact List.Sublist.append (List.Sublist.refl _) sheds.unread
  positions := by
    rw [sheds.typed]
    exact kept.positions
  commands := by
    rw [sheds.read]
    exact kept.commands
  current command current :=
    notBefore_of_typedAmong sheds.unread
      (kept.current command (sheds.command command current))

/-! ### Rows -/

theorem row_sendToChild (job : JobInput) (bytes : List InputByte) :
    (job.sendToChild bytes).row = job.row := by
  rw [sendToChild]
  split
  · rfl
  · split_ifs <;> rfl

theorem row_onStarted (job : JobInput) (launched : Bool) :
    (job.onStarted launched).row = job.row := by
  rw [onStarted]
  split_ifs <;> rfl

theorem row_refresh (job : JobInput) (replies : List UInt8) :
    (job.refresh replies).row = job.row := by
  rw [refresh, retain]
  split_ifs <;> rfl

/-! ### Changes that drop input -/

/-- What the row is changed to starts nothing. -/
theorem sheds_row
    {row : Option MuxJob}
    (command : ∀ current, row.bind MuxJob.command = some current ->
      job.command = some current) : job.Sheds { job with row := row } :=
  ⟨rfl, rfl, List.Sublist.refl _, command⟩

theorem sheds_changeRow
    {change : MuxJob -> MuxJob}
    (command : ∀ row, job.row = some row ->
      ∀ current, (change row).command = some current ->
        row.command = some current) : job.Sheds (job.changeRow change) := by
  refine sheds_row fun current started => ?_
  cases found : job.row with
  | none =>
      rw [found] at started
      cases started
  | some row =>
      rw [found] at started
      rw [JobInput.command, found]
      exact command row found current started

/-- A writer that is handed bytes is to write them after the others, or drops
them. -/
theorem waiting_send (writer : InputWriter) (bytes : List InputByte) :
    (writer.send bytes).waiting <+ writer.waiting ++ bytes := by
  rw [InputWriter.send]
  split_ifs with full left
  · exact List.sublist_append_left _ _
  · rw [InputWriter.waiting, InputWriter.waiting, List.append_assoc]
    exact List.Sublist.append (List.Sublist.refl _) (List.nil_sublist _)
  · rw [InputWriter.waiting, InputWriter.waiting, List.append_assoc,
      List.flatten_append, List.flatten_singleton]

theorem writer_send (job : JobInput) (bytes : List InputByte) :
    (job.send bytes).writer.elim [] InputWriter.waiting <+
      job.writer.elim [] InputWriter.waiting ++ bytes := by
  cases found : job.writer with
  | none =>
      rw [send, found]
      exact List.nil_sublist _
  | some writer =>
      rw [send, found]
      exact waiting_send writer bytes

/-- What a writer is handed stays in order when no input is held. -/
theorem unread_send
    (free : job.queuedInput = [])
    (bytes : List InputByte) : (job.send bytes).unread <+ job.unread ++ bytes := by
  rw [unread, waiting, unread, waiting, List.append_assoc, free]
  refine List.Sublist.append (List.Sublist.refl _) ?_
  change (job.send bytes).writer.elim [] InputWriter.waiting ++
    job.queuedInput <+ _
  rw [free, List.append_nil, List.append_nil]
  exact writer_send job bytes

theorem unread_sendToChild
    {bytes : List InputByte}
    (free : job.isPending = false -> job.view = some ⟨false, true⟩ ->
      job.queuedInput = []) :
    (job.sendToChild bytes).unread <+ job.unread ++ bytes := by
  have dropped : job.unread <+ job.unread ++ bytes :=
    List.sublist_append_left _ _
  rw [sendToChild]
  split
  · exact dropped
  · rename_i view shown
    split_ifs with holds full running
    · exact dropped
    · rw [unread, waiting, unread, waiting, List.append_assoc, List.append_assoc]
    · rw [Bool.or_eq_true, not_or, Bool.not_eq_true, Bool.not_eq_true] at holds
      refine unread_send (free holds.1 ?_) bytes
      rw [shown, ← holds.2, ← running]
    · exact dropped

theorem sheds_onStarted (job : JobInput) (launched : Bool) :
    job.Sheds (job.onStarted launched) := by
  have unheld : (job.writer.elim [] InputWriter.waiting ++ []) <+
      job.writer.elim [] InputWriter.waiting ++ job.queuedInput :=
    List.Sublist.append (List.Sublist.refl _) (List.nil_sublist _)
  rw [onStarted]
  split_ifs with flushes
  · refine ⟨rfl, rfl, typedAmong_sublist ?_, fun _ current => current⟩
    refine List.Sublist.append (List.Sublist.refl job.terminal) ?_
    change ({ job with isPending := false, queuedInput := [] }.send
      job.queuedInput).writer.elim [] InputWriter.waiting ++ [] <+ job.waiting
    rw [List.append_nil]
    exact writer_send { job with isPending := false, queuedInput := [] } _
  · refine ⟨rfl, rfl, typedAmong_sublist ?_, fun _ current => current⟩
    exact List.Sublist.append (List.Sublist.refl job.terminal) unheld

theorem Sheds.trans
    {last : JobInput}
    (first : job.Sheds next)
    (second : next.Sheds last) : job.Sheds last where
  typed := second.typed.trans first.typed
  read := second.read.trans first.read
  unread := second.unread.trans first.unread
  command command current := first.command command (second.command command current)

theorem sheds_syncWriter (job : JobInput) : job.Sheds job.syncWriter := by
  refine ⟨rfl, rfl, typedAmong_sublist ?_, fun _ current => current⟩
  refine List.Sublist.append (List.Sublist.refl _) ?_
  refine List.Sublist.append ?_ (List.Sublist.refl _)
  rw [syncWriter]
  dsimp only
  split_ifs with shown fresh
  · exact List.nil_sublist _
  · exact List.Sublist.refl _
  · exact List.nil_sublist _

/-- A reply is no typed input. -/
theorem sheds_reply (job : JobInput) (bytes : List UInt8) :
    job.Sheds (job.send (replyBytes bytes)) := by
  refine ⟨rfl, rfl, ?_, fun _ current => current⟩
  have handed := typedAmong_sublist (writer_send job (replyBytes bytes))
  rw [typedAmong_append, typedAmong_replyBytes, List.append_nil] at handed
  rw [unread, waiting, unread, waiting, typedAmong_append, typedAmong_append,
    typedAmong_append, typedAmong_append]
  exact List.Sublist.append (List.Sublist.refl _)
    (List.Sublist.append handed (List.Sublist.refl _))

theorem sheds_retain (job : JobInput) : job.Sheds job.retain := by
  rw [retain]
  split_ifs with shown
  · exact Sheds.refl job
  · refine ⟨rfl, rfl, typedAmong_sublist ?_, fun _ current => current⟩
    exact List.Sublist.append (List.Sublist.refl _)
      (List.Sublist.append (List.Sublist.refl _) (List.nil_sublist _))

theorem sheds_refresh (job : JobInput) (replies : List UInt8) :
    job.Sheds (job.refresh replies) := by
  have viewed : job.Sheds { job with view := job.observed } :=
    ⟨rfl, rfl, List.Sublist.refl _, fun _ current => current⟩
  have synced := viewed.trans (sheds_syncWriter _)
  rw [refresh]
  split_ifs with silent
  · exact synced.trans (sheds_retain _)
  · exact (synced.trans (sheds_reply _ replies)).trans (sheds_retain _)

/-- A packet goes from a writer's channel to its task. -/
theorem sheds_receive
    {writer : InputWriter}
    {packet : List InputByte}
    {rest : List (List InputByte)}
    (found : job.writer = some writer)
    (idle : writer.writing = [])
    (channel : writer.channel = packet :: rest) :
    job.Sheds { job with writer := some (writer.receive packet rest) } := by
  have same : (writer.receive packet rest).waiting = writer.waiting := by
    rw [InputWriter.waiting, InputWriter.waiting, idle, channel, List.flatten_cons]
    rfl
  refine ⟨rfl, rfl, typedAmong_sublist ?_, fun _ current => current⟩
  rw [unread, waiting, unread, waiting, found]
  change job.terminal ++ ((writer.receive packet rest).waiting ++ _) <+ _
  rw [same]
  exact List.Sublist.refl _

theorem sheds_leave
    {writer : InputWriter}
    (found : job.writer = some writer) :
    job.Sheds { job with writer := some writer.leave } := by
  refine ⟨rfl, rfl, typedAmong_sublist ?_, fun _ current => current⟩
  rw [unread, waiting, unread, waiting, found]
  exact List.Sublist.append (List.Sublist.refl _)
    (List.Sublist.append (List.nil_sublist _) (List.Sublist.refl _))

/-- What is written goes from the writer to the terminal. -/
theorem sheds_write
    {writer : InputWriter}
    (found : job.writer = some writer)
    (count : Nat) :
    job.Sheds
      { job with
        writer := some { writer with writing := writer.writing.drop count }
        terminal := job.terminal ++ writer.writing.take count } := by
  refine ⟨rfl, rfl, typedAmong_sublist ?_, fun _ current => current⟩
  have same : job.terminal ++ writer.writing.take count ++
      (writer.writing.drop count ++ writer.channel.flatten ++ job.queuedInput) =
      job.unread := by
    have halves := List.take_append_drop count writer.writing
    rw [unread, waiting, found, Option.elim_some, InputWriter.waiting]
    conv_rhs => rw [← halves]
    simp only [List.append_assoc]
  exact (congrArg (fun bytes => bytes <+ job.unread) same).mpr
    (List.Sublist.refl _)

/-! ### The other changes -/

/-- What is typed comes last. -/
theorem Kept.typing
    {command : Nat}
    (kept : job.Kept)
    (current : ∀ own, job.command = some own -> own ≤ command)
    (bytes : List UInt8)
    (free : job.isPending = false -> job.view = some ⟨false, true⟩ ->
      job.queuedInput = []) :
    JobInput.Kept
      { job.sendToChild (stamp command job.typed.length bytes) with
        typed := job.typed ++ stamp command job.typed.length bytes } := by
  have same : ∀ stamped, (job.sendToChild stamped).read = job.read ∧
      (job.sendToChild stamped).command = job.command := by
    intro stamped
    rw [sendToChild]
    split
    · exact ⟨rfl, rfl⟩
    · split_ifs <;> exact ⟨rfl, rfl⟩
  have later :
      (job.sendToChild (stamp command job.typed.length bytes)).unread <+
        job.unread ++ stamp command job.typed.length bytes :=
    unread_sendToChild free
  have range : List.range' 0 job.typed.length ++
      List.range' (0 + job.typed.length) bytes.length =
      List.range' 0 (job.typed.length + bytes.length) :=
    List.range'_append_1
  constructor
  · change typedAmong ((job.sendToChild _).read.map Prod.fst ++
      (job.sendToChild _).unread) <+ job.typed ++ stamp _ _ _
    rw [(same _).1]
    have longer := typedAmong_sublist (List.Sublist.append
      (List.Sublist.refl (job.read.map Prod.fst)) later)
    refine longer.trans ?_
    rw [← List.append_assoc, typedAmong_append, typedAmong_stamp]
    exact List.Sublist.append kept.order (List.Sublist.refl _)
  · change Tui.positions (job.typed ++ stamp _ _ _) = _
    rw [Tui.positions, List.map_append]
    change Tui.positions job.typed ++ Tui.positions (stamp _ _ _) = _
    rw [kept.positions, positions_stamp, ← List.map_append, List.length_append,
      length_stamp, List.range_eq_range', List.range_eq_range', ← range,
      Nat.zero_add]
  · change ∀ entry ∈ (job.sendToChild _).read, _
    rw [(same _).1]
    exact kept.commands
  · intro own started byte member
    have before : job.command = some own := (same _).2 ▸ started
    obtain old | new := List.mem_append.mp (later.subset member)
    · exact kept.current own before byte old
    · intro stroke typed
      rw [command_of_mem_stamp new stroke typed]
      exact current own before

/-- A command reads input that was not typed for an earlier one. -/
theorem Kept.read
    {command : Nat}
    (kept : job.Kept)
    (running : job.command = some command)
    (count : Nat) :
    JobInput.Kept
      { job with
        terminal := job.terminal.drop count
        read := job.read ++
          (job.terminal.take count).map fun byte => (byte, command) } := by
  constructor
  · have moved : ((job.read ++ (job.terminal.take count).map fun byte =>
        (byte, command)).map Prod.fst ++ (job.terminal.drop count ++ job.waiting)) =
        job.read.map Prod.fst ++ job.unread := by
      rw [List.map_append, List.map_map, List.append_assoc, ← List.append_assoc _ _
        job.waiting]
      have first : (job.terminal.take count).map
          (Prod.fst ∘ fun byte => (byte, command)) = job.terminal.take count :=
        List.map_id _
      rw [first, List.take_append_drop, unread]
    exact (congrArg (fun bytes => typedAmong bytes <+ job.typed) moved).mpr
      kept.order
  · exact kept.positions
  · intro entry member
    obtain old | new := List.mem_append.mp member
    · exact kept.commands entry old
    · obtain ⟨byte, taken, rfl⟩ := List.mem_map.mp new
      exact kept.current command running byte
        (List.mem_append_left _ (List.mem_of_mem_take taken))
  · intro own started byte member
    refine kept.current own started byte ?_
    obtain left | waits := List.mem_append.mp member
    · exact List.mem_append_left _ (List.mem_of_mem_drop left)
    · exact List.mem_append_right _ waits

/-- A command is started for the input that is unread. -/
theorem Kept.start
    {row : MuxJob}
    {command : Nat}
    (kept : job.Kept)
    (idle : row.command = none)
    (fresh : ∀ byte ∈ job.unread, byte.NotBefore command) :
    JobInput.Kept
      { job with
        row := some { row with starting := some command }
        last := command } := by
  refine ⟨kept.order, kept.positions, kept.commands, fun own started => ?_⟩
  have running : row.running = none := (Option.or_eq_none_iff.mp idle).1
  have only : own = command := by
    change row.running.or (some command) = some own at started
    rw [running] at started
    exact (Option.some.inj started).symm
  rw [only]
  exact fresh

end JobInput

/-! ## Steps and runs -/

namespace InputState

variable {state next : InputState} {step : InputStep}

/-- The command a job is typed for is the one that the mux has. -/
theorem commandFor_eq
    {uid command : Nat}
    (current : (state.jobs uid).command = some command) :
    state.commandFor uid = command := by
  rw [commandFor, current]
  rfl

theorem forall_jobs_change
    {holds : JobInput -> Prop}
    (all : ∀ uid, holds (state.jobs uid))
    {uid : Nat}
    {job : JobInput}
    (own : holds job) : ∀ other, holds ((state.change uid job).jobs other) := by
  intro other
  rw [change_jobs]
  by_cases same : other = uid
  · rw [same, Function.update_self]
    exact own
  · rw [Function.update_of_ne same]
    exact all other

/-- A job that is reserved runs nothing, and a command that is being launched has
the reservation of its job. -/
structure Reserves (state : InputState) : Prop where
  exclusive : ∀ uid row, (state.jobs uid).row = some row ->
    row.running = none ∨ row.starting = none
  launching : ∀ uid command, state.worker = .launching uid command ->
    ∀ row, (state.jobs uid).row = some row -> row.starting = some command

/-- A row is left, is gone, or runs less than before. -/
def RowKept (before after : Option MuxJob) : Prop :=
  ∀ row, after = some row -> ∃ own, before = some own ∧
    row.starting = own.starting ∧ (own.running = none -> row.running = none)

theorem RowKept.refl (row : Option MuxJob) : RowKept row row :=
  fun own found => ⟨own, found, rfl, id⟩

theorem RowKept.none (row : Option MuxJob) : RowKept row none := by
  rintro own ⟨⟩

theorem rowKept_changeRow
    {change : MuxJob -> MuxJob}
    (kept : ∀ row, (change row).starting = row.starting ∧
      (change row).running = row.running)
    (job : JobInput) : RowKept job.row (job.changeRow change).row := by
  intro own found
  obtain ⟨before, was, rfl⟩ := Option.map_eq_some_iff.mp found
  exact ⟨before, was, (kept before).1, fun idle => (kept before).2.trans idle⟩

theorem rowKept_change
    {uid : Nat}
    {job : JobInput}
    (own : RowKept (state.jobs uid).row job.row) :
    ∀ other, RowKept (state.jobs other).row ((state.change uid job).jobs other).row :=
    by
  intro other
  rw [change_jobs]
  by_cases same : other = uid
  · subst same
    rw [Function.update_self]
    exact own
  · rw [Function.update_of_ne same]
    exact RowKept.refl _

/-- Steps that keep the rows and launch nothing leave the reservations. -/
theorem Reserves.of_rows
    (reserves : state.Reserves)
    (rows : ∀ uid, RowKept (state.jobs uid).row (next.jobs uid).row)
    (worker : ∀ uid command, next.worker = .launching uid command ->
      state.worker = .launching uid command) : next.Reserves where
  exclusive uid row found := by
    obtain ⟨before, was, starting, running⟩ := rows uid row found
    obtain idle | unreserved := reserves.exclusive uid before was
    · exact .inl (running idle)
    · exact .inr (starting.trans unreserved)
  launching uid command launching row found := by
    obtain ⟨before, was, starting, -⟩ := rows uid row found
    exact starting.trans
      (reserves.launching uid command (worker uid command launching) before was)

/-- Where nothing is being launched, reservations are about the rows only. -/
theorem Reserves.of_change
    {uid : Nat}
    {job : JobInput}
    (reserves : state.Reserves)
    (own : ∀ row, job.row = some row -> row.running = none ∨ row.starting = none)
    (jobs : next.jobs = (state.change uid job).jobs)
    (launches : ∀ other command, next.worker = .launching other command ->
      other = uid ∧ ∀ row, job.row = some row -> row.starting = some command) :
    next.Reserves where
  exclusive := by
    rw [jobs]
    exact @forall_jobs_change _ (fun job => ∀ row, job.row = some row ->
      row.running = none ∨ row.starting = none) reserves.exclusive _ _ own
  launching other command launching row found := by
    obtain ⟨rfl, starting⟩ := launches other command launching
    rw [jobs, change_jobs, Function.update_self] at found
    exact starting row found

/-- Every step leaves a command that is being launched its reservation. -/
theorem reserves_of_step
    (reserves : state.Reserves)
    (steps : state.Steps next step) : next.Reserves := by
  cases step with
  | input bytes =>
      obtain ⟨uid, -, -, rfl⟩ := steps
      refine reserves.of_rows (rowKept_change ?_) fun _ _ launching => launching
      rw [typing]
      dsimp only
      rw [JobInput.row_sendToChild]
      exact RowKept.refl _
  | select selection =>
      obtain rfl := steps
      exact ⟨reserves.exclusive, reserves.launching⟩
  | submit =>
      obtain ⟨uid, view, -, -, -, -, -, rfl⟩ := steps
      exact reserves.of_rows (rowKept_change (RowKept.refl _))
        fun _ _ launching => launching
  | submitSpawn background select =>
      obtain rfl := steps
      exact reserves.of_rows (fun _ => RowKept.refl _)
        fun _ _ launching => launching
  | refresh replies fallback =>
      obtain rfl := steps
      refine reserves.of_rows (fun uid => ?_) fun _ _ launching => launching
      change RowKept _ ((state.jobs uid).refresh (replies uid)).row
      rw [JobInput.row_refresh]
      exact RowKept.refl _
  | handle =>
      obtain ⟨message, rest, -, rfl⟩ := steps
      cases message with
      | opened job select =>
          cases job with
          | none =>
              exact reserves.of_rows (fun _ => RowKept.refl _)
                fun _ _ launching => launching
          | some uid =>
              exact reserves.of_rows (fun _ => RowKept.refl _)
                fun _ _ launching => launching
      | started uid launched =>
          refine reserves.of_rows (rowKept_change ?_)
            fun _ _ launching => launching
          rw [JobInput.row_onStarted]
          exact RowKept.refl _
  | take uid =>
      obtain ⟨-, rest, ⟨command, select, -, fresh, rfl⟩ | ⟨command, -, rfl⟩⟩ :=
        steps
      · refine reserves.of_change ?_ rfl ?_
        · intro row found
          obtain rfl := Option.some.inj found
          exact .inl rfl
        · rintro _ _ ⟨⟩
      · refine reserves.of_rows (fun _ => RowKept.refl _)
          fun other own launching => ?_
        change ite _ _ _ = _ at launching
        split_ifs at launching
  | failOpen =>
      obtain ⟨uid, command, select, -, rfl⟩ := steps
      exact reserves.of_rows (rowKept_change (RowKept.none _)) (by rintro _ _ ⟨⟩)
  | build =>
      obtain ⟨uid, command, select, -, rfl⟩ := steps
      refine reserves.of_rows (rowKept_change (rowKept_changeRow ?_ _))
        (by rintro _ _ ⟨⟩)
      exact fun _ => ⟨rfl, rfl⟩
  | announceOpened =>
      obtain ⟨uid, command, select, -, rfl⟩ := steps
      refine reserves.of_rows (rowKept_change (RowKept.refl _))
        fun other own launching => ?_
      cases command <;> cases launching
  | accept =>
      obtain ⟨uid, command, row, -, found, -, idle, rfl⟩ := steps
      refine reserves.of_change ?_ rfl ?_
      · intro own reserved
        obtain rfl := Option.some.inj reserved
        exact .inl (Option.or_eq_none_iff.mp idle).1
      · rintro other own ⟨⟩
        refine ⟨rfl, fun row reserved => ?_⟩
        obtain rfl := Option.some.inj reserved
        rfl
  | refuse =>
      obtain ⟨uid, command, -, -, rfl⟩ := steps
      exact reserves.of_rows (fun _ => RowKept.refl _) (by rintro _ _ ⟨⟩)
  | publish deferred =>
      obtain ⟨uid, command, -, -, rfl⟩ := steps
      refine reserves.of_change ?_ rfl (by rintro _ _ ⟨⟩)
      intro row published
      obtain ⟨before, -, rfl⟩ := Option.map_eq_some_iff.mp published
      exact .inr rfl
  | failLaunch =>
      obtain ⟨uid, command, -, rfl⟩ := steps
      refine reserves.of_change ?_ rfl (by rintro _ _ ⟨⟩)
      intro row cleared
      obtain ⟨before, -, rfl⟩ := Option.map_eq_some_iff.mp cleared
      exact .inr rfl
  | answer =>
      obtain ⟨uid, launched, -, rfl⟩ := steps
      exact reserves.of_rows (fun _ => RowKept.refl _) (by rintro _ _ ⟨⟩)
  | reap uid =>
      obtain ⟨row, command, found, -, rfl⟩ := steps
      refine reserves.of_rows (rowKept_change ?_) fun _ _ launching => launching
      intro own reaped
      obtain rfl := Option.some.inj reaped
      exact ⟨row, found, rfl, fun _ => rfl⟩
  | close uid force =>
      obtain rfl := steps
      refine reserves.of_rows (rowKept_change (rowKept_changeRow ?_ _))
        fun _ _ launching => launching
      exact fun _ => ⟨rfl, rfl⟩
  | remove uid =>
      obtain ⟨row, -, -, rfl⟩ := steps
      exact reserves.of_rows (rowKept_change (RowKept.none _))
        fun _ _ launching => launching
  | announceClosed uid =>
      obtain ⟨-, rfl⟩ := steps
      exact reserves.of_rows (rowKept_change (RowKept.refl _))
        fun _ _ launching => launching
  | receive uid =>
      obtain ⟨writer, packet, rest, -, -, -, rfl⟩ := steps
      exact reserves.of_rows (rowKept_change (RowKept.refl _))
        fun _ _ launching => launching
  | write uid count =>
      obtain ⟨writer, -, rfl⟩ := steps
      exact reserves.of_rows (rowKept_change (RowKept.refl _))
        fun _ _ launching => launching
  | leave uid =>
      obtain ⟨writer, -, -, rfl⟩ := steps
      exact reserves.of_rows (rowKept_change (RowKept.refl _))
        fun _ _ launching => launching
  | read uid count =>
      obtain ⟨row, command, -, -, rfl⟩ := steps
      exact reserves.of_rows (rowKept_change (RowKept.refl _))
        fun _ _ launching => launching

/-- An orderly step keeps every job. -/
theorem kept_of_step
    (reserves : state.Reserves)
    (kept : ∀ uid, (state.jobs uid).Kept)
    (orderly : state.Orderly step)
    (steps : state.Steps next step) : ∀ uid, (next.jobs uid).Kept := by
  cases step with
  | input bytes =>
      obtain ⟨uid, selected, -, rfl⟩ := steps
      refine forall_jobs_change kept ((kept uid).typing ?_ bytes
        (orderly uid selected))
      intro own current
      exact (commandFor_eq current).ge
  | select selection =>
      obtain rfl := steps
      exact kept
  | submit =>
      obtain ⟨uid, view, -, -, -, -, -, rfl⟩ := steps
      refine forall_jobs_change kept ((kept uid).of_sheds ?_)
      exact ⟨rfl, rfl, List.Sublist.refl _, fun _ current => current⟩
  | submitSpawn background select =>
      obtain rfl := steps
      exact kept
  | refresh replies fallback =>
      obtain rfl := steps
      exact fun uid => (kept uid).of_sheds (JobInput.sheds_refresh _ (replies uid))
  | handle =>
      obtain ⟨message, rest, -, rfl⟩ := steps
      cases message with
      | opened job select =>
          cases job with
          | none => exact kept
          | some uid =>
              refine fun other => (kept other).of_sheds ?_
              exact ⟨rfl, rfl, List.Sublist.refl _, fun _ current => current⟩
      | started uid launched =>
          exact forall_jobs_change kept ((kept uid).of_sheds
            (JobInput.sheds_onStarted _ launched))
  | take uid =>
      obtain ⟨-, rest, ⟨command, select, -, fresh, rfl⟩ | ⟨command, -, rfl⟩⟩ :=
        steps
      · refine forall_jobs_change kept (JobInput.unopened_kept.of_sheds ?_)
        exact JobInput.sheds_row fun current started => started
      · exact kept
  | failOpen =>
      obtain ⟨uid, command, select, -, rfl⟩ := steps
      refine forall_jobs_change kept ((kept uid).of_sheds
        (JobInput.sheds_row ?_))
      rintro current ⟨⟩
  | build =>
      obtain ⟨uid, command, select, -, rfl⟩ := steps
      refine forall_jobs_change kept ((kept uid).of_sheds
        (JobInput.sheds_changeRow ?_))
      exact fun row _ current started => started
  | announceOpened =>
      obtain ⟨uid, command, select, -, rfl⟩ := steps
      refine forall_jobs_change kept ((kept uid).of_sheds ?_)
      exact ⟨rfl, rfl, List.Sublist.refl _, fun _ current => current⟩
  | accept =>
      obtain ⟨uid, command, row, calling, found, -, idle, rfl⟩ := steps
      exact forall_jobs_change kept ((kept uid).start idle
        (orderly uid command calling))
  | refuse =>
      obtain ⟨uid, command, -, -, rfl⟩ := steps
      exact kept
  | publish deferred =>
      obtain ⟨uid, command, launching, -, rfl⟩ := steps
      refine forall_jobs_change kept ((kept uid).of_sheds
        (JobInput.sheds_changeRow ?_))
      intro row found current started
      have reserved := reserves.launching uid command launching row found
      have running : row.running = none :=
        (reserves.exclusive uid row found).resolve_right (by simp [reserved])
      rw [MuxJob.command, reserved, running]
      exact started
  | failLaunch =>
      obtain ⟨uid, command, -, rfl⟩ := steps
      refine forall_jobs_change kept ((kept uid).of_sheds
        (JobInput.sheds_changeRow ?_))
      intro row found current started
      change row.running.or none = some current at started
      rw [Option.or_none] at started
      rw [MuxJob.command, started]
      rfl
  | answer =>
      obtain ⟨uid, launched, -, rfl⟩ := steps
      exact kept
  | reap uid =>
      obtain ⟨row, command, found, running, rfl⟩ := steps
      refine forall_jobs_change kept ((kept uid).of_sheds
        (JobInput.sheds_row ?_))
      have unreserved : row.starting = none :=
        (reserves.exclusive uid row found).resolve_left (by simp [running])
      intro current started
      change none.or row.starting = some current at started
      rw [unreserved] at started
      cases started
  | close uid force =>
      obtain rfl := steps
      refine forall_jobs_change kept ((kept uid).of_sheds
        (JobInput.sheds_changeRow ?_))
      exact fun row _ current started => started
  | remove uid =>
      obtain ⟨row, -, -, rfl⟩ := steps
      refine forall_jobs_change kept ((kept uid).of_sheds
        (JobInput.sheds_row ?_))
      rintro current ⟨⟩
  | announceClosed uid =>
      obtain ⟨-, rfl⟩ := steps
      refine forall_jobs_change kept ((kept uid).of_sheds ?_)
      exact ⟨rfl, rfl, List.Sublist.refl _, fun _ current => current⟩
  | receive uid =>
      obtain ⟨writer, packet, rest, found, idle, channel, rfl⟩ := steps
      have received := JobInput.sheds_receive found idle channel
      refine forall_jobs_change kept ((kept uid).of_sheds ?_)
      split_ifs with open'
      · exact received
      · exact received.trans (JobInput.sheds_leave rfl)
  | write uid count =>
      obtain ⟨writer, found, rfl⟩ := steps
      exact forall_jobs_change kept ((kept uid).of_sheds
        (JobInput.sheds_write found count))
  | leave uid =>
      obtain ⟨writer, found, -, rfl⟩ := steps
      exact forall_jobs_change kept ((kept uid).of_sheds
        (JobInput.sheds_leave found))
  | read uid count =>
      obtain ⟨row, command, found, running, rfl⟩ := steps
      refine forall_jobs_change kept ((kept uid).read ?_ count)
      rw [JobInput.command, found, Option.bind_some, MuxJob.command, running]
      rfl

/-- What holds in every state of an orderly run. -/
structure Sound (state : InputState) : Prop where
  reserves : state.Reserves
  kept : ∀ uid, (state.jobs uid).Kept

theorem sound_initial : initial.Sound where
  reserves := ⟨by rintro uid row ⟨⟩, by rintro uid command ⟨⟩⟩
  kept _ := JobInput.unopened_kept

theorem sound_of_reachable
    (reachable : (inputMachine.restrict Orderly).Reachable state) :
    state.Sound := by
  refine reachable.invariant Sound ?_ ?_
  · rintro state rfl
    exact sound_initial
  · rintro state step next - sound ⟨steps, orderly⟩
    exact ⟨reserves_of_step sound.reserves steps,
      kept_of_step sound.reserves sound.kept orderly steps⟩

/-- In an orderly run the input of every job is respected. -/
theorem inputRespected_of_orderly
    (reachable : (inputMachine.restrict Orderly).Reachable state) :
    state.InputRespected :=
  fun uid => ((sound_of_reachable reachable).kept uid).respected

/-- A command that is submitted, typed for while it starts, and reads it. -/
theorem inputRespected_of_orderly_typed :
    ∃ state : InputState, state.InputRespected ∧
      (state.jobs 0).read =
        [(⟨97, some ⟨0, 1⟩⟩, 1), (⟨98, some ⟨1, 1⟩⟩, 1)] := by
  refine ⟨_, inputRespected_of_orderly
    (.step (.read 0 2)
    (.step (.write 0 1)
    (.step (.receive 0)
    (.step (.write 0 1)
    (.step (.receive 0)
    (.step (.input [98])
    (.step (.refresh (fun _ => []) none)
    (.step .handle
    (.step .handle
    (.step .answer
    (.step (.publish false)
    (.step .accept
    (.step (.take 0)
    (.step (.input [97])
    (.step .submit
    (.step (.select (some 0))
    (.step (.refresh (fun _ => []) none)
    (.step .announceOpened
    (.step .build
    (.step (.take 0)
    (.step (.submitSpawn false false)
    (.start rfl)
    ⟨rfl, trivial⟩)
    ⟨⟨rfl, _, .inl ⟨_, _, rfl, rfl, rfl⟩⟩, trivial⟩)
    ⟨⟨0, none, false, rfl, rfl⟩, trivial⟩)
    ⟨⟨0, none, false, rfl, rfl⟩, trivial⟩)
    ⟨rfl, trivial⟩)
    ⟨rfl, trivial⟩)
    ⟨⟨0, _, rfl, rfl, rfl, rfl, rfl, rfl⟩, trivial⟩)
    ⟨⟨0, rfl, rfl, rfl⟩, ?_⟩)
    ⟨⟨rfl, _, .inr ⟨_, rfl, rfl⟩⟩, trivial⟩)
    ⟨⟨0, 1, _, rfl, rfl, rfl, rfl, rfl⟩, ?_⟩)
    ⟨⟨0, 1, rfl, (by rintro ⟨⟩), rfl⟩, trivial⟩)
    ⟨⟨0, true, rfl, rfl⟩, trivial⟩)
    ⟨⟨_, _, rfl, rfl⟩, trivial⟩)
    ⟨⟨_, _, rfl, rfl⟩, trivial⟩)
    ⟨rfl, trivial⟩)
    ⟨⟨0, rfl, rfl, rfl⟩, ?_⟩)
    ⟨⟨_, _, _, rfl, rfl, rfl, rfl⟩, trivial⟩)
    ⟨⟨_, rfl, rfl⟩, trivial⟩)
    ⟨⟨_, _, _, rfl, rfl, rfl, rfl⟩, trivial⟩)
    ⟨⟨_, rfl, rfl⟩, trivial⟩)
    ⟨⟨_, 1, rfl, rfl, rfl⟩, trivial⟩), ?_⟩
  · rintro uid ⟨⟩ pending
    cases pending
  · rintro uid command ⟨⟩
    decide
  · rintro uid ⟨⟩ - -
    rfl
  · decide

/-- A command that is opened in the background.  What is typed while it starts is
held, and what is typed next, once the table shows it running, goes before that. -/
theorem not_inputRespected_background :
    ∃ state, inputMachine.Reachable state ∧ ¬ state.InputRespected := by
  refine ⟨_, .step (.write 0 1)
    (.step (.receive 0)
    (.step (.write 0 1)
    (.step (.receive 0)
    (.step .handle
    (.step .handle
    (.step .answer
    (.step (.input [98])
    (.step (.refresh (fun _ => []) none)
    (.step (.publish false)
    (.step (.input [97])
    (.step (.refresh (fun _ => []) none)
    (.step .accept
    (.step (.select (some 0))
    (.step (.refresh (fun _ => []) none)
    (.step .announceOpened
    (.step .build
    (.step (.take 0)
    (.step (.submitSpawn true false)
    (.start rfl) rfl)
    ⟨rfl, _, .inl ⟨_, _, rfl, rfl, rfl⟩⟩)
    ⟨0, some 1, false, rfl, rfl⟩)
    ⟨0, some 1, false, rfl, rfl⟩)
    rfl)
    rfl)
    ⟨0, 1, _, rfl, rfl, rfl, rfl, rfl⟩)
    rfl)
    ⟨0, rfl, rfl, rfl⟩)
    ⟨0, 1, rfl, (by rintro ⟨⟩), rfl⟩)
    rfl)
    ⟨0, rfl, rfl, rfl⟩)
    ⟨0, true, rfl, rfl⟩)
    ⟨_, _, rfl, rfl⟩)
    ⟨_, _, rfl, rfl⟩)
    ⟨_, _, _, rfl, rfl, rfl, rfl⟩)
    ⟨_, rfl, rfl⟩)
    ⟨_, _, _, rfl, rfl, rfl, rfl⟩)
    ⟨_, rfl, rfl⟩, ?_⟩
  intro respected
  exact absurd (respected 0).order (by decide)

end InputState

end Tui
end Marsh
