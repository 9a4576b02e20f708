import Marsh.Shellmux.SpanBookkeeping

/-!
# Sequential builtins

An execution whose threads each run their builtins one after the other.  Merged
by stamps, the edges of a thread keep their order exactly when no builtin begins
in the microsecond in which the one before it ended; then the translator knows
for every syscall whether a git builtin ran, unless a thread seems to be made
after its builtin began.
-/

namespace Marsh
namespace Shellmux

open Library
open Exec

/-! ## Executions -/

/-- The record of a beginning, if it is one. -/
def BuiltinRecord.beginning : BuiltinRecord -> Option BuiltinBegin
  | .began record => some record
  | .finished _ => none

/-- The two edges of a builtin invocation. -/
structure BuiltinSpan where
  began : BuiltinBegin
  ended : BuiltinEnd
  sameId : ended.id = began.id
  sameThread : ended.tid = began.tid
  inOrder : began.ts ≤ ended.ts

namespace BuiltinSpan

variable (span : BuiltinSpan)

/-- The records of an invocation, in program order. -/
def records : List BuiltinRecord := [.began span.began, .finished span.ended]

/-- A git builtin was invoked. -/
def IsGit : Prop := isGitBuiltin span.began.builtin = true

/-- A stamp lies between those of the edges, or is one of them. -/
def Covers (ts : Nat) : Prop := span.began.ts ≤ ts ∧ ts ≤ span.ended.ts

end BuiltinSpan

/-- What was observed of a command whose threads run their builtins one after
the other. -/
structure SequentialExecution where
  lines : List TraceLine
  records : List BuiltinRecord
  /-- The spans of a thread, in program order. -/
  spans : Nat -> List BuiltinSpan
  records_eq : ∀ tid, (records.filter fun record => record.tid = tid) =
    (spans tid).flatMap BuiltinSpan.records
  nondecreasing : ∀ tid, (spans tid).IsChain fun span next =>
    span.ended.ts ≤ next.began.ts
  /-- The recorder gives every invocation a number of its own. -/
  unique : ((records.filterMap BuiltinRecord.beginning).map
    BuiltinBegin.id).Nodup

/-- The builtin records of a thread among some events. -/
def ownRecords (tid : Nat) (events : List ExecutionEvent) :
    List BuiltinRecord :=
  (events.filterMap ExecutionEvent.record).filter fun record =>
    record.tid = tid

/-- A line of a syscall. -/
def IsSyscall (line : TraceLine) : Prop :=
  ∃ name args ret retPath, line.call = .syscall name args ret retPath

namespace SequentialExecution

variable (execution : SequentialExecution)

/-- The merged sequence. -/
def events : List ExecutionEvent :=
  (ExecutionEvidence.merge execution.lines execution.records).events

/-- The builtins of an execution do not look overlapping. -/
structure TracksSpans (frame : Frame) : Prop where
  /-- The edges of each thread keep their order. -/
  inOrder : ∀ tid, ownRecords tid execution.events =
    (execution.spans tid).flatMap BuiltinSpan.records
  /-- No git builtin begins while another seems to run on its thread. -/
  apart : ∀ before record after,
    execution.events = before ++ .began record :: after ->
      isGitBuiltin record.builtin = true ->
        (observe frame before).spanOf record.tid = none
  /-- No git builtin seems unfinished in the end. -/
  closed : ∀ span ∈ (observe frame execution.events).openSpans,
    isGitBuiltin span.builtin = false
  /-- A syscall within a git span is read as part of it. -/
  inside : ∀ before line after,
    execution.events = before ++ .system line :: after -> IsSyscall line ->
      ∀ span ∈ execution.spans line.tid, span.IsGit -> span.Covers line.tsUs ->
        (observe frame before).spanOf line.tid = some span.began.id
  /-- A syscall before or after a git span is not. -/
  outside : ∀ before line after,
    execution.events = before ++ .system line :: after -> IsSyscall line ->
      ∀ span ∈ execution.spans line.tid, span.IsGit ->
        line.tsUs < span.began.ts ∨ span.ended.ts < line.tsUs ->
          (observe frame before).spanOf line.tid ≠ some span.began.id

/-- No builtin begins in the microsecond in which the one before it on its thread
ended, and no thread is made, by the stamps, after its git builtin began and
before a syscall in it. -/
structure Separated : Prop where
  strict : ∀ tid, (execution.spans tid).IsChain fun span next =>
    span.ended.ts < next.began.ts
  made : ∀ before line after,
    (execution.lines.insertionSort fun first second =>
      first.tsUs ≤ second.tsUs) = before ++ line :: after -> IsSyscall line ->
      ∀ span ∈ execution.spans line.tid, span.IsGit -> span.Covers line.tsUs ->
        ∀ spawn ∈ before, Spawns spawn line.tid -> spawn.tsUs < span.began.ts

/-! ## Identity of spans -/

variable {execution}

theorem mem_records_of_span
    {tid : Nat}
    {span : BuiltinSpan}
    (member : span ∈ execution.spans tid) :
    (.began span.began ∈ execution.records ∧ span.began.tid = tid) ∧
      .finished span.ended ∈ execution.records ∧ span.ended.tid = tid := by
  have own : ∀ record ∈ span.records,
      record ∈ execution.records ∧ record.tid = tid := by
    intro record recordMember
    have inSpans := List.mem_flatMap_of_mem member recordMember
    rw [← execution.records_eq tid, List.mem_filter] at inSpans
    exact ⟨inSpans.1, of_decide_eq_true inSpans.2⟩
  exact ⟨own _ List.mem_cons_self,
    own _ (List.mem_cons_of_mem _ List.mem_cons_self)⟩

/-- A record of the dump belongs to a span of its thread. -/
theorem exists_span_of_mem_records
    {record : BuiltinRecord}
    (member : record ∈ execution.records) :
    ∃ span ∈ execution.spans record.tid, record ∈ span.records := by
  have inFilter : record ∈ execution.records.filter fun other =>
      other.tid = record.tid :=
    List.mem_filter.mpr ⟨member, decide_eq_true rfl⟩
  rw [execution.records_eq record.tid] at inFilter
  exact List.mem_flatMap.mp inFilter

/-- An invocation begins once. -/
theorem began_eq_of_id_eq
    {first second : BuiltinBegin}
    (firstMember : .began first ∈ execution.records)
    (secondMember : .began second ∈ execution.records)
    (same : first.id = second.id) : first = second := by
  apply List.inj_on_of_nodup_map execution.unique _ _ same
  · exact List.mem_filterMap.mpr ⟨_, firstMember, rfl⟩
  · exact List.mem_filterMap.mpr ⟨_, secondMember, rfl⟩

/-- The invocations of a thread are different ones. -/
theorem nodup_ids (tid : Nat) :
    ((execution.spans tid).map fun span => span.began.id).Nodup := by
  have own : (execution.spans tid).map (fun span => span.began.id) =
      ((execution.records.filter fun record => record.tid = tid).filterMap
        BuiltinRecord.beginning).map BuiltinBegin.id := by
    rw [execution.records_eq tid]
    induction execution.spans tid with
    | nil => rfl
    | cons span spans hypothesis => exact congrArg (List.cons _) hypothesis
  rw [own]
  exact execution.unique.sublist
    ((List.filter_sublist.filterMap _).map _)

/-- An invocation is known by its number, also across threads. -/
theorem span_eq_of_id_eq
    {tid other : Nat}
    {first second : BuiltinSpan}
    (firstMember : first ∈ execution.spans tid)
    (secondMember : second ∈ execution.spans other)
    (same : first.began.id = second.began.id) :
    tid = other ∧ first = second := by
  have firstRecords := mem_records_of_span firstMember
  have secondRecords := mem_records_of_span secondMember
  have begins := began_eq_of_id_eq firstRecords.1.1 secondRecords.1.1 same
  have threads : tid = other := by
    rw [← firstRecords.1.2, begins, secondRecords.1.2]
  subst threads
  exact ⟨rfl, List.inj_on_of_nodup_map (nodup_ids tid) firstMember secondMember
    same⟩

/-! ## The records of one thread -/

theorem ownRecords_append (tid : Nat) (events others : List ExecutionEvent) :
    ownRecords tid (events ++ others) =
      ownRecords tid events ++ ownRecords tid others := by
  unfold ownRecords
  rw [List.filterMap_append, List.filter_append]

/-- A record is its thread's own and no other's. -/
theorem ownRecords_event (tid : Nat) (record : BuiltinRecord) :
    ownRecords tid [record.event] = if record.tid = tid then [record] else [] := by
  have recorded : [record.event].filterMap ExecutionEvent.record = [record] := by
    cases record <;> rfl
  unfold ownRecords
  rw [recorded]
  by_cases own : record.tid = tid <;> simp [own]

theorem mem_events_event {record : BuiltinRecord} :
    record.event ∈ execution.events ↔ record ∈ execution.records :=
  ExecutionEvidence.mem_events_event _ _

theorem pairwise_events : execution.events.Pairwise ExecutionEvent.KeyLe :=
  ExecutionEvidence.pairwise_events _ _

/-! ## Where a thread stands -/

section Standing

variable (execution) (frame : Frame) (tid : Nat)

/-- After some events a thread runs no builtin. -/
structure Idle (before : List ExecutionEvent) (done rest : List BuiltinSpan) :
    Prop where
  spans_eq : execution.spans tid = done ++ rest
  own_eq : ownRecords tid before = done.flatMap BuiltinSpan.records
  spanOf_eq : (observe frame before).spanOf tid = none
  unopened : ∀ span ∈ execution.spans tid,
    (observe frame before).openSpan span.began.id = none

/-- After some events a thread runs a builtin: it began, and later events were
not its own. -/
structure Running
    (earlier later : List ExecutionEvent)
    (done : List BuiltinSpan)
    (span : BuiltinSpan)
    (rest : List BuiltinSpan) : Prop where
  spans_eq : execution.spans tid = done ++ span :: rest
  own_earlier : ownRecords tid earlier = done.flatMap BuiltinSpan.records
  own_later : ownRecords tid later = []
  open_eq : (observe frame (earlier ++ .began span.began :: later)).openSpan
    span.began.id = some span.began
  others : ∀ other ∈ execution.spans tid, other.began.id ≠ span.began.id ->
    (observe frame (earlier ++ .began span.began :: later)).openSpan
      other.began.id = none
  spanOf_iff : ∀ id,
    (observe frame (earlier ++ .began span.began :: later)).spanOf tid =
        some id ↔
      id = span.began.id ∧ span.IsGit ∧
        ∀ line, .system line ∈ later -> ¬Spawns line tid

/-- A thread runs a builtin or none. -/
def Standing (before : List ExecutionEvent) : Prop :=
  (∃ done rest, Idle execution frame tid before done rest) ∨
    ∃ earlier later done span rest,
      before = earlier ++ .began span.began :: later ∧
        Running execution frame tid earlier later done span rest

end Standing

variable {frame : Frame} {tid : Nat}

/-- What another thread's record leaves of a lookup. -/
theorem openSpan_of_other
    {before : List ExecutionEvent}
    {record : BuiltinRecord}
    (member : record ∈ execution.records)
    (other : record.tid ≠ tid)
    {span : BuiltinSpan}
    (spanMember : span ∈ execution.spans tid) :
    (observe frame (before ++ [record.event])).openSpan span.began.id =
      (observe frame before).openSpan span.began.id := by
  have apart : record.id ≠ span.began.id := by
    intro same
    obtain ⟨source, sourceMember, isRecord⟩ := exists_span_of_mem_records member
    apply other
    apply (span_eq_of_id_eq sourceMember spanMember _).1
    rw [← same]
    rcases List.mem_cons.mp isRecord with rfl | isRecord
    · rfl
    · rw [List.mem_singleton.mp isRecord]
      exact source.sameId.symm
  rw [observe_concat]
  cases record with
  | began record =>
      change (recordBegin frame _ record).openSpan _ = _
      rw [openSpan_recordBegin, if_neg (by exact apart)]
  | finished record =>
      change (recordEnd frame _ record).openSpan _ = _
      rw [openSpan_recordEnd, if_neg (by exact apart)]

/-- Another thread's record leaves a thread in its span. -/
theorem spanOf_of_other
    {before : List ExecutionEvent}
    (begun : ∀ began, .began began ∈ before -> .began began ∈ execution.records)
    {record : BuiltinRecord}
    (member : record ∈ execution.records)
    (other : record.tid ≠ tid) :
    (observe frame (before ++ [record.event])).spanOf tid =
      (observe frame before).spanOf tid := by
  rw [observe_concat]
  cases record with
  | began record =>
      change (recordBegin frame _ record).spanOf _ = _
      rw [spanOf_recordBegin, if_neg fun both => other both.2]
  | finished record =>
      change (recordEnd frame _ record).spanOf _ = _
      cases found : (observe frame before).openSpan record.id with
      | none => exact spanOf_recordEnd_of_none found frame tid
      | some began =>
          rw [(recordEnd_of_openSpan found frame).2, if_neg]
          intro both
          apply other
          have began_mem := began_mem_of_openSpan found
          obtain ⟨source, sourceMember, isRecord⟩ :=
            exists_span_of_mem_records member
          have ended : record = source.ended := by
            rcases List.mem_cons.mp isRecord with same | isRecord
            · cases same
            · exact BuiltinRecord.finished.inj (List.mem_singleton.mp isRecord)
          have sourceRecords := mem_records_of_span sourceMember
          have same : source.began = began := by
            apply began_eq_of_id_eq sourceRecords.1.1 (begun began began_mem.2)
            rw [began_mem.1, ended]
            exact source.sameId.symm
          rw [← both.2, ← same]
          exact sourceRecords.1.2.symm

/-! ## Steps -/

/-- What a line does to a thread's lookups. -/
theorem openSpan_of_line
    {before : List ExecutionEvent}
    {line : TraceLine}
    (id : Nat) :
    (observe frame (before ++ [.system line])).openSpan id =
      (observe frame before).openSpan id := by
  rw [observe_concat]
  exact congrArg (List.find? _) (openSpans_recordLine frame _ line)

theorem Idle.of_line
    {before : List ExecutionEvent}
    {done rest : List BuiltinSpan}
    (idle : Idle execution frame tid before done rest)
    (line : TraceLine) :
    Idle execution frame tid (before ++ [.system line]) done rest where
  spans_eq := idle.spans_eq
  own_eq := by
    rw [ownRecords_append, idle.own_eq]
    exact List.append_nil _
  spanOf_eq := by
    rw [observe_concat]
    rcases spanOf_recordLine frame (observe frame before) line tid with kept | made
    · exact kept.1.trans idle.spanOf_eq
    · exact made.1
  unopened span member := by
    rw [openSpan_of_line]
    exact idle.unopened span member

theorem Running.of_line
    {earlier later : List ExecutionEvent}
    {done rest : List BuiltinSpan}
    {span : BuiltinSpan}
    (running : Running execution frame tid earlier later done span rest)
    (line : TraceLine) :
    Running execution frame tid earlier (later ++ [.system line]) done span
      rest := by
  have shape : earlier ++ .began span.began :: (later ++ [.system line]) =
      (earlier ++ .began span.began :: later) ++ [.system line] := by simp
  constructor
  · exact running.spans_eq
  · exact running.own_earlier
  · rw [ownRecords_append, running.own_later]
    rfl
  · rw [shape, openSpan_of_line]
    exact running.open_eq
  · intro other member apart
    rw [shape, openSpan_of_line]
    exact running.others other member apart
  · intro id
    rw [shape, observe_concat]
    rcases spanOf_recordLine frame
      (observe frame (earlier ++ .began span.began :: later)) line tid with
      ⟨kept, unmade⟩ | ⟨cleared, made⟩
    · refine (iff_of_eq (congrArg (· = some id) kept)).trans
        ((running.spanOf_iff id).trans ?_)
      refine and_congr_right fun _ => and_congr_right fun _ => ?_
      constructor
      · intro unspawned other member
        rcases List.mem_append.mp member with member | member
        · exact unspawned other member
        · cases List.mem_singleton.mp member
          exact unmade
      · intro unspawned other member
        exact unspawned other (List.mem_append_left _ member)
    · constructor
      · intro standing
        exact absurd (cleared.symm.trans standing) (Option.some_ne_none id).symm
      · rintro ⟨-, -, unspawned⟩
        exact absurd made (unspawned line
          (List.mem_append_right _ List.mem_cons_self))

theorem Idle.of_other
    {before : List ExecutionEvent}
    {done rest : List BuiltinSpan}
    (idle : Idle execution frame tid before done rest)
    (begun : ∀ began, .began began ∈ before -> .began began ∈ execution.records)
    {record : BuiltinRecord}
    (member : record ∈ execution.records)
    (other : record.tid ≠ tid) :
    Idle execution frame tid (before ++ [record.event]) done rest where
  spans_eq := idle.spans_eq
  own_eq := by
    rw [ownRecords_append, ownRecords_event, if_neg other, idle.own_eq,
      List.append_nil]
  spanOf_eq := by
    rw [spanOf_of_other begun member other]
    exact idle.spanOf_eq
  unopened span spanMember := by
    rw [openSpan_of_other member other spanMember]
    exact idle.unopened span spanMember

theorem Running.of_other
    {earlier later : List ExecutionEvent}
    {done rest : List BuiltinSpan}
    {span : BuiltinSpan}
    (running : Running execution frame tid earlier later done span rest)
    (begun : ∀ began, .began began ∈ earlier ++ .began span.began :: later ->
      .began began ∈ execution.records)
    {record : BuiltinRecord}
    (member : record ∈ execution.records)
    (other : record.tid ≠ tid) :
    Running execution frame tid earlier (later ++ [record.event]) done span
      rest := by
  have shape : earlier ++ .began span.began :: (later ++ [record.event]) =
      (earlier ++ .began span.began :: later) ++ [record.event] := by simp
  have own : span ∈ execution.spans tid := by
    rw [running.spans_eq]
    exact List.mem_append_right _ List.mem_cons_self
  constructor
  · exact running.spans_eq
  · exact running.own_earlier
  · rw [ownRecords_append, ownRecords_event, if_neg other, running.own_later]
    rfl
  · rw [shape, openSpan_of_other member other own]
    exact running.open_eq
  · intro next nextMember apart
    rw [shape, openSpan_of_other member other nextMember]
    exact running.others next nextMember apart
  · intro id
    rw [shape, spanOf_of_other begun member other, running.spanOf_iff id]
    refine and_congr_right fun _ => and_congr_right fun _ => ?_
    have lines : ∀ line, ExecutionEvent.system line ∈ later ++ [record.event] ↔
        .system line ∈ later := by
      intro line
      rw [List.mem_append, List.mem_singleton, or_iff_left]
      cases record <;> exact ExecutionEvent.noConfusion
    exact forall_congr' fun line => imp_congr_left (lines line).symm

/-- An idle thread's next record begins its next builtin. -/
theorem Idle.of_began
    {before : List ExecutionEvent}
    {done rest : List BuiltinSpan}
    {span : BuiltinSpan}
    (idle : Idle execution frame tid before done (span :: rest)) :
    Running execution frame tid before [] done span rest := by
  have own : span ∈ execution.spans tid := by
    rw [idle.spans_eq]
    exact List.mem_append_right _ List.mem_cons_self
  have begins := observe_concat frame before (.began span.began)
  constructor
  · exact idle.spans_eq
  · exact idle.own_eq
  · rfl
  · rw [begins]
    exact (openSpan_recordBegin frame _ _ _).trans (if_pos rfl)
  · intro other member apart
    rw [begins]
    exact (openSpan_recordBegin frame _ _ _).trans
      ((if_neg apart.symm).trans (idle.unopened other member))
  · intro id
    rw [begins]
    change (recordBegin frame _ span.began).spanOf tid = some id ↔ _
    rw [spanOf_recordBegin, idle.spanOf_eq, (mem_records_of_span own).1.2]
    unfold BuiltinSpan.IsGit
    split_ifs with git
    · simp [git.1, eq_comm]
    · have notGit : ¬isGitBuiltin span.began.builtin = true := by
        simpa using git
      simp [notGit]

/-- The records of a running thread: its builtin began last. -/
theorem Running.ownRecords_eq
    {earlier later : List ExecutionEvent}
    {done rest : List BuiltinSpan}
    {span : BuiltinSpan}
    (running : Running execution frame tid earlier later done span rest) :
    ownRecords tid (earlier ++ .began span.began :: later) =
      done.flatMap BuiltinSpan.records ++ [.began span.began] := by
  have own : span ∈ execution.spans tid := by
    rw [running.spans_eq]
    exact List.mem_append_right _ List.mem_cons_self
  have began := ownRecords_event tid (.began span.began)
  rw [if_pos (by exact (mem_records_of_span own).1.2)] at began
  have shape : earlier ++ .began span.began :: later =
      earlier ++ ([.began span.began] ++ later) := rfl
  rw [shape, ownRecords_append, ownRecords_append, running.own_earlier,
    running.own_later, List.append_nil]
  exact congrArg _ began

/-- A running thread's next record ends its builtin. -/
theorem Running.of_finished
    {earlier later : List ExecutionEvent}
    {done rest : List BuiltinSpan}
    {span : BuiltinSpan}
    (running : Running execution frame tid earlier later done span rest) :
    Idle execution frame tid
      ((earlier ++ .began span.began :: later) ++ [.finished span.ended])
      (done ++ [span]) rest := by
  have own : span ∈ execution.spans tid := by
    rw [running.spans_eq]
    exact List.mem_append_right _ List.mem_cons_self
  have records := mem_records_of_span own
  have ends := observe_concat frame (earlier ++ .began span.began :: later)
    (.finished span.ended)
  have unfinished : (observe frame
      (earlier ++ .began span.began :: later)).openSpan span.ended.id =
        some span.began := by
    rw [span.sameId]
    exact running.open_eq
  constructor
  · rw [running.spans_eq]
    simp
  · have ended := ownRecords_event tid (.finished span.ended)
    rw [if_pos (by exact records.2.2)] at ended
    rw [ownRecords_append, running.ownRecords_eq, List.flatMap_append]
    change _ ++ ownRecords tid [BuiltinRecord.event (.finished _)] = _
    rw [ended]
    simp [BuiltinSpan.records]
  · rw [ends]
    change (recordEnd frame _ span.ended).spanOf tid = none
    rw [(recordEnd_of_openSpan unfinished frame).2, records.1.2]
    split_ifs with git
    · rfl
    · apply Option.eq_none_iff_forall_ne_some.mpr
      intro id standing
      exact git ⟨((running.spanOf_iff id).mp standing).2.1, rfl⟩
  · intro other member
    rw [ends]
    change (recordEnd frame _ span.ended).openSpan _ = none
    rw [openSpan_recordEnd, span.sameId]
    split_ifs with same
    · rfl
    · exact running.others other member fun equal => same equal.symm

/-! ## Runs -/

theorem began_mem_records
    {before after : List ExecutionEvent}
    (events_eq : execution.events = before ++ after)
    (began : BuiltinBegin)
    (member : .began began ∈ before) : .began began ∈ execution.records := by
  apply mem_events_event.mp
  rw [events_eq]
  exact List.mem_append_left _ member

/-- Where the edges of a thread keep their order, it always runs one of its
builtins or none. -/
theorem standing_of_events
    (inOrder : ownRecords tid execution.events =
      (execution.spans tid).flatMap BuiltinSpan.records)
    {before after : List ExecutionEvent}
    (events_eq : execution.events = before ++ after) :
    Standing execution frame tid before := by
  induction before using List.reverseRecOn generalizing after with
  | nil =>
      exact .inl ⟨[], execution.spans tid, rfl, rfl, rfl, fun _ _ => rfl⟩
  | append_singleton before event hypothesis =>
      have split : execution.events = before ++ event :: after := by
        rw [events_eq, List.append_assoc]
        rfl
      have standing := hypothesis split
      have begun := began_mem_records split
      have own_eq : ownRecords tid before ++
          (ownRecords tid [event] ++ ownRecords tid after) =
            (execution.spans tid).flatMap BuiltinSpan.records := by
        rw [← inOrder, split, ← ownRecords_append, ← ownRecords_append]
        rfl
      have ofRecord : ∀ record : BuiltinRecord, event = record.event ->
          Standing execution frame tid (before ++ [event]) := by
        rintro record rfl
        have member : record ∈ execution.records := by
          apply mem_events_event.mp
          rw [split]
          exact List.mem_append_right _ List.mem_cons_self
        by_cases other : record.tid = tid
        · rw [ownRecords_event, if_pos other] at own_eq
          rcases standing with ⟨done, rest, idle⟩ |
            ⟨earlier, later, done, span, rest, rfl, running⟩
          · rw [idle.own_eq, idle.spans_eq, List.flatMap_append,
              List.append_cancel_left_eq] at own_eq
            cases rest with
            | nil => cases own_eq
            | cons span rest =>
                obtain ⟨rfl, -⟩ := List.cons.inj own_eq
                exact .inr ⟨before, [], done, span, rest, rfl, idle.of_began⟩
          · rw [running.ownRecords_eq, running.spans_eq, List.flatMap_append,
              List.append_assoc, List.append_cancel_left_eq] at own_eq
            obtain ⟨rfl, -⟩ := List.cons.inj (List.cons.inj own_eq).2
            exact .inl ⟨done ++ [span], rest, running.of_finished⟩
        · rcases standing with ⟨done, rest, idle⟩ |
            ⟨earlier, later, done, span, rest, rfl, running⟩
          · exact .inl ⟨done, rest, idle.of_other begun member other⟩
          · refine .inr ⟨earlier, later ++ [record.event], done, span, rest, ?_,
              running.of_other begun member other⟩
            simp
      cases event with
      | system line =>
          rcases standing with ⟨done, rest, idle⟩ |
            ⟨earlier, later, done, span, rest, rfl, running⟩
          · exact .inl ⟨done, rest, idle.of_line line⟩
          · refine .inr ⟨earlier, later ++ [.system line], done, span, rest, ?_,
              running.of_line line⟩
            simp
      | began record => exact ofRecord (.began record) rfl
      | finished record => exact ofRecord (.finished record) rfl

/-! ## Stamps -/

theorem mem_ownRecords
    {record : BuiltinRecord}
    {events : List ExecutionEvent} :
    record ∈ ownRecords tid events ↔
      record.event ∈ events ∧ record.tid = tid := by
  unfold ownRecords
  rw [List.mem_filter, List.mem_filterMap, decide_eq_true_iff]
  refine and_congr_left fun _ => ?_
  constructor
  · rintro ⟨event, member, same⟩
    cases event <;> cases same <;> exact member
  · intro member
    refine ⟨_, member, ?_⟩
    cases record <;> rfl

/-- The edges of a thread, in the merged sequence. -/
theorem ownRecords_events (tid : Nat) :
    ownRecords tid execution.events =
      ((execution.spans tid).flatMap BuiltinSpan.records).insertionSort
        BuiltinRecord.KeyLe := by
  have recorded := ExecutionEvidence.filterMap_record_events execution.lines
    execution.records
  unfold ownRecords events
  rw [recorded, ← execution.records_eq tid, filter_insertionSort]

/-- The edges of a thread are in order exactly when its builtins are strictly
apart. -/
theorem isChain_records_iff (spans : List BuiltinSpan) :
    (spans.flatMap BuiltinSpan.records).IsChain BuiltinRecord.KeyLe ↔
      spans.IsChain fun span next => span.ended.ts < next.began.ts := by
  have within : ∀ span : BuiltinSpan, BuiltinRecord.KeyLe
      (.began span.began) (.finished span.ended) := by
    intro span
    have := span.inOrder
    change _ < _ ∨ _ = _ ∧ 0 ≤ 2
    dsimp only [BuiltinRecord.event, ExecutionEvent.key]
    omega
  have between : ∀ span next : BuiltinSpan, BuiltinRecord.KeyLe
      (.finished span.ended) (.began next.began) ↔
        span.ended.ts < next.began.ts := by
    intro span next
    change _ < _ ∨ _ = _ ∧ 2 ≤ 0 ↔ _
    dsimp only [BuiltinRecord.event, ExecutionEvent.key]
    omega
  induction spans with
  | nil => simp
  | cons span spans hypothesis =>
      cases spans with
      | nil => simpa [BuiltinSpan.records] using within span
      | cons next spans =>
          change List.IsChain BuiltinRecord.KeyLe (.began span.began ::
            .finished span.ended :: .began next.began :: _) ↔ _
          rw [List.isChain_cons_cons, List.isChain_cons_cons]
          refine (and_iff_right (within span)).trans
            ((and_congr (between span next) hypothesis).trans ?_)
          rw [List.isChain_cons_cons]

/-- The edges of a thread keep their order exactly when its builtins are strictly
apart. -/
theorem inOrder_iff (tid : Nat) :
    ownRecords tid execution.events =
        (execution.spans tid).flatMap BuiltinSpan.records ↔
      (execution.spans tid).IsChain fun span next =>
        span.ended.ts < next.began.ts := by
  rw [ownRecords_events, ← isChain_records_iff, List.isChain_iff_pairwise]
  constructor
  · intro same
    rw [← same]
    exact List.pairwise_insertionSort _ _
  · exact List.Pairwise.insertionSort_eq

/-- What stands before and after an element has a smaller and a greater key. -/
theorem keyLe_of_split
    {before after : List ExecutionEvent}
    {event : ExecutionEvent}
    (split : execution.events = before ++ event :: after) :
    (∀ other ∈ before, other.KeyLe event) ∧
      ∀ other ∈ after, event.KeyLe other := by
  have sorted := execution.pairwise_events
  rw [split, List.pairwise_append, List.pairwise_cons] at sorted
  exact ⟨fun other member => sorted.2.2 other member event List.mem_cons_self,
    sorted.2.1.1⟩

/-- An edge stands before a syscall when its key is the smaller one. -/
theorem mem_ownRecords_iff_keyLe
    {before after : List ExecutionEvent}
    {line : TraceLine}
    (split : execution.events = before ++ .system line :: after)
    {record : BuiltinRecord}
    (member : record ∈ execution.records)
    (own : record.tid = tid) :
    record ∈ ownRecords tid before ↔ record.event.KeyLe (.system line) := by
  rw [mem_ownRecords, and_iff_left own]
  have keys := keyLe_of_split split
  constructor
  · exact keys.1 _
  · intro smaller
    have inEvents := mem_events_event.mpr member
    rw [split, List.mem_append, List.mem_cons] at inEvents
    rcases inEvents with earlier | same | later
    · exact earlier
    · cases record <;> cases same
    · have greater := keys.2 _ later
      exfalso
      cases record <;>
        simp only [BuiltinRecord.event, ExecutionEvent.KeyLe,
          ExecutionEvent.key] at smaller greater <;>
        omega

/-- By the stamps, a syscall within a span stands between its edges. -/
theorem edges_of_covers
    {before after : List ExecutionEvent}
    {line : TraceLine}
    (split : execution.events = before ++ .system line :: after)
    {span : BuiltinSpan}
    (member : span ∈ execution.spans tid) :
    (span.began.ts ≤ line.tsUs ↔
        .began span.began ∈ ownRecords tid before) ∧
      (span.ended.ts < line.tsUs ↔
        .finished span.ended ∈ ownRecords tid before) := by
  have records := mem_records_of_span member
  constructor
  · rw [mem_ownRecords_iff_keyLe split records.1.1 (by exact records.1.2)]
    simp only [BuiltinRecord.event, ExecutionEvent.KeyLe, ExecutionEvent.key]
    omega
  · rw [mem_ownRecords_iff_keyLe split records.2.1 (by exact records.2.2)]
    simp only [BuiltinRecord.event, ExecutionEvent.KeyLe, ExecutionEvent.key]
    omega

/-- Among the edges of spans of a thread, a span's beginning stands with its
end. -/
theorem mem_of_mem_flatMap
    {done rest : List BuiltinSpan}
    (spans_eq : execution.spans tid = done ++ rest)
    {span : BuiltinSpan}
    (member : span ∈ execution.spans tid)
    (edge : .began span.began ∈ done.flatMap BuiltinSpan.records ∨
      .finished span.ended ∈ done.flatMap BuiltinSpan.records) :
    span ∈ done := by
  have found : ∀ other ∈ done, other.began.id = span.began.id ->
      span ∈ done := by
    intro other otherMember same
    have inSpans : other ∈ execution.spans tid := by
      rw [spans_eq]
      exact List.mem_append_left _ otherMember
    rw [← (span_eq_of_id_eq inSpans member same).2]
    exact otherMember
  rcases edge with edge | edge
  · obtain ⟨other, otherMember, isRecord⟩ := List.mem_flatMap.mp edge
    apply found other otherMember
    rcases List.mem_cons.mp isRecord with same | same
    · rw [BuiltinRecord.began.inj same]
    · cases List.mem_singleton.mp same
  · obtain ⟨other, otherMember, isRecord⟩ := List.mem_flatMap.mp edge
    apply found other otherMember
    rcases List.mem_cons.mp isRecord with same | same
    · cases same
    · rw [← other.sameId, ← span.sameId,
        BuiltinRecord.finished.inj (List.mem_singleton.mp same)]

/-- Within a span, a thread runs that span. -/
theorem exists_running_of_covers
    {before after : List ExecutionEvent}
    {line : TraceLine}
    (split : execution.events = before ++ .system line :: after)
    (standing : Standing execution frame tid before)
    {span : BuiltinSpan}
    (member : span ∈ execution.spans tid)
    (covers : span.Covers line.tsUs) :
    ∃ earlier later done rest,
      before = earlier ++ .began span.began :: later ∧
        Running execution frame tid earlier later done span rest := by
  obtain ⟨begins, ends⟩ := edges_of_covers split member
  have begun := begins.mp covers.1
  have unended := mt ends.mpr (not_lt.mpr covers.2)
  have notDone : ∀ done rest, execution.spans tid = done ++ rest ->
      (∀ record ∈ done.flatMap BuiltinSpan.records,
        record ∈ ownRecords tid before) ->
      .began span.began ∉ done.flatMap BuiltinSpan.records := by
    intro done rest spans_eq own inDone
    apply unended
    apply own
    exact List.mem_flatMap_of_mem
      (mem_of_mem_flatMap spans_eq member (.inl inDone))
      (List.mem_cons_of_mem _ List.mem_cons_self)
  rcases standing with ⟨done, rest, idle⟩ |
    ⟨earlier, later, done, other, rest, rfl, running⟩
  · rw [idle.own_eq] at begun
    exact absurd begun (notDone done rest idle.spans_eq fun record inDone => by
      rw [idle.own_eq]
      exact inDone)
  · rw [running.ownRecords_eq] at begun
    rcases List.mem_append.mp begun with inDone | same
    · exact absurd inDone (notDone done (other :: rest) running.spans_eq
        fun record inDone => by
          rw [running.ownRecords_eq]
          exact List.mem_append_left _ inDone)
    · have otherMember : other ∈ execution.spans tid := by
        rw [running.spans_eq]
        exact List.mem_append_right _ List.mem_cons_self
      have began := BuiltinRecord.began.inj (List.mem_singleton.mp same)
      obtain ⟨-, rfl⟩ := span_eq_of_id_eq member otherMember
        (congrArg BuiltinBegin.id began)
      exact ⟨earlier, later, done, rest, rfl, running⟩

/-! ## Exactly when spans are tracked -/

/-- Lines sorted by their stamps stand like that in the merged sequence. -/
theorem exists_split_of_lines
    {before after : List TraceLine}
    {line : TraceLine}
    (sorted : (execution.lines.insertionSort fun first second =>
      first.tsUs ≤ second.tsUs) = before ++ line :: after) :
    ∃ earlier later, execution.events = earlier ++ .system line :: later ∧
      earlier.filterMap ExecutionEvent.line = before := by
  have merged := ExecutionEvidence.filterMap_line_events execution.lines
    execution.records
  rw [sorted] at merged
  obtain ⟨first, second, events_eq, first_eq, second_eq⟩ :=
    List.filterMap_eq_append_iff.mp merged
  obtain ⟨middle, event, later, rfl, none, isLine, -⟩ :=
    List.filterMap_eq_cons_iff.mp second_eq
  cases event with
  | system found =>
      cases isLine
      refine ⟨first ++ middle, later, ?_, ?_⟩
      · exact events_eq.trans (List.append_assoc first middle _).symm
      · rw [List.filterMap_append, first_eq,
          List.filterMap_eq_nil_iff.mpr none, List.append_nil]
  | began record => cases isLine
  | finished record => cases isLine

theorem sorted_of_split
    {before after : List ExecutionEvent}
    {line : TraceLine}
    (split : execution.events = before ++ .system line :: after) :
    (execution.lines.insertionSort fun first second =>
      first.tsUs ≤ second.tsUs) =
        before.filterMap ExecutionEvent.line ++
          line :: after.filterMap ExecutionEvent.line := by
  have merged := ExecutionEvidence.filterMap_line_events execution.lines
    execution.records
  rw [← merged]
  change execution.events.filterMap ExecutionEvent.line = _
  rw [split, List.filterMap_append]
  rfl

/-- Separated spans are tracked: a syscall within a git span is read as part of
it. -/
theorem Separated.inside
    (separated : execution.Separated)
    {before after : List ExecutionEvent}
    {line : TraceLine}
    (split : execution.events = before ++ .system line :: after)
    (isSyscall : IsSyscall line)
    {span : BuiltinSpan}
    (member : span ∈ execution.spans line.tid)
    (git : span.IsGit)
    (covers : span.Covers line.tsUs) :
    (observe frame before).spanOf line.tid = some span.began.id := by
  have standing : Standing execution frame line.tid before :=
    standing_of_events ((inOrder_iff line.tid).mpr (separated.strict line.tid))
      split
  obtain ⟨earlier, later, done, rest, rfl, running⟩ :=
    exists_running_of_covers split standing member covers
  apply (running.spanOf_iff span.began.id).mpr
  refine ⟨rfl, git, fun spawn spawnMember spawns => ?_⟩
  have inBefore : spawn ∈ (earlier ++ .began span.began :: later).filterMap
      ExecutionEvent.line := by
    apply List.mem_filterMap.mpr
    exact ⟨.system spawn, List.mem_append_right _
      (List.mem_cons_of_mem _ spawnMember), rfl⟩
  have early := separated.made _ _ _ (sorted_of_split split) isSyscall span member
    git covers spawn inBefore spawns
  have began : execution.events =
      earlier ++ .began span.began :: (later ++ .system line :: after) := by
    rw [split]
    simp
  have late := (keyLe_of_split began).2 (.system spawn)
    (List.mem_append_left _ spawnMember)
  simp only [ExecutionEvent.KeyLe, ExecutionEvent.key] at late
  omega

/-- A syscall that is read as part of a span stands between its edges. -/
theorem covers_of_spanOf
    {before after : List ExecutionEvent}
    {line : TraceLine}
    (split : execution.events = before ++ .system line :: after)
    (standing : Standing execution frame tid before)
    {span : BuiltinSpan}
    (member : span ∈ execution.spans tid)
    (tracked : (observe frame before).spanOf tid = some span.began.id) :
    span.Covers line.tsUs := by
  obtain ⟨begins, ends⟩ := edges_of_covers split member
  rcases standing with ⟨done, rest, idle⟩ |
    ⟨earlier, later, done, other, rest, rfl, running⟩
  · rw [idle.spanOf_eq] at tracked
    cases tracked
  · have otherMember : other ∈ execution.spans tid := by
      rw [running.spans_eq]
      exact List.mem_append_right _ List.mem_cons_self
    obtain ⟨-, rfl⟩ := span_eq_of_id_eq member otherMember
      ((running.spanOf_iff _).mp tracked).1
    rw [running.ownRecords_eq] at begins ends
    constructor
    · exact begins.mpr (List.mem_append_right _ List.mem_cons_self)
    · apply not_lt.mp
      intro late
      rcases List.mem_append.mp (ends.mp late) with inDone | same
      · have twice := mem_of_mem_flatMap running.spans_eq member (.inr inDone)
        have distinct := @nodup_ids execution tid
        rw [running.spans_eq, List.map_append, List.map_cons,
          List.nodup_append] at distinct
        exact distinct.2.2 _ (List.mem_map_of_mem twice) _ List.mem_cons_self rfl
      · cases List.mem_singleton.mp same

/-- A builtin begins while its thread runs none. -/
theorem spanOf_of_beginning
    {before after : List ExecutionEvent}
    {record : BuiltinBegin}
    (inOrder : ownRecords record.tid execution.events =
      (execution.spans record.tid).flatMap BuiltinSpan.records)
    (split : execution.events = before ++ .began record :: after) :
    (observe frame before).spanOf record.tid = none := by
  have standing : Standing execution frame record.tid before :=
    standing_of_events inOrder split
  rcases standing with ⟨done, rest, idle⟩ |
    ⟨earlier, later, done, span, rest, rfl, running⟩
  · exact idle.spanOf_eq
  · have shape : execution.events = (earlier ++ .began span.began :: later) ++
        ([BuiltinRecord.event (.began record)] ++ after) := split
    rw [shape, ownRecords_append _ (earlier ++ .began span.began :: later),
      ownRecords_append _ [_], ownRecords_event, if_pos (by rfl),
      running.ownRecords_eq, running.spans_eq, List.flatMap_append,
      List.append_assoc, List.append_cancel_left_eq] at inOrder
    cases (List.cons.inj (List.cons.inj inOrder).2).1

/-- In the end no builtin is open. -/
theorem openSpans_events
    (inOrder : ∀ tid, ownRecords tid execution.events =
      (execution.spans tid).flatMap BuiltinSpan.records) :
    (observe frame execution.events).openSpans = [] := by
  apply List.eq_nil_iff_forall_not_mem.mpr
  intro began member
  have found : ((observe frame execution.events).openSpan began.id).isSome :=
    List.find?_isSome.mpr ⟨began, member, decide_eq_true rfl⟩
  obtain ⟨first, isOpen⟩ := Option.isSome_iff_exists.mp found
  have begun := began_mem_of_openSpan isOpen
  have recorded : .began first ∈ execution.records :=
    mem_events_event.mp begun.2
  obtain ⟨span, spanMember, isRecord⟩ := exists_span_of_mem_records recorded
  have same : first = span.began := by
    rcases List.mem_cons.mp isRecord with same | same
    · exact BuiltinRecord.began.inj same
    · cases List.mem_singleton.mp same
  have standing : Standing execution frame first.tid execution.events :=
    standing_of_events (inOrder first.tid) (List.append_nil _).symm
  rcases standing with ⟨done, rest, idle⟩ |
    ⟨earlier, later, done, other, rest, events_eq, running⟩
  · have closed := idle.unopened span spanMember
    rw [← same, begun.1, isOpen] at closed
    cases closed
  · have whole := inOrder first.tid
    rw [events_eq, running.ownRecords_eq, running.spans_eq,
      List.flatMap_append, List.append_cancel_left_eq] at whole
    cases (List.cons.inj whole).2

/-- Builtins do not look overlapping exactly when they are separated. -/
theorem tracksSpans_iff (execution : SequentialExecution) (frame : Frame) :
    execution.TracksSpans frame ↔ execution.Separated := by
  constructor
  · intro tracks
    have strict : ∀ tid, _ := fun tid => (inOrder_iff tid).mp (tracks.inOrder tid)
    refine ⟨strict, ?_⟩
    intro before line after sorted isSyscall span member git covers spawn
      spawnMember spawns
    obtain ⟨earlier, later, split, rfl⟩ := exists_split_of_lines sorted
    have tracked := tracks.inside _ _ _ split isSyscall span member git covers
    have standing : Standing execution frame line.tid earlier :=
      standing_of_events (tracks.inOrder line.tid) split
    obtain ⟨first, second, done, rest, rfl, running⟩ :=
      exists_running_of_covers split standing member covers
    have unmade := ((running.spanOf_iff _).mp tracked).2.2
    obtain ⟨event, eventMember, isLine⟩ := List.mem_filterMap.mp spawnMember
    cases event with
    | began record => cases isLine
    | finished record => cases isLine
    | system found =>
        cases isLine
        have began : execution.events =
            first ++ .began span.began :: (second ++ .system line :: later) := by
          rw [split]
          simp
        rcases List.mem_append.mp eventMember with inFirst | inSecond
        · have early := (keyLe_of_split began).1 _ inFirst
          simp only [ExecutionEvent.KeyLe, ExecutionEvent.key] at early
          omega
        · rcases List.mem_cons.mp inSecond with same | inSecond
          · cases same
          · exact absurd spawns (unmade spawn inSecond)
  · intro separated
    have inOrder : ∀ tid, ownRecords tid execution.events =
        (execution.spans tid).flatMap BuiltinSpan.records := fun tid =>
      (inOrder_iff tid).mpr (separated.strict tid)
    constructor
    · exact inOrder
    · intro before record after split git
      exact spanOf_of_beginning (inOrder record.tid) split
    · intro span member
      rw [openSpans_events inOrder] at member
      cases member
    · intro before line after split isSyscall span member git covers
      exact separated.inside split isSyscall member git covers
    · intro before line after split isSyscall span member git out tracked
      have covers := covers_of_spanOf split
        (standing_of_events (inOrder line.tid) split) member tracked
      have : span.began.ts ≤ line.tsUs ∧ line.tsUs ≤ span.ended.ts := covers
      omega

/-! ## Builtins back to back -/

/-- `git add` of a file, on one thread and between two stamps. -/
def addSpan (id began ended : Nat) (stamped : began ≤ ended) : BuiltinSpan where
  began :=
    { id := id
      ts := began
      tid := 1
      builtin := "git add".toList
      argv := ["git".toList, "add".toList, "a".toList]
      cwd := [] }
  ended := ⟨id, ended, 1, 0⟩
  sameId := rfl
  sameThread := rfl
  inOrder := stamped

/-- Two builtins, the second of which begins in the microsecond in which the
first ended. -/
def backToBack : SequentialExecution where
  lines := []
  records := [addSpan 0 5 9 (by decide), addSpan 1 9 12 (by decide)].flatMap
    BuiltinSpan.records
  spans tid :=
    if tid = 1 then [addSpan 0 5 9 (by decide), addSpan 1 9 12 (by decide)]
    else []
  records_eq tid := by
    by_cases own : tid = 1
    · rw [own]
      rfl
    · rw [if_neg own]
      apply List.filter_eq_nil_iff.mpr
      intro record member
      have one : record.tid = 1 := by
        revert record
        decide
      rw [one, decide_eq_true_iff]
      exact fun same => own same.symm
  nondecreasing tid := by
    split_ifs
    · simp [addSpan]
    · exact .nil
  unique := by decide

/-- Two builtins back to back look overlapping, and the command is refused. -/
theorem not_tracksSpans_backToBack :
    ¬backToBack.TracksSpans ⟨⟨"shell"⟩, [], []⟩ ∧
      (observe ⟨⟨"shell"⟩, [], []⟩ backToBack.events).unsupported =
        some .overlappingSpans := by
  constructor
  · intro tracks
    have ordered := tracks.inOrder 1
    revert ordered
    decide
  · decide

end SequentialExecution
end Shellmux
end Marsh
