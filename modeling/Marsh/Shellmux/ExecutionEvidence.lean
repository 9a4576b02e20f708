import Marsh.Exec.Strace
import Marsh.Library.StableSort
import Marsh.Shellmux.Translate

/-!
# The record of an execution

The decoded trace and the records of the builtins, merged into one sequence by
their stamps.
-/

namespace Marsh
namespace Shellmux

open Library
open Exec

/-! ## Builtin records -/

/-- A builtin lifecycle record. -/
inductive BuiltinRecord
  | began (record : BuiltinBegin)
  | finished (record : BuiltinEnd)
  deriving DecidableEq, Repr

namespace BuiltinRecord

/-- The thread that executed the builtin. -/
def tid : BuiltinRecord -> Nat
  | .began record => record.tid
  | .finished record => record.tid

/-- The invocation. -/
def id : BuiltinRecord -> Nat
  | .began record => record.id
  | .finished record => record.id

/-- The record as an element of the execution record. -/
def event : BuiltinRecord -> ExecutionEvent
  | .began record => .began record
  | .finished record => .finished record

end BuiltinRecord

/-! ## Order -/

namespace ExecutionEvent

/-- `key`: the stamp, then the rank of an edge. -/
def key : ExecutionEvent -> Nat × Nat
  | .system line => (line.tsUs, 1)
  | .began record => (record.ts, 0)
  | .finished record => (record.ts, 2)

/-- The order of the keys. -/
def KeyLe (first second : ExecutionEvent) : Prop :=
  first.key.1 < second.key.1 ∨
    first.key.1 = second.key.1 ∧ first.key.2 ≤ second.key.2

instance : DecidableRel KeyLe :=
  fun _ _ => inferInstanceAs (Decidable (_ ∨ _ ∧ _))

instance : IsTrans ExecutionEvent KeyLe where
  trans first second third before after := by
    unfold KeyLe at before after ⊢
    omega

instance : Std.Total KeyLe where
  total first second := by
    unfold KeyLe
    omega

/-- The line of the trace, if it is one. -/
def line : ExecutionEvent -> Option TraceLine
  | .system line => some line
  | .began _ | .finished _ => none

/-- The builtin record, if it is one. -/
def record : ExecutionEvent -> Option BuiltinRecord
  | .system _ => none
  | .began record => some (.began record)
  | .finished record => some (.finished record)

end ExecutionEvent

namespace BuiltinRecord

/-- The order of the keys of two records. -/
def KeyLe (first second : BuiltinRecord) : Prop :=
  first.event.KeyLe second.event

instance : DecidableRel KeyLe :=
  fun first second => inferInstanceAs (Decidable (first.event.KeyLe second.event))

instance : IsTrans BuiltinRecord KeyLe where
  trans _ _ _ before after :=
    @IsTrans.trans _ ExecutionEvent.KeyLe _ _ _ _ before after

instance : Std.Total KeyLe where
  total first second :=
    @Std.Total.total _ ExecutionEvent.KeyLe _ first.event second.event

end BuiltinRecord

/-! ## Merging -/

/-- Everything one execution was observed to do, in one order. -/
@[ext]
structure ExecutionEvidence where
  events : List ExecutionEvent
  /-- Exit status of the traced root process, when the trace recorded it. -/
  rootExit : Option Int
  deriving DecidableEq, Repr

namespace ExecutionEvidence

/-- The status a line reports for a thread, or the one reported before. -/
def exitOf (root : Option Nat) (reported : Option Int) (line : TraceLine) :
    Option Int :=
  match line.call with
  | .exited status => if some line.tid = root then some status else reported
  | .syscall _ _ _ _ => reported

/-- The decoded streams, interleaved.  The root thread is the one of the first
line. -/
def merge (lines : List TraceLine) (records : List BuiltinRecord) :
    ExecutionEvidence where
  events := (lines.map ExecutionEvent.system ++
    records.map BuiltinRecord.event).insertionSort ExecutionEvent.KeyLe
  rootExit := lines.foldl (exitOf (lines.head?.map TraceLine.tid)) none

/-- `ExecutionEvidence::parse`.  How a dump of records is read is left to
`parseRecords`. -/
def parse
    (parseRecords : Text -> Except Text (List BuiltinRecord))
    (traceText builtinText : Text) : Except Text ExecutionEvidence := do
  let lines ← parseTrace traceText
  let records ← parseRecords builtinText
  return merge lines records

/-! ## What is merged -/

variable (lines : List TraceLine) (records : List BuiltinRecord)

/-- Nothing is lost and nothing added. -/
theorem perm_events :
    (merge lines records).events.Perm
      (lines.map ExecutionEvent.system ++ records.map BuiltinRecord.event) :=
  List.perm_insertionSort _ _

/-- The events are in the order of their stamps, and on equal stamps a builtin
begins before syscalls and ends after them. -/
theorem pairwise_events :
    (merge lines records).events.Pairwise ExecutionEvent.KeyLe :=
  List.pairwise_insertionSort _ _

theorem mem_events_event {record : BuiltinRecord} :
    record.event ∈ (merge lines records).events ↔ record ∈ records := by
  rw [(perm_events lines records).mem_iff, List.mem_append]
  constructor
  · intro member
    rcases member with member | member
    · obtain ⟨source, -, same⟩ := List.mem_map.mp member
      cases record <;> cases same
    · obtain ⟨source, sourceMember, same⟩ := List.mem_map.mp member
      cases record <;> cases source <;> cases same <;> exact sourceMember
  · intro member
    exact .inr (List.mem_map_of_mem member)

/-- The lines keep the order of their stamps, and on equal stamps that of the
trace. -/
theorem filterMap_line_events :
    (merge lines records).events.filterMap ExecutionEvent.line =
      lines.insertionSort fun first second => first.tsUs ≤ second.tsUs := by
  have onlyLines : (lines.map ExecutionEvent.system ++
      records.map BuiltinRecord.event).filterMap ExecutionEvent.line =
      lines := by
    rw [List.filterMap_append, List.filterMap_map, List.filterMap_map]
    have left : ExecutionEvent.line ∘ ExecutionEvent.system = some := rfl
    have right : ExecutionEvent.line ∘ BuiltinRecord.event = fun _ => none := by
      funext record
      cases record <;> rfl
    rw [left, right, List.filterMap_some, List.filterMap_none,
      List.append_nil]
  have merged := @filterMap_insertionSort _ _ ExecutionEvent.KeyLe _
    (fun first second : TraceLine => first.tsUs ≤ second.tsUs) _ _ _
    ExecutionEvent.line (by
      intro value other image otherImage kept otherKept
      cases value <;> cases kept
      cases other <;> cases otherKept
      simp only [ExecutionEvent.KeyLe, ExecutionEvent.key]
      omega)
    (lines.map ExecutionEvent.system ++ records.map BuiltinRecord.event)
  rw [onlyLines] at merged
  exact merged

/-- The builtin records are in the order of their stamps. -/
theorem filterMap_record_events :
    (merge lines records).events.filterMap ExecutionEvent.record =
      records.insertionSort BuiltinRecord.KeyLe := by
  have onlyRecords : (lines.map ExecutionEvent.system ++
      records.map BuiltinRecord.event).filterMap ExecutionEvent.record =
      records := by
    rw [List.filterMap_append, List.filterMap_map, List.filterMap_map]
    have left : ExecutionEvent.record ∘ ExecutionEvent.system =
        fun _ => none := rfl
    have right : ExecutionEvent.record ∘ BuiltinRecord.event = some := by
      funext record
      cases record <;> rfl
    rw [left, right, List.filterMap_some, List.filterMap_none, List.nil_append]
  have merged := @filterMap_insertionSort _ _ ExecutionEvent.KeyLe _
    BuiltinRecord.KeyLe _ _ _ ExecutionEvent.record (by
      intro value other image otherImage kept otherKept
      cases value <;> cases kept <;> cases other <;> cases otherKept <;>
        exact Iff.rfl)
    (lines.map ExecutionEvent.system ++ records.map BuiltinRecord.event)
  rw [onlyRecords] at merged
  exact merged

end ExecutionEvidence
end Shellmux
end Marsh
