import Marsh.Library.LineFraming
import Marsh.Library.Utf8
import Mathlib.Data.List.DropRight

/-!
# Diagnostics of a job

A job's instrumentation arrives in reads of its descriptor.  Its buffer collects
them up to a newline and keeps the last lines as diagnostics.  Of a line that does
not end it keeps the head only; what the read that ends the line adds is put after
that head.
-/

namespace Marsh
namespace Tui

open Library Library.Text Library.Framing

/-! ## Texts of lines -/

/-- A character of a diagnostic, as it is shown. -/
def escapeControl (char : Char) : Text :=
  if isControl char then
    ['\\', 'x', Nat.digitChar (char.toNat / 16), Nat.digitChar (char.toNat % 16)]
  else [char]

/-- `escape_controls` -/
def escapeControls (text : Text) : Text := text.flatMap escapeControl

example : escapeControls "a\x1bé\x0d".toList = "a\\x1bé\\x0d".toList := by decide

/-- The text without the carriage returns at its end. -/
def trimReturns (text : Text) : Text := text.rdropWhile (· = '\r')

/-- The text of the bytes of a line. -/
def lineText (line : List UInt8) : Text :=
  escapeControls (trimReturns (lossy line))

/-- What marks a line that was cut. -/
def truncationMark : Text := " [truncated]".toList

/-! ## The buffer -/

/-- `DIAGNOSTIC_LINES` -/
def diagnosticLines : Nat := 1000

/-- `MAX_PENDING_INSTRUMENTATION` -/
def maxPendingInstrumentation : Nat := 16 * 1024

/-- The newline byte. -/
def newline : UInt8 := 10

/-- What a job's buffer has of its instrumentation. -/
structure JobBuffer where
  /-- Bytes with no newline yet. -/
  pending : List UInt8
  /-- Whether the unfinished line was cut for length. -/
  truncated : Bool
  /-- The retained diagnostics, oldest first. -/
  diagnostics : List Text

namespace JobBuffer

/-- `new` -/
def new : JobBuffer := ⟨[], false, []⟩

/-- `push_diagnostic` -/
def pushDiagnostic (buffer : JobBuffer) (line : Text) : JobBuffer :=
  { buffer with
    diagnostics :=
      (if buffer.diagnostics.length = diagnosticLines then
        buffer.diagnostics.drop 1
      else buffer.diagnostics) ++ [line] }

/-- A line is completed: the flag is taken with it. -/
def complete (buffer : JobBuffer) (line rest : List UInt8) : JobBuffer :=
  { buffer.pushDiagnostic
      (lineText line ++ if buffer.truncated then truncationMark else []) with
    pending := rest
    truncated := false }

/-- The lines that are pending are completed. -/
def completeLines (buffer : JobBuffer) : JobBuffer :=
  match _split : splitFirst newline buffer.pending with
  | none => buffer
  | some (line, rest) => (buffer.complete line rest).completeLines
termination_by buffer.pending.length
decreasing_by exact length_of_splitFirst _split

/-- Of a line with no end, its head is kept. -/
def bound (buffer : JobBuffer) : JobBuffer :=
  if maxPendingInstrumentation < buffer.pending.length then
    { buffer with
      pending := buffer.pending.take maxPendingInstrumentation
      truncated := true }
  else buffer

/-- `absorb_instrumentation` -/
def absorbInstrumentation (buffer : JobBuffer) (bytes : List UInt8) : JobBuffer :=
  { buffer with pending := buffer.pending ++ bytes }.completeLines.bound

/-- The buffer after some reads. -/
def absorbAll (reads : List (List UInt8)) : JobBuffer :=
  reads.foldl absorbInstrumentation new

end JobBuffer

/-! ## What the buffer keeps -/

/-- The diagnostic that the code makes of a line as the reads delivered it. -/
def diagnosticOfFrame (frame : Frame UInt8) : Text :=
  lineText (frame.earlier.take maxPendingInstrumentation ++ frame.own) ++
    if maxPendingInstrumentation < frame.earlier.length then truncationMark
    else []

/-- The diagnostic of a line: its head, marked when the line is longer. -/
def diagnosticOf (line : List UInt8) : Text :=
  lineText (line.take maxPendingInstrumentation) ++
    if maxPendingInstrumentation < line.length then truncationMark else []

/-- A buffer that has read the bytes of an unfinished line, after lines with some
diagnostics. -/
structure JobBuffer.Holds
    (buffer : JobBuffer)
    (unfinished : List UInt8)
    (all : List Text) : Prop where
  pending : buffer.pending = unfinished.take maxPendingInstrumentation
  truncated :
    buffer.truncated = decide (maxPendingInstrumentation < unfinished.length)
  diagnostics : buffer.diagnostics = all.rtake diagnosticLines

/-- A buffer whose bytes go on after an unfinished line. -/
structure JobBuffer.Collects
    (buffer : JobBuffer)
    (earlier read : List UInt8)
    (all : List Text) : Prop where
  pending :
    buffer.pending = earlier.take maxPendingInstrumentation ++ read
  truncated :
    buffer.truncated = decide (maxPendingInstrumentation < earlier.length)
  diagnostics : buffer.diagnostics = all.rtake diagnosticLines

/-- The last of some items, when another one comes. -/
theorem rtake_append_singleton
    {Item : Type}
    {limit : Nat}
    (positive : 0 < limit)
    (items : List Item)
    (item : Item) :
    (items ++ [item]).rtake limit =
      (if (items.rtake limit).length = limit then (items.rtake limit).drop 1
        else items.rtake limit) ++ [item] := by
  have size : (items.rtake limit).length = items.length - (items.length - limit) :=
    List.length_drop
  rw [size]
  unfold List.rtake
  rw [List.length_append, List.length_singleton]
  by_cases full : items.length - (items.length - limit) = limit
  · have next : items.length + 1 - limit = items.length - limit + 1 := by omega
    rw [if_pos full, List.drop_drop, next,
      List.drop_append_of_le_length (by omega)]
  · have both : items.length + 1 - limit = 0 ∧ items.length - limit = 0 := by
      omega
    rw [if_neg full, both.1, both.2, List.drop_zero, List.drop_zero]

theorem pushDiagnostic_diagnostics
    {buffer : JobBuffer}
    {all : List Text}
    (kept : buffer.diagnostics = all.rtake diagnosticLines)
    (line : Text) :
    (buffer.pushDiagnostic line).diagnostics =
      (all ++ [line]).rtake diagnosticLines := by
  rw [rtake_append_singleton (by decide), ← kept]
  rfl

namespace JobBuffer

theorem completeLines_of_notMem
    {buffer : JobBuffer}
    (oneLine : newline ∉ buffer.pending) : buffer.completeLines = buffer := by
  rw [completeLines]
  split
  · rfl
  · rename_i split
    rw [(splitFirst_eq_none_iff _).mpr oneLine] at split
    contradiction

theorem completeLines_of_append
    {buffer : JobBuffer}
    {line rest : List UInt8}
    (pending : buffer.pending = line ++ newline :: rest)
    (oneLine : newline ∉ line) :
    buffer.completeLines = (buffer.complete line rest).completeLines := by
  have cut : splitFirst newline buffer.pending = some (line, rest) := by
    rw [pending, splitFirst_append oneLine, splitFirst, if_pos rfl,
      Option.map_some, List.append_nil]
  rw [completeLines]
  split
  · rename_i split
    rw [cut] at split
    contradiction
  · rename_i split
    rw [cut] at split
    obtain ⟨rfl, rfl⟩ := Prod.mk.inj (Option.some.inj split)
    rfl

/-- A completed line leaves the bytes after it. -/
theorem Collects.complete
    {buffer : JobBuffer}
    {earlier own rest : List UInt8}
    {all : List Text}
    (collects : buffer.Collects earlier (own ++ newline :: rest) all) :
    (buffer.complete (earlier.take maxPendingInstrumentation ++ own)
        rest).Collects [] rest (all ++ [diagnosticOfFrame ⟨earlier, own⟩]) where
  pending := rfl
  truncated := rfl
  diagnostics := by
    have marked := pushDiagnostic_diagnostics collects.diagnostics
      (diagnosticOfFrame ⟨earlier, own⟩)
    rw [← marked, diagnosticOfFrame, JobBuffer.complete, collects.truncated]
    simp only [decide_eq_true_eq]

/-- What is left over is bounded. -/
theorem Collects.bound
    {buffer : JobBuffer}
    {earlier read : List UInt8}
    {all : List Text}
    (collects : buffer.Collects earlier read all) :
    buffer.bound.Holds (earlier ++ read) all := by
  have size : buffer.pending.length =
      min maxPendingInstrumentation earlier.length + read.length := by
    rw [collects.pending, List.length_append, List.length_take]
  have head : buffer.pending.take maxPendingInstrumentation =
      (earlier ++ read).take maxPendingInstrumentation := by
    rw [collects.pending, List.take_append, List.take_take, Nat.min_self,
      List.take_append, List.length_take]
    congr 2
    omega
  unfold JobBuffer.bound
  by_cases long : maxPendingInstrumentation < buffer.pending.length
  · rw [if_pos long]
    refine ⟨head, ?_, collects.diagnostics⟩
    rw [List.length_append]
    exact (decide_eq_true (by omega)).symm
  · rw [if_neg long]
    refine ⟨?_, ?_, collects.diagnostics⟩
    · rw [← head, List.take_of_length_le (Nat.not_lt.mp long)]
    · rw [collects.truncated, List.length_append]
      exact decide_eq_decide.mpr (by omega)

/-- One read completes its lines and leaves the rest of it. -/
theorem Collects.completeLines
    {buffer : JobBuffer}
    {earlier read : List UInt8}
    {all : List Text}
    (unfinished : newline ∉ earlier)
    (collects : buffer.Collects earlier read all) :
    buffer.completeLines.bound.Holds (framesIn newline earlier read).2
      (all ++ (framesIn newline earlier read).1.map diagnosticOfFrame) := by
  have kept : newline ∉ earlier.take maxPendingInstrumentation :=
    fun member => unfinished (List.mem_of_mem_take member)
  induction size : read.length using Nat.strongRecOn
    generalizing buffer earlier read all with
  | ind length hypothesis =>
      obtain oneLine | ⟨own, rest, rfl, oneLine, shorter⟩ :=
        @read_cases _ _ newline read
      · have none : newline ∉ buffer.pending := by
          rw [collects.pending, List.mem_append, not_or]
          exact ⟨kept, oneLine⟩
        rw [framesIn_of_notMem oneLine, completeLines_of_notMem none,
          List.map_nil, List.append_nil]
        exact collects.bound
      · have line : newline ∉ earlier.take maxPendingInstrumentation ++ own := by
          rw [List.mem_append, not_or]
          exact ⟨kept, oneLine⟩
        have pending := collects.pending
        rw [← List.append_assoc] at pending
        rw [framesIn_append_cons oneLine, completeLines_of_append pending line,
          List.map_cons, List.append_cons]
        exact hypothesis rest.length (size ▸ shorter) List.not_mem_nil
          collects.complete List.not_mem_nil rfl

theorem Holds.absorb
    {buffer : JobBuffer}
    {unfinished : List UInt8}
    {all : List Text}
    (oneLine : newline ∉ unfinished)
    (holds : buffer.Holds unfinished all)
    (read : List UInt8) :
    (buffer.absorbInstrumentation read).Holds
      (framesIn newline unfinished read).2
      (all ++ (framesIn newline unfinished read).1.map diagnosticOfFrame) := by
  have collects :
      { buffer with pending := buffer.pending ++ read }.Collects unfinished read
        all :=
    ⟨congrArg (· ++ read) holds.pending, holds.truncated, holds.diagnostics⟩
  exact collects.completeLines oneLine

/-- The reads complete the lines that they deliver. -/
theorem Holds.absorbs
    {buffer : JobBuffer}
    {unfinished : List UInt8}
    {all : List Text}
    (oneLine : newline ∉ unfinished)
    (holds : buffer.Holds unfinished all)
    (reads : List (List UInt8)) :
    (reads.foldl absorbInstrumentation buffer).Holds
      (frames newline unfinished reads).2
      (all ++ (frames newline unfinished reads).1.map diagnosticOfFrame) := by
  induction reads generalizing buffer unfinished all with
  | nil =>
      rw [frames, List.map_nil, List.append_nil]
      exact holds
  | cons read reads hypothesis =>
      rw [List.foldl_cons, frames, List.map_append, ← List.append_assoc]
      exact hypothesis (framesIn_spec oneLine).1 (holds.absorb oneLine read)

/-- What the buffer keeps of the reads. -/
theorem diagnostics_absorbAll (reads : List (List UInt8)) :
    (absorbAll reads).diagnostics =
      ((frames newline [] reads).1.rtake diagnosticLines).map
        diagnosticOfFrame := by
  have empty : new.Holds [] [] := ⟨rfl, rfl, rfl⟩
  have kept := (empty.absorbs List.not_mem_nil reads).diagnostics
  rw [absorbAll, kept, List.nil_append, List.rtake, List.rtake, List.length_map,
    List.map_drop]

end JobBuffer

end Tui
end Marsh
