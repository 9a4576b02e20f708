import Marsh.Library.Text
import Marsh.Shellmux.Authority

/-!
# The append-only log

A log file holds one record a line.  An append writes its lines at once; an
append that fails, or is cut off, may leave any first bytes of them.  Reading
drops a last line that lacks its newline, and truncates the file there.
-/

namespace Marsh
namespace Shellmux

open Library

/-- The bytes of a log file. -/
abbrev LogBytes := List UInt8

/-- The newline byte. -/
def newline : UInt8 := 10

/-- How records are written and read back: `serde_json`, at one record type. -/
structure RecordFormat (R : Type) where
  /-- The text of a record. -/
  render : R -> LogBytes
  /-- The record a line holds, or why it holds none. -/
  parse : LogBytes -> Except String R
  /-- The lossy text of a line, quoted, for the error of a corrupt log. -/
  quoted : LogBytes -> String

namespace RecordFormat

variable {R : Type} (format : RecordFormat R)

/-- What the log relies on. -/
structure Lawful : Prop where
  /-- A record is read back as it was written. -/
  parse_render : ∀ record, format.parse (format.render record) = .ok record
  /-- A record is written on one line. -/
  newline_not_mem : ∀ record, newline ∉ format.render record
  /-- No proper prefix of a line is a record. -/
  parse_prefix : ∀ record part, part <+: format.render record ->
    part ≠ format.render record -> ∀ other, format.parse part ≠ .ok other
  /-- Neither is an empty line. -/
  parse_nil : ∀ other, format.parse [] ≠ .ok other

end RecordFormat

namespace JsonLog

/-- The lines of a file, each with its newline; the last one may lack it. -/
def splitInclusive : LogBytes -> List LogBytes
  | [] => []
  | byte :: rest =>
      if byte = newline then [byte] :: splitInclusive rest
      else
        match splitInclusive rest with
        | [] => [[byte]]
        | line :: lines => (byte :: line) :: lines

section Operations

variable {R : Type} (format : RecordFormat R)

/-- The bytes an append writes. -/
def batch (records : List R) : LogBytes :=
  records.flatMap fun record => format.render record ++ [newline]

/-- Appends records as one write.  A write that fails names how many of its bytes
reached the file. -/
def append
    (fault : Option Nat)
    (records : List R)
    (file : LogBytes) : Except MuxError Unit × LogBytes :=
  if records.isEmpty then (.ok (), file)
  else
    match fault with
    | none => (.ok (), file ++ batch format records)
    | some count =>
        (.error (.io "write failed"), file ++ (batch format records).take count)

/-- Reads the lines after `durable` bytes and some records; a last line without
its newline is truncated away. -/
def readLines
    (file : LogBytes)
    (records : List R)
    (durable : Nat) : List LogBytes -> Except MuxError (List R) × LogBytes
  | [] => (.ok records, file)
  | line :: lines =>
      if line.getLast? ≠ some newline then (.ok records, file.take durable)
      else
        let record := line.dropLast
        if record.isEmpty then
          readLines file records (durable + line.length) lines
        else
          match format.parse record with
          | .error error =>
              (.error (.wal ("corrupt record " ++ format.quoted record ++ ": " ++
                error)), file)
          | .ok parsed =>
              readLines file (records ++ [parsed]) (durable + line.length) lines

/-- Every complete record of the log. -/
def read (file : LogBytes) : Except MuxError (List R) × LogBytes :=
  readLines format file [] 0 (splitInclusive file)

end Operations

/-! ## Reading what was written -/

section Reading

variable {R : Type} {format : RecordFormat R}

theorem batch_cons (record : R) (records : List R) :
    batch format (record :: records) =
      format.render record ++ newline :: batch format records := by
  simp [batch]

theorem batch_append (first second : List R) :
    batch format (first ++ second) =
      batch format first ++ batch format second := by
  simp [batch]

theorem splitInclusive_of_torn
    {torn : LogBytes}
    (oneLine : newline ∉ torn)
    (some_ : torn ≠ []) : splitInclusive torn = [torn] := by
  induction torn with
  | nil => exact (some_ rfl).elim
  | cons byte rest hypothesis =>
      have other : byte ≠ newline := fun same =>
        oneLine (same ▸ List.mem_cons_self)
      have restLine : newline ∉ rest := fun member =>
        oneLine (List.mem_cons_of_mem _ member)
      rw [splitInclusive, if_neg other]
      cases rest with
      | nil => rfl
      | cons next rest => rw [hypothesis restLine (by simp)]

/-- The first line of a file. -/
theorem splitInclusive_line
    {line : LogBytes}
    (oneLine : newline ∉ line)
    (rest : LogBytes) :
    splitInclusive (line ++ newline :: rest) =
      (line ++ [newline]) :: splitInclusive rest := by
  induction line with
  | nil => simp [splitInclusive]
  | cons byte line hypothesis =>
      have other : byte ≠ newline := fun same =>
        oneLine (same ▸ List.mem_cons_self)
      have restLine : newline ∉ line := fun member =>
        oneLine (List.mem_cons_of_mem _ member)
      rw [List.cons_append, splitInclusive, if_neg other, hypothesis restLine]
      rfl

theorem RecordFormat.Lawful.render_ne_nil
    (lawful : format.Lawful)
    (record : R) : format.render record ≠ [] := by
  intro empty
  apply lawful.parse_nil record
  rw [← empty, lawful.parse_render]

/-- Reading whole lines and a torn one: every record, and the torn line goes. -/
theorem readLines_batch
    (lawful : format.Lawful)
    {torn : LogBytes}
    (oneLine : newline ∉ torn)
    (file : LogBytes)
    (records before : List R)
    (durable : Nat)
    (length : file.length = durable + (batch format records ++ torn).length) :
    readLines format file before durable
        (splitInclusive (batch format records ++ torn)) =
      (.ok (before ++ records),
        file.take (durable + (batch format records).length)) := by
  induction records generalizing before durable with
  | nil =>
      by_cases empty : torn = []
      · have whole : file.length ≤ durable := by
          simpa [batch, empty] using length.le
        simp [batch, empty, splitInclusive, readLines,
          List.take_of_length_le whole]
      · have unterminated : torn.getLast? ≠ some newline := fun last =>
          oneLine (List.mem_of_getLast? last)
        simp [batch, splitInclusive_of_torn oneLine empty, readLines,
          unterminated]
  | cons record records hypothesis =>
      have split : batch format (record :: records) ++ torn =
          format.render record ++ newline ::
            (batch format records ++ torn) := by
        simp [batch_cons]
      have counted : (batch format (record :: records)).length =
          (format.render record ++ [newline]).length +
            (batch format records).length := by
        simp [batch_cons]
        omega
      rw [split, splitInclusive_line (lawful.newline_not_mem record), readLines,
        if_neg (by simp)]
      simp only [List.dropLast_concat]
      rw [if_neg (by simpa using
        RecordFormat.Lawful.render_ne_nil lawful record),
        lawful.parse_render]
      simp only
      rw [hypothesis, counted, List.append_assoc, List.singleton_append,
        Nat.add_assoc]
      rw [split] at length
      simp at length ⊢
      omega

theorem read_batch
    (lawful : format.Lawful)
    {torn : LogBytes}
    (oneLine : newline ∉ torn)
    (records : List R) :
    read format (batch format records ++ torn) =
      (.ok records, batch format records) := by
  rw [read, readLines_batch lawful oneLine _ _ _ _ (by simp)]
  simp

end Reading

/-! ## Runs -/

/-- What happens to a log. -/
inductive Step (R : Type)
  /-- An append that succeeds. -/
  | appended (records : List R)
  /-- An append of which some first bytes reached the file: it failed, or a crash
  cut it off. -/
  | cutOff (records : List R) (count : Nat)
  /-- A read. -/
  | read

section Runs

variable {R : Type} (format : RecordFormat R)

/-- The file after a step. -/
def Step.run (file : LogBytes) : Step R -> LogBytes
  | .appended records => (append format none records file).2
  | .cutOff records count => (append format (some count) records file).2
  | .read => (JsonLog.read format file).2

/-- The file after some steps. -/
def run (file : LogBytes) (steps : List (Step R)) : LogBytes :=
  steps.foldl (Step.run format) file

/-- The records of a batch whose lines are among its first bytes. -/
def complete : List R -> Nat -> List R
  | [], _ => []
  | record :: records, count =>
      let length := (format.render record).length + 1
      if length ≤ count then record :: complete records (count - length)
      else []

/-- The records a step writes as a whole. -/
def Step.written : Step R -> List R
  | .appended records => records
  | .cutOff records count => complete format records count
  | .read => []

/-- The records a step appends with success. -/
def Step.kept : Step R -> List R
  | .appended records => records
  | .cutOff _ _ | .read => []

/-- Reading the file gives every record appended with success, in order, and
none that was not written as a whole. -/
def Durable (steps : List (Step R)) (file : LogBytes) : Prop :=
  ∃ records, (read format file).1 = .ok records ∧
    (steps.flatMap Step.kept).Sublist records ∧
    records.Sublist (steps.flatMap (Step.written format))

/-- The last line of the file has its newline. -/
def Whole (file : LogBytes) : Prop :=
  file = [] ∨ file.getLast? = some newline

/-- Whether a step writes at the end of the file: an append of no records does
not touch it, and one cut off before its first byte leaves it as it is. -/
def Step.Writes : Step R -> Prop
  | .appended records => records ≠ []
  | .cutOff records count => records ≠ [] ∧ 0 < count
  | .read => False

/-- No append of the run writes after a torn line. -/
def AppendsWhole (file : LogBytes) : List (Step R) -> Prop
  | [] => True
  | step :: steps =>
      (step.Writes -> Whole file) ∧
        AppendsWhole (step.run format file) steps

variable {format}

theorem take_batch
    (lawful : format.Lawful)
    (records : List R)
    (count : Nat) :
    ∃ torn, newline ∉ torn ∧ (batch format records).take count =
      batch format (complete format records count) ++ torn := by
  induction records generalizing count with
  | nil => exact ⟨[], by simp, by simp [batch, complete]⟩
  | cons record records hypothesis =>
      have split : batch format (record :: records) =
          (format.render record ++ [newline]) ++ batch format records := by
        simp [batch_cons]
      rw [split, List.take_append, complete]
      by_cases fits : (format.render record).length + 1 ≤ count
      · obtain ⟨torn, oneLine, taken⟩ :=
          hypothesis (count - ((format.render record).length + 1))
        refine ⟨torn, oneLine, ?_⟩
        rw [List.take_of_length_le (by simpa using fits)]
        simp [fits, taken, batch_cons]
      · refine ⟨(format.render record).take count, fun member =>
          lawful.newline_not_mem record (List.mem_of_mem_take member), ?_⟩
        have short : count - (format.render record).length = 0 := by omega
        simp only [fits, if_false, batch, List.flatMap_nil, List.nil_append,
          List.take_append, short, List.take_zero, List.append_nil,
          List.length_append, List.length_singleton]
        rw [show count - ((format.render record).length + 1) = 0 by omega,
          List.take_zero, List.append_nil]

/-- The file is the lines of some records, and a torn one. -/
def Holds (format : RecordFormat R) (records : List R) (file : LogBytes) :
    Prop :=
  ∃ torn, newline ∉ torn ∧ file = batch format records ++ torn

theorem Holds.eq_of_whole
    {records : List R}
    {file : LogBytes}
    (holds : Holds format records file)
    (whole : Whole file) : file = batch format records := by
  obtain ⟨torn, oneLine, rfl⟩ := holds
  by_cases empty : torn = []
  · rw [empty, List.append_nil]
  · exfalso
    rcases whole with nothing | last
    · exact empty (List.append_eq_nil_iff.mp nothing).2
    · rw [List.getLast?_append_of_ne_nil _ empty] at last
      exact oneLine (List.mem_of_getLast? last)

/-- An append that writes nothing leaves the file as it is. -/
theorem Step.run_of_not_writes
    {step : Step R}
    {file : LogBytes}
    (appends : step ≠ .read)
    (idle : ¬ step.Writes) :
    step.written format = [] ∧ step.run format file = file := by
  cases step with
  | appended records =>
      obtain rfl : records = [] := not_not.mp idle
      exact ⟨rfl, rfl⟩
  | cutOff records count =>
      by_cases empty : records = []
      · subst empty
        exact ⟨rfl, rfl⟩
      · obtain rfl : count = 0 := by
          by_contra some_
          exact idle ⟨empty, Nat.pos_of_ne_zero some_⟩
        obtain ⟨record, rest, rfl⟩ := List.exists_cons_of_ne_nil empty
        simp [Step.written, complete, Step.run, append]
  | read => exact (appends rfl).elim

/-- A step that does not write after a torn line adds what it wrote. -/
theorem Holds.step
    (lawful : format.Lawful)
    {records : List R}
    {file : LogBytes}
    (holds : Holds format records file)
    {step : Step R}
    (whole : step.Writes -> Whole file) :
    Holds format (records ++ step.written format) (step.run format file) := by
  by_cases reading : step = .read
  · subst reading
    obtain ⟨torn, oneLine, rfl⟩ := holds
    refine ⟨[], by simp, ?_⟩
    rw [Step.run, read_batch lawful oneLine]
    simp [Step.written]
  by_cases idle : ¬ step.Writes
  · obtain ⟨nothing, same⟩ := step.run_of_not_writes reading idle
    rw [nothing, same, List.append_nil]
    exact holds
  have writes : step.Writes := not_not.mp idle
  have file_ := holds.eq_of_whole (whole writes)
  cases step with
  | appended added =>
      refine ⟨[], by simp, ?_⟩
      rw [Step.run, append, if_neg (by simpa [Step.Writes] using writes),
        file_]
      simp [Step.written, batch_append]
  | cutOff added count =>
      obtain ⟨torn, oneLine, taken⟩ := take_batch lawful added count
      refine ⟨torn, oneLine, ?_⟩
      rw [Step.run, append, if_neg (by simpa using writes.1), file_]
      simp [Step.written, batch_append, taken]
  | read => exact (reading rfl).elim

theorem Holds.run
    (lawful : format.Lawful)
    {steps : List (Step R)}
    {records : List R}
    {file : LogBytes}
    (holds : Holds format records file)
    (whole : AppendsWhole format file steps) :
    Holds format (records ++ steps.flatMap (Step.written format))
      (run format file steps) := by
  induction steps generalizing records file with
  | nil => simpa [JsonLog.run] using holds
  | cons step steps hypothesis =>
      have rest := hypothesis (holds.step lawful whole.1) whole.2
      simpa [JsonLog.run] using rest

theorem kept_sublist (steps : List (Step R)) :
    (steps.flatMap Step.kept).Sublist
      (steps.flatMap (Step.written format)) := by
  induction steps with
  | nil => exact List.Sublist.slnil
  | cons step steps hypothesis =>
      rw [List.flatMap_cons, List.flatMap_cons]
      apply List.Sublist.append ?_ hypothesis
      cases step with
      | appended records => exact List.Sublist.refl records
      | cutOff records count => exact List.nil_sublist _
      | read => exact List.nil_sublist _

/-- In a run where no append writes after a torn line, reading gives exactly the
records that were written as a whole. -/
theorem read_run
    (lawful : format.Lawful)
    {steps : List (Step R)}
    (whole : AppendsWhole format [] steps) :
    (read format (run format [] steps)).1 =
      .ok (steps.flatMap (Step.written format)) := by
  have holds : Holds format ([] : List R) [] := ⟨[], by simp, rfl⟩
  obtain ⟨torn, oneLine, file⟩ := holds.run lawful whole
  rw [file, List.nil_append, read_batch lawful oneLine]

theorem durable_of_appendsWhole
    (format : RecordFormat R)
    (lawful : format.Lawful)
    (steps : List (Step R))
    (whole : AppendsWhole format [] steps) :
    Durable format steps (run format [] steps) :=
  ⟨_, read_run lawful whole, kept_sublist steps, List.Sublist.refl _⟩

end Runs

/-! ## A log of booleans -/

/-- `true`. -/
def trueBytes : LogBytes := [116, 114, 117, 101]

/-- `false`. -/
def falseBytes : LogBytes := [102, 97, 108, 115, 101]

/-- The records `true` and `false`. -/
def boolFormat : RecordFormat Bool where
  render record := if record then trueBytes else falseBytes
  parse line :=
    if line = trueBytes then .ok true
    else if line = falseBytes then .ok false
    else .error "expected ident at line 1 column 3"
  quoted line := "\"" ++ String.ofList
    (line.map fun byte => Char.ofNat byte.toNat) ++ "\""

theorem lawful_boolFormat : boolFormat.Lawful where
  parse_render := by decide
  newline_not_mem := by decide
  parse_prefix := by
    intro record part prefixed proper other parsed
    have whole : part = trueBytes ∨ part = falseBytes := by
      by_contra neither
      rw [not_or] at neither
      simp [boolFormat, neither.1, neither.2] at parsed
    rcases whole with rfl | rfl <;> cases record <;> revert prefixed proper <;>
      decide
  parse_nil := by decide

/-- An append cut off, one of no records, a read, and an append of two. -/
theorem durable_boolFormat :
    Durable boolFormat
      [.cutOff [true] 2, .appended [], .read, .appended [false, true]]
      (run boolFormat []
        [.cutOff [true] 2, .appended [], .read, .appended [false, true]]) :=
  durable_of_appendsWhole boolFormat lawful_boolFormat _
    ⟨fun _ => .inl rfl, fun writes => (writes rfl).elim,
      fun reads => reads.elim, fun _ => .inl rfl, trivial⟩

/-- Without the read, the second append continues the torn line: the log cannot
be read any more. -/
theorem not_durable_boolFormat :
    boolFormat.Lawful ∧
      ¬ Durable boolFormat [.cutOff [true] 2, .appended [false]]
        (run boolFormat [] [.cutOff [true] 2, .appended [false]]) := by
  refine ⟨lawful_boolFormat, ?_⟩
  rintro ⟨records, readOk, _⟩
  have corrupt : (read boolFormat (run boolFormat []
      [.cutOff [true] 2, .appended [false]])).1 =
        .error (.wal ("corrupt record " ++
          boolFormat.quoted [116, 114, 102, 97, 108, 115, 101] ++ ": " ++
            "expected ident at line 1 column 3")) := rfl
  rw [corrupt] at readOk
  cases readOk

end JsonLog

end Shellmux
end Marsh
