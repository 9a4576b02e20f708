import Mathlib.Data.List.Basic
import Mathlib.Order.Basic

/-!
# Lines of a stream that arrives in reads

A stream of symbols is cut into lines at a delimiter.  It arrives in reads that
end anywhere, so a line may be spread over several of them; which lines there are
does not depend on the reads.
-/

namespace Library

universe u

/-- A line as the reads delivered it. -/
structure Frame (Symbol : Type u) where
  /-- What came before the read that completed it. -/
  earlier : List Symbol
  /-- What the read that completed it added. -/
  own : List Symbol

/-- The whole line. -/
def Frame.line {Symbol : Type u} (frame : Frame Symbol) : List Symbol :=
  frame.earlier ++ frame.own

namespace Framing

variable {Symbol : Type u} [DecidableEq Symbol] (delimiter : Symbol)

/-- What stands before and after the first delimiter. -/
def splitFirst : List Symbol -> Option (List Symbol × List Symbol)
  | [] => none
  | symbol :: rest =>
      if symbol = delimiter then some ([], rest)
      else (splitFirst rest).map fun parts => (symbol :: parts.1, parts.2)

/-- The lines of a stream that a delimiter ends. -/
def completed (stream : List Symbol) : List (List Symbol) :=
  (stream.splitOn delimiter).dropLast

variable {delimiter}

theorem splitFirst_eq_none_iff (stream : List Symbol) :
    splitFirst delimiter stream = none ↔ delimiter ∉ stream := by
  induction stream with
  | nil => exact iff_of_true rfl List.not_mem_nil
  | cons symbol stream hypothesis =>
      rw [splitFirst, List.mem_cons, not_or]
      by_cases same : symbol = delimiter
      · rw [if_pos same]
        exact iff_of_false (Option.some_ne_none _) fun both => both.1 same.symm
      · rw [if_neg same, Option.map_eq_none_iff, hypothesis]
        exact ⟨fun absent => ⟨Ne.symm same, absent⟩, fun both => both.2⟩

theorem splitFirst_append
    {line : List Symbol}
    (oneLine : delimiter ∉ line)
    (stream : List Symbol) :
    splitFirst delimiter (line ++ stream) =
      (splitFirst delimiter stream).map fun parts =>
        (line ++ parts.1, parts.2) := by
  induction line with
  | nil =>
      rw [List.nil_append]
      exact Option.map_id'.symm
  | cons symbol line hypothesis =>
      rw [List.mem_cons, not_or] at oneLine
      rw [List.cons_append, splitFirst, if_neg (Ne.symm oneLine.1),
        hypothesis oneLine.2, Option.map_map]
      rfl

/-- A stream is cut at its first delimiter. -/
theorem eq_of_splitFirst
    {stream line rest : List Symbol}
    (split : splitFirst delimiter stream = some (line, rest)) :
    stream = line ++ delimiter :: rest ∧ delimiter ∉ line := by
  induction stream generalizing line with
  | nil => cases split
  | cons symbol stream hypothesis =>
      rw [splitFirst] at split
      by_cases same : symbol = delimiter
      · rw [if_pos same] at split
        obtain ⟨rfl, rfl⟩ := Prod.mk.inj (Option.some.inj split)
        exact ⟨congrArg (· :: stream) same, List.not_mem_nil⟩
      · rw [if_neg same, Option.map_eq_some_iff] at split
        obtain ⟨⟨before, after⟩, found, parts⟩ := split
        obtain ⟨rfl, rfl⟩ := Prod.mk.inj parts
        obtain ⟨whole, oneLine⟩ := hypothesis found
        exact ⟨congrArg (symbol :: ·) whole,
          List.not_mem_cons_of_ne_of_not_mem (Ne.symm same) oneLine⟩

theorem length_of_splitFirst
    {stream line rest : List Symbol}
    (split : splitFirst delimiter stream = some (line, rest)) :
    rest.length < stream.length := by
  rw [(eq_of_splitFirst split).1, List.length_append, List.length_cons]
  omega

theorem completed_of_notMem
    {stream : List Symbol}
    (oneLine : delimiter ∉ stream) : completed delimiter stream = [] := by
  rw [completed, List.splitOn_eq_singleton oneLine]
  rfl

theorem completed_append_cons
    {line : List Symbol}
    (oneLine : delimiter ∉ line)
    (rest : List Symbol) :
    completed delimiter (line ++ delimiter :: rest) =
      line :: completed delimiter rest := by
  rw [completed, List.splitOn_append_cons_self,
    List.splitOn_eq_singleton oneLine, List.singleton_append,
    List.dropLast_cons_of_ne_nil (List.splitOn_ne_nil delimiter rest), completed]

/-! ## Reads -/

section Reads

variable (delimiter)

/-- The lines a read completes, after what came before of the first, and what it
leaves of an unfinished one. -/
def framesIn
    (earlier read : List Symbol) : List (Frame Symbol) × List Symbol :=
  match _split : splitFirst delimiter read with
  | none => ([], earlier ++ read)
  | some (own, rest) =>
      (⟨earlier, own⟩ :: (framesIn [] rest).1, (framesIn [] rest).2)
termination_by read.length
decreasing_by all_goals exact length_of_splitFirst _split

/-- The lines that some reads complete, and what they leave unfinished. -/
def frames
    (earlier : List Symbol) :
    List (List Symbol) -> List (Frame Symbol) × List Symbol
  | [] => ([], earlier)
  | read :: reads =>
      ((framesIn delimiter earlier read).1 ++
        (frames (framesIn delimiter earlier read).2 reads).1,
        (frames (framesIn delimiter earlier read).2 reads).2)

end Reads

theorem framesIn_of_notMem
    {read : List Symbol}
    (oneLine : delimiter ∉ read)
    (earlier : List Symbol) :
    framesIn delimiter earlier read = ([], earlier ++ read) := by
  rw [framesIn]
  split
  · rfl
  · rename_i split
    rw [(splitFirst_eq_none_iff read).mpr oneLine] at split
    contradiction

theorem framesIn_append_cons
    {own : List Symbol}
    (oneLine : delimiter ∉ own)
    (earlier rest : List Symbol) :
    framesIn delimiter earlier (own ++ delimiter :: rest) =
      (⟨earlier, own⟩ :: (framesIn delimiter [] rest).1,
        (framesIn delimiter [] rest).2) := by
  have cut : splitFirst delimiter (own ++ delimiter :: rest) =
      some (own, rest) := by
    rw [splitFirst_append oneLine, splitFirst, if_pos rfl, Option.map_some,
      List.append_nil]
  rw [framesIn]
  split
  · rename_i split
    rw [cut] at split
    contradiction
  · rename_i split
    rw [cut] at split
    obtain ⟨rfl, rfl⟩ := Prod.mk.inj (Option.some.inj split)
    rfl

/-- A read completes lines one by one. -/
theorem read_cases (read : List Symbol) :
    delimiter ∉ read ∨
      ∃ own rest, read = own ++ delimiter :: rest ∧ delimiter ∉ own ∧
        rest.length < read.length := by
  cases split : splitFirst delimiter read with
  | none => exact .inl ((splitFirst_eq_none_iff read).mp split)
  | some parts =>
      obtain ⟨whole, oneLine⟩ := eq_of_splitFirst split
      exact .inr ⟨parts.1, parts.2, whole, oneLine, length_of_splitFirst split⟩

/-- The lines a read completes are those that the stream up to its end does, and
what it leaves is unfinished. -/
theorem framesIn_spec
    {earlier read : List Symbol}
    (unfinished : delimiter ∉ earlier) :
    delimiter ∉ (framesIn delimiter earlier read).2 ∧
      ∀ later, completed delimiter (earlier ++ read ++ later) =
        (framesIn delimiter earlier read).1.map Frame.line ++
          completed delimiter ((framesIn delimiter earlier read).2 ++ later) := by
  induction lengthEq : read.length using Nat.strongRecOn
    generalizing earlier read with
  | ind length hypothesis =>
      obtain oneLine | ⟨own, rest, rfl, oneLine, shorter⟩ :=
        @read_cases _ _ delimiter read
      · rw [framesIn_of_notMem oneLine]
        refine ⟨?_, fun later => rfl⟩
        rw [List.mem_append, not_or]
        exact ⟨unfinished, oneLine⟩
      · rw [framesIn_append_cons oneLine]
        obtain ⟨left, lines⟩ := hypothesis rest.length (lengthEq ▸ shorter)
          (@List.not_mem_nil _ delimiter) rfl
        refine ⟨left, fun later => ?_⟩
        have whole : earlier ++ (own ++ delimiter :: rest) ++ later =
            (earlier ++ own) ++ delimiter :: (rest ++ later) := by simp
        have first : delimiter ∉ earlier ++ own := by
          rw [List.mem_append, not_or]
          exact ⟨unfinished, oneLine⟩
        rw [whole, completed_append_cons first, ← List.nil_append rest,
          lines later]
        rfl

/-- The lines some reads complete are those of the whole stream, wherever the
reads end. -/
theorem lines_frames
    {earlier : List Symbol}
    (unfinished : delimiter ∉ earlier)
    (reads : List (List Symbol)) :
    (frames delimiter earlier reads).1.map Frame.line =
      completed delimiter (earlier ++ reads.flatten) := by
  induction reads generalizing earlier with
  | nil =>
      rw [List.flatten_nil, List.append_nil, completed_of_notMem unfinished]
      rfl
  | cons read reads hypothesis =>
      obtain ⟨left, lines⟩ := @framesIn_spec _ _ _ _ read unfinished
      rw [frames, List.map_append, hypothesis left, List.flatten_cons,
        ← List.append_assoc, lines]

/-- Reads that end no line leave all their symbols. -/
theorem frames_of_notMem
    {reads : List (List Symbol)}
    (oneLine : delimiter ∉ reads.flatten)
    (earlier : List Symbol)
    (more : List (List Symbol)) :
    frames delimiter earlier (reads ++ more) =
      frames delimiter (earlier ++ reads.flatten) more := by
  induction reads generalizing earlier with
  | nil => rw [List.flatten_nil, List.append_nil, List.nil_append]
  | cons read reads hypothesis =>
      rw [List.flatten_cons, List.mem_append, not_or] at oneLine
      rw [List.cons_append, frames, framesIn_of_notMem oneLine.1,
        hypothesis oneLine.2, List.nil_append, List.flatten_cons,
        List.append_assoc]

end Framing

end Library
