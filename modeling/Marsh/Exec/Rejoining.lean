import Marsh.Exec.SplitCalls

/-!
# Rejoining split calls

A call that is printed on two lines is decoded to its record exactly when no
blank stands before the cut and the text after it closes what it opens.  The
lines of a trace are those of its items, in some order.
-/

namespace Marsh
namespace Exec

open Library

namespace Cut

variable {record : SyscallRecord} {cut : Cut record}

/-! ## One call -/

/-- The call can be put together from its lines: no blank stands before the cut,
and what follows it closes the quotes and brackets it opens. -/
structure Clean (cut : Cut record) : Prop where
  unblank : Text.trimEnd cut.before = cut.before
  closed : Closed cut.after

/-- The second line is cut where the argument list ends. -/
theorem splitClose_tail
    (closed : Closed cut.after) :
    splitClose cut.tail = some (cut.after, record.ret.render) :=
  splitClose_of_closed closed record.retBlanks record.ret

/-- The text before the cut is kept whole where the arguments are. -/
theorem unblank_of_args_eq
    {args rest : Text}
    {last : Char}
    (tail_eq : cut.tail = args ++ last :: rest)
    (same : Text.trimEnd cut.before ++ args = record.argsText) :
    Text.trimEnd cut.before = cut.before := by
  have parts : Text.trimEnd cut.before ++
      List.rtakeWhile Text.isWhitespace cut.before = cut.before :=
    List.rdropWhile_append_rtakeWhile
  have shifted : args ++ ')' :: (List.replicate (record.retBlanks + 1) ' ' ++
      '=' :: ' ' :: record.ret.render) =
        List.rtakeWhile Text.isWhitespace cut.before ++
          (args ++ last :: rest) := by
    apply (List.append_right_inj (Text.trimEnd cut.before)).mp
    rw [← List.append_assoc, ← List.append_assoc, same, parts, ← tail_eq,
      ← cut.body_eq]
    rfl
  have unblank : ')' ∉ List.rtakeWhile Text.isWhitespace cut.before := by
    intro member
    have blank := List.mem_rtakeWhile_imp member
    exact absurd blank (by decide)
  have empty := Text.eq_nil_of_shift shifted unblank
  rw [empty, List.append_nil] at parts
  exact parts

/-- A split call is decoded to its record exactly when it can be put together. -/
theorem emitted_eq_iff : cut.emitted = [record.line] ↔ cut.Clean := by
  constructor
  · intro same
    unfold emitted at same
    cases cuts : splitClose cut.tail with
    | none =>
        rw [cuts] at same
        cases same
    | some parts =>
        obtain ⟨args, ret⟩ := parts
        rw [cuts] at same
        have call := (TraceLine.mk.inj (List.cons.inj same).1).2.2
        have args_eq : Text.trimEnd cut.before ++ args = record.argsText :=
          (Call.syscall.inj call).2.1
        obtain ⟨last, rest, tail_eq⟩ := exists_closing_of_splitClose cuts
        have unblank := unblank_of_args_eq tail_eq args_eq
        rw [unblank, ← cut.args_eq] at args_eq
        have after_eq := List.append_cancel_left args_eq
        rw [after_eq] at cuts
        exact ⟨unblank, closed_of_splitClose cuts⟩
  · intro clean
    unfold emitted
    rw [splitClose_tail clean.closed, clean.unblank]
    dsimp only
    rw [record.ret.parse, cut.args_eq]
    rfl

/-- At most one line is read from a call, with its thread and stamp. -/
theorem length_emitted_le : cut.emitted.length ≤ 1 := by
  unfold emitted
  split
  · exact Nat.zero_le 1
  · exact le_rfl

/-- What is read from a call has its thread and the stamp of its entry. -/
theorem origin_of_mem_emitted
    {line : TraceLine}
    (member : line ∈ cut.emitted) :
    line.tid = record.tid ∧ line.tsUs = record.tsUs := by
  unfold emitted at member
  split at member
  · cases member
  · obtain rfl := List.mem_singleton.mp member
    exact ⟨rfl, rfl⟩

end Cut

/-- What is read from a whole line has its thread and stamp. -/
theorem SyscallRecord.origin_of_mem_emitted
    {record : SyscallRecord}
    {line : TraceLine}
    (member : line ∈ record.emitted) :
    line.tid = record.tid ∧ line.tsUs = record.tsUs := by
  unfold emitted at member
  split_ifs at member
  · cases member
  · split at member
    · cases member
    · obtain rfl := List.mem_singleton.mp member
      exact ⟨rfl, rfl⟩

/-- What is read from a line has its thread. -/
theorem Piece.tid_of_mem_emitted
    {piece : Piece}
    {line : TraceLine}
    (member : line ∈ piece.emitted) : line.tid = piece.tid := by
  cases piece with
  | whole record => exact (SyscallRecord.origin_of_mem_emitted member).1
  | unfinished record cut => cases member
  | resumed record cut => exact (Cut.origin_of_mem_emitted member).1
  | exited record =>
      obtain rfl := List.mem_singleton.mp member
      rfl

/-! ## Items -/

namespace TraceItem

/-- The record an item is to be decoded to. -/
def line : TraceItem -> TraceLine
  | .call record _ => record.line
  | .exited record => record.line

/-- An item can be decoded, on one line and as it was printed. -/
structure Readable (item : TraceItem) : Prop where
  closed : ∀ record cut, item = .call record cut -> Closed record.argsText
  finished : ∀ record cut, item = .call record cut ->
    ¬record.ret.Interrupted
  rejoins : ∀ (record : SyscallRecord) (cut : Cut record),
    item = .call record (some cut) -> cut.Clean

variable (item : TraceItem)

theorem tid_line : item.line.tid = item.tid := by
  cases item <;> rfl

theorem tsUs_line : item.line.tsUs = item.tsUs := by
  cases item <;> rfl

theorem line_uncut : item.uncut.line = item.line := by
  cases item <;> rfl

theorem length_emitted_le : item.emitted.length ≤ 1 := by
  cases item with
  | exited record => exact le_rfl
  | call record cut =>
      cases cut with
      | none =>
          change (record.emitted ++ []).length ≤ 1
          rw [List.append_nil]
          exact record.length_emitted_le
      | some cut =>
          change ([] ++ (cut.emitted ++ [])).length ≤ 1
          rw [List.append_nil]
          exact cut.length_emitted_le

/-- What is read from an item has its stamp. -/
theorem tsUs_of_mem_emitted
    {line : TraceLine}
    (member : line ∈ item.emitted) : line.tsUs = item.tsUs := by
  cases item with
  | exited record =>
      obtain rfl := List.mem_singleton.mp member
      rfl
  | call record cut =>
      cases cut with
      | none =>
          change line ∈ record.emitted ++ [] at member
          rw [List.append_nil] at member
          exact (SyscallRecord.origin_of_mem_emitted member).2
      | some cut =>
          change line ∈ [] ++ (cut.emitted ++ []) at member
          rw [List.append_nil, List.nil_append] at member
          exact (Cut.origin_of_mem_emitted member).2

/-- Both ways of printing an item are decoded to its record exactly when it is
readable. -/
theorem readable_iff :
    item.emitted = [item.line] ∧ item.uncut.emitted = [item.line] ↔
      item.Readable := by
  have whole : ∀ record : SyscallRecord,
      (TraceItem.call record none).emitted = record.emitted :=
    fun record => List.append_nil _
  have split : ∀ (record : SyscallRecord) (cut : Cut record),
      (TraceItem.call record (some cut)).emitted = cut.emitted :=
    fun record cut => List.append_nil _
  cases item with
  | exited record =>
      constructor
      · intro
        constructor <;> intro record cut same <;> cases same
      · intro
        exact ⟨rfl, rfl⟩
  | call record cut =>
      cases cut with
      | none =>
          change _ = [record.line] ∧ _ = [record.line] ↔ _
          rw [uncut, whole, and_self, record.emitted_eq_iff]
          constructor
          · rintro ⟨closed, finished⟩
            constructor
            · rintro _ _ ⟨⟩
              exact closed
            · rintro _ _ ⟨⟩
              exact finished
            · rintro _ _ ⟨⟩
          · intro readable
            exact ⟨readable.closed record none rfl,
              readable.finished record none rfl⟩
      | some cut =>
          change _ = [record.line] ∧ _ = [record.line] ↔ _
          rw [uncut, whole, split, record.emitted_eq_iff, cut.emitted_eq_iff]
          constructor
          · rintro ⟨clean, closed, finished⟩
            constructor
            · rintro _ _ ⟨⟩
              exact closed
            · rintro _ _ ⟨⟩
              exact finished
            · rintro _ _ ⟨⟩
              exact clean
          · intro readable
            exact ⟨readable.rejoins record cut rfl,
              readable.closed record (some cut) rfl,
              readable.finished record (some cut) rfl⟩

end TraceItem

/-! ## The lines of a trace -/

/-- The lines of a trace with every call on one line. -/
def unsplit (items : List TraceItem) : List Piece :=
  items.flatMap fun item => item.uncut.pieces

/-- The pieces of an item are its thread's. -/
theorem TraceItem.tid_of_mem_pieces
    {item : TraceItem}
    {piece : Piece}
    (member : piece ∈ item.pieces) : piece.tid = item.tid := by
  cases item with
  | exited record =>
      obtain rfl := List.mem_singleton.mp member
      rfl
  | call record cut =>
      cases cut with
      | none =>
          obtain rfl := List.mem_singleton.mp member
          rfl
      | some cut =>
          rcases List.mem_cons.mp member with rfl | member
          · rfl
          · obtain rfl := List.mem_singleton.mp member
            rfl

/-- Of what some values yield with their own key, that with a key is what the
values with this key yield. -/
theorem filter_flatMap_of_key
    {α β : Type}
    {yields : α -> List β}
    {key : α -> Nat}
    {keyOf : β -> Nat}
    (keyed : ∀ value, ∀ result ∈ yields value, keyOf result = key value)
    (values : List α)
    (wanted : Nat) :
    ((values.flatMap yields).filter fun result => keyOf result = wanted) =
      (values.filter fun value => key value = wanted).flatMap yields := by
  induction values with
  | nil => rfl
  | cons value values hypothesis =>
      rw [List.flatMap_cons, List.filter_append, hypothesis]
      by_cases own : key value = wanted
      · rw [List.filter_cons_of_pos (by simpa using own), List.flatMap_cons]
        refine congrArg (· ++ _) (List.filter_eq_self.mpr ?_)
        intro result member
        rw [keyed value result member]
        exact decide_eq_true own
      · rw [List.filter_cons_of_neg (by simpa using own)]
        refine (congrArg (· ++ _) (List.filter_eq_nil_iff.mpr ?_)).trans
          (List.nil_append _)
        intro result member
        rw [keyed value result member]
        simpa using own

/-- The lines of a thread among those of some items are those of its items. -/
theorem filter_flatMap_pieces (items : List TraceItem) (tid : Nat) :
    ((items.flatMap TraceItem.pieces).filter fun piece => piece.tid = tid) =
      (items.filter fun item => item.tid = tid).flatMap TraceItem.pieces :=
  filter_flatMap_of_key (fun _ _ member => TraceItem.tid_of_mem_pieces member)
    items tid

/-- Interleaved lines are the lines of the items, in some order. -/
theorem Interleaves.perm
    {items : List TraceItem}
    {pieces : List Piece}
    (interleaves : Interleaves items pieces) :
    pieces.Perm (items.flatMap TraceItem.pieces) := by
  classical
  apply List.perm_iff_count.mpr
  intro piece
  have own : ∀ lines : List Piece, lines.count piece =
      (lines.filter fun other => other.tid = piece.tid).count piece := by
    intro lines
    rw [List.count_filter]
    exact decide_eq_true rfl
  rw [own pieces, own (items.flatMap _), interleaves, filter_flatMap_pieces]

theorem interleaves_unsplit (items : List TraceItem) :
    Interleaves (items.map TraceItem.uncut) (unsplit items) := by
  intro tid
  have shape : unsplit items =
      (items.map TraceItem.uncut).flatMap TraceItem.pieces := by
    rw [List.flatMap_map]
    rfl
  rw [shape, filter_flatMap_pieces]

end Exec
end Marsh
