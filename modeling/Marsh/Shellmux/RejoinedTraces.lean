import Marsh.Exec.Rejoining
import Marsh.Shellmux.ExecutionEvidence

/-!
# Evidence of split traces

A trace whose calls were split over lines of other threads gives the evidence of
the same trace with every call on one line, and that evidence holds every call,
exactly when each call can be put together and the trace still starts with the
root.
-/

namespace Marsh
namespace Shellmux

open Library
open Exec

/-! ## The root -/

/-- Whether a line completes what it prints. -/
def completes : Piece -> Bool
  | .unfinished _ _ => false
  | .whole _ | .resumed _ _ | .exited _ => true

/-- The thread of the first line that is complete. -/
def firstThread (pieces : List Piece) : Option Nat :=
  (pieces.find? completes).map Piece.tid

/-- What an item reports for a thread's exit, or what was reported before. -/
def exitOfItem (tid : Nat) (reported : Option Int) : TraceItem -> Option Int
  | .call _ _ => reported
  | .exited record =>
      if record.tid = tid then some record.status else reported

/-- The status of a thread's last exit record. -/
def lastExit (items : List TraceItem) (tid : Nat) : Option Int :=
  items.foldl (exitOfItem tid) none

/-- The first complete line is of the thread of the first call, or their last
exit records report the same. -/
def KeepsRoot (items : List TraceItem) (pieces : List Piece) : Prop :=
  (firstThread pieces).bind (lastExit items) =
    (items.head?.map TraceItem.tid).bind (lastExit items)

/-- Another thread's line is not the root's exit. -/
theorem foldl_exitOf_filter
    (tid : Nat)
    (lines : List TraceLine)
    (reported : Option Int) :
    lines.foldl (ExecutionEvidence.exitOf (some tid)) reported =
      (lines.filter fun line => line.tid = tid).foldl
        (ExecutionEvidence.exitOf (some tid)) reported := by
  induction lines generalizing reported with
  | nil => rfl
  | cons line lines hypothesis =>
      rw [List.foldl_cons, hypothesis]
      by_cases own : line.tid = tid
      · rw [List.filter_cons_of_pos (by simpa using own), List.foldl_cons]
      · rw [List.filter_cons_of_neg (by simpa using own)]
        have unmoved : ExecutionEvidence.exitOf (some tid) reported line =
            reported := by
          unfold ExecutionEvidence.exitOf
          cases line.call with
          | exited status => exact if_neg (by simpa using own)
          | syscall name args ret retPath => rfl
        rw [unmoved]

/-- The decoded items report the exits of their records. -/
theorem foldl_exitOf_lines
    (tid : Nat)
    (items : List TraceItem)
    (reported : Option Int) :
    (items.map TraceItem.line).foldl (ExecutionEvidence.exitOf (some tid))
        reported =
      items.foldl (exitOfItem tid) reported := by
  induction items generalizing reported with
  | nil => rfl
  | cons item items hypothesis =>
      rw [List.map_cons, List.foldl_cons, List.foldl_cons, hypothesis]
      apply congrArg (fun reported => items.foldl (exitOfItem tid) reported)
      cases item with
      | call record cut => rfl
      | exited record =>
          exact ite_congr (by simp [TraceItem.line, ExitRecord.line])
            (fun _ => rfl) fun _ => rfl

/-! ## Readable traces -/

section Readable

variable {items : List TraceItem} {pieces : List Piece}

/-- Readable items are decoded to their records. -/
theorem flatMap_emitted_of_readable
    (readable : ∀ item ∈ items, item.Readable) :
    items.flatMap TraceItem.emitted = items.map TraceItem.line := by
  apply (flatMap_eq_map_iff TraceItem.length_emitted_le items).mpr
  intro item member
  exact ((item.readable_iff).mpr (readable item member)).1

/-- The lines read from interleaved pieces are those read from the items, in some
order, and those of a thread in its own. -/
theorem emitted_of_interleaves
    (interleaves : Interleaves items pieces) :
    (pieces.flatMap Piece.emitted).Perm (items.flatMap TraceItem.emitted) ∧
      ∀ tid, (pieces.flatMap Piece.emitted).filter (fun line => line.tid = tid) =
        (items.filter fun item => item.tid = tid).flatMap
          TraceItem.emitted := by
  have items_eq : ∀ items : List TraceItem,
      (items.flatMap TraceItem.pieces).flatMap Piece.emitted =
        items.flatMap TraceItem.emitted :=
    fun items => List.flatMap_assoc
  constructor
  · rw [← items_eq]
    exact interleaves.perm.flatMap_right _
  · intro tid
    rw [filter_flatMap_of_key (fun _ _ member =>
      Piece.tid_of_mem_emitted member), interleaves tid, items_eq]

/-- Two items with one stamp are one item. -/
theorem eq_of_tsUs_eq
    (distinct : (items.map TraceItem.tsUs).Nodup)
    {first second : TraceItem}
    (firstMember : first ∈ items)
    (secondMember : second ∈ items)
    (same : first.tsUs = second.tsUs) : first = second :=
  List.inj_on_of_nodup_map distinct firstMember secondMember same

/-- Where every record is read, each item's own line is. -/
theorem eq_singleton_of_perm
    (distinct : (items.map TraceItem.tsUs).Nodup)
    {yields : TraceItem -> List TraceLine}
    (short : ∀ item, (yields item).length ≤ 1)
    (stamped : ∀ item, ∀ line ∈ yields item, line.tsUs = item.tsUs)
    (permuted : (items.flatMap yields).Perm (items.map TraceItem.line))
    {item : TraceItem}
    (member : item ∈ items) : yields item = [item.line] := by
  have read : item.line ∈ items.flatMap yields :=
    permuted.mem_iff.mpr (List.mem_map_of_mem member)
  obtain ⟨other, otherMember, yielded⟩ := List.mem_flatMap.mp read
  have stamp := stamped other _ yielded
  rw [item.tsUs_line] at stamp
  obtain rfl := eq_of_tsUs_eq distinct member otherMember stamp
  obtain ⟨before, after, yields_eq⟩ := List.append_of_mem yielded
  have length := short item
  rw [yields_eq, List.length_append, List.length_cons] at length
  obtain rfl := List.eq_nil_of_length_eq_zero (by omega : before.length = 0)
  obtain rfl := List.eq_nil_of_length_eq_zero (by omega : after.length = 0)
  exact yields_eq

/-- In a readable trace a complete line is read. -/
theorem exists_emitted_of_completes
    (readable : ∀ item ∈ items, item.Readable)
    (interleaves : Interleaves items pieces)
    {piece : Piece}
    (member : piece ∈ pieces)
    (complete : completes piece = true) : ∃ line, piece.emitted = [line] := by
  have inItems := interleaves.perm.mem_iff.mp member
  obtain ⟨item, itemMember, pieceMember⟩ := List.mem_flatMap.mp inItems
  have own := readable item itemMember
  cases item with
  | exited record =>
      obtain rfl := List.mem_singleton.mp pieceMember
      exact ⟨_, rfl⟩
  | call record cut =>
      cases cut with
      | none =>
          obtain rfl := List.mem_singleton.mp pieceMember
          exact ⟨record.line, record.emitted_eq_iff.mpr
            ⟨own.closed record none rfl, own.finished record none rfl⟩⟩
      | some cut =>
          rcases List.mem_cons.mp pieceMember with rfl | pieceMember
          · cases complete
          · obtain rfl := List.mem_singleton.mp pieceMember
            exact ⟨record.line, cut.emitted_eq_iff.mpr
              (own.rejoins record cut rfl)⟩

/-- The first line read is the first complete one. -/
theorem head?_emitted
    (readable : ∀ item ∈ items, item.Readable)
    (interleaves : Interleaves items pieces) :
    (pieces.flatMap Piece.emitted).head?.map TraceLine.tid =
      firstThread pieces := by
  have read := fun piece member =>
    @exists_emitted_of_completes items pieces readable interleaves piece member
  clear interleaves
  unfold firstThread
  induction pieces with
  | nil => rfl
  | cons piece pieces hypothesis =>
      rw [List.flatMap_cons]
      cases complete : completes piece with
      | true =>
          obtain ⟨line, emits⟩ := read piece List.mem_cons_self complete
          have own : line ∈ piece.emitted := by
            rw [emits]
            exact List.mem_singleton_self line
          rw [List.find?_cons_of_pos complete, emits]
          exact congrArg some (Piece.tid_of_mem_emitted own)
      | false =>
          have nothing : piece.emitted = [] := by
            cases piece <;> first
              | rfl
              | cases complete
          rw [List.find?_cons_of_neg (by simp [complete]), nothing,
            List.nil_append]
          exact hypothesis fun other member =>
            read other (List.mem_cons_of_mem _ member)

/-- The exit status of a readable trace. -/
theorem rootExit_merge
    (readable : ∀ item ∈ items, item.Readable)
    (interleaves : Interleaves items pieces)
    (records : List BuiltinRecord) :
    (ExecutionEvidence.merge (pieces.flatMap Piece.emitted) records).rootExit =
      (firstThread pieces).bind (lastExit items) := by
  rw [← head?_emitted readable interleaves]
  unfold ExecutionEvidence.merge
  dsimp only
  cases root : (pieces.flatMap Piece.emitted).head?.map TraceLine.tid with
  | none =>
      have nothing : pieces.flatMap Piece.emitted = [] :=
        List.head?_eq_none_iff.mp (Option.map_eq_none_iff.mp root)
      rw [nothing]
      rfl
  | some tid =>
      have lines_eq : ((items.filter fun item => item.tid = tid).map
          TraceItem.line) =
            (items.map TraceItem.line).filter fun line => line.tid = tid := by
        rw [List.filter_map]
        refine congrArg _ (List.filter_congr fun item _ => ?_)
        simp [TraceItem.tid_line]
      rw [foldl_exitOf_filter, (emitted_of_interleaves interleaves).2,
        flatMap_emitted_of_readable fun item member =>
          readable item (List.mem_of_mem_filter member),
        lines_eq, ← foldl_exitOf_filter, foldl_exitOf_lines]
      rfl

/-! ## Exactly when nothing is lost -/

/-- The evidence of a printed trace. -/
theorem parse_renderTrace
    {parseRecords : Text -> Except Text (List BuiltinRecord)}
    {builtinText : Text}
    {records : List BuiltinRecord}
    (parsed : parseRecords builtinText = .ok records)
    (interleaves : Interleaves items pieces) :
    ExecutionEvidence.parse parseRecords (renderTrace pieces) builtinText =
      .ok (ExecutionEvidence.merge (pieces.flatMap Piece.emitted) records) := by
  unfold ExecutionEvidence.parse
  rw [parseTrace_renderTrace interleaves, parsed]
  rfl

/-- Items keep their lines when their calls are put on one. -/
theorem readable_uncut
    (readable : ∀ item ∈ items, item.Readable) :
    ∀ item ∈ items.map TraceItem.uncut, item.Readable := by
  intro item member
  obtain ⟨source, sourceMember, rfl⟩ := List.mem_map.mp member
  have own := readable source sourceMember
  cases source with
  | exited record => exact own
  | call record cut =>
      constructor
      · rintro _ _ ⟨⟩
        exact own.closed record cut rfl
      · rintro _ _ ⟨⟩
        exact own.finished record cut rfl
      · rintro _ _ ⟨⟩

/-- The threads and the exits of items do not depend on how calls are printed. -/
theorem firstThread_unsplit (items : List TraceItem) :
    firstThread (unsplit items) = items.head?.map TraceItem.tid := by
  cases items with
  | nil => rfl
  | cons item items => cases item <;> rfl

theorem lastExit_uncut (items : List TraceItem) :
    lastExit (items.map TraceItem.uncut) = lastExit items := by
  funext tid
  unfold lastExit
  rw [List.foldl_map]
  apply congrArg (fun step => items.foldl step none)
  funext reported item
  cases item <;> rfl

/-- Sorted among the records, the lines of a trace may come in any order. -/
theorem events_merge_of_perm
    (distinct : (items.map TraceItem.tsUs).Nodup)
    (records : List BuiltinRecord)
    {lines : List TraceLine}
    (permuted : lines.Perm (items.map TraceItem.line)) :
    (ExecutionEvidence.merge lines records).events =
      (ExecutionEvidence.merge (items.map TraceItem.line) records).events := by
  apply insertionSort_append_of_perm (permuted.map ExecutionEvent.system)
  intro first firstMember second secondMember before after
  obtain ⟨firstLine, firstRead, rfl⟩ := List.mem_map.mp firstMember
  obtain ⟨secondLine, secondRead, rfl⟩ := List.mem_map.mp secondMember
  obtain ⟨firstItem, firstIn, rfl⟩ :=
    List.mem_map.mp (permuted.mem_iff.mp firstRead)
  obtain ⟨secondItem, secondIn, rfl⟩ :=
    List.mem_map.mp (permuted.mem_iff.mp secondRead)
  have same : firstItem.tsUs = secondItem.tsUs := by
    simp only [ExecutionEvent.KeyLe, ExecutionEvent.key, TraceItem.tsUs_line]
      at before after
    omega
  rw [eq_of_tsUs_eq distinct firstIn secondIn same]

/-- The lines of the evidence are those that were read. -/
theorem perm_lines_of_events
    {lines others : List TraceLine}
    {records : List BuiltinRecord}
    (permuted : (ExecutionEvidence.merge lines records).events.Perm
      (others.map ExecutionEvent.system ++ records.map BuiltinRecord.event)) :
    lines.Perm others := by
  have both := ((ExecutionEvidence.perm_events lines records).symm.trans
    permuted)
  have systems := (List.perm_append_right_iff _).mp both
  exact (List.map_perm_map_iff (fun _ _ same =>
    ExecutionEvent.system.inj same)).mp systems

/-- A split trace gives the evidence of the unsplit one, with every record and
every call in the order of the stamps, exactly when every item is readable and
the root is the same thread's. -/
theorem parse_split_iff
    {parseRecords : Text -> Except Text (List BuiltinRecord)}
    {builtinText : Text}
    {records : List BuiltinRecord}
    (parsed : parseRecords builtinText = .ok records)
    (interleaves : Interleaves items pieces)
    (distinct : (items.map TraceItem.tsUs).Nodup) :
    (∃ evidence,
      ExecutionEvidence.parse parseRecords (renderTrace pieces) builtinText =
          .ok evidence ∧
        ExecutionEvidence.parse parseRecords (renderTrace (unsplit items))
            builtinText = .ok evidence ∧
        evidence.events.Perm
          ((items.map TraceItem.line).map ExecutionEvent.system ++
            records.map BuiltinRecord.event) ∧
        evidence.events.Pairwise ExecutionEvent.KeyLe) ↔
      (∀ item ∈ items, item.Readable) ∧ KeepsRoot items pieces := by
  have whole := interleaves_unsplit items
  have uncutLines : (items.map TraceItem.uncut).map TraceItem.line =
      items.map TraceItem.line := by
    rw [List.map_map]
    exact List.map_congr_left fun item _ => item.line_uncut
  rw [parse_renderTrace parsed interleaves, parse_renderTrace parsed whole]
  have roots : (∀ item ∈ items, item.Readable) ->
      ((ExecutionEvidence.merge (pieces.flatMap Piece.emitted)
          records).rootExit =
        (ExecutionEvidence.merge ((unsplit items).flatMap Piece.emitted)
          records).rootExit ↔ KeepsRoot items pieces) := by
    intro readable
    rw [rootExit_merge readable interleaves,
      rootExit_merge (readable_uncut readable) whole, firstThread_unsplit,
      lastExit_uncut]
    rfl
  constructor
  · rintro ⟨evidence, same, unsplit_eq, permuted, -⟩
    have evidence_eq := Except.ok.inj same
    subst evidence_eq
    have unsplit_eq := Except.ok.inj unsplit_eq
    have splitLines := perm_lines_of_events permuted
    rw [← unsplit_eq] at permuted
    have wholeLines := perm_lines_of_events permuted
    have readable : ∀ item ∈ items, item.Readable := by
      intro item member
      apply item.readable_iff.mp
      constructor
      · exact eq_singleton_of_perm distinct TraceItem.length_emitted_le
          (fun item line => item.tsUs_of_mem_emitted)
          ((emitted_of_interleaves interleaves).1.symm.trans splitLines) member
      · have wholeRead := (emitted_of_interleaves whole).1.symm.trans wholeLines
        rw [List.flatMap_map] at wholeRead
        exact @eq_singleton_of_perm items distinct
          (fun item => item.uncut.emitted)
          (fun item => item.uncut.length_emitted_le)
          (fun item line read => (item.uncut.tsUs_of_mem_emitted read).trans (by
            cases item <;> rfl)) wholeRead item member
    refine ⟨readable, (roots readable).mp ?_⟩
    rw [unsplit_eq]
  · rintro ⟨readable, keepsRoot⟩
    have splitLines : (pieces.flatMap Piece.emitted).Perm
        (items.map TraceItem.line) := by
      rw [← flatMap_emitted_of_readable readable]
      exact (emitted_of_interleaves interleaves).1
    have wholeLines : ((unsplit items).flatMap Piece.emitted).Perm
        (items.map TraceItem.line) := by
      rw [← uncutLines,
        ← flatMap_emitted_of_readable (readable_uncut readable)]
      exact (emitted_of_interleaves whole).1
    have splitEvents := events_merge_of_perm distinct records splitLines
    have wholeEvents := events_merge_of_perm distinct records wholeLines
    have rootExits := (roots readable).mpr keepsRoot
    refine ⟨_, rfl, congrArg Except.ok ?_, ?_, ?_⟩
    · ext1
      · rw [wholeEvents, splitEvents]
      · exact rootExits.symm
    · rw [splitEvents]
      exact ExecutionEvidence.perm_events _ _
    · exact ExecutionEvidence.pairwise_events _ _

end Readable

/-! ## A bracket in a directory's name -/

/-- `5</work/a(b>`: a directory with a bracket in its name. -/
def bracketDirectory : Argument where
  tokens := .word '5' (.decorated "/work/a(b".toList .done)
  formed := ⟨by decide, ⟨by decide, List.all_eq_true.mp (by decide)⟩, trivial⟩
  tight := ⟨⟨'5', _, rfl, by decide⟩, ⟨"5</work/a(b".toList, '>', rfl, by decide⟩⟩

theorem tight_quotedName :
    Text.Tight (Tokens.render (.quoted [120] .done)) :=
  ⟨⟨'"', _, rfl, by decide⟩, ⟨['"', 'x'], '"', rfl, by decide⟩⟩

/-- `"x"` -/
def nameArgument : Argument where
  tokens := .quoted [120] .done
  formed := trivial
  tight := tight_quotedName

/-- A call with some arguments. -/
def plainCall
    (tid tsUs : Nat)
    (args : List Argument)
    (isThread : tid < 2 ^ 32)
    (isStamp : tsUs < 2 ^ 64) : SyscallRecord where
  tid := tid
  tsUs := tsUs
  name := "mkdirat".toList
  args := args
  ret := .value 0 (by decide) (by decide)
  tidBlanks := 0
  retBlanks := 0
  isThread := isThread
  isStamp := isStamp
  isName := ⟨by decide, by decide⟩

theorem isThread_seven : 7 < 2 ^ 32 := by decide

/-- `mkdirat(5</work/a(b>, "x") = 0` -/
def bracketCall : SyscallRecord :=
  plainCall 7 1 [bracketDirectory, nameArgument] isThread_seven (by decide)

/-- Another thread's `mkdirat("x") = 0`. -/
def otherCall : SyscallRecord :=
  plainCall 8 2 [nameArgument] (by decide) (by decide)

/-- The call, interrupted after its last argument. -/
def bracketCut : Cut bracketCall where
  before := bracketCall.argsText
  after := []
  args_eq := List.append_nil _
  tidBlanks := 0
  tsUs := 3
  isStamp := by decide

/-- A trace of two threads. -/
def bracketItems : List TraceItem :=
  [.call bracketCall (some bracketCut), .call otherCall none]

/-- The lines of two calls of different threads, one within the other. -/
def nested (record other : SyscallRecord) (cut : Cut record) : List Piece :=
  [.unfinished record cut, .whole other, .resumed record cut]

theorem interleaves_nested
    {record other : SyscallRecord}
    (apart : record.tid ≠ other.tid)
    (cut : Cut record) :
    Interleaves [.call record (some cut), .call other none]
      (nested record other cut) := by
  intro tid
  by_cases own : record.tid = tid
  · have others : other.tid ≠ tid := fun same => apart (own.trans same.symm)
    simp [nested, Piece.tid, TraceItem.tid, TraceItem.pieces, own, others]
  · by_cases others : other.tid = tid
    · simp [nested, Piece.tid, TraceItem.tid, TraceItem.pieces, own, others]
    · simp [nested, Piece.tid, TraceItem.tid, own, others]

/-- A call in a directory with a bracket in its name is lost when it stands on
one line, and found when it is split. -/
theorem not_parse_split_bracket :
    ¬∃ evidence,
      ExecutionEvidence.parse (fun _ => .ok [])
          (renderTrace (nested bracketCall otherCall bracketCut)) [] =
          .ok evidence ∧
        ExecutionEvidence.parse (fun _ => .ok [])
            (renderTrace (unsplit bracketItems)) [] = .ok evidence := by
  rintro ⟨evidence, split, whole⟩
  rw [parse_renderTrace rfl (interleaves_nested (by decide) bracketCut)]
    at split
  rw [parse_renderTrace rfl (interleaves_unsplit bracketItems), ← split]
    at whole
  have events := congrArg (fun evidence => evidence.events.length)
    (Except.ok.inj whole)
  revert events
  decide

/-- `mkdirat("x") = 0`, interrupted before its argument. -/
def cleanCut :
    Cut (plainCall 7 1 [nameArgument] isThread_seven (by decide)) where
  before := []
  after := ['"', 'x', '"']
  args_eq := by decide
  tidBlanks := 0
  tsUs := 3
  isStamp := by decide

/-- A call whose arguments are closed and whose cut is clean can be decoded. -/
theorem readable_plainCall
    {tid tsUs : Nat}
    {args : List Argument}
    {isThread : tid < 2 ^ 32}
    {isStamp : tsUs < 2 ^ 64}
    (cut : Option (Cut (plainCall tid tsUs args isThread isStamp)))
    (closed : Closed (plainCall tid tsUs args isThread isStamp).argsText)
    (rejoins : ∀ own ∈ cut, own.Clean) :
    (TraceItem.call _ cut).Readable where
  closed record own same := by
    cases same
    exact closed
  finished record own same := by
    cases same
    rintro ⟨path, returned, -⟩
    cases returned
  rejoins record own same := by
    cases same
    exact rejoins own rfl

/-- A call with plain arguments is found in either trace. -/
theorem parse_split_clean :
    ∃ evidence,
      ExecutionEvidence.parse (fun _ => .ok [])
          (renderTrace (nested _ otherCall cleanCut)) [] = .ok evidence ∧
        ExecutionEvidence.parse (fun _ => .ok [])
            (renderTrace (unsplit [.call _ (some cleanCut),
              .call otherCall none])) [] = .ok evidence := by
  have readable : ∀ item ∈ [TraceItem.call _ (some cleanCut),
      .call otherCall none], item.Readable := by
    intro item member
    rcases List.mem_pair.mp member with rfl | rfl
    · exact readable_plainCall _ rfl (by
        rintro own ⟨⟩
        exact ⟨rfl, rfl⟩)
    · exact readable_plainCall _ rfl (by rintro own ⟨⟩)
  obtain ⟨evidence, split, whole, -⟩ :=
    (@parse_split_iff _ _ (fun _ => .ok []) [] [] rfl
      (interleaves_nested (by decide) cleanCut) (by decide)).mpr
        ⟨readable, rfl⟩
  exact ⟨evidence, split, whole⟩

end Shellmux
end Marsh
