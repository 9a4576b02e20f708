import Marsh.Exec.TraceDecoding

/-!
# Split calls

A call whose line strace interrupts is printed on two lines, between which lines
of other threads may stand.  What is read from such a trace is what its pieces
say, in the order in which calls are completed.
-/

namespace Marsh
namespace Exec

open Library

/-! ## Pieces -/

/-- Where a call's line was cut, and the prefix of its second line. -/
structure Cut (record : SyscallRecord) where
  before : Text
  after : Text
  args_eq : before ++ after = record.argsText
  tidBlanks : Nat
  tsUs : Nat
  isStamp : tsUs < 2 ^ 64

/-- A process exit record. -/
structure ExitRecord where
  tid : Nat
  tsUs : Nat
  status : Nat
  tidBlanks : Nat
  isThread : tid < 2 ^ 32
  isStamp : tsUs < 2 ^ 64
  isStatus : status < 2 ^ 31

namespace ExitRecord

variable (record : ExitRecord)

/-- The line of an exit record. -/
def render : Text :=
  lineStart record.tid record.tidBlanks record.tsUs ++
    ("+++ exited with ".toList ++ (Nat.toDigits 10 record.status ++
      " +++".toList))

/-- The record the line is to be decoded to. -/
def line : TraceLine := ⟨record.tid, record.tsUs, .exited record.status⟩

end ExitRecord

namespace Cut

variable {record : SyscallRecord} (cut : Cut record)

/-- What the second line of a call prints after its name. -/
def tail : Text :=
  cut.after ++ ')' :: (List.replicate (record.retBlanks + 1) ' ' ++
    '=' :: ' ' :: record.ret.render)

/-- The first line of a call. -/
def unfinishedLine : Text :=
  lineStart record.tid record.tidBlanks record.tsUs ++
    (record.name ++ '(' :: (cut.before ++ ' ' :: unfinished))

/-- The second line of a call. -/
def resumedLine : Text :=
  lineStart record.tid cut.tidBlanks cut.tsUs ++
    ("<... ".toList ++ (record.name ++ (" resumed>".toList ++ cut.tail)))

theorem body_eq : record.body = cut.before ++ cut.tail := by
  rw [SyscallRecord.body, ← cut.args_eq, tail, List.append_assoc]

/-- What is read when a call is completed by its second line. -/
def emitted : List TraceLine :=
  match splitClose cut.tail with
  | none => []
  | some (args, retText) =>
      let ret := parseReturn retText
      [⟨record.tid, record.tsUs,
        .syscall record.name (Text.trimEnd cut.before ++ args) ret.1 ret.2⟩]

end Cut

/-- A line of a trace. -/
inductive Piece
  | whole (record : SyscallRecord)
  | unfinished (record : SyscallRecord) (cut : Cut record)
  | resumed (record : SyscallRecord) (cut : Cut record)
  | exited (record : ExitRecord)

namespace Piece

/-- The thread of a line. -/
def tid : Piece -> Nat
  | .whole record | .unfinished record _ | .resumed record _ => record.tid
  | .exited record => record.tid

/-- The text of a line. -/
def render : Piece -> Text
  | .whole record => record.render
  | .unfinished _ cut => cut.unfinishedLine
  | .resumed _ cut => cut.resumedLine
  | .exited record => record.render

/-- What is read from a line, given the lines before it. -/
def emitted : Piece -> List TraceLine
  | .whole record => record.emitted
  | .unfinished _ _ => []
  | .resumed _ cut => cut.emitted
  | .exited record => [record.line]

end Piece

/-- A call, which may be split, or an exit. -/
inductive TraceItem
  | call (record : SyscallRecord) (cut : Option (Cut record))
  | exited (record : ExitRecord)

namespace TraceItem

/-- The thread of an item. -/
def tid : TraceItem -> Nat
  | .call record _ => record.tid
  | .exited record => record.tid

/-- The stamp of an item: that of the entry of a call. -/
def tsUs : TraceItem -> Nat
  | .call record _ => record.tsUs
  | .exited record => record.tsUs

/-- The lines of an item. -/
def pieces : TraceItem -> List Piece
  | .call record none => [.whole record]
  | .call record (some cut) => [.unfinished record cut, .resumed record cut]
  | .exited record => [.exited record]

/-- The item with its call on one line. -/
def uncut : TraceItem -> TraceItem
  | .call record _ => .call record none
  | .exited record => .exited record

/-- What is read from an item. -/
def emitted (item : TraceItem) : List TraceLine :=
  item.pieces.flatMap Piece.emitted

end TraceItem

/-- The lines of some items, interleaved: each thread's own keep their order. -/
def Interleaves (items : List TraceItem) (pieces : List Piece) : Prop :=
  ∀ tid, (pieces.filter fun piece => piece.tid = tid) =
    (items.filter fun item => item.tid = tid).flatMap TraceItem.pieces

/-- The text of a trace. -/
def renderTrace (pieces : List Piece) : Text :=
  pieces.flatMap fun piece => piece.render ++ ['\n']

/-! ## Reading one line -/

/-- A line whose last character is visible is tight. -/
theorem tight_lineStart
    (tid tidBlanks tsUs : Nat)
    {call : Text}
    (ends : ∃ rest last, call = rest ++ [last] ∧
      Text.isWhitespace last = false) :
    Text.Tight (lineStart tid tidBlanks tsUs ++ call) := by
  obtain ⟨rest, last, rfl, visible⟩ := ends
  have shape : lineStart tid tidBlanks tsUs ++ (rest ++ [last]) =
      Nat.toDigits 10 tid ++ ((List.replicate (tidBlanks + 1) ' ' ++
        (Nat.toDigits 10 (tsUs / 1000000) ++ '.' ::
          (sixDigits (tsUs % 1000000) ++ ' ' :: rest))) ++ [last]) := by
    simp [lineStart]
  rw [shape]
  exact (Text.tight_toDigits (by decide) (by decide) tid).append
    ⟨_, last, rfl, visible⟩

/-- What a line of a call adds to what was read. -/
theorem lines_readCall
    (state : TraceState)
    (record : SyscallRecord) :
    (state.readCall record.tid record.tsUs record.name record.body).lines =
      state.lines ++ record.emitted := by
  unfold TraceState.readCall SyscallRecord.emitted
  by_cases interrupted : unfinished <:+ record.body
  · obtain ⟨start, same⟩ := interrupted
    have strip : Text.stripSuffix unfinished record.body = some start := by
      rw [← same]
      exact Text.stripSuffix_append start unfinished
    rw [strip, if_pos ⟨start, same⟩, List.append_nil]
  · rw [Text.stripSuffix_eq_none interrupted, if_neg interrupted]
    dsimp only
    cases splitClose record.body with
    | none => exact (List.append_nil _).symm
    | some parts => rfl

/-- A line of a call leaves other threads' interrupted calls. -/
theorem find?_pending_readCall
    (state : TraceState)
    {tid tsUs : Nat}
    {name body : Text}
    {other : Nat}
    (apart : tid ≠ other)
    (name' : Text) :
    (state.readCall tid tsUs name body).pending.find?
        (fun call => call.tid = other && call.name = name') =
      state.pending.find?
        (fun call => call.tid = other && call.name = name') := by
  unfold TraceState.readCall
  split
  · rw [List.find?_cons_of_neg]
    simp [apart]
  · split <;> rfl

namespace Cut

variable {record : SyscallRecord} (cut : Cut record)

/-- The first line of a call leaves it interrupted. -/
theorem parseLine_unfinishedLine (state : TraceState) :
    parseLine state cut.unfinishedLine =
      .ok { state with
        pending := ⟨record.tid, record.name, record.tsUs,
          Text.trimEnd cut.before⟩ :: state.pending } := by
  have ends : ∃ rest last, record.name ++ '(' :: (cut.before ++ ' ' :: unfinished) =
      rest ++ [last] ∧ Text.isWhitespace last = false :=
    ⟨record.name ++ '(' :: (cut.before ++ ' ' :: "<unfinished ...".toList), '>',
      by rw [unfinished_eq]; simp, by decide⟩
  have tight := tight_lineStart record.tid record.tidBlanks record.tsUs ends
  have strip : Text.stripSuffix unfinished (cut.before ++ ' ' :: unfinished) =
      some (cut.before ++ [' ']) := by
    have shape : cut.before ++ ' ' :: unfinished =
        (cut.before ++ [' ']) ++ unfinished := by simp
    rw [shape, Text.stripSuffix_append]
  have trimmed : Text.trimEnd (cut.before ++ [' ']) =
      Text.trimEnd cut.before :=
    List.rdropWhile_concat_pos _ _ _ (by decide)
  rw [unfinishedLine, parseLine_call state record.isThread record.isStamp _
    record.isName tight]
  unfold TraceState.readCall
  rw [strip]
  dsimp only
  rw [trimmed]

/-- The second line of a call completes it. -/
theorem parseLine_resumedLine
    {state : TraceState}
    (waiting : state.pending.find? (fun call =>
        call.tid = record.tid && call.name = record.name) =
      some ⟨record.tid, record.name, record.tsUs, Text.trimEnd cut.before⟩) :
    parseLine state cut.resumedLine =
      .ok ⟨state.lines ++ cut.emitted, state.pending.eraseP fun call =>
        call.tid = record.tid && call.name = record.name⟩ := by
  obtain ⟨rest, last, ret_eq, visible⟩ := record.ret.tight.ends
  have ends : ∃ rest last, "<... ".toList ++
      (record.name ++ (" resumed>".toList ++ cut.tail)) = rest ++ [last] ∧
        Text.isWhitespace last = false := by
    refine ⟨"<... ".toList ++ (record.name ++ (" resumed>".toList ++
      (cut.after ++ ')' :: (List.replicate (record.retBlanks + 1) ' ' ++
        '=' :: ' ' :: rest)))), last, ?_, visible⟩
    rw [tail, ret_eq]
    simp only [List.append_assoc, List.cons_append]
  have tight := tight_lineStart record.tid cut.tidBlanks cut.tsUs ends
  have starts : Text.trimStart ("<... ".toList ++
      (record.name ++ (" resumed>".toList ++ cut.tail))) =
        "<... ".toList ++ (record.name ++ (" resumed>".toList ++ cut.tail)) :=
    Text.trimStart_of_starts (by decide) _
  have split : Text.splitOnce " resumed>".toList
      (record.name ++ (" resumed>".toList ++ cut.tail)) =
        some (record.name, cut.tail) :=
    Text.splitOnce_pattern_append (record.isName.notMem (by decide)) _ _
  have taken : takePending state.pending record.tid record.name =
      some (⟨record.tid, record.name, record.tsUs, Text.trimEnd cut.before⟩,
        state.pending.eraseP fun call =>
          call.tid = record.tid && call.name = record.name) := by
    rw [takePending, waiting]
    rfl
  have apart : ∀ {start rest : Text} {char : Char}, start = char :: rest ->
      char ≠ '<' -> ¬ start <+: "<... ".toList ++
        (record.name ++ (" resumed>".toList ++ cut.tail)) := by
    rintro start rest char rfl other startsWith
    exact other (List.cons_prefix_cons.mp startsWith).1
  have note : ¬ ("+++".toList <+: "<... ".toList ++
      (record.name ++ (" resumed>".toList ++ cut.tail)) ∨
      "---".toList <+: "<... ".toList ++
        (record.name ++ (" resumed>".toList ++ cut.tail)) ∨
      "strace:".toList <+: "<... ".toList ++
        (record.name ++ (" resumed>".toList ++ cut.tail))) :=
    not_or.mpr ⟨apart rfl (by decide),
      not_or.mpr ⟨apart rfl (by decide), apart rfl (by decide)⟩⟩
  have exit : ¬ "+++ exited with ".toList <+: "<... ".toList ++
      (record.name ++ (" resumed>".toList ++ cut.tail)) :=
    apart rfl (by decide)
  rw [resumedLine]
  unfold parseLine
  rw [tight.trimEnd]
  dsimp only
  rw [if_neg tight.ne_nil,
    splitPrefix_lineStart record.isThread cut.isStamp cut.tidBlanks starts]
  dsimp only
  rw [Text.stripPrefix_eq_none exit]
  dsimp only
  rw [if_neg note, Text.stripPrefix_append]
  dsimp only
  rw [split]
  dsimp only
  rw [taken]
  unfold emitted
  dsimp only
  cases splitClose cut.tail with
  | none => rw [List.append_nil]
  | some parts => rfl

end Cut

/-- An exit record is read as one. -/
theorem ExitRecord.parseLine_render
    (record : ExitRecord)
    (state : TraceState) :
    parseLine state record.render =
      .ok { state with lines := state.lines ++ [record.line] } := by
  let digits := Nat.toDigits 10 record.status
  have tight : Text.Tight digits :=
    Text.tight_toDigits (by decide) (by decide) record.status
  have ends : ∃ rest last, "+++ exited with ".toList ++
      (digits ++ " +++".toList) = rest ++ [last] ∧
        Text.isWhitespace last = false :=
    ⟨"+++ exited with ".toList ++ (digits ++ " ++".toList), '+', by
      rw [List.append_assoc, List.append_assoc]
      rfl, by decide⟩
  have tightLine := tight_lineStart record.tid record.tidBlanks record.tsUs ends
  have starts : Text.trimStart ("+++ exited with ".toList ++
      (digits ++ " +++".toList)) =
        "+++ exited with ".toList ++ (digits ++ " +++".toList) :=
    Text.trimStart_of_starts (by decide) _
  have bare : ¬ " +++".toList <:+ digits := by
    intro suffix
    have digit := Text.digitValue_isSome_of_mem (by decide) (by decide)
      (suffix.mem List.mem_cons_self)
    exact absurd digit (by decide)
  have trimmed : trimEndMatches " +++".toList (digits ++ " +++".toList) =
      digits := by
    rw [trimEndMatches, Text.stripSuffix_append]
    dsimp only
    rw [if_pos (by simp), trimEndMatches, Text.stripSuffix_eq_none bare]
  have status : parseSigned 10 32 digits = some (record.status : Int) :=
    parseSigned_toDigits (by decide) (by decide) (by
      have := record.isStatus
      omega)
  rw [render]
  unfold parseLine
  rw [tightLine.trimEnd]
  dsimp only
  rw [if_neg tightLine.ne_nil,
    splitPrefix_lineStart record.isThread record.isStamp record.tidBlanks starts]
  dsimp only
  rw [Text.stripPrefix_append]
  dsimp only
  rw [trimmed, tight.trim, status]
  rfl

/-! ## Cutting a trace -/

theorem Printable.lineStart (tid tidBlanks tsUs : Nat) :
    Printable (lineStart tid tidBlanks tsUs) := by
  have micros : Printable (sixDigits (tsUs % 1000000)) :=
    .of_code fun _ member => by
      have code := Text.code_of_digitValue (mem_sixDigits member)
      omega
  exact .append (.toDigits (by decide) (by decide) _) (.append (.blanks _)
    (.append (.toDigits (by decide) (by decide) _) (.cons (by decide)
      (.append micros (.cons (by decide) .nil)))))

theorem Printable.of_all
    {text : Text}
    (all : text.all isPrintable = true) : Printable text :=
  fun char member => List.all_eq_true.mp all char member

/-- The lines of a trace are printable. -/
theorem Piece.printable_render (piece : Piece) : Printable piece.render := by
  cases piece with
  | whole record => exact record.printable_render
  | unfinished record cut =>
      have body := record.printable_body
      rw [cut.body_eq] at body
      exact .append (.lineStart _ _ _) (.append (.isName record.isName)
        (.cons (by decide) (.append (List.forall_mem_append.mp body).1
          (.cons (by decide) (.of_all (by decide))))))
  | resumed record cut =>
      have body := record.printable_body
      rw [cut.body_eq] at body
      exact .append (.lineStart _ _ _) (.append (.of_all (by decide))
        (.append (.isName record.isName) (.append (.of_all (by decide))
          (List.forall_mem_append.mp body).2)))
  | exited record =>
      exact .append (.lineStart _ _ _) (.append (.of_all (by decide))
        (.append (.toDigits (by decide) (by decide) _) (.of_all (by decide))))

/-- A trace is cut into the lines it was printed as. -/
theorem lines_renderTrace (pieces : List Piece) :
    lines (renderTrace pieces) = pieces.map Piece.render := by
  rw [← @lines_flatMap (pieces.map Piece.render), List.flatMap_map]
  · rfl
  · intro text member breaks
    obtain ⟨piece, -, rfl⟩ := List.mem_map.mp member
    exact absurd (piece.printable_render _ breaks) (by decide)
  · intro text member ends
    obtain ⟨piece, -, rfl⟩ := List.mem_map.mp member
    exact absurd (piece.printable_render _ (ends.mem List.mem_cons_self))
      (by decide)

/-! ## Interrupted calls -/

/-- The calls that were interrupted, last, on some thread and were not completed
are found by their thread and name. -/
def Waiting (done : List Piece) (pending : List PendingCall) : Prop :=
  ∀ (record : SyscallRecord) (cut : Cut record) (earlier later : List Piece),
    done = earlier ++ .unfinished record cut :: later ->
      (∀ piece ∈ later, piece.tid ≠ record.tid) ->
        pending.find? (fun call =>
            call.tid = record.tid && call.name = record.name) =
          some ⟨record.tid, record.name, record.tsUs, Text.trimEnd cut.before⟩

/-- A line that interrupts no call keeps what other threads wait for. -/
theorem Waiting.of_other
    {done : List Piece}
    {pending next : List PendingCall}
    (waiting : Waiting done pending)
    {piece : Piece}
    (complete : ∀ record cut, piece ≠ .unfinished record cut)
    (kept : ∀ tid name, piece.tid ≠ tid ->
      next.find? (fun call => call.tid = tid && call.name = name) =
        pending.find? (fun call => call.tid = tid && call.name = name)) :
    Waiting (done ++ [piece]) next := by
  intro record cut earlier later split others
  rcases List.eq_nil_or_concat' later with rfl | ⟨before, last, rfl⟩
  · have ended := List.append_inj_right' split rfl
    exact absurd (List.singleton_inj.mp ended) (complete record cut)
  · have shape : done ++ [piece] =
        (earlier ++ .unfinished record cut :: before) ++ [last] := by
      rw [split]
      simp
    obtain ⟨rfl, same⟩ := List.append_inj' shape rfl
    have own := List.singleton_inj.mp same
    subst own
    rw [kept record.tid record.name (others piece
      (List.mem_append_right _ List.mem_cons_self))]
    exact waiting record cut earlier before rfl fun other member =>
      others other (List.mem_append_left _ member)

/-- A call that was interrupted waits. -/
theorem Waiting.of_unfinished
    {done : List Piece}
    {pending : List PendingCall}
    (waiting : Waiting done pending)
    (record : SyscallRecord)
    (cut : Cut record) :
    Waiting (done ++ [.unfinished record cut])
      (⟨record.tid, record.name, record.tsUs, Text.trimEnd cut.before⟩ ::
        pending) := by
  intro other otherCut earlier later split others
  rcases List.eq_nil_or_concat' later with rfl | ⟨before, last, rfl⟩
  · have ended := List.singleton_inj.mp (List.append_inj_right' split rfl)
    cases ended
    exact List.find?_cons_of_pos (by simp)
  · have shape : done ++ [.unfinished record cut] =
        (earlier ++ .unfinished other otherCut :: before) ++ [last] := by
      rw [split]
      simp
    obtain ⟨rfl, same⟩ := List.append_inj' shape rfl
    have own := List.singleton_inj.mp same
    subst own
    have apart : record.tid ≠ other.tid := others (.unfinished record cut)
      (List.mem_append_right _ List.mem_cons_self)
    rw [List.find?_cons_of_neg (by simp [apart])]
    exact waiting other otherCut earlier before rfl fun piece member =>
      others piece (List.mem_append_left _ member)

/-- Looking for one kind of element, it does not matter that one of another was
removed. -/
theorem find?_eraseP
    {α : Type}
    {erased wanted : α -> Bool}
    (apart : ∀ value, erased value = true -> wanted value = false)
    (values : List α) :
    (values.eraseP erased).find? wanted = values.find? wanted := by
  induction values with
  | nil => rfl
  | cons value values hypothesis =>
      cases gone : erased value with
      | true =>
          rw [List.eraseP_cons_of_pos gone,
            List.find?_cons_of_neg (by simp [apart value gone])]
      | false =>
          rw [List.eraseP_cons_of_neg (by simp [gone]), List.find?_cons,
            List.find?_cons, hypothesis]

/-- The second line of a call stands right after its first among the lines of
some items. -/
theorem exists_eq_concat_unfinished
    {items : List TraceItem}
    {record : SyscallRecord}
    {cut : Cut record}
    {before after : List Piece}
    (split : items.flatMap TraceItem.pieces =
      before ++ .resumed record cut :: after) :
    ∃ earlier, before = earlier ++ [.unfinished record cut] := by
  induction items generalizing before with
  | nil => simp at split
  | cons item items hypothesis =>
      rw [List.flatMap_cons] at split
      have later : ∀ {first : Piece} {others : List Piece},
          before = first :: others ->
          items.flatMap TraceItem.pieces =
            others ++ .resumed record cut :: after ->
          ∃ earlier, before = earlier ++ [.unfinished record cut] := by
        rintro first others rfl rest
        obtain ⟨earlier, same⟩ := hypothesis rest
        exact ⟨first :: earlier, by rw [same, List.cons_append]⟩
      cases item with
      | exited exit =>
          cases before with
          | nil => cases (List.cons.inj split).1
          | cons first before => exact later rfl (List.cons.inj split).2
      | call own ownCut =>
          cases ownCut with
          | none =>
              cases before with
              | nil => cases (List.cons.inj split).1
              | cons first before => exact later rfl (List.cons.inj split).2
          | some ownCut =>
              cases before with
              | nil => cases (List.cons.inj split).1
              | cons first before =>
                  obtain ⟨rfl, rest⟩ := List.cons.inj split
                  cases before with
                  | nil =>
                      cases (List.cons.inj rest).1
                      exact ⟨[], rfl⟩
                  | cons second before =>
                      obtain ⟨earlier, same⟩ :=
                        hypothesis (List.cons.inj rest).2
                      exact ⟨_ :: _ :: earlier, by
                        rw [same, List.cons_append, List.cons_append]⟩

/-- A call that is completed on a second line was interrupted last on its
thread. -/
theorem exists_unfinished
    {items : List TraceItem}
    {pieces : List Piece}
    (interleaves : Interleaves items pieces)
    {record : SyscallRecord}
    {cut : Cut record}
    {done rest : List Piece}
    (split : pieces = done ++ .resumed record cut :: rest) :
    ∃ earlier later, done = earlier ++ .unfinished record cut :: later ∧
      ∀ piece ∈ later, piece.tid ≠ record.tid := by
  have own := interleaves record.tid
  rw [split, List.filter_append, List.filter_cons_of_pos
    (by exact decide_eq_true rfl)] at own
  obtain ⟨earlier, same⟩ := exists_eq_concat_unfinished own.symm
  obtain ⟨first, second, rfl, -, last⟩ := List.filter_eq_append_iff.mp same
  obtain ⟨middle, later, rfl, -, -, none⟩ := List.filter_eq_cons_iff.mp last
  refine ⟨first ++ middle, later, by simp, fun piece member tid_eq => ?_⟩
  exact List.filter_eq_nil_iff.mp none piece member (decide_eq_true tid_eq)

/-! ## Reading a trace -/

/-- One line is read, given the lines before it. -/
theorem parseLine_piece
    {items : List TraceItem}
    {pieces : List Piece}
    (interleaves : Interleaves items pieces)
    {done rest : List Piece}
    {piece : Piece}
    (split : pieces = done ++ piece :: rest)
    {pending : List PendingCall}
    (waiting : Waiting done pending) :
    ∃ next, parseLine ⟨done.flatMap Piece.emitted, pending⟩ piece.render =
        .ok ⟨(done ++ [piece]).flatMap Piece.emitted, next⟩ ∧
      Waiting (done ++ [piece]) next := by
  have emitted_eq : (done ++ [piece]).flatMap Piece.emitted =
      done.flatMap Piece.emitted ++ piece.emitted := by
    rw [List.flatMap_append, List.flatMap_singleton]
  rw [emitted_eq]
  cases piece with
  | whole record =>
      let state : TraceState := ⟨done.flatMap Piece.emitted, pending⟩
      let read := state.readCall record.tid record.tsUs record.name record.body
      have tight := record.tight_render
      rw [record.render_eq] at tight
      have reads : parseLine state record.render = .ok read := by
        rw [record.render_eq]
        exact parseLine_call state record.isThread record.isStamp _
          record.isName tight
      have lines_eq : read.lines = state.lines ++ record.emitted :=
        lines_readCall state record
      refine ⟨read.pending, ?_, waiting.of_other (by simp) ?_⟩
      · refine reads.trans (congrArg Except.ok ?_)
        exact congrArg (fun lines => TraceState.mk lines read.pending) lines_eq
      · exact fun tid name apart => find?_pending_readCall state apart name
  | unfinished record cut =>
      refine ⟨_, ?_, waiting.of_unfinished record cut⟩
      refine (cut.parseLine_unfinishedLine _).trans ?_
      exact congrArg (fun lines => Except.ok (TraceState.mk lines _))
        (List.append_nil _).symm
  | resumed record cut =>
      obtain ⟨earlier, later, rfl, others⟩ := exists_unfinished interleaves split
      have found := waiting record cut earlier later rfl others
      refine ⟨_, cut.parseLine_resumedLine found, waiting.of_other (by simp) ?_⟩
      intro tid name apart
      apply find?_eraseP
      intro call own
      have same := of_decide_eq_true (Bool.and_eq_true_iff.mp own).1
      rw [same]
      simp [show record.tid ≠ tid from apart]
  | exited record =>
      refine ⟨pending, record.parseLine_render _, waiting.of_other (by simp) ?_⟩
      intro tid name _
      rfl

/-- A trace is read line by line. -/
theorem parseTrace_renderTrace
    {items : List TraceItem}
    {pieces : List Piece}
    (interleaves : Interleaves items pieces) :
    parseTrace (renderTrace pieces) = .ok (pieces.flatMap Piece.emitted) := by
  have reads : ∀ done rest, pieces = done ++ rest -> ∃ pending,
      (done.map Piece.render).foldlM parseLine ⟨[], []⟩ =
          .ok ⟨done.flatMap Piece.emitted, pending⟩ ∧ Waiting done pending := by
    intro done
    induction done using List.reverseRecOn with
    | nil =>
        intro rest _
        refine ⟨[], rfl, ?_⟩
        intro record cut earlier later split
        simp at split
    | append_singleton done piece hypothesis =>
        intro rest split
        have shape : pieces = done ++ piece :: rest := by
          rw [split]
          simp
        obtain ⟨pending, reads, waiting⟩ := hypothesis (piece :: rest) shape
        obtain ⟨next, readsPiece, waitsNext⟩ :=
          parseLine_piece interleaves shape waiting
        refine ⟨next, ?_, waitsNext⟩
        rw [List.map_append, List.foldlM_append, reads]
        change (do
          let state ← parseLine _ piece.render
          List.foldlM parseLine state []) = _
        rw [readsPiece]
        rfl
  obtain ⟨pending, reads, -⟩ := reads pieces [] (List.append_nil _).symm
  rw [parseTrace, lines_renderTrace, reads]
  rfl

end Exec
end Marsh
