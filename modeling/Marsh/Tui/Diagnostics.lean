import Marsh.Tui.Instrumentation

/-!
# Diagnostics and the ends of reads

The diagnostics should be the heads of the last lines of the stream, wherever its
reads end.  A line that is too long meets this only by chance: when one read ends
it without having cut it, its text must go on after the head as the mark does, and
when it was cut before, the rest of the read that ends it must add nothing.
-/

namespace Marsh
namespace Tui

open Library Library.Text Library.Framing

/-! ## Escaped texts -/

/-- The characters that are shown as they are and begin no escape. -/
def isPlain (char : Char) : Bool := !isControl char && char ≠ '\\'

@[simp]
theorem escapeControls_append (text rest : Text) :
    escapeControls (text ++ rest) = escapeControls text ++ escapeControls rest :=
  List.flatMap_append

/-- What a character is shown as begins with itself or with the escape. -/
theorem escapeControl_cases (char : Char) :
    escapeControl char = [char] ∨
      ∃ rest, escapeControl char = '\\' :: rest := by
  rw [escapeControl]
  split
  · exact .inr ⟨_, rfl⟩
  · exact .inl rfl

theorem escapeControls_of_plain
    {text : Text}
    (plain : ∀ char ∈ text, isPlain char) : escapeControls text = text := by
  induction text with
  | nil => rfl
  | cons char text hypothesis =>
      have own := plain char List.mem_cons_self
      rw [isPlain, Bool.and_eq_true, Bool.not_eq_true'] at own
      have rest := hypothesis fun other member =>
        plain other (List.mem_cons_of_mem _ member)
      change escapeControl char ++ escapeControls text = _
      rw [escapeControl, own.1, rest]
      rfl

/-- Only a plain text is shown as a plain one. -/
theorem eq_of_escapeControls
    {text shown : Text}
    (plain : ∀ char ∈ shown, isPlain char)
    (escaped : escapeControls text = shown) : text = shown := by
  induction text generalizing shown with
  | nil => exact escaped
  | cons char text hypothesis =>
      change escapeControl char ++ escapeControls text = shown at escaped
      obtain own | ⟨rest, own⟩ := escapeControl_cases char
      · rw [own, List.singleton_append] at escaped
        subst escaped
        rw [← hypothesis (fun other member =>
          plain other (List.mem_cons_of_mem _ member)) rfl]
      · rw [own] at escaped
        subst escaped
        exact absurd (plain '\\' List.mem_cons_self) (by decide)

theorem escapeControls_isPrefix
    {text whole : Text}
    (start : text <+: whole) : escapeControls text <+: escapeControls whole := by
  obtain ⟨rest, rfl⟩ := start
  rw [escapeControls_append]
  exact List.prefix_append _ _

/-! ## Carriage returns -/

theorem trimReturns_concat_return (text : Text) :
    trimReturns (text ++ ['\r']) = trimReturns text :=
  List.rdropWhile_concat_pos _ _ _ rfl

theorem trimReturns_concat
    {char : Char}
    (other : char ≠ '\r')
    (text : Text) : trimReturns (text ++ [char]) = text ++ [char] :=
  List.rdropWhile_concat_neg _ _ _ (by simpa using other)

/-- Carriage returns at the end are trimmed with those before them. -/
theorem trimReturns_append_returns
    {rest : Text}
    (all : ∀ char ∈ rest, char = '\r')
    (text : Text) : trimReturns (text ++ rest) = trimReturns text := by
  induction rest using List.reverseRecOn with
  | nil => rw [List.append_nil]
  | append_singleton rest char hypothesis =>
      obtain rfl := all char (by simp)
      rw [← List.append_assoc, trimReturns_concat_return]
      exact hypothesis fun other member => all other (List.mem_append_left _ member)

/-- Before anything else the text is left. -/
theorem trimReturns_append_visible
    {rest : Text}
    (visible : ¬ ∀ char ∈ rest, char = '\r')
    (text : Text) : trimReturns (text ++ rest) = text ++ trimReturns rest := by
  induction rest using List.reverseRecOn with
  | nil => exact absurd (fun _ member => absurd member List.not_mem_nil) visible
  | append_singleton rest char hypothesis =>
      rw [← List.append_assoc]
      by_cases same : char = '\r'
      · subst same
        rw [trimReturns_concat_return, trimReturns_concat_return]
        refine hypothesis fun all => visible fun other member => ?_
        obtain inside | last := List.mem_append.mp member
        · exact all other inside
        · exact List.mem_singleton.mp last
      · rw [trimReturns_concat same, trimReturns_concat same, List.append_assoc]

/-- What is trimmed from a text. -/
theorem eq_trimReturns_append (text : Text) :
    ∃ count, text = trimReturns text ++ List.replicate count '\r' := by
  induction text using List.reverseRecOn with
  | nil => exact ⟨0, rfl⟩
  | append_singleton text char hypothesis =>
      by_cases same : char = '\r'
      · subst same
        obtain ⟨count, whole⟩ := hypothesis
        refine ⟨count + 1, ?_⟩
        rw [trimReturns_concat_return, List.replicate_succ', ← List.append_assoc,
          ← whole]
      · refine ⟨0, ?_⟩
        rw [trimReturns_concat same, List.replicate_zero, List.append_nil]

theorem trimReturns_of_plain
    {text : Text}
    (plain : ∀ char ∈ text, isPlain char) : trimReturns text = text := by
  obtain ⟨count, whole⟩ := eq_trimReturns_append text
  cases count with
  | zero => exact (whole.trans (List.append_nil _)).symm
  | succ count =>
      have last : '\r' ∈ text := by
        rw [whole]
        simp
      exact absurd (plain '\r' last) (by decide)

/-- When what a text is shown as goes on after the head of the text as a plain
suffix. -/
theorem escaped_append_iff
    {suffix : Text}
    (plain : ∀ char ∈ suffix, isPlain char)
    (text rest : Text) :
    escapeControls (trimReturns (text ++ rest)) =
        escapeControls (trimReturns text) ++ suffix ↔
      (∃ count, rest = suffix ++ List.replicate count '\r') ∧
        (suffix = [] ∨ trimReturns text = text) := by
  have returns : ∀ count, ∀ char ∈ List.replicate count '\r', char = '\r' :=
    fun count char member => List.eq_of_mem_replicate member
  constructor
  · intro shown
    by_cases all : ∀ char ∈ rest, char = '\r'
    · rw [trimReturns_append_returns all, List.self_eq_append_right] at shown
      refine ⟨⟨rest.length, ?_⟩, .inl shown⟩
      rw [shown, List.nil_append]
      exact List.eq_replicate_of_mem all
    · rw [trimReturns_append_visible all, escapeControls_append] at shown
      obtain ⟨count, whole⟩ := eq_trimReturns_append text
      have onward : escapeControls (List.replicate count '\r') ++
          escapeControls (trimReturns rest) = suffix := by
        rw [whole, escapeControls_append, ← whole, List.append_assoc] at shown
        exact List.append_cancel_left shown
      cases count with
      | succ count =>
          subst onward
          exact absurd (plain '\\' List.mem_cons_self) (by decide)
      | zero =>
          rw [List.replicate_zero, List.append_nil] at whole
          have read := eq_of_escapeControls plain onward
          obtain ⟨count, trimmed⟩ := eq_trimReturns_append rest
          rw [read] at trimmed
          exact ⟨⟨count, trimmed⟩, .inr whole.symm⟩
  · rintro ⟨⟨count, rfl⟩, tight⟩
    rw [← List.append_assoc, trimReturns_append_returns (returns count)]
    obtain rfl | tight := tight
    · rw [List.append_nil, List.append_nil]
    · by_cases empty : suffix = []
      · subst empty
        rw [List.append_nil, List.append_nil]
      · have visible : ¬ ∀ char ∈ suffix, char = '\r' := by
          intro all
          obtain ⟨char, member⟩ := List.exists_mem_of_ne_nil _ empty
          have shown := plain char member
          rw [all char member] at shown
          exact absurd shown (by decide)
        rw [trimReturns_append_visible visible, trimReturns_of_plain plain,
          escapeControls_append, escapeControls_of_plain plain, tight]

/-- A character cut short is shown as it is, so what is shown after it tells
whether the character was another one. -/
theorem not_shown_of_ne
    {char : Char}
    (other : char ≠ '\uFFFD')
    (before after suffix : Text) :
    escapeControls (trimReturns (before ++ char :: after)) ≠
      escapeControls (trimReturns (before ++ ['\uFFFD'])) ++ suffix := by
  intro shown
  rw [trimReturns_concat (by decide)] at shown
  by_cases all : ∀ other ∈ char :: after, other = '\r'
  · rw [trimReturns_append_returns all] at shown
    have trimmed := (escapeControls_isPrefix
      (List.rdropWhile_prefix (· = '\r') before)).length_le
    have lengths := congrArg List.length shown
    rw [escapeControls_append, List.length_append, List.length_append] at lengths
    have own : (escapeControls ['\uFFFD']).length = 1 := rfl
    change (escapeControls (trimReturns before)).length ≤ _ at trimmed
    omega
  · have first : ∃ more, trimReturns (char :: after) = char :: more := by
      rw [← List.singleton_append]
      by_cases returns : ∀ other ∈ after, other = '\r'
      · rw [trimReturns_append_returns returns]
        have visible : char ≠ '\r' := by
          rintro rfl
          apply all
          intro other member
          obtain rfl | member := List.mem_cons.mp member
          · rfl
          · exact returns other member
        exact ⟨[], trimReturns_concat visible []⟩
      · exact ⟨_, trimReturns_append_visible returns _⟩
    obtain ⟨more, first⟩ := first
    rw [trimReturns_append_visible all, first, escapeControls_append,
      escapeControls_append,
      List.append_assoc] at shown
    have letters := List.append_cancel_left shown
    change escapeControl char ++ escapeControls more = '\uFFFD' :: suffix
      at letters
    obtain own | ⟨rest, own⟩ := escapeControl_cases char
    · rw [own] at letters
      exact other (List.cons.inj letters).1
    · rw [own] at letters
      exact absurd (List.cons.inj letters).1 (by decide)

/-! ## Heads of lines -/

/-- The bytes after a head read as a suffix, and carriage returns at the end. -/
def GoesOn (head more : List UInt8) (suffix : Text) : Prop :=
  (∃ count,
    lossy (head ++ more) = lossy head ++ (suffix ++ List.replicate count '\r')) ∧
  (suffix = [] ∨ trimReturns (lossy head) = lossy head)

theorem lineText_append_iff
    {suffix : Text}
    (plain : ∀ char ∈ suffix, isPlain char)
    (head more : List UInt8) :
    lineText (head ++ more) = lineText head ++ suffix ↔
      GoesOn head more suffix := by
  have onward : ∀ rest, lossy (head ++ more) = lossy head ++ rest ->
      (lineText (head ++ more) = lineText head ++ suffix ↔
        GoesOn head more suffix) := by
    intro rest whole
    unfold lineText GoesOn
    rw [whole, escaped_append_iff plain]
    exact and_congr_left fun _ => exists_congr fun _ =>
      (List.append_right_inj (lossy head)).symm
  obtain ⟨rest, whole⟩ | ⟨before, char, after, cut, whole⟩ :=
    lossy_append head more
  · exact onward rest whole.symm
  · by_cases same : char = '\uFFFD'
    · subst same
      refine onward after ?_
      rw [whole, cut, List.append_assoc]
      rfl
    · refine iff_of_false ?_ ?_
      · unfold lineText
        rw [whole, cut]
        exact not_shown_of_ne same before after suffix
      · rintro ⟨⟨count, text⟩, _⟩
        rw [whole, cut, List.append_assoc] at text
        exact same (List.cons.inj (List.append_cancel_left text)).1

theorem isPlain_of_mem_truncationMark :
    ∀ char ∈ truncationMark, isPlain char :=
  List.all_eq_true.mp (by decide)

/-- A line whose reads leave its head to be shown. -/
inductive KeepsHead (frame : Frame UInt8) : Prop where
  /-- The line is not too long. -/
  | whole : frame.line.length ≤ maxPendingInstrumentation -> KeepsHead frame
  /-- The line was cut before, and what ends it adds nothing. -/
  | cut :
      maxPendingInstrumentation < frame.earlier.length ->
      GoesOn (frame.earlier.take maxPendingInstrumentation) frame.own [] ->
      KeepsHead frame
  /-- The line is ended before it is cut, and goes on as the mark does. -/
  | marked :
      frame.earlier.length ≤ maxPendingInstrumentation ->
      maxPendingInstrumentation < frame.line.length ->
      GoesOn (frame.line.take maxPendingInstrumentation)
        (frame.line.drop maxPendingInstrumentation) truncationMark ->
      KeepsHead frame

theorem diagnosticOfFrame_eq_iff (frame : Frame UInt8) :
    diagnosticOfFrame frame = diagnosticOf frame.line ↔ KeepsHead frame := by
  have size : frame.line.length = frame.earlier.length + frame.own.length :=
    List.length_append
  unfold diagnosticOfFrame diagnosticOf
  by_cases before : maxPendingInstrumentation < frame.earlier.length
  · have head : frame.line.take maxPendingInstrumentation =
        frame.earlier.take maxPendingInstrumentation :=
      List.take_append_of_le_length before.le
    rw [if_pos before, if_pos (by omega), head, List.append_left_inj,
      ← List.append_nil (lineText (List.take _ _)),
      lineText_append_iff (by simp)]
    refine ⟨.cut before, ?_⟩
    rintro (short | ⟨_, goesOn⟩ | ⟨short, _, _⟩)
    · omega
    · exact goesOn
    · omega
  · have earlier : frame.earlier.take maxPendingInstrumentation ++ frame.own =
        frame.line := by
      rw [List.take_of_length_le (Nat.not_lt.mp before), Frame.line]
    rw [if_neg before, List.append_nil, earlier]
    by_cases long : maxPendingInstrumentation < frame.line.length
    · have halves : lineText frame.line =
          lineText (frame.line.take maxPendingInstrumentation ++
            frame.line.drop maxPendingInstrumentation) := by
        rw [List.take_append_drop]
      rw [if_pos long, halves,
        lineText_append_iff isPlain_of_mem_truncationMark]
      refine ⟨.marked (Nat.not_lt.mp before) long, ?_⟩
      rintro (short | ⟨cut, _⟩ | ⟨_, _, goesOn⟩)
      · omega
      · omega
      · exact goesOn
    · rw [if_neg long, List.append_nil,
        List.take_of_length_le (Nat.not_lt.mp long)]
      exact iff_of_true rfl (.whole (Nat.not_lt.mp long))

/-! ## Streams -/

/-- The diagnostics are the heads of the last lines of the stream. -/
def KeepsLastLines (reads : List (List UInt8)) : Prop :=
  (JobBuffer.absorbAll reads).diagnostics =
    ((completed newline reads.flatten).map diagnosticOf).rtake diagnosticLines

/-- The lines that count are the last ones. -/
theorem keepsLastLines_iff_forall_eq (reads : List (List UInt8)) :
    KeepsLastLines reads ↔
      ∀ frame ∈ (frames newline [] reads).1.rtake diagnosticLines,
        diagnosticOfFrame frame = diagnosticOf frame.line := by
  have lines := lines_frames (List.not_mem_nil : newline ∉ []) reads
  rw [List.nil_append] at lines
  rw [KeepsLastLines, JobBuffer.diagnostics_absorbAll, ← lines, List.map_map,
    List.rtake, List.rtake, List.length_map, ← List.map_drop, List.map_inj_left]
  rfl

/-- The diagnostics are the heads of the last lines of the stream exactly when
the reads leave the head of each of these lines. -/
theorem keepsLastLines_iff (reads : List (List UInt8)) :
    KeepsLastLines reads ↔
      ∀ frame ∈ (frames newline [] reads).1.rtake diagnosticLines,
        KeepsHead frame := by
  rw [keepsLastLines_iff_forall_eq]
  exact forall₂_congr fun frame _ => diagnosticOfFrame_eq_iff frame

/-- The bytes of a line that is too long. -/
def longLine : List (List UInt8) := List.replicate 5 (List.replicate 4096 120)

/-- What follows it in the line. -/
def tailBytes : List UInt8 := [116, 97, 105, 108]

theorem eq_of_mem_longLine
    {byte : UInt8}
    (member : byte ∈ longLine.flatten) : byte = 120 := by
  obtain ⟨read, reads, inside⟩ := List.mem_flatten.mp member
  rw [List.eq_of_mem_replicate reads] at inside
  exact List.eq_of_mem_replicate inside

theorem length_longLine : longLine.flatten.length = 20480 := by
  rw [longLine, List.flatten_replicate_replicate, List.length_replicate]

/-- What ends a line that was cut is put after its head. -/
theorem not_keepsLastLines_of_long
    {reads : List (List UInt8)}
    (bytes : ∀ byte ∈ reads.flatten, byte = 120)
    (size : reads.flatten.length = 20480) :
    ¬ KeepsLastLines (reads ++ [tailBytes ++ [newline]]) := by
  rw [keepsLastLines_iff_forall_eq]
  intro all
  have apart : newline ∉ reads.flatten :=
    fun member => absurd (bytes newline member) (by decide)
  have read : (frames newline [] (reads ++ [tailBytes ++ [newline]])).1 =
      [⟨reads.flatten, tailBytes⟩] := by
    rw [frames_of_notMem apart, frames, List.nil_append,
      framesIn_append_cons (by decide), framesIn_of_notMem List.not_mem_nil]
    rfl
  rw [read, List.rtake, List.length_singleton,
    Nat.sub_eq_zero_of_le (by decide), List.drop_zero] at all
  have kept := (diagnosticOfFrame_eq_iff _).mp
    (all ⟨reads.flatten, tailBytes⟩ List.mem_cons_self)
  have limit : maxPendingInstrumentation = 16384 := rfl
  obtain short | ⟨_, ⟨count, text⟩, _⟩ | ⟨short, _⟩ := kept
  · rw [Frame.line, List.length_append] at short
    dsimp only at short
    omega
  · have head : ∀ byte ∈ reads.flatten.take maxPendingInstrumentation,
        byte = 120 := fun byte member =>
      bytes byte (List.mem_of_mem_take member)
    have ascii : ∀ byte ∈ reads.flatten.take maxPendingInstrumentation ++
        tailBytes, byte < 0x80 := by
      intro byte member
      obtain member | member := List.mem_append.mp member
      · rw [head byte member]
        decide
      · exact of_decide_eq_true
          (List.all_eq_true.mp (by decide : tailBytes.all (· < 0x80)) byte member)
    rw [lossy_of_ascii ascii, lossy_of_ascii fun byte member =>
      ascii byte (List.mem_append_left _ member), List.map_append,
      List.append_right_inj, List.nil_append] at text
    have letter : 't' ∈ List.replicate count '\r' := by
      rw [← text]
      decide
    exact absurd (List.eq_of_mem_replicate letter) (by decide)
  · dsimp only at short
    omega

theorem not_keepsLastLines_longLine :
    ¬ KeepsLastLines (longLine ++ [tailBytes ++ [newline]]) :=
  not_keepsLastLines_of_long (fun _ => eq_of_mem_longLine) length_longLine

end Tui
end Marsh
