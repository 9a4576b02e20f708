import Marsh.Exec.ArgumentScan
import Marsh.Exec.Escapes

/-!
# Decoding printed arguments

Joined arguments are cut apart again exactly when each closes the quotes and
brackets it opens and has no comma outside of them.
-/

namespace Marsh
namespace Exec

open Library

/-! ## Arguments -/

/-- The text closes the quotes and brackets it opens, and no others. -/
def Closed (text : Text) : Prop := Scan.start.run text = some Scan.start

/-- The text is closed and no comma stands outside of quotes and brackets. -/
structure Clean (text : Text) : Prop where
  closed : Closed text
  commaFree : Scan.start.CommaFree text

theorem step_start_comma : Scan.start.step ',' = some Scan.start := by decide

theorem step_start_blank : Scan.start.step ' ' = some Scan.start := by decide

/-- A blank before the first piece is trimmed away. -/
theorem map_trim_blank (text : Text) :
    (splitPieces Scan.start (' ' :: text)).map Text.trim =
      (splitPieces Scan.start text).map Text.trim := by
  rw [splitPieces_cons step_start_blank (by decide)]
  cases pieces : splitPieces Scan.start text with
  | nil => exact absurd pieces (splitPieces_ne_nil _ _)
  | cons piece rest =>
      rw [prependPiece, List.map_cons, List.map_cons, List.singleton_append,
        Text.trim_cons_of_whitespace (by decide)]

/-- Clean arguments are joined to a closed text. -/
theorem closed_joinArgs
    {args : List Text}
    (clean : ∀ arg ∈ args, Clean arg) : Closed (joinArgs args) := by
  induction args with
  | nil => rfl
  | cons arg args hypothesis =>
      have first := (clean arg List.mem_cons_self).closed
      cases args with
      | nil => exact first
      | cons next args =>
          rw [joinArgs, Closed, Scan.run_append, first, Option.bind_some,
            Scan.run_cons, step_start_comma, Option.bind_some, Scan.run_cons,
            step_start_blank, Option.bind_some]
          exact hypothesis fun other member =>
            clean other (List.mem_cons_of_mem _ member)

/-- Clean arguments are cut apart again. -/
theorem map_trim_joinArgs
    {args : List Text}
    (some : args ≠ [])
    (tight : ∀ arg ∈ args, Text.Tight arg)
    (clean : ∀ arg ∈ args, Clean arg) :
    (splitPieces Scan.start (joinArgs args)).map Text.trim = args := by
  induction args with
  | nil => contradiction
  | cons arg args hypothesis =>
      have own := clean arg List.mem_cons_self
      have trimmed := (tight arg List.mem_cons_self).trim
      cases args with
      | nil =>
          have pieces := splitPieces_append own.closed own.commaFree []
          rw [List.append_nil] at pieces
          rw [joinArgs, pieces]
          simp [splitPieces, prependPiece, trimmed]
      | cons next args =>
          have later := hypothesis (List.cons_ne_nil _ _)
            (fun other member => tight other (List.mem_cons_of_mem _ member))
            (fun other member => clean other (List.mem_cons_of_mem _ member))
          rw [joinArgs, splitPieces_append own.closed own.commaFree,
            splitPieces_comma (by decide), prependPiece, List.append_nil,
            List.map_cons, trimmed, map_trim_blank, later]

/-- The first piece of joined arguments that trims to the first argument is that
argument. -/
theorem piece_eq_of_trim
    {arg piece more rest : Text}
    (tight : Text.Tight arg)
    (same : arg ++ ',' :: more = piece ++ ',' :: rest)
    (trimmed : Text.trim piece = arg) : piece = arg ∧ rest = more := by
  rcases List.append_eq_append_iff.mp same with
    ⟨extra, rfl, tail⟩ | ⟨extra, rfl, tail⟩
  · cases extra with
    | nil => simpa using tail.symm
    | cons char extra =>
        obtain ⟨rfl, -⟩ := List.cons.inj tail
        have longer := Text.lt_length_trim tight
          (by decide : Text.isWhitespace ',' = false) extra
        rw [trimmed] at longer
        omega
  · cases extra with
    | nil => simpa using tail
    | cons char extra =>
        have shorter := Text.length_trim_le piece
        rw [trimmed, List.length_append, List.length_cons] at shorter
        omega

/-- Joined arguments that are cut apart again are clean. -/
theorem clean_of_map_trim
    {args : List Text}
    (tight : ∀ arg ∈ args, Text.Tight arg)
    (closed : Closed (joinArgs args))
    (cut : (splitPieces Scan.start (joinArgs args)).map Text.trim = args) :
    ∀ arg ∈ args, Clean arg := by
  induction args with
  | nil => simp
  | cons arg args hypothesis =>
      have own := tight arg List.mem_cons_self
      cases args with
      | nil =>
          rw [List.forall_mem_singleton]
          obtain ⟨free, -⟩ | ⟨piece, middle, rest, -, -, -, -, pieces⟩ :=
            splitPieces_cases closed
          · exact ⟨closed, free⟩
          · rw [pieces, List.map_cons, List.cons.injEq, List.map_eq_nil_iff]
              at cut
            exact absurd cut.2 (splitPieces_ne_nil _ _)
      | cons next args =>
          obtain ⟨-, pieces⟩ | ⟨piece, middle, rest, same, runs, top, free,
            pieces⟩ := splitPieces_cases closed
          · rw [pieces] at cut
            simp at cut
          · rw [pieces, List.map_cons, List.cons.injEq] at cut
            obtain ⟨rfl, rfl⟩ := piece_eq_of_trim own same cut.1
            obtain rfl := (Scan.sound_start.run runs).eq_start top
            rw [joinArgs, Closed, Scan.run_append, runs, Option.bind_some,
              Scan.run_cons, step_start_comma, Option.bind_some, Scan.run_cons,
              step_start_blank, Option.bind_some] at closed
            rw [map_trim_blank] at cut
            exact List.forall_mem_cons.mpr ⟨⟨runs, free⟩, hypothesis
              (fun other member => tight other (List.mem_cons_of_mem _ member))
              closed cut.2⟩

/-- The argument text closes what it opens and is cut into the arguments exactly
when they are clean. -/
theorem splitArgs_joinArgs_iff
    {args : List Text}
    (tight : ∀ arg ∈ args, Text.Tight arg) :
    Closed (joinArgs args) ∧ splitArgs (joinArgs args) = args ↔
      ∀ arg ∈ args, Clean arg := by
  have kept : ∀ {pieces : List Text}, args ≠ [] ->
      keepLast pieces = args -> pieces = args := by
    intro pieces some keeps
    unfold keepLast at keeps
    split at keeps
    · exact absurd keeps.symm some
    · split_ifs at keeps
      · exact absurd keeps.symm some
      · exact keeps
    · exact keeps
  by_cases none : args = []
  · subst none
    exact ⟨fun _ _ member => absurd member List.not_mem_nil,
      fun _ => ⟨rfl, by decide⟩⟩
  · constructor
    · rintro ⟨closed, cut⟩
      exact clean_of_map_trim tight closed (kept none cut)
    · intro clean
      refine ⟨closed_joinArgs clean, ?_⟩
      rw [splitArgs, map_trim_joinArgs none tight clean]
      unfold keepLast
      split
      · contradiction
      · rw [if_neg (tight _ List.mem_cons_self).ne_nil]
      · rfl

/-! ## Texts that are passed over -/

/-- The text leads from one state to another without a top-level comma. -/
structure Passes (scan : Scan) (text : Text) (next : Scan) : Prop where
  runs : scan.run text = some next
  commaFree : scan.CommaFree text

namespace Passes

variable {scan middle next : Scan} {text rest : Text}

theorem nil : Passes scan [] scan := ⟨rfl, trivial⟩

theorem cons
    {char : Char}
    (steps : scan.step char = some middle)
    (inner : ¬ (char = ',' ∧ scan.Top))
    (passes : Passes middle rest next) : Passes scan (char :: rest) next where
  runs := by
    rw [Scan.run_cons, steps]
    exact passes.runs
  commaFree := by
    refine ⟨inner, fun other again => ?_⟩
    obtain rfl := Option.some.inj (again.symm.trans steps)
    exact passes.commaFree

theorem append
    (first : Passes scan text middle)
    (second : Passes middle rest next) : Passes scan (text ++ rest) next := by
  induction text generalizing scan with
  | nil =>
      obtain rfl := Option.some.inj first.runs
      exact second
  | cons char text hypothesis =>
      have runs := first.runs
      rw [Scan.run_cons, Option.bind_eq_some_iff] at runs
      obtain ⟨between, steps, runs⟩ := runs
      exact .cons steps first.commaFree.1
        (hypothesis ⟨runs, first.commaFree.2 between steps⟩)

/-- Inside quotes a character that is neither a quote nor a backslash changes
nothing. -/
theorem plain
    {depth : Nat}
    {text : Text}
    (plain : ∀ char ∈ text, char ≠ '\\' ∧ char ≠ '"') :
    Passes ⟨depth, true, false⟩ text ⟨depth, true, false⟩ := by
  induction text with
  | nil => exact .nil
  | cons char text hypothesis =>
      have own := plain char List.mem_cons_self
      refine .cons ?_ (by simp [Scan.Top])
        (hypothesis fun other member => plain other (List.mem_cons_of_mem _ member))
      simp [Scan.step, Scan.inside, own.1, own.2]

/-- Inside quotes a backslash takes the next character along. -/
theorem escaped (depth : Nat) (char : Char) :
    Passes ⟨depth, true, false⟩ ['\\', char] ⟨depth, true, false⟩ := by
  have backslash : Scan.step ⟨depth, true, false⟩ '\\' =
      some ⟨depth, true, true⟩ := rfl
  have taken : Scan.step ⟨depth, true, true⟩ char =
      some ⟨depth, true, false⟩ := rfl
  exact .cons backslash (by simp) (.cons taken (by simp [Scan.Top]) .nil)

end Passes

/-- A byte string is passed over inside quotes. -/
theorem passes_escape (depth : Nat) (bytes : List UInt8) :
    Passes ⟨depth, true, false⟩ (escape bytes) ⟨depth, true, false⟩ := by
  induction bytes with
  | nil => exact .nil
  | cons byte bytes hypothesis =>
      refine .append ?_ hypothesis
      unfold escapeByte
      split_ifs with quote backslash newline tab carriage vertical feed printable
      · exact .escaped depth '"'
      · exact .escaped depth '\\'
      · exact .escaped depth 'n'
      · exact .escaped depth 't'
      · exact .escaped depth 'r'
      · exact .escaped depth 'v'
      · exact .escaped depth 'f'
      · refine .plain fun char member => ?_
        obtain rfl := List.mem_singleton.mp member
        exact ofNat_plain printable quote backslash
      · have octal := @digitValue_of_mem_octalDigits byte bytes.head?
        cases digits : octalDigits byte bytes.head? with
        | nil => exact absurd digits (octalDigits_ne_nil _ _)
        | cons digit rest =>
            rw [digits] at octal
            refine .append (.escaped depth digit) (.plain fun char member => ?_)
            have isOctal := octal (List.mem_cons_of_mem _ member)
            constructor <;> rintro rfl <;> contradiction

/-- A quoted string is passed over. -/
theorem passes_quote (depth : Nat) (bytes : List UInt8) :
    Passes ⟨depth, false, false⟩ (quote bytes) ⟨depth, false, false⟩ := by
  have opened : Scan.step ⟨depth, false, false⟩ '"' =
      some ⟨depth, true, false⟩ := rfl
  have closed : Scan.step ⟨depth, true, false⟩ '"' =
      some ⟨depth, false, false⟩ := rfl
  exact .cons opened (by simp) (.append (passes_escape depth bytes)
    (.cons closed (by simp) .nil))

/-- A character of a word is passed over. -/
theorem step_word
    {char : Char}
    (word : isWordChar char = true)
    (depth : Nat) :
    Scan.step ⟨depth, false, false⟩ char = some ⟨depth, false, false⟩ := by
  simp only [isWordChar, Bool.and_eq_true, Bool.not_eq_true', Bool.or_eq_false_iff,
    decide_eq_false_iff_not] at word
  obtain ⟨-, ⟨⟨quote, opening⟩, closing⟩, -⟩ := word
  simp [Scan.step, quote, opening, closing]

/-- The characters of a word are passed over. -/
theorem passes_word
    {text : Text}
    (word : ∀ char ∈ text, isWordChar char = true)
    (depth : Nat) :
    Passes ⟨depth, false, false⟩ text ⟨depth, false, false⟩ := by
  induction text with
  | nil => exact .nil
  | cons char text hypothesis =>
      have first := word char List.mem_cons_self
      refine .cons (step_word first depth) ?_ (hypothesis fun other member =>
        word other (List.mem_cons_of_mem _ member))
      rintro ⟨rfl, -⟩
      exact absurd first (by decide)

end Exec
end Marsh
