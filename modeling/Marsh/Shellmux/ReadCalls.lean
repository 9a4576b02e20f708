import Marsh.Exec.TraceDecoding
import Marsh.Shellmux.ResourceNames

/-!
# Calls as they are read

A printed call is read as a line of the trace and its arguments are cut apart
before a path is looked for in them.  The path that decorates a descriptor is cut
along with the rest: its brackets and commas count.
-/

namespace Marsh
namespace Shellmux

open Library
open Exec

/-- What is read of a printed call, if its line is: the arguments, and the path
of the descriptor it returned. -/
def callRead (record : SyscallRecord) : Option (List Text × Option Text) :=
  record.emitted.head?.bind fun line =>
    match line.call with
    | .syscall _ args _ retPath => some (splitArgs args, retPath)
    | .exited _ => none

/-- The path that `path_at` gives for two arguments of a printed call.  Only a
call that opens its path is asked for the descriptor it returned. -/
def givenPath
    (record : SyscallRecord)
    (opening : Bool)
    (dirfd path : Option Nat)
    (cwd : Path) : Option Path := do
  let (args, retPath) ← callRead record
  pathAt (dirfd.bind fun place => args[place]?)
    (path.bind fun place => args[place]?) cwd
    (if opening then retPath else none)

/-- The directory of a thread after a printed `chdir` or `fchdir`, by what its
argument gives. -/
def directoryRead
    (read : Text -> Option Path)
    (record : SyscallRecord)
    (cwd : Path) : Path :=
  ((callRead record).bind fun call => call.1.head?.bind read).getD cwd

/-- What follows a text that is passed over has no top-level comma either. -/
theorem commaFree_of_append
    {scan next : Scan}
    {text rest : Text}
    (runs : scan.run text = some next)
    (free : scan.CommaFree (text ++ rest)) : next.CommaFree rest := by
  induction text generalizing scan with
  | nil =>
      obtain rfl := Option.some.inj runs
      exact free
  | cons char text hypothesis =>
      rw [Scan.run_cons, Option.bind_eq_some_iff] at runs
      obtain ⟨middle, steps, runs⟩ := runs
      exact hypothesis runs (free.2 middle steps)

/-- A word before a text does not keep it from being clean. -/
theorem clean_append_iff
    {word : Text}
    (isWord : ∀ char ∈ word, isWordChar char = true)
    (text : Text) : Clean (word ++ text) ↔ Clean text := by
  have passes : Passes Scan.start word Scan.start := passes_word isWord 0
  constructor
  · intro clean
    have closed := clean.closed
    rw [Closed, Scan.run_append, passes.runs] at closed
    exact ⟨closed, commaFree_of_append passes.runs clean.commaFree⟩
  · intro clean
    have both := passes.append ⟨clean.closed, clean.commaFree⟩
    exact ⟨both.runs, both.commaFree⟩

/-- A call with clean arguments is read as it was printed. -/
theorem callRead_of_clean
    {record : SyscallRecord}
    (clean : ∀ arg ∈ record.args, Clean arg.render)
    (finished : ¬ record.ret.Interrupted) :
    callRead record =
      some (record.args.map Argument.render, record.ret.path) := by
  obtain ⟨emitted, cut⟩ := record.decoded_iff.mpr ⟨clean, finished⟩
  simp [callRead, emitted, SyscallRecord.line, cut]

/-- A call that returned no path is not taken for an interrupted one. -/
theorem not_interrupted_of_bare
    {ret : Return}
    (bare : ret.path = none) : ¬ ret.Interrupted := by
  rintro ⟨path, same, -⟩
  rw [bare] at same
  contradiction

/-- The arguments that are read are those of a text that closes what it opens,
at the start of what follows the opening parenthesis. -/
theorem exists_closed_of_callRead
    {record : SyscallRecord}
    {args : List Text}
    {retPath : Option Text}
    (read : callRead record = some (args, retPath)) :
    ¬ record.ret.Interrupted ∧ ∃ text more, record.body = text ++ more ∧
      Closed text ∧ args = splitArgs text := by
  rw [← record.unfinished_suffix_body_iff]
  unfold callRead SyscallRecord.emitted at read
  split_ifs at read with interrupted
  · contradiction
  · refine ⟨interrupted, ?_⟩
    split at read
    · contradiction
    · next text retText cuts =>
      obtain ⟨closing, after, body⟩ := exists_closing_of_splitClose cuts
      simp only [List.head?_cons, Option.bind_some, Option.some.injEq,
        Prod.mk.injEq] at read
      exact ⟨text, closing :: after, body, closed_of_splitClose cuts,
        read.1.symm⟩

/-- A text is trimmed of some blanks before it. -/
theorem exists_blanks_of_trim (text : Text) :
    ∃ blanks rest, text = blanks ++ (Text.trim text ++ rest) ∧
      ∀ char ∈ blanks, Text.isWhitespace char = true := by
  obtain ⟨rest, start⟩ : Text.trim text <+: Text.trimStart text :=
    List.rdropWhile_prefix _ _
  refine ⟨text.takeWhile Text.isWhitespace, rest, ?_,
    fun char => List.mem_takeWhile_imp⟩
  rw [start]
  exact List.takeWhile_append_dropWhile.symm

/-- A piece whose text is quoted starts with a quote after some blanks. -/
theorem exists_blanks_of_quoted
    {piece quoted : Text}
    (read : parseQuoted (Text.trim piece) = some quoted) :
    ∃ blanks rest, piece = blanks ++ '"' :: rest ∧
      ∀ char ∈ blanks, Text.isWhitespace char = true := by
  obtain ⟨blanks, rest, piece_eq, blank⟩ := exists_blanks_of_trim piece
  obtain ⟨more, others, trimmed, blankMore⟩ :=
    exists_blanks_of_trim (Text.trim piece)
  have starts : ['"'] <+: Text.trim (Text.trim piece) := by
    by_contra apart
    rw [parseQuoted, Text.stripPrefix_eq_none apart] at read
    contradiction
  obtain ⟨inner, starts⟩ := starts
  refine ⟨blanks ++ more, inner ++ (others ++ rest), ?_,
    List.forall_mem_append.mpr ⟨blank, blankMore⟩⟩
  rw [← starts] at trimmed
  rw [trimmed] at piece_eq
  simpa using piece_eq

/-- The first of several pieces is what stands before a top-level comma. -/
theorem exists_comma_of_second
    {text second : Text}
    (closed : Closed text)
    (found : (splitArgs text)[1]? = some second) :
    ∃ first rest piece after, text = first ++ ',' :: rest ∧ Clean first ∧
      rest = piece ++ after ∧ second = Text.trim piece := by
  obtain ⟨-, pieces⟩ | ⟨first, scan, rest, rfl, runs, top, free, pieces⟩ :=
    splitPieces_cases closed
  · rw [splitArgs, pieces, List.map_singleton, keepLast] at found
    split_ifs at found <;> simp at found
  · obtain rfl := (Scan.sound_start.run runs).eq_start top
    rw [Closed, Scan.run_append, runs, Option.bind_some, Scan.run_cons,
      step_start_comma, Option.bind_some] at closed
    have second_eq : ∃ piece after, rest = piece ++ after ∧
        (splitPieces Scan.start rest).head? = some piece := by
      obtain ⟨-, pieces⟩ | ⟨piece, scan, after, rfl, -, -, -, pieces⟩ :=
        splitPieces_cases closed
      · exact ⟨rest, [], (List.append_nil rest).symm, by rw [pieces]; rfl⟩
      · exact ⟨piece, ',' :: after, rfl, by rw [pieces]; rfl⟩
    obtain ⟨piece, after, rest_eq, head⟩ := second_eq
    refine ⟨first, rest, piece, after, rfl, ⟨runs, free⟩, rest_eq, ?_⟩
    obtain ⟨others, tail⟩ := List.head?_eq_some_iff.mp head
    rw [splitArgs, pieces, tail] at found
    simpa [keepLast, eq_comm] using found

/-- Without a quote the text is not left inside a string. -/
theorem inString_of_run
    {scan next : Scan}
    {text : Text}
    (unquoted : '"' ∉ text)
    (outside : scan.inString = false)
    (runs : scan.run text = some next) : next.inString = false := by
  induction text generalizing scan with
  | nil =>
      obtain rfl := Option.some.inj runs
      exact outside
  | cons char text hypothesis =>
      obtain ⟨apart, unquoted⟩ := not_or.mp (List.mem_cons.not.mp unquoted)
      rw [Scan.run_cons, Option.bind_eq_some_iff] at runs
      obtain ⟨middle, steps, runs⟩ := runs
      refine hypothesis unquoted ?_ runs
      rw [Scan.step, if_neg (by simp [outside]), if_neg (Ne.symm apart)] at steps
      split_ifs at steps <;> obtain rfl := Option.some.inj steps <;>
        exact outside

/-- A quoted path that has begun is not closed before it ends. -/
theorem not_closed_of_quoted
    {decorated path : Text}
    (unquoted : '"' ∉ decorated)
    (plain : ∀ char ∈ path, char ≠ '\\' ∧ char ≠ '"') :
    ¬ Closed (decorated ++ ',' :: ' ' :: '"' :: path) := by
  intro closed
  rw [Closed, Scan.run_append, Option.bind_eq_some_iff] at closed
  obtain ⟨⟨depth, inString, escaped⟩, runs, closed⟩ := closed
  obtain rfl : inString = false := inString_of_run unquoted rfl runs
  obtain rfl : escaped = false := by
    cases escaped with
    | false => rfl
    | true => exact absurd (Scan.sound_start.run runs rfl) Bool.false_ne_true
  have comma : Scan.step ⟨depth, false, false⟩ ',' =
      some ⟨depth, false, false⟩ := rfl
  have blank : Scan.step ⟨depth, false, false⟩ ' ' =
      some ⟨depth, false, false⟩ := rfl
  have opened : Scan.step ⟨depth, false, false⟩ '"' =
      some ⟨depth, true, false⟩ := rfl
  rw [Scan.run_cons, comma, Option.bind_some, Scan.run_cons, blank,
    Option.bind_some, Scan.run_cons, opened, Option.bind_some,
    (Passes.plain plain).runs] at closed
  cases Option.some.inj closed

/-- A descriptor's decoration that is followed by a quoted path is read whole
only when it is clean. -/
theorem clean_of_quoted_second
    {text more decorated quoted second : Text}
    {bytes : List UInt8}
    (plain : ∀ char ∈ escape bytes, char ≠ '\\' ∧ char ≠ '"')
    (unquoted : '"' ∉ decorated)
    (commaFree : ',' ∉ quoted)
    (split : decorated ++ ',' :: ' ' :: (quote bytes ++ quoted) = text ++ more)
    (closed : Closed text)
    (found : (splitArgs text)[1]? = some second)
    {path : Text}
    (read : parseQuoted second = some path) : Clean decorated := by
  obtain ⟨first, rest, piece, after, rfl, clean, rfl, rfl⟩ :=
    exists_comma_of_second closed found
  obtain ⟨blanks, inner, rfl, blank⟩ := exists_blanks_of_quoted read
  rw [List.append_assoc] at split
  obtain ⟨extra, same, tail⟩ | ⟨extra, same, tail⟩ :=
    List.append_eq_append_iff.mp split
  · cases extra with
    | nil =>
        rw [List.append_nil] at same
        exact same ▸ clean
    | cons comma extra =>
        -- The first piece would end inside the quotes, or after a later comma.
        exfalso
        simp only [List.cons_append, List.append_assoc, List.cons.injEq]
          at tail
        obtain ⟨rfl, inside⟩ := tail
        obtain - | ⟨blank, - | ⟨mark, path⟩⟩ := extra
        · exact absurd (List.cons.inj inside).1 (by decide)
        · exact absurd (List.cons.inj (List.cons.inj inside).2).1 (by decide)
        simp only [List.cons_append, quote, List.cons.injEq, List.append_assoc,
          List.nil_append] at inside
        obtain ⟨rfl, rfl, path_eq⟩ := inside
        obtain ⟨later, rfl, rest⟩ | ⟨later, escaped, -⟩ :=
          List.append_eq_append_iff.mp path_eq
        · obtain - | ⟨mark, later⟩ := later
          · exact absurd (List.cons.inj rest).1 (by decide)
          · refine commaFree ?_
            rw [(List.cons.inj rest).2]
            simp
        · refine not_closed_of_quoted unquoted (fun char member => ?_)
            (same ▸ clean.closed)
          exact plain char (escaped ▸ List.mem_append_left _ member)
  · cases extra with
    | nil =>
        rw [List.append_nil] at same
        exact same ▸ clean
    | cons comma extra =>
        -- The second piece starts inside the decoration, without a quote.
        exfalso
        simp only [List.cons_append, List.append_assoc, List.cons.injEq]
          at tail
        obtain ⟨rfl, inside⟩ := tail
        obtain ⟨later, rfl, rest⟩ | ⟨later, rfl, rest⟩ :=
          List.append_eq_append_iff.mp inside
        · obtain - | ⟨mark, later⟩ := later
          · exact absurd (List.cons.inj rest).1 (by decide)
          · obtain rfl := (List.cons.inj rest).1
            exact unquoted (same ▸ by simp)
        · obtain - | ⟨mark, later⟩ := later
          · exact absurd (List.cons.inj rest).1 (by decide)
          · obtain rfl := (List.cons.inj rest).1
            exact absurd (blank ',' (by simp)) (by decide)

end Shellmux
end Marsh
