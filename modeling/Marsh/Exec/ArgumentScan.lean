import Marsh.Exec.StraceText

/-!
# Where argument text is cut

The loops of `split_args` and `split_close` follow the same rules for quotes and
brackets.  A text that closes what it opens is passed over by both; a comma cuts
it only outside of both.
-/

namespace Marsh
namespace Exec

open Library

namespace Scan

/-! ## The rules of both loops -/

/-- One character, unless it closes a bracket that is not open. -/
def step (scan : Scan) (char : Char) : Option Scan :=
  if scan.inString then some (scan.inside char)
  else if char = '"' then some { scan with inString := true }
  else if opens char then some { scan with depth := scan.depth + 1 }
  else if closes char then
    if scan.depth = 0 then none else some { scan with depth := scan.depth - 1 }
  else some scan

/-- The characters of a text. -/
def run (scan : Scan) (text : Text) : Option Scan := text.foldlM step scan

/-- Outside of quotes and brackets. -/
def Top (scan : Scan) : Prop := scan.inString = false ∧ scan.depth = 0

instance (scan : Scan) : Decidable scan.Top :=
  inferInstanceAs (Decidable (_ ∧ _))

/-- No comma of the text stands outside of quotes and brackets. -/
def CommaFree : Scan -> Text -> Prop
  | _, [] => True
  | scan, char :: rest =>
      ¬ (char = ',' ∧ scan.Top) ∧
        ∀ next, scan.step char = some next -> CommaFree next rest

/-- A backslash is pending only inside quotes. -/
def Sound (scan : Scan) : Prop := scan.escaped = true -> scan.inString = true

theorem run_cons (scan : Scan) (char : Char) (rest : Text) :
    scan.run (char :: rest) = (scan.step char).bind fun next => next.run rest :=
  rfl

theorem run_append (scan : Scan) (text rest : Text) :
    scan.run (text ++ rest) =
      (scan.run text).bind fun next => next.run rest := by
  rw [run, List.foldlM_append]
  rfl

theorem sound_start : start.Sound := fun escaped => escaped

/-- A step keeps the state sound. -/
theorem Sound.step
    {scan next : Scan}
    (sound : scan.Sound)
    {char : Char}
    (steps : scan.step char = some next) : next.Sound := by
  unfold Scan.step at steps
  split_ifs at steps with inString quote opening closing
  · obtain rfl := Option.some.inj steps
    unfold Scan.inside
    split_ifs <;> simp_all [Scan.Sound]
  all_goals
    obtain rfl := Option.some.inj steps
    simp_all [Scan.Sound]

theorem Sound.run
    {scan next : Scan}
    (sound : scan.Sound)
    {text : Text}
    (runs : scan.run text = some next) : next.Sound := by
  induction text generalizing scan with
  | nil =>
      obtain rfl := Option.some.inj runs
      exact sound
  | cons char text hypothesis =>
      rw [run_cons, Option.bind_eq_some_iff] at runs
      obtain ⟨middle, steps, runs⟩ := runs
      exact hypothesis (sound.step steps) runs

/-- At the top a sound state is the starting one. -/
theorem Sound.eq_start
    {scan : Scan}
    (sound : scan.Sound)
    (top : scan.Top) : scan = start := by
  obtain ⟨depth, inString, escaped⟩ := scan
  obtain ⟨rfl, rfl⟩ := top
  cases escaped
  · rfl
  · exact absurd (sound rfl) Bool.false_ne_true

end Scan

/-! ## The closing parenthesis -/

/-- The scan of `split_close`, one bracket deeper. -/
def Scan.deeper (scan : Scan) : Scan := { scan with depth := scan.depth + 1 }

/-- What `split_close` has passed over stands before what it finds. -/
def prependFirst (text : Text) (parts : Text × Text) : Text × Text :=
  (text ++ parts.1, parts.2)

theorem Scan.inside_deeper (scan : Scan) (char : Char) :
    scan.deeper.inside char = (scan.inside char).deeper := by
  unfold Scan.inside Scan.deeper
  split_ifs <;> rfl

/-- A character that closes nothing is passed over. -/
theorem closeLoop_cons
    {scan next : Scan}
    {char : Char}
    (steps : scan.step char = some next)
    (rest : Text) :
    closeLoop scan.deeper (char :: rest) =
      (closeLoop next.deeper rest).map (prependFirst [char]) := by
  rw [closeLoop]
  dsimp only
  unfold Scan.step at steps
  split_ifs at steps with inString quote opening closing unopened
  all_goals
    obtain rfl := Option.some.inj steps
  · rw [if_pos (by exact inString), Scan.inside_deeper]
    rfl
  · rw [if_neg (by exact inString), if_pos quote]
    rfl
  · rw [if_neg (by exact inString), if_neg quote, if_pos opening]
    rfl
  · have deeper : scan.depth + 1 - 1 = scan.depth - 1 + 1 := by omega
    rw [if_neg (by exact inString), if_neg quote, if_neg opening,
      if_pos closing, Scan.deeper, deeper, if_neg (Nat.succ_ne_zero _)]
    rfl
  · rw [if_neg (by exact inString), if_neg quote, if_neg opening,
      if_neg closing]
    rfl

/-- A text that closes what it opens is passed over. -/
theorem closeLoop_append
    {scan next : Scan}
    {text : Text}
    (runs : scan.run text = some next)
    (rest : Text) :
    closeLoop scan.deeper (text ++ rest) =
      (closeLoop next.deeper rest).map (prependFirst text) := by
  induction text generalizing scan with
  | nil =>
      obtain rfl := Option.some.inj runs
      exact Option.map_id'.symm
  | cons char text hypothesis =>
      rw [Scan.run_cons, Option.bind_eq_some_iff] at runs
      obtain ⟨middle, steps, runs⟩ := runs
      rw [List.cons_append, closeLoop_cons steps, hypothesis runs,
        Option.map_map]
      rfl

/-- The closing bracket of the argument list ends it. -/
theorem closeLoop_closing
    {char : Char}
    (closing : closes char = true)
    (rest : Text) :
    closeLoop Scan.start.deeper (char :: rest) = some ([], rest) := by
  have apart : char ≠ '"' ∧ opens char = false := by
    simp only [closes, Bool.or_eq_true, decide_eq_true_eq] at closing
    rcases closing with (rfl | rfl) | rfl <;> decide
  rw [closeLoop]
  dsimp only
  rw [if_neg (by decide), if_neg apart.1, if_neg (by simp [apart.2]),
    if_pos closing]
  rfl

/-- What stands before the bracket that ends an argument list closes what it
opens. -/
theorem run_of_closeLoop
    {scan : Scan}
    {text args after : Text}
    (cuts : closeLoop scan.deeper text = some (args, after)) :
    (∃ next, scan.run args = some next ∧ next.Top) ∧
      ∃ char, text = args ++ char :: after := by
  induction text generalizing scan args with
  | nil => contradiction
  | cons char text hypothesis =>
      cases steps : scan.step char with
      | some next =>
          rw [closeLoop_cons steps, Option.map_eq_some_iff] at cuts
          obtain ⟨⟨before, rest⟩, found, same⟩ := cuts
          obtain ⟨rfl, rfl⟩ := Prod.mk.inj same
          obtain ⟨⟨last, runs, top⟩, closer, rfl⟩ := hypothesis found
          refine ⟨⟨last, ?_, top⟩, closer, rfl⟩
          rw [List.singleton_append, Scan.run_cons, steps]
          exact runs
      | none =>
          rw [closeLoop] at cuts
          dsimp only at cuts
          unfold Scan.step at steps
          split_ifs at steps with inString quote opening closing unopened
          rw [if_neg (by exact inString), if_neg quote, if_neg opening,
            if_pos closing, Scan.deeper, unopened, if_pos (by rfl)] at cuts
          obtain ⟨rfl, rfl⟩ := Prod.mk.inj (Option.some.inj cuts)
          exact ⟨⟨scan, rfl, by simpa using inString, unopened⟩, char, rfl⟩

/-! ## Top-level commas -/

/-- What `split_args` has passed over stands at the start of the first piece. -/
def prependPiece (text : Text) : List Text -> List Text
  | [] => [text]
  | piece :: pieces => (text ++ piece) :: pieces

theorem extend_eq (char : Char) (pieces : List Text) :
    extend char pieces = prependPiece [char] pieces := by
  cases pieces <;> rfl

theorem prependPiece_append (text rest : Text) (pieces : List Text) :
    prependPiece (text ++ rest) pieces =
      prependPiece text (prependPiece rest pieces) := by
  cases pieces <;> simp [prependPiece]

theorem splitPieces_ne_nil (scan : Scan) (text : Text) :
    splitPieces scan text ≠ [] := by
  cases text with
  | nil => simp [splitPieces]
  | cons char text =>
      rw [splitPieces]
      simp only [extend_eq]
      split_ifs <;> first
        | exact List.cons_ne_nil _ _
        | cases splitPieces _ text <;> exact List.cons_ne_nil _ _

/-- A character that is no top-level comma and closes nothing is passed over. -/
theorem splitPieces_cons
    {scan next : Scan}
    {char : Char}
    (steps : scan.step char = some next)
    (inner : ¬ (char = ',' ∧ scan.Top))
    (rest : Text) :
    splitPieces scan (char :: rest) =
      prependPiece [char] (splitPieces next rest) := by
  rw [splitPieces]
  simp only [extend_eq]
  unfold Scan.step at steps
  split_ifs at steps with inString quote opening closing unopened
  all_goals
    obtain rfl := Option.some.inj steps
  · rw [if_pos inString]
  · rw [if_neg inString, if_pos quote]
  · rw [if_neg inString, if_neg quote, if_pos opening]
  · rw [if_neg inString, if_neg quote, if_neg opening, if_pos closing]
  · rw [if_neg inString, if_neg quote, if_neg opening, if_neg closing, if_neg]
    exact fun comma => inner ⟨comma.1, by simpa using inString, comma.2⟩

/-- A top-level comma ends a piece. -/
theorem splitPieces_comma
    {scan : Scan}
    (top : scan.Top)
    (rest : Text) :
    splitPieces scan (',' :: rest) = [] :: splitPieces scan rest := by
  rw [splitPieces, if_neg (by simp [top.1]), if_neg (by decide),
    if_neg (by decide), if_neg (by decide), if_pos ⟨rfl, top.2⟩]

/-- A text without top-level commas is passed over. -/
theorem splitPieces_append
    {scan next : Scan}
    {text : Text}
    (runs : scan.run text = some next)
    (free : scan.CommaFree text)
    (rest : Text) :
    splitPieces scan (text ++ rest) =
      prependPiece text (splitPieces next rest) := by
  induction text generalizing scan with
  | nil =>
      obtain rfl := Option.some.inj runs
      cases pieces : splitPieces scan rest with
      | nil => exact absurd pieces (splitPieces_ne_nil _ _)
      | cons piece pieces' => simp [prependPiece, pieces]
  | cons char text hypothesis =>
      rw [Scan.run_cons, Option.bind_eq_some_iff] at runs
      obtain ⟨middle, steps, runs⟩ := runs
      rw [List.cons_append, splitPieces_cons steps free.1,
        hypothesis runs (free.2 middle steps), ← prependPiece_append]
      rfl

/-- The first piece of a text that closes what it opens ends at its first
top-level comma, if any. -/
theorem splitPieces_cases
    {scan next : Scan}
    {text : Text}
    (runs : scan.run text = some next) :
    scan.CommaFree text ∧ splitPieces scan text = [text] ∨
      ∃ piece middle rest, text = piece ++ ',' :: rest ∧
        scan.run piece = some middle ∧ middle.Top ∧ scan.CommaFree piece ∧
        splitPieces scan text = piece :: splitPieces middle rest := by
  induction text generalizing scan with
  | nil => exact .inl ⟨trivial, rfl⟩
  | cons char text hypothesis =>
      by_cases comma : char = ',' ∧ scan.Top
      · obtain ⟨rfl, top⟩ := comma
        exact .inr ⟨[], scan, text, rfl, rfl, top, trivial,
          splitPieces_comma top text⟩
      · rw [Scan.run_cons, Option.bind_eq_some_iff] at runs
        obtain ⟨middle, steps, runs⟩ := runs
        have only : ∀ other, scan.step char = some other -> other = middle :=
          fun other again => Option.some.inj (again.symm.trans steps)
        rw [splitPieces_cons steps comma]
        obtain ⟨free, pieces⟩ | ⟨piece, last, rest, rfl, runsOn, top, free,
          pieces⟩ := hypothesis runs
        · refine .inl ⟨⟨comma, fun other again => ?_⟩, by rw [pieces]; rfl⟩
          rw [only other again]
          exact free
        · refine .inr ⟨char :: piece, last, rest, rfl, ?_, top,
            ⟨comma, fun other again => ?_⟩, by rw [pieces]; rfl⟩
          · rw [Scan.run_cons, steps]
            exact runsOn
          · rw [only other again]
            exact free

end Exec
end Marsh
