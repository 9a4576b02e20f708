import Marsh.Shellmux.Repl

/-!
# Job references

What a reader types at `fg` and `stop` is what a job table prints.  The printed
form escapes a name that is no single word, and the typed one is only stripped
of its quotes.
-/

namespace Marsh
namespace Shellmux
namespace Repl

open Library Text

variable {verbatim : Char -> Bool}

/-! ## Printed names -/

theorem isWhitespace_of_isNameChar
    {char : Char}
    (plain : isNameChar char = true) :
    isWhitespace char = false ∧ 32 ≤ char.toNat ∧ char.toNat < 127 ∧
      char ≠ '\\' ∧ char ≠ '"' := by
  have code : (48 ≤ char.toNat ∧ char.toNat ≤ 57) ∨
      (65 ≤ char.toNat ∧ char.toNat ≤ 90) ∨
      (97 ≤ char.toNat ∧ char.toNat ≤ 122) ∨ char.toNat = 95 ∨
      char.toNat = 45 := by
    simp only [isNameChar, isAsciiAlphanumeric, Bool.or_eq_true,
      Bool.and_eq_true, decide_eq_true_eq] at plain
    rcases plain with (plain | rfl) | rfl
    · omega
    · exact .inr (.inr (.inr (.inl rfl)))
    · exact .inr (.inr (.inr (.inr rfl)))
  have apart : ∀ other : Char, char.toNat ≠ other.toNat -> char ≠ other :=
    fun other differs same => differs (congrArg Char.toNat same)
  refine ⟨isWhitespace_eq_false (by omega) (by omega), by omega, by omega,
    apart _ ?_, apart _ ?_⟩
  · change char.toNat ≠ 92
    omega
  · change char.toNat ≠ 34
    omega

/-- A character that is written as it is: a printable ASCII character, the blank
included, other than a quote or a backslash, or one that the Unicode tables let
stand. -/
def Plain (verbatim : Char -> Bool) (char : Char) : Prop :=
  (32 ≤ char.toNat ∧ char.toNat < 127 ∧ char ≠ '\\' ∧ char ≠ '"') ∨
    (128 ≤ char.toNat ∧ verbatim char = true)

theorem escapeDebug_eq_iff (char : Char) :
    escapeDebug verbatim char = [char] ↔ Plain verbatim char := by
  have escaped : ∀ {other : Char} {text : Text}, text.length ≠ 1 ->
      (other.toNat < 32 ∨ other = '\\' ∨ other = '"') -> char = other ->
        (text = [char] ↔ Plain verbatim char) := by
    rintro other text long refused rfl
    refine iff_of_false (fun same => long (congrArg List.length same)) ?_
    rintro (⟨low, -, noBackslash, noQuote⟩ | ⟨high, -⟩)
    · rcases refused with below | backslash | quote
      · omega
      · exact noBackslash backslash
      · exact noQuote quote
    · rcases refused with below | rfl | rfl
      · omega
      · exact absurd high (by decide)
      · exact absurd high (by decide)
  rw [escapeDebug]
  split_ifs with null tab carriage line backslash quote ascii beyond
  · exact escaped (by decide) (.inl (by decide)) null
  · exact escaped (by decide) (.inl (by decide)) tab
  · exact escaped (by decide) (.inl (by decide)) carriage
  · exact escaped (by decide) (.inl (by decide)) line
  · exact escaped (by decide) (.inr (.inl rfl)) backslash
  · exact escaped (by decide) (.inr (.inr rfl)) quote
  · exact iff_of_true rfl (.inl ⟨ascii.1, ascii.2, backslash, quote⟩)
  · exact iff_of_true rfl (.inr beyond)
  · refine iff_of_false (fun same => ?_) ?_
    · have lengths := congrArg List.length same
      simp at lengths
    · rintro (⟨low, high, -⟩ | kept)
      · exact ascii ⟨low, high⟩
      · exact beyond kept

/-- A character is written as it is, or as at least two. -/
theorem escapeDebug_cases (char : Char) :
    escapeDebug verbatim char = [char] ∨
      1 < (escapeDebug verbatim char).length := by
  rw [escapeDebug]
  split_ifs <;> simp

/-- A text is written as it is exactly when each of its characters is. -/
theorem flatMap_escapeDebug_iff (text : Text) :
    text.flatMap (escapeDebug verbatim) = text ↔
      ∀ char ∈ text, Plain verbatim char := by
  have longer : ∀ text : Text,
      text.length ≤ (text.flatMap (escapeDebug verbatim)).length := by
    intro text
    induction text with
    | nil => exact Nat.le_refl _
    | cons char text hypothesis =>
        rw [List.flatMap_cons, List.length_append, List.length_cons]
        rcases @escapeDebug_cases verbatim char with same | long
        · rw [same, List.length_singleton]
          omega
        · omega
  induction text with
  | nil => exact iff_of_true rfl fun _ member => absurd member List.not_mem_nil
  | cons char text hypothesis =>
      rw [List.flatMap_cons, List.forall_mem_cons, ← escapeDebug_eq_iff]
      constructor
      · intro whole
        have lengths := congrArg List.length whole
        rw [List.length_append, List.length_cons] at lengths
        have rest := longer text
        rcases @escapeDebug_cases verbatim char with same | long
        · rw [same] at whole
          exact ⟨same, hypothesis.mp (List.cons.inj whole).2⟩
        · omega
      · rintro ⟨same, rest⟩
        rw [same, hypothesis.mpr rest, List.singleton_append]

/-- A bare name is written as it is. -/
theorem flatMap_escapeDebug_of_bare
    {name : Text}
    (bare : isBare name = true) :
    name.flatMap (escapeDebug verbatim) = name := by
  rw [flatMap_escapeDebug_iff]
  intro char member
  rw [isBare, Bool.and_eq_true, List.all_eq_true] at bare
  obtain ⟨-, low, high, noBackslash, noQuote⟩ :=
    isWhitespace_of_isNameChar (bare.2 char member)
  exact .inl ⟨low, high, noBackslash, noQuote⟩

/-- A reference has no whitespace around it. -/
theorem tight_reference (name : Text) : Tight (reference verbatim name) where
  starts := by
    rw [reference]
    split_ifs <;> exact ⟨'%', _, rfl, by decide⟩
  ends := by
    rw [reference]
    split_ifs with bare
    · rw [isBare, Bool.and_eq_true, List.all_eq_true] at bare
      have someName : name ≠ [] := by
        simpa using bare.1
      refine ⟨'%' :: name.dropLast, name.getLast someName, ?_, ?_⟩
      · rw [List.cons_append, List.dropLast_append_getLast]
      · exact (isWhitespace_of_isNameChar
          (bare.2 _ (List.getLast_mem someName))).1
    · exact ⟨'%' :: '"' :: name.flatMap (escapeDebug verbatim), '"', rfl,
        by decide⟩

/-! ## Typed names -/

/-- A reference is read as the name as it is written between quotes. -/
theorem jobReference_reference
    {name : Text}
    (someName : name ≠ []) :
    jobReference (reference verbatim name) =
      some (name.flatMap (escapeDebug verbatim)) := by
  have written : name.flatMap (escapeDebug verbatim) ≠ [] := by
    intro nothing
    obtain ⟨char, rest, rfl⟩ := List.exists_cons_of_ne_nil someName
    rw [List.flatMap_cons, List.append_eq_nil_iff] at nothing
    rcases @escapeDebug_cases verbatim char with same | long
    · rw [same] at nothing
      exact absurd nothing.1 (List.cons_ne_nil _ _)
    · rw [nothing.1] at long
      exact absurd long (Nat.not_lt_zero 1)
  rw [jobReference, (tight_reference name).trim, reference]
  by_cases bare : isBare name = true
  · rw [if_pos bare, flatMap_escapeDebug_of_bare bare]
    have unquoted : ¬ ['"'] <+: name := by
      intro quoted
      rw [isBare, Bool.and_eq_true, List.all_eq_true] at bare
      have plain := bare.2 '"' (quoted.mem List.mem_cons_self)
      exact absurd plain (by decide)
    have rest := stripPrefix_append ['%'] name
    rw [List.singleton_append] at rest
    simp only [rest, Option.getD_some]
    rw [stripPrefix_eq_none unquoted, Option.bind_none, Option.getD_none,
      if_neg (by simpa using someName)]
  · rw [if_neg bare]
    have rest := stripPrefix_append ['%'] (debugText verbatim name)
    rw [List.singleton_append] at rest
    simp only [rest, Option.getD_some]
    have inner := stripPrefix_append ['"']
      (name.flatMap (escapeDebug verbatim) ++ ['"'])
    rw [List.singleton_append] at inner
    rw [debugText, inner, Option.bind_some, stripSuffix_append,
      Option.getD_some, if_neg (by simpa using written)]

/-- Whitespace before a reference makes no difference. -/
theorem jobReference_cons (text : Text) :
    jobReference (' ' :: text) = jobReference text := by
  rw [jobReference, trim_cons_of_whitespace (by decide), jobReference]

/-- A word before a blank is the first word. -/
theorem splitWhitespace_cons
    {word : Text}
    (someWord : word ≠ [])
    (visible : ∀ char ∈ word, isWhitespace char = false)
    (rest : Text) :
    splitWhitespace (word ++ ' ' :: rest) = word :: splitWhitespace rest := by
  rw [splitWhitespace, List.splitOnP_append_cons_of_forall_mem visible ' '
    (by decide), List.filter_cons_of_pos (by simpa using someWord),
    splitWhitespace]

/-- A line of a command and a tight argument has no whitespace around it. -/
theorem trim_command
    {word argument : Text}
    (command : Tight word)
    (tight : Tight argument) :
    trim (word ++ ' ' :: argument) = word ++ ' ' :: argument := by
  obtain ⟨body, last, shape, visible⟩ := tight.ends
  exact (command.append ⟨' ' :: body, last, by rw [shape]; rfl, visible⟩).trim

theorem visible_of_all
    (text : Text)
    (visible : text.all fun char => !isWhitespace char) :
    ∀ char ∈ text, isWhitespace char = false := by
  intro char member
  have own := List.all_eq_true.mp visible char member
  rwa [Bool.not_eq_true'] at own

theorem parse_fg
    {argument : Text}
    (tight : Tight argument) :
    parse verbatim ("fg ".toList ++ argument) =
      .fg (jobReference argument) := by
  have shape : "fg ".toList ++ argument = ['f', 'g'] ++ ' ' :: argument := rfl
  have visible := visible_of_all ['f', 'g'] (by decide)
  have words := @splitWhitespace_cons ['f', 'g'] (by decide) visible argument
  rw [shape, parse, trim_command (.of_forall (by decide) visible) tight]
  simp only [words, List.headD_cons, List.tail_cons]
  rw [if_neg (by simp), if_neg fun both => absurd both.1 (by decide),
    if_neg (by decide), if_pos (by decide), ← jobReference_cons argument]
  rfl

/-- What starts with a percent sign is no option. -/
theorem stop_percent (rest : Text) :
    stopOptions ('%' :: rest) = ([], '%' :: rest) := by
  rw [stopOptions]
  have token : ('%' :: rest).takeWhile (fun char => !isWhitespace char) =
      '%' :: rest.takeWhile fun char => !isWhitespace char :=
    List.takeWhile_cons_of_pos (by decide)
  simp only [token]
  rw [if_neg (by simp), if_pos (by simp)]

theorem parse_stop
    {argument : Text}
    (tight : Tight ('%' :: argument)) :
    parse verbatim ("stop ".toList ++ '%' :: argument) =
      match jobReference ('%' :: argument) with
      | some name => .stop ["--".toList, name]
      | none => .stop [] := by
  have shape : "stop ".toList ++ '%' :: argument =
      ['s', 't', 'o', 'p'] ++ ' ' :: '%' :: argument := rfl
  have visible := visible_of_all ['s', 't', 'o', 'p'] (by decide)
  have words := @splitWhitespace_cons ['s', 't', 'o', 'p'] (by decide) visible
    ('%' :: argument)
  rw [shape, parse, trim_command (.of_forall (by decide) visible) tight]
  simp only [words, List.headD_cons, List.tail_cons]
  rw [if_neg (by simp), if_neg fun both => absurd both.1 (by decide),
    if_neg (by decide), if_neg (by decide), if_neg (by decide),
    if_pos (by decide)]
  have argued : trim ((['s', 't', 'o', 'p'] ++ ' ' :: '%' :: argument).drop
      ['s', 't', 'o', 'p'].length) = '%' :: argument := by
    rw [List.drop_left, trim_cons_of_whitespace (by decide), tight.trim]
  rw [argued, stop, tight.trim, stop_percent]
  rfl

/-! ## Names a job may have -/

/-- A name that a named background line or `sd` accepts. -/
def Accepted (verbatim : Char -> Bool) (name : Text) : Prop :=
  (∃ line cmd, parse verbatim line = .background cmd (some name)) ∨
    ∃ line dir, parse verbatim line = .spawnDir (some name) dir

/-- What the printed form of a name means when it is typed: the name, after the
options. -/
structure RoundTrips (verbatim : Char -> Bool) (name : Text) : Prop where
  fg : parse verbatim ("fg ".toList ++ reference verbatim name) =
    .fg (some name)
  stop : parse verbatim ("stop ".toList ++ reference verbatim name) =
    .stop ["--".toList, name]

/-- What a line asks for without an ampersand; a name in it is valid. -/
def Input.Direct : Input -> Prop
  | .background _ _ => False
  | .spawnDir (some name) _ => validName name = true
  | _ => True

theorem direct_stop (text : Text) : (stop text).Direct := by
  rw [stop]
  obtain ⟨options, rest⟩ := stopOptions (trim text)
  simp only
  cases jobReference rest with
  | none => exact trivial
  | some name => exact trivial

/-- A line is a background line, or asks for something without an ampersand. -/
theorem parse_cases (line : Text) :
    background verbatim (trim line) = some (parse verbatim line) ∨
      (parse verbatim line).Direct := by
  rw [parse]
  simp only
  split_ifs
  · exact .inr trivial
  · exact .inr trivial
  · exact .inr trivial
  · exact .inr trivial
  · exact .inr trivial
  · exact .inr (direct_stop _)
  · split
    · rw [sd]
      split_ifs with valid
      · exact .inr valid
      · exact .inr trivial
    · exact .inr trivial
  · split
    · exact .inr trivial
    · exact .inr trivial
  · cases asked : background verbatim (trim line) with
    | none => exact .inr trivial
    | some input => exact .inl rfl

/-- What a background line asks for is a job in the background, or nothing. -/
theorem cases_of_background
    {line : Text}
    {input : Input}
    (asked : background verbatim line = some input) :
    (∃ cmd name, input = .background cmd name ∧ name ≠ some []) ∨
      ∃ message, input = .invalid message := by
  rw [background, Option.bind_eq_some_iff] at asked
  obtain ⟨⟨start, name⟩, -, asked⟩ := asked
  simp only at asked
  split_ifs at asked
  cases name with
  | none =>
      obtain rfl := Option.some.inj asked
      exact .inl ⟨_, none, rfl, nofun⟩
  | some name =>
      obtain rfl := Option.some.inj asked
      rw [namedBackground]
      split_ifs with reserved refused
      · exact .inr ⟨_, rfl⟩
      · exact .inr ⟨_, rfl⟩
      · refine .inl ⟨_, _, rfl, fun empty => refused ?_⟩
        rw [Option.some.inj empty]
        rfl

/-- A name that is accepted is not empty. -/
theorem Accepted.ne_nil
    {name : Text}
    (accepted : Accepted verbatim name) : name ≠ [] := by
  rintro rfl
  rcases accepted with ⟨line, cmd, parsed⟩ | ⟨line, dir, parsed⟩
  · obtain asked | direct := @parse_cases verbatim line <;>
      rw [parsed] at *
    · obtain ⟨_, _, same, someName⟩ | ⟨_, same⟩ := cases_of_background asked
      · exact someName (Input.background.inj same).2.symm
      · cases same
    · exact direct
  · obtain asked | valid := @parse_cases verbatim line <;>
      rw [parsed] at *
    · obtain ⟨_, _, same, -⟩ | ⟨_, same⟩ := cases_of_background asked <;>
        cases same
    · change validName [] = true at valid
      exact absurd valid (by decide)

/-- The printed form of a job's name is read back as that name exactly when every
character of it is written as it is. -/
theorem roundTrips_iff_of_accepted
    {name : Text}
    (accepted : Accepted verbatim name) :
    RoundTrips verbatim name ↔
      ∀ char ∈ name, Plain verbatim char := by
  have read := @jobReference_reference verbatim _ accepted.ne_nil
  have tight := @tight_reference verbatim name
  obtain ⟨argument, shape⟩ : ∃ argument,
      reference verbatim name = '%' :: argument := by
    rw [reference]
    split_ifs <;> exact ⟨_, rfl⟩
  rw [← flatMap_escapeDebug_iff]
  constructor
  · intro trips
    have typed := trips.fg
    rw [parse_fg tight, read] at typed
    exact Option.some.inj (Input.fg.inj typed)
  · intro plain
    rw [plain] at read
    refine ⟨by rw [parse_fg tight, read], ?_⟩
    rw [shape] at tight read ⊢
    rw [parse_stop tight, read]

/-- A name of one word comes back. -/
theorem roundTrips_iff_of_accepted_api :
    Accepted (fun _ => true) "api".toList ∧
      (RoundTrips (fun _ => true) "api".toList ↔
        ∀ char ∈ "api".toList, Plain (fun _ => true) char) := by
  have accepted : Accepted (fun _ => true) "api".toList :=
    .inl ⟨"echo foo &api".toList, "echo foo".toList, by decide⟩
  exact ⟨accepted, roundTrips_iff_of_accepted accepted⟩

/-- A name with a backslash comes back with two. -/
theorem not_roundTrips_backslash :
    Accepted (fun _ => true) "a\\b".toList ∧
      ¬ RoundTrips (fun _ => true) "a\\b".toList := by
  refine ⟨.inl ⟨"make &\"a\\b\"".toList, "make".toList, by decide⟩, ?_⟩
  intro trips
  have typed := trips.fg
  have other : parse (fun _ => true) ("fg ".toList ++
      reference (fun _ => true) "a\\b".toList) =
        .fg (some "a\\\\b".toList) := by decide
  rw [other] at typed
  exact absurd typed (by decide)

end Repl
end Shellmux
end Marsh
