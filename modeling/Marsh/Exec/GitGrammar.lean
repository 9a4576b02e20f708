import Marsh.Exec.GitCommand

/-!
# Lines the git grammar describes

A grammar in which every flag has a meaning, and the lines on which the parser
accepts that grammar: it passes over the flags it does not know.
-/

namespace Marsh
namespace Exec

open Library

/-! ## The grammar -/

/-- A flag with a meaning. -/
inductive Flag
  | staged
  | force
  | message (value : Text)
  deriving DecidableEq, Repr

/-- Flags written as one word. -/
inductive Spells : Text -> Text -> Flag -> Prop
  | staged : Spells "restore".toList "--staged".toList .staged
  | force : Spells "clean".toList "-f".toList .force
  | longForce : Spells "clean".toList "--force".toList .force
  | attached {value : Text}
      (some : value ≠ []) :
      Spells "commit".toList ("-m".toList ++ value) (.message value)
  | assigned (value : Text) :
      Spells "commit".toList ("--message=".toList ++ value) (.message value)

/-- The flags and the other words among some words of a subcommand. -/
inductive Reads (subcommand : Text) :
    List Text -> List Flag -> List Text -> Prop
  | done : Reads subcommand [] [] []
  | positional {word : Text} {rest positionals : List Text} {flags : List Flag}
      (plain : word.head? ≠ some '-')
      (reads : Reads subcommand rest flags positionals) :
      Reads subcommand (word :: rest) flags (word :: positionals)
  | flag {word : Text} {flag : Flag} {rest positionals : List Text}
      {flags : List Flag}
      (spelled : Spells subcommand word flag)
      (reads : Reads subcommand rest flags positionals) :
      Reads subcommand (word :: rest) (flag :: flags) positionals
  | message {word value : Text} {rest positionals : List Text}
      {flags : List Flag}
      (commits : subcommand = "commit".toList)
      (named : word = "-m".toList ∨ word = "--message".toList)
      (reads : Reads subcommand rest flags positionals) :
      Reads subcommand (word :: value :: rest) (.message value :: flags)
        positionals

/-- The values of the message flags. -/
def messages (flags : List Flag) : List Text :=
  flags.filterMap fun flag =>
    match flag with
    | .message value => some value
    | _ => none

/-- The message of a commit: its values, a blank line between them. -/
def joined (values : List Text) : Option Text :=
  if values = [] then none else some ("\n\n".toList.intercalate values)

/-- What a subcommand with its leading words asks for. -/
inductive Requests (flags : List Flag) :
    Text -> List Text -> GitAction -> Prop
  | add : Requests flags "add".toList [] .stage
  | stage : Requests flags "stage".toList [] .stage
  | rm : Requests flags "rm".toList [] .delete
  | commit :
      Requests flags "commit".toList [] (.commit (joined (messages flags)))
  | restore (staged : .staged ∈ flags) :
      Requests flags "restore".toList [] .unstage
  | checkout : Requests flags "checkout".toList ["HEAD".toList] .checkout
  | stash : Requests flags "stash".toList ["push".toList] .stash
  | clean (forced : .force ∈ flags) : Requests flags "clean".toList [] .clean
  | diff : Requests flags "diff".toList [] .diff
  | log : Requests flags "log".toList [] .history

/-- Pathspecs that name resources. -/
def Named (pathspecs : List Text) : Prop :=
  pathspecs ≠ [] ∧ ∀ pathspec ∈ pathspecs, isPattern pathspec = false

/-- The command lines of the grammar, and what each of them asks for. -/
inductive Grammar : List Text -> GitInvocation -> Prop
  /-- With a separator before the pathspecs. -/
  | separated {name subcommand : Text} {before leading pathspecs : List Text}
      {flags : List Flag} {action : GitAction}
      (first : "--".toList ∉ before)
      (reads : Reads subcommand before flags leading)
      (requests : Requests flags subcommand leading action)
      (named : Named pathspecs) :
      Grammar (name :: subcommand :: (before ++ "--".toList :: pathspecs))
        ⟨action, pathspecs⟩
  /-- Without one. -/
  | bare {name subcommand : Text} {rest leading pathspecs : List Text}
      {flags : List Flag} {action : GitAction}
      (none : "--".toList ∉ rest)
      (reads : Reads subcommand rest flags (leading ++ pathspecs))
      (requests : Requests flags subcommand leading action)
      (named : Named pathspecs) :
      Grammar (name :: subcommand :: rest) ⟨action, pathspecs⟩

/-! ## Flags that are passed over -/

/-- The flag a word is. -/
def ownFlag (subcommand word : Text) : Option Flag :=
  if subcommand = "restore".toList then
    if word = "--staged".toList then some .staged else none
  else if subcommand = "clean".toList then
    if word = "-f".toList ∨ word = "--force".toList then some .force else none
  else if subcommand = "commit".toList then
    (ownMessage word).head?.map .message
  else none

/-- A flag of a commit that takes the message from elsewhere. -/
def isFileFlag (word : Text) : Prop :=
  word = "-F".toList ∨ word = "--file".toList ∨ "--file=".toList <+: word

instance (word : Text) : Decidable (isFileFlag word) :=
  inferInstanceAs (Decidable (_ ∨ _))

/-- A flag without a meaning to the subcommand. -/
def isUnknown (subcommand word : Text) : Prop :=
  word.head? = some '-' ∧ ownFlag subcommand word = none ∧
    ¬(subcommand = "commit".toList ∧ (takesValue word ∨ isFileFlag word))

instance (subcommand word : Text) : Decidable (isUnknown subcommand word) :=
  inferInstanceAs (Decidable (_ ∧ _))

/-- The words without the flags that have no meaning to the subcommand. -/
def understoodWords (subcommand : Text) : List Text -> List Text
  | [] => []
  | [word] => if isUnknown subcommand word then [] else [word]
  | word :: value :: rest =>
      if takesValue word then
        if subcommand = "commit".toList then
          word :: value :: understoodWords subcommand rest
        -- The value of such a flag is passed over, unless it is a flag itself.
        else if (ownFlag subcommand value).isSome then
          value :: understoodWords subcommand rest
        else understoodWords subcommand rest
      else if isUnknown subcommand word then
        understoodWords subcommand (value :: rest)
      else word :: understoodWords subcommand (value :: rest)

/-- The command line without the flags that have no meaning. -/
def understood : List Text -> List Text
  | name :: subcommand :: rest =>
      let separator := "--".toList
      if separator ∈ rest then
        name :: subcommand ::
          (understoodWords subcommand (rest.takeWhile (· ≠ separator)) ++
            rest.dropWhile (· ≠ separator))
      else name :: subcommand :: understoodWords subcommand rest
  | argv => argv

/-- The parser passes over a flag of a line that is otherwise in order. -/
def Overlooks (argv : List Text) : Prop :=
  understood argv ≠ argv ∧ ∃ invocation, Grammar (understood argv) invocation

/-! ## Flags of one word -/

theorem eq_of_stripPrefix
    {start text rest : Text}
    (stripped : Text.stripPrefix start text = some rest) :
    text = start ++ rest := by
  rw [Text.stripPrefix] at stripped
  split_ifs at stripped with starts
  obtain rfl := Option.some.inj stripped
  exact (List.prefix_iff_eq_append.mp starts).symm

theorem stripPrefix_attached (value : Text) :
    Text.stripPrefix "--message=".toList ("-m".toList ++ value) = none := by
  rw [Text.stripPrefix, if_neg]
  intro starts
  have second := List.prefix_cons_inj '-' |>.mp starts
  have same := (List.cons_prefix_cons.mp second).1
  exact absurd same (by decide)

theorem spells_iff {subcommand word : Text} {flag : Flag} :
    Spells subcommand word flag ↔ ownFlag subcommand word = some flag := by
  constructor
  · intro spelled
    cases spelled with
    | staged => rfl
    | force => rfl
    | longForce => rfl
    | @attached value some =>
        change (ownMessage ("-m".toList ++ value)).head?.map Flag.message = _
        rw [ownMessage, stripPrefix_attached]
        dsimp only
        rw [Text.stripPrefix_append, Option.filter_some,
          if_pos (by simpa using some)]
        rfl
    | assigned value =>
        change (ownMessage ("--message=".toList ++ value)).head?.map
          Flag.message = _
        rw [ownMessage, Text.stripPrefix_append]
        rfl
  · intro own
    unfold ownFlag at own
    split_ifs at own with restores isStaged cleans isForce commits
    · obtain rfl := Option.some.inj own
      rw [restores, isStaged]
      exact .staged
    · obtain rfl := Option.some.inj own
      rw [cleans]
      rcases isForce with rfl | rfl
      · exact .force
      · exact .longForce
    · rw [commits]
      unfold ownMessage at own
      split at own
      · rename_i value stripped
        obtain rfl := Option.some.inj own
        rw [eq_of_stripPrefix stripped]
        exact .assigned value
      · rename_i notAssigned
        cases stripped : Text.stripPrefix "-m".toList word with
        | none =>
            rw [stripped] at own
            cases own
        | some value =>
            rw [stripped, Option.filter_some] at own
            split_ifs at own with some
            · obtain rfl := Option.some.inj own
              rw [eq_of_stripPrefix stripped]
              exact .attached (by simpa using some)
            · cases own

theorem Spells.head
    {subcommand word : Text}
    {flag : Flag}
    (spelled : Spells subcommand word flag) : word.head? = some '-' := by
  cases spelled <;> rfl

theorem Spells.takesValue
    {subcommand word : Text}
    {flag : Flag}
    (spelled : Spells subcommand word flag) : takesValue word = false := by
  cases spelled with
  | staged => rfl
  | force => rfl
  | longForce => rfl
  | @attached value some =>
      cases value with
      | nil => exact absurd rfl some
      | cons char rest => simp [Exec.takesValue]
  | assigned value => simp [Exec.takesValue]

theorem head_of_takesValue
    {word : Text}
    (takes : takesValue word = true) : word.head? = some '-' := by
  simp only [takesValue, Bool.or_eq_true, decide_eq_true_eq] at takes
  rcases takes with ((rfl | rfl) | rfl) | rfl <;> rfl

/-! ## Reading words -/

section Reading

variable {subcommand word value : Text} {rest positionals : List Text}
  {flags : List Flag}

theorem reads_nil_iff :
    Reads subcommand [] flags positionals ↔ flags = [] ∧ positionals = [] := by
  constructor
  · intro reads
    cases reads
    exact ⟨rfl, rfl⟩
  · rintro ⟨rfl, rfl⟩
    exact .done

theorem reads_positional_iff (plain : word.head? ≠ some '-') :
    Reads subcommand (word :: rest) flags positionals ↔
      ∃ others, positionals = word :: others ∧
        Reads subcommand rest flags others := by
  constructor
  · intro reads
    cases reads with
    | positional _ reads => exact ⟨_, rfl, reads⟩
    | flag spelled reads => exact absurd spelled.head plain
    | message commits named reads =>
        rcases named with rfl | rfl <;> exact absurd rfl plain
  · rintro ⟨others, rfl, reads⟩
    exact .positional plain reads

theorem reads_flag_iff
    {flag : Flag}
    (own : ownFlag subcommand word = some flag) :
    Reads subcommand (word :: rest) flags positionals ↔
      ∃ others, flags = flag :: others ∧
        Reads subcommand rest others positionals := by
  have spelled := (spells_iff).mpr own
  constructor
  · intro reads
    cases reads with
    | positional plain reads => exact absurd spelled.head plain
    | flag otherSpelled reads =>
        have same := own.symm.trans ((spells_iff).mp otherSpelled)
        obtain rfl := Option.some.inj same
        exact ⟨_, rfl, reads⟩
    | message commits named reads =>
        have takes := spelled.takesValue
        rcases named with rfl | rfl <;> cases takes
  · rintro ⟨others, rfl, reads⟩
    exact .flag spelled reads

theorem reads_message_iff
    (named : word = "-m".toList ∨ word = "--message".toList) :
    Reads "commit".toList (word :: value :: rest) flags positionals ↔
      ∃ others, flags = .message value :: others ∧
        Reads "commit".toList rest others positionals := by
  constructor
  · intro reads
    cases reads with
    | positional plain reads =>
        rcases named with rfl | rfl <;> exact absurd rfl plain
    | flag spelled reads =>
        have takes := spelled.takesValue
        rcases named with rfl | rfl <;> cases takes
    | message commits _ reads => exact ⟨_, rfl, reads⟩
  · rintro ⟨others, rfl, reads⟩
    exact .message rfl named reads

/-- No line with a flag without a meaning is read. -/
theorem not_reads
    (dash : word.head? = some '-')
    (meaningless : ownFlag subcommand word = none)
    (unnamed : ¬(subcommand = "commit".toList ∧ rest ≠ [] ∧
      (word = "-m".toList ∨ word = "--message".toList))) :
    ¬Reads subcommand (word :: rest) flags positionals := by
  intro reads
  cases reads with
  | positional plain reads => exact plain dash
  | flag spelled reads =>
      rw [(spells_iff).mp spelled] at meaningless
      cases meaningless
  | message commits named reads =>
      exact unnamed ⟨commits, List.cons_ne_nil _ _, named⟩

end Reading

/-! ## Splitting words -/

theorem splitFlags_plain
    {word : Text}
    (plain : word.head? ≠ some '-')
    (rest : List Text) :
    splitFlags (word :: rest) =
      ((splitFlags rest).1, word :: (splitFlags rest).2) := by
  cases rest with
  | nil => rw [splitFlags, splitFlags, if_neg plain]
  | cons value rest => rw [splitFlags, if_neg plain]

theorem splitFlags_flag
    {word : Text}
    (dash : word.head? = some '-')
    (alone : takesValue word = false)
    (rest : List Text) :
    splitFlags (word :: rest) =
      (word :: (splitFlags rest).1, (splitFlags rest).2) := by
  cases rest with
  | nil => rw [splitFlags, splitFlags, if_pos dash]
  | cons value rest =>
      rw [splitFlags, if_pos dash, alone, if_neg Bool.false_ne_true]

theorem splitFlags_value
    {word : Text}
    (takes : takesValue word = true)
    (value : Text)
    (rest : List Text) :
    splitFlags (word :: value :: rest) =
      (word :: value :: (splitFlags rest).1, (splitFlags rest).2) := by
  rw [splitFlags, if_pos (head_of_takesValue takes), if_pos takes]

theorem splitFlags_last
    {word : Text}
    (dash : word.head? = some '-') : splitFlags [word] = ([word], []) := by
  rw [splitFlags, if_pos dash]

theorem ownFlag_of_takesValue
    {subcommand word : Text}
    (takes : takesValue word = true) : ownFlag subcommand word = none := by
  cases own : ownFlag subcommand word with
  | none => rfl
  | some flag =>
      rw [((spells_iff).mpr own).takesValue] at takes
      cases takes

/-- A word of which the parser makes something is a flag or no flag at all. -/
theorem known_of_not_isUnknown
    {subcommand word : Text}
    (other : subcommand ≠ "commit".toList)
    (known : ¬isUnknown subcommand word) :
    word.head? ≠ some '-' ∨ ∃ flag, ownFlag subcommand word = some flag := by
  by_cases dash : word.head? = some '-'
  · cases own : ownFlag subcommand word with
    | none => exact absurd ⟨dash, own, fun both => other both.1⟩ known
    | some flag => exact .inr ⟨flag, rfl⟩
  · exact .inl dash

/-- One known word of a subcommand other than `commit`. -/
theorem reads_known_iff
    {subcommand word : Text}
    {rest understoodRest : List Text}
    (other : subcommand ≠ "commit".toList)
    (known : ¬isUnknown subcommand word)
    (alone : takesValue word = false)
    (hypothesis : ∀ {flags : List Flag} {positionals : List Text},
      Reads subcommand understoodRest flags positionals ↔
        flags = (splitFlags rest).1.filterMap (ownFlag subcommand) ∧
          positionals = (splitFlags rest).2)
    {flags : List Flag}
    {positionals : List Text} :
    Reads subcommand (word :: understoodRest) flags positionals ↔
      flags = (splitFlags (word :: rest)).1.filterMap (ownFlag subcommand) ∧
        positionals = (splitFlags (word :: rest)).2 := by
  rcases known_of_not_isUnknown other known with plain | ⟨flag, own⟩
  · rw [reads_positional_iff plain, splitFlags_plain plain]
    simp only [hypothesis]
    constructor
    · rintro ⟨others, rfl, rfl, rfl⟩
      exact ⟨rfl, rfl⟩
    · rintro ⟨rfl, rfl⟩
      exact ⟨_, rfl, rfl, rfl⟩
  · rw [reads_flag_iff own, splitFlags_flag ((spells_iff).mpr own).head alone,
      List.filterMap_cons_some own]
    simp only [hypothesis]
    constructor
    · rintro ⟨others, rfl, rfl, rfl⟩
      exact ⟨rfl, rfl⟩
    · rintro ⟨rfl, rfl⟩
      exact ⟨_, rfl, rfl, rfl⟩

/-- The grammar reads, of the words it understands, what the parser splits. -/
theorem reads_understoodWords_iff
    {subcommand : Text}
    (other : subcommand ≠ "commit".toList)
    {words positionals : List Text}
    {flags : List Flag} :
    Reads subcommand (understoodWords subcommand words) flags positionals ↔
      flags = (splitFlags words).1.filterMap (ownFlag subcommand) ∧
        positionals = (splitFlags words).2 := by
  fun_induction understoodWords subcommand words
    generalizing flags positionals with
  | case1 => exact reads_nil_iff
  | case2 word unknown =>
      rw [splitFlags_last unknown.1, reads_nil_iff,
        List.filterMap_cons_none unknown.2.1]
      rfl
  | case3 word known =>
      by_cases takes : takesValue word = true
      · exact absurd ⟨head_of_takesValue takes, ownFlag_of_takesValue takes,
          fun both => other both.1⟩ known
      · exact reads_known_iff other known (by simpa using takes) reads_nil_iff
  | case4 word value rest takes commits hypothesis => exact absurd commits other
  | case5 word value rest takes commits listed hypothesis =>
      obtain ⟨flag, own⟩ := Option.isSome_iff_exists.mp listed
      rw [splitFlags_value takes, reads_flag_iff own,
        List.filterMap_cons_none (ownFlag_of_takesValue takes),
        List.filterMap_cons_some own]
      simp only [hypothesis]
      constructor
      · rintro ⟨others, rfl, rfl, rfl⟩
        exact ⟨rfl, rfl⟩
      · rintro ⟨rfl, rfl⟩
        exact ⟨_, rfl, rfl, rfl⟩
  | case6 word value rest takes commits unlisted hypothesis =>
      rw [splitFlags_value takes, hypothesis,
        List.filterMap_cons_none (ownFlag_of_takesValue takes),
        List.filterMap_cons_none (Option.not_isSome_iff_eq_none.mp unlisted)]
  | case7 word value rest alone unknown hypothesis =>
      rw [splitFlags_flag unknown.1 (by simpa using alone), hypothesis,
        List.filterMap_cons_none unknown.2.1]
  | case8 word value rest alone known hypothesis =>
      exact reads_known_iff other known (by simpa using alone) hypothesis

/-! ## The message of a commit -/

theorem ownFlag_commit (word : Text) :
    ownFlag "commit".toList word = (ownMessage word).head?.map .message :=
  rfl

theorem ownMessage_of_ownFlag
    {word : Text}
    {flag : Flag}
    (own : ownFlag "commit".toList word = some flag) :
    ∃ value, flag = .message value ∧ ownMessage word = [value] := by
  cases (spells_iff).mpr own with
  | @attached value some =>
      refine ⟨value, rfl, ?_⟩
      rw [ownMessage, stripPrefix_attached]
      dsimp only
      rw [Text.stripPrefix_append, Option.filter_some, if_pos (by simpa using some)]
      rfl
  | assigned value =>
      refine ⟨value, rfl, ?_⟩
      rw [ownMessage, Text.stripPrefix_append]

theorem ownMessage_of_ownFlag_eq_none
    {word : Text}
    (meaningless : ownFlag "commit".toList word = none) :
    ownMessage word = [] := by
  rw [ownFlag_commit, Option.map_eq_none_iff, List.head?_eq_none_iff]
    at meaningless
  exact meaningless

theorem not_isFileFlag_of_spells
    {word : Text}
    {flag : Flag}
    (spelled : Spells "commit".toList word flag) : ¬isFileFlag word := by
  cases spelled with
  | @attached value some =>
      rintro (same | same | starts)
      · cases value <;> simp at same
      · simp at same
      · have second := List.prefix_cons_inj '-' |>.mp starts
        exact absurd (List.cons_prefix_cons.mp second).1 (by decide)
  | assigned value =>
      rintro (same | same | starts)
      · simp at same
      · simp at same
      · obtain ⟨rest, same⟩ := starts
        simp at same

/-- A word of a commit without a value contributes its own message. -/
theorem commitMessages_cons
    {word : Text}
    (notFile : ¬isFileFlag word)
    (alone : takesValue word = false)
    (rest : List Text) :
    commitMessages (word :: rest) =
      (commitMessages rest).map (ownMessage word ++ ·) := by
  have notMessage : ¬(word = "-m".toList ∨ word = "--message".toList) := by
    rintro (rfl | rfl) <;> cases alone
  unfold isFileFlag at notFile
  rw [commitMessages.eq_def]
  dsimp only
  rw [if_neg notFile, if_neg notMessage]
  cases commitMessages rest <;> rfl

theorem commitMessages_value
    {word : Text}
    (named : word = "-m".toList ∨ word = "--message".toList)
    (value : Text)
    (rest : List Text) :
    commitMessages (word :: value :: rest) =
      (commitMessages rest).map (value :: ·) := by
  rcases named with rfl | rfl
  · change (commitMessages rest).bind _ = _
    cases commitMessages rest <;> rfl
  · change (commitMessages rest).bind _ = _
    cases commitMessages rest <;> rfl

theorem commitMessages_file
    {word : Text}
    (file : isFileFlag word)
    (rest : List Text) :
    commitMessages (word :: rest) = .error .commitFromFile := by
  unfold isFileFlag at file
  rw [commitMessages.eq_def]
  dsimp only
  rw [if_pos file]

theorem isFileFlag_of_takesValue
    {word : Text}
    (takes : takesValue word = true) :
    (word = "-m".toList ∨ word = "--message".toList) ∨ isFileFlag word := by
  simp only [takesValue, Bool.or_eq_true, decide_eq_true_eq] at takes
  rcases takes with ((short | long) | file) | longFile
  · exact .inl (.inl short)
  · exact .inl (.inr long)
  · exact .inr (.inl file)
  · exact .inr (.inr (.inl longFile))

/-- What the message loop finds, as flags. -/
def Composes (flagWords : List Text) (flags : List Flag) : Prop :=
  ∃ values, commitMessages flagWords = .ok values ∧
    flags = values.map .message

theorem not_composes_file
    {word : Text}
    (file : isFileFlag word)
    {rest : List Text}
    {flags : List Flag} : ¬Composes (word :: rest) flags := by
  rintro ⟨values, found, -⟩
  rw [commitMessages_file file] at found
  cases found

theorem composes_value_iff
    {word : Text}
    (named : word = "-m".toList ∨ word = "--message".toList)
    {value : Text}
    {rest : List Text}
    {flags : List Flag} :
    Composes (word :: value :: rest) flags ↔
      ∃ others, flags = .message value :: others ∧ Composes rest others := by
  unfold Composes
  rw [commitMessages_value named]
  constructor
  · rintro ⟨values, found, rfl⟩
    cases rest : commitMessages rest with
    | error reason =>
        rw [rest] at found
        cases found
    | ok others =>
        rw [rest] at found
        cases found
        exact ⟨_, rfl, others, rfl, rfl⟩
  · rintro ⟨others, rfl, values, found, rfl⟩
    exact ⟨value :: values, by rw [found]; rfl, rfl⟩

theorem composes_flag_iff
    {word : Text}
    {flag : Flag}
    (own : ownFlag "commit".toList word = some flag)
    {rest : List Text}
    {flags : List Flag} :
    Composes (word :: rest) flags ↔
      ∃ others, flags = flag :: others ∧ Composes rest others := by
  have spelled := (spells_iff).mpr own
  obtain ⟨value, rfl, single⟩ := ownMessage_of_ownFlag own
  unfold Composes
  rw [commitMessages_cons (not_isFileFlag_of_spells spelled)
    spelled.takesValue, single]
  constructor
  · rintro ⟨values, found, rfl⟩
    cases rest : commitMessages rest with
    | error reason =>
        rw [rest] at found
        cases found
    | ok others =>
        rw [rest] at found
        cases found
        exact ⟨_, rfl, others, rfl, rfl⟩
  · rintro ⟨others, rfl, values, found, rfl⟩
    exact ⟨value :: values, by rw [found]; rfl, rfl⟩

theorem composes_unknown_iff
    {word : Text}
    (unknown : isUnknown "commit".toList word)
    {rest : List Text}
    {flags : List Flag} :
    Composes (word :: rest) flags ↔ Composes rest flags := by
  obtain ⟨_, meaningless, unnamed⟩ := unknown
  have notFile : ¬isFileFlag word := fun file => unnamed ⟨rfl, .inr file⟩
  have alone : takesValue word = false := by
    rw [← Bool.not_eq_true]
    exact fun takes => unnamed ⟨rfl, .inl takes⟩
  unfold Composes
  rw [commitMessages_cons notFile alone,
    ownMessage_of_ownFlag_eq_none meaningless]
  cases commitMessages rest <;> rfl

theorem composes_nil_iff {flags : List Flag} :
    Composes [] flags ↔ flags = [] := by
  constructor
  · rintro ⟨values, found, rfl⟩
    cases found
    rfl
  · rintro rfl
    exact ⟨[], rfl, rfl⟩

/-- One known word of a commit. -/
theorem reads_commit_known_iff
    {word : Text}
    {rest understoodRest : List Text}
    (known : ¬isUnknown "commit".toList word)
    (alone : takesValue word = false)
    (hypothesis : ∀ {flags : List Flag} {positionals : List Text},
      Reads "commit".toList understoodRest flags positionals ↔
        Composes (splitFlags rest).1 flags ∧
          positionals = (splitFlags rest).2)
    {flags : List Flag}
    {positionals : List Text} :
    Reads "commit".toList (word :: understoodRest) flags positionals ↔
      Composes (splitFlags (word :: rest)).1 flags ∧
        positionals = (splitFlags (word :: rest)).2 := by
  by_cases dash : word.head? = some '-'
  · rw [splitFlags_flag dash alone]
    cases own : ownFlag "commit".toList word with
    | some flag =>
        rw [reads_flag_iff own, composes_flag_iff own]
        simp only [hypothesis]
        constructor
        · rintro ⟨others, rfl, composes, rfl⟩
          exact ⟨⟨others, rfl, composes⟩, rfl⟩
        · rintro ⟨⟨others, rfl, composes⟩, rfl⟩
          exact ⟨others, rfl, composes, rfl⟩
    | none =>
        have file : isFileFlag word := by
          by_contra notFile
          refine known ⟨dash, own, ?_⟩
          rintro ⟨-, takes | file⟩
          · rw [alone] at takes
            cases takes
          · exact notFile file
        have unread : ¬Reads "commit".toList (word :: understoodRest) flags
            positionals := by
          refine not_reads dash own ?_
          rintro ⟨-, -, rfl | rfl⟩ <;> cases alone
        exact iff_of_false unread fun both => not_composes_file file both.1
  · rw [reads_positional_iff dash, splitFlags_plain dash]
    simp only [hypothesis]
    constructor
    · rintro ⟨others, rfl, composes, rfl⟩
      exact ⟨composes, rfl⟩
    · rintro ⟨composes, rfl⟩
      exact ⟨_, rfl, composes, rfl⟩

/-- The grammar reads, of the words of a commit it understands, what the parser
splits, and the messages its loop finds. -/
theorem reads_commit_iff
    {words positionals : List Text}
    {flags : List Flag} :
    Reads "commit".toList (understoodWords "commit".toList words) flags
        positionals ↔
      Composes (splitFlags words).1 flags ∧
        positionals = (splitFlags words).2 := by
  generalize commits : "commit".toList = subcommand
  fun_induction understoodWords subcommand words
    generalizing flags positionals with
  | case1 => exact reads_nil_iff.trans (and_congr_left' composes_nil_iff.symm)
  | case2 word unknown =>
      subst commits
      rw [splitFlags_last unknown.1, composes_unknown_iff unknown,
        composes_nil_iff]
      exact reads_nil_iff
  | case3 word known =>
      subst commits
      by_cases takes : takesValue word = true
      · rw [splitFlags_last (head_of_takesValue takes)]
        have unread : ¬Reads "commit".toList [word] flags positionals :=
          not_reads (head_of_takesValue takes) (ownFlag_of_takesValue takes)
            fun both => both.2.1 rfl
        refine iff_of_false unread fun both => ?_
        rcases isFileFlag_of_takesValue takes with named | file
        · obtain ⟨⟨values, found, -⟩, -⟩ := both
          rcases named with rfl | rfl <;> cases found
        · exact not_composes_file file both.1
      · refine reads_commit_known_iff known (by simpa using takes) ?_
        exact reads_nil_iff.trans (and_congr_left' composes_nil_iff.symm)
  | case4 word value rest takes commits' hypothesis =>
      subst commits
      rw [splitFlags_value takes]
      rcases isFileFlag_of_takesValue takes with named | file
      · rw [reads_message_iff named, composes_value_iff named]
        simp only [hypothesis]
        constructor
        · rintro ⟨others, rfl, composes, rfl⟩
          exact ⟨⟨others, rfl, composes⟩, rfl⟩
        · rintro ⟨⟨others, rfl, composes⟩, rfl⟩
          exact ⟨others, rfl, composes, rfl⟩
      · have unread : ¬Reads "commit".toList
            (word :: value :: understoodWords "commit".toList rest) flags
            positionals := by
          refine not_reads (head_of_takesValue takes)
            (ownFlag_of_takesValue takes) ?_
          rintro ⟨-, -, rfl | rfl⟩
          · rcases file with same | same | ⟨tail, same⟩ <;> cases same
          · rcases file with same | same | ⟨tail, same⟩ <;> cases same
        exact iff_of_false unread fun both => not_composes_file file both.1
  | case5 word value rest takes other listed hypothesis =>
      exact absurd commits.symm other
  | case6 word value rest takes other unlisted hypothesis =>
      exact absurd commits.symm other
  | case7 word value rest alone unknown hypothesis =>
      subst commits
      rw [splitFlags_flag unknown.1 (by simpa using alone),
        composes_unknown_iff unknown]
      exact hypothesis
  | case8 word value rest alone known hypothesis =>
      subst commits
      exact reads_commit_known_iff known (by simpa using alone) hypothesis

/-! ## What a line asks for -/

/-- The flags a subcommand's flag words stand for. -/
def StandFor (subcommand : Text) (flagWords : List Text) (flags : List Flag) :
    Prop :=
  if subcommand = "commit".toList then Composes flagWords flags
  else flags = flagWords.filterMap (ownFlag subcommand)

theorem reads_iff
    {subcommand : Text}
    {words positionals : List Text}
    {flags : List Flag} :
    Reads subcommand (understoodWords subcommand words) flags positionals ↔
      StandFor subcommand (splitFlags words).1 flags ∧
        positionals = (splitFlags words).2 := by
  unfold StandFor
  split_ifs with commits
  · rw [commits]
    exact reads_commit_iff
  · exact reads_understoodWords_iff commits

theorem messages_map (values : List Text) :
    messages (values.map .message) = values := by
  rw [messages, List.filterMap_map]
  exact List.filterMap_some

theorem mem_filterMap_ownFlag
    {subcommand word : Text}
    {flag : Flag}
    {flagWords : List Text}
    (member : word ∈ flagWords)
    (own : ownFlag subcommand word = some flag) :
    flag ∈ flagWords.filterMap (ownFlag subcommand) :=
  List.mem_filterMap.mpr ⟨word, member, own⟩

/-- A line asks for what the parser takes its flags and leading words for. -/
theorem requests_iff
    {subcommand : Text}
    {flagWords leading : List Text}
    {action : GitAction} :
    (∃ flags, StandFor subcommand flagWords flags ∧
        Requests flags subcommand leading action) ↔
      leading.length = reserved subcommand ∧
        gitAction subcommand flagWords leading = .ok action := by
  constructor
  · rintro ⟨flags, stand, requests⟩
    cases requests with
    | add => exact ⟨rfl, rfl⟩
    | stage => exact ⟨rfl, rfl⟩
    | rm => exact ⟨rfl, rfl⟩
    | commit =>
        obtain ⟨values, found, rfl⟩ := stand
        refine ⟨rfl, ?_⟩
        change (commitMessage flagWords).map GitAction.commit = _
        rw [commitMessage, found, messages_map]
        rfl
    | restore staged =>
        obtain rfl : flags = _ := stand
        obtain ⟨word, member, own⟩ := List.mem_filterMap.mp staged
        obtain rfl : word = "--staged".toList := by
          cases (spells_iff).mpr own
          rfl
        exact ⟨rfl, if_pos member⟩
    | checkout => exact ⟨rfl, rfl⟩
    | stash => exact ⟨rfl, rfl⟩
    | clean forced =>
        obtain rfl : flags = _ := stand
        obtain ⟨word, member, own⟩ := List.mem_filterMap.mp forced
        have spelled : word = "-f".toList ∨ word = "--force".toList := by
          cases (spells_iff).mpr own with
          | force => exact .inl rfl
          | longForce => exact .inr rfl
        have listed :
            "-f".toList ∈ flagWords ∨ "--force".toList ∈ flagWords := by
          rcases spelled with rfl | rfl
          · exact .inl member
          · exact .inr member
        exact ⟨rfl, if_pos listed⟩
    | diff => exact ⟨rfl, rfl⟩
    | log => exact ⟨rfl, rfl⟩
  · rintro ⟨counted, asked⟩
    have bare : reserved subcommand = 0 -> leading = [] := by
      intro same
      rw [same] at counted
      exact List.eq_nil_of_length_eq_zero counted
    have single :
        reserved subcommand = 1 -> ∃ revision, leading = [revision] := by
      intro same
      rw [same] at counted
      exact List.length_eq_one_iff.mp counted
    unfold gitAction at asked
    dsimp only at asked
    rcases ite_eq_iff.mp asked with ⟨adds, same⟩ | ⟨-, asked⟩
    · cases same
      rcases adds with rfl | rfl
      · rw [bare rfl]
        exact ⟨_, rfl, .add⟩
      · rw [bare rfl]
        exact ⟨_, rfl, .stage⟩
    rcases ite_eq_iff.mp asked with ⟨removes, same⟩ | ⟨-, asked⟩
    · cases same
      subst removes
      rw [bare rfl]
      exact ⟨_, rfl, .rm⟩
    rcases ite_eq_iff.mp asked with ⟨commits, chosen⟩ | ⟨-, asked⟩
    · subst commits
      rw [bare rfl]
      unfold commitMessage at chosen
      cases found : commitMessages flagWords with
      | error reason =>
          rw [found] at chosen
          cases chosen
      | ok values =>
          rw [found] at chosen
          cases chosen
          refine ⟨values.map .message, ⟨values, found, rfl⟩, ?_⟩
          have request :=
            @Requests.commit (values.map .message)
          rw [messages_map] at request
          exact request
    rcases ite_eq_iff.mp asked with ⟨restores, chosen⟩ | ⟨-, asked⟩
    · subst restores
      rw [bare rfl]
      rcases ite_eq_iff.mp chosen with ⟨staged, same⟩ | ⟨-, same⟩
      · cases same
        exact ⟨_, rfl, .restore (mem_filterMap_ownFlag staged rfl)⟩
      · cases same
    rcases ite_eq_iff.mp asked with ⟨checksOut, chosen⟩ | ⟨-, asked⟩
    · subst checksOut
      obtain ⟨revision, rfl⟩ := single rfl
      rcases ite_eq_iff.mp chosen with ⟨-, same⟩ | ⟨wrongRevision, same⟩
      · cases same
      · cases same
        obtain rfl := not_not.mp wrongRevision
        exact ⟨_, rfl, .checkout⟩
    rcases ite_eq_iff.mp asked with ⟨stashes, chosen⟩ | ⟨-, asked⟩
    · subst stashes
      obtain ⟨word, rfl⟩ := single rfl
      rcases ite_eq_iff.mp chosen with ⟨-, same⟩ | ⟨wrongWord, same⟩
      · cases same
      · cases same
        obtain rfl := not_not.mp wrongWord
        exact ⟨_, rfl, .stash⟩
    rcases ite_eq_iff.mp asked with ⟨cleans, chosen⟩ | ⟨-, asked⟩
    · subst cleans
      rw [bare rfl]
      rcases ite_eq_iff.mp chosen with ⟨short | long, same⟩ | ⟨-, same⟩
      · cases same
        exact ⟨_, rfl, .clean (mem_filterMap_ownFlag short rfl)⟩
      · cases same
        exact ⟨_, rfl, .clean (mem_filterMap_ownFlag long rfl)⟩
      · cases same
    rcases ite_eq_iff.mp asked with ⟨diffs, same⟩ | ⟨-, asked⟩
    · cases same
      subst diffs
      rw [bare rfl]
      exact ⟨_, rfl, .diff⟩
    rcases ite_eq_iff.mp asked with ⟨logs, same⟩ | ⟨-, asked⟩
    · cases same
      subst logs
      rw [bare rfl]
      exact ⟨_, rfl, .log⟩
    · cases asked

/-! ## The whole line -/

theorem Requests.subcommand_head
    {flags : List Flag}
    {subcommand : Text}
    {leading : List Text}
    {action : GitAction}
    (requests : Requests flags subcommand leading action) :
    subcommand.head? ≠ some '-' := by
  cases requests <;> decide

theorem understoodWords_subset
    {subcommand word : Text}
    {words : List Text}
    (member : word ∈ understoodWords subcommand words) : word ∈ words := by
  fun_induction understoodWords subcommand words with
  | case1 => exact member
  | case2 word unknown => cases member
  | case3 word known => exact member
  | case4 word value rest takes commits hypothesis =>
      simp only [List.mem_cons] at member ⊢
      rcases member with own | second | later
      · exact .inl own
      · exact .inr (.inl second)
      · exact .inr (.inr (hypothesis later))
  | case5 word value rest takes other listed hypothesis =>
      rcases List.mem_cons.mp member with rfl | later
      · exact List.mem_cons_of_mem _ List.mem_cons_self
      · exact List.mem_cons_of_mem _ (List.mem_cons_of_mem _ (hypothesis later))
  | case6 word value rest takes other unlisted hypothesis =>
      exact List.mem_cons_of_mem _ (List.mem_cons_of_mem _ (hypothesis member))
  | case7 word value rest alone unknown hypothesis =>
      exact List.mem_cons_of_mem _ (hypothesis member)
  | case8 word value rest alone known hypothesis =>
      rcases List.mem_cons.mp member with rfl | later
      · exact List.mem_cons_self
      · exact List.mem_cons_of_mem _ (hypothesis later)

/-- What the parser takes after the flags were split off. -/
def Takes
    (subcommand : Text)
    (flagWords leading pathspecs : List Text)
    (invocation : GitInvocation) : Prop :=
  leading.length = reserved subcommand ∧
    gitAction subcommand flagWords leading = .ok invocation.action ∧
    invocation.pathspecs = pathspecs ∧ Named pathspecs

theorem error_ne_ok {Reason Result : Type} (reason : Reason) (result : Result) :
    Except.error reason ≠ Except.ok result := by
  intro same
  cases same

theorem parse_cons_iff
    {name subcommand : Text}
    {rest : List Text}
    {invocation : GitInvocation} :
    parse (name :: subcommand :: rest) = .ok invocation ↔
      subcommand.head? ≠ some '-' ∧
        Takes subcommand (arguments subcommand rest).1
          (arguments subcommand rest).2.1 (arguments subcommand rest).2.2
          invocation := by
  unfold parse Takes
  dsimp only
  by_cases dash : subcommand.head? = some '-'
  · rw [if_pos dash]
    exact iff_of_false (error_ne_ok _ _) fun both => both.1 dash
  rw [if_neg dash]
  generalize arguments subcommand rest = parts
  obtain ⟨flagWords, leading, pathspecs⟩ := parts
  dsimp only
  by_cases counted : leading.length = reserved subcommand
  · rw [if_neg (not_not.mpr counted)]
    cases asked : gitAction subcommand flagWords leading with
    | error reason =>
        exact iff_of_false (error_ne_ok _ _) fun both =>
          error_ne_ok _ _ both.2.2.1
    | ok action =>
        change (if pathspecs = [] then _ else _) = _ ↔ _
        by_cases empty : pathspecs = []
        · rw [if_pos empty]
          exact iff_of_false (error_ne_ok _ _) fun both =>
            both.2.2.2.2.1 empty
        · rw [if_neg empty]
          cases found : pathspecs.find? isPattern with
          | some pathspec =>
              refine iff_of_false (error_ne_ok _ _) fun both => ?_
              have pattern := List.find?_some found
              rw [both.2.2.2.2.2 pathspec (List.mem_of_find?_eq_some found)]
                at pattern
              cases pattern
          | none =>
              have named : Named pathspecs :=
                ⟨empty, fun pathspec member => by
                  simpa using List.find?_eq_none.mp found pathspec member⟩
              constructor
              · intro same
                cases same
                exact ⟨dash, counted, rfl, rfl, named⟩
              · rintro ⟨-, -, sameAction, samePathspecs, -⟩
                cases sameAction
                cases samePathspecs
                rfl
  · rw [if_pos counted]
    exact iff_of_false (error_ne_ok _ _) fun both => counted both.2.1

theorem takeWhile_separator
    {before : List Text}
    (first : "--".toList ∉ before)
    (after : List Text) :
    (before ++ "--".toList :: after).takeWhile (· ≠ "--".toList) = before := by
  rw [List.takeWhile_append_of_pos, List.takeWhile_cons_of_neg (by simp),
    List.append_nil]
  intro word member
  rw [decide_eq_true_iff]
  rintro rfl
  exact first member

theorem dropWhile_separator
    {before : List Text}
    (first : "--".toList ∉ before)
    (after : List Text) :
    (before ++ "--".toList :: after).dropWhile (· ≠ "--".toList) =
      "--".toList :: after := by
  rw [List.dropWhile_append_of_pos, List.dropWhile_cons_of_neg (by simp)]
  intro word member
  rw [decide_eq_true_iff]
  rintro rfl
  exact first member

/-- A line with a separator. -/
theorem grammar_separated_iff
    {name subcommand : Text}
    {before pathspecs : List Text}
    (first : "--".toList ∉ before)
    {invocation : GitInvocation} :
    Grammar (name :: subcommand :: (before ++ "--".toList :: pathspecs))
        invocation ↔
      (∃ flags leading, Reads subcommand before flags leading ∧
          Requests flags subcommand leading invocation.action) ∧
        invocation.pathspecs = pathspecs ∧ Named pathspecs := by
  constructor
  · generalize line :
      name :: subcommand :: (before ++ "--".toList :: pathspecs) = argv
    intro grammar
    cases grammar with
    | @separated otherName otherSubcommand otherBefore leading otherPathspecs
        flags action otherFirst reads requests named =>
        obtain ⟨-, rfl, same⟩ := List.cons_eq_cons.mp line |>.imp_right
          List.cons_eq_cons.mp
        have sameBefore :
            before = otherBefore ∧ pathspecs = otherPathspecs := by
          have taken := congrArg (List.takeWhile (· ≠ "--".toList)) same
          have dropped := congrArg (List.dropWhile (· ≠ "--".toList)) same
          rw [takeWhile_separator first, takeWhile_separator otherFirst]
            at taken
          rw [dropWhile_separator first, dropWhile_separator otherFirst]
            at dropped
          exact ⟨taken, (List.cons_eq_cons.mp dropped).2⟩
        obtain ⟨rfl, rfl⟩ := sameBefore
        exact ⟨⟨flags, leading, reads, requests⟩, rfl, named⟩
    | bare none reads requests named =>
        obtain ⟨-, rfl, rfl⟩ := List.cons_eq_cons.mp line |>.imp_right
          List.cons_eq_cons.mp
        exact absurd (by simp) none
  · rintro ⟨⟨flags, leading, reads, requests⟩, rfl, named⟩
    exact .separated first reads requests named

/-- A line without one. -/
theorem grammar_bare_iff
    {name subcommand : Text}
    {rest : List Text}
    (absent : "--".toList ∉ rest)
    {invocation : GitInvocation} :
    Grammar (name :: subcommand :: rest) invocation ↔
      (∃ flags leading,
          Reads subcommand rest flags (leading ++ invocation.pathspecs) ∧
          Requests flags subcommand leading invocation.action) ∧
        Named invocation.pathspecs := by
  constructor
  · intro grammar
    cases grammar with
    | separated first reads requests named => exact absurd (by simp) absent
    | bare none reads requests named =>
        exact ⟨⟨_, _, reads, requests⟩, named⟩
  · rintro ⟨⟨flags, leading, reads, requests⟩, named⟩
    exact .bare absent reads requests named

theorem parse_separated_iff
    {name subcommand : Text}
    {before pathspecs : List Text}
    (first : "--".toList ∉ before)
    {invocation : GitInvocation} :
    parse (name :: subcommand :: (before ++ "--".toList :: pathspecs)) =
        .ok invocation ↔
      Grammar (name :: subcommand :: (understoodWords subcommand before ++
        "--".toList :: pathspecs)) invocation := by
  have firstUnderstood : "--".toList ∉ understoodWords subcommand before :=
    fun member => first (understoodWords_subset member)
  have split : arguments subcommand (before ++ "--".toList :: pathspecs) =
      ((splitFlags before).1, (splitFlags before).2, pathspecs) := by
    rw [arguments]
    dsimp only
    rw [if_pos (by simp), takeWhile_separator first, dropWhile_separator first]
    rfl
  rw [parse_cons_iff, grammar_separated_iff firstUnderstood, split]
  constructor
  · rintro ⟨-, counted, asked, same, named⟩
    obtain ⟨flags, stand, requests⟩ := (requests_iff).mpr ⟨counted, asked⟩
    exact ⟨⟨flags, _, reads_iff.mpr ⟨stand, rfl⟩, requests⟩, same, named⟩
  · rintro ⟨⟨flags, leading, reads, requests⟩, same, named⟩
    obtain ⟨stand, rfl⟩ := reads_iff.mp reads
    obtain ⟨counted, asked⟩ := (requests_iff).mp ⟨flags, stand, requests⟩
    exact ⟨requests.subcommand_head, counted, asked, same, named⟩

theorem parse_bare_iff
    {name subcommand : Text}
    {rest : List Text}
    (absent : "--".toList ∉ rest)
    {invocation : GitInvocation} :
    parse (name :: subcommand :: rest) = .ok invocation ↔
      Grammar (name :: subcommand :: understoodWords subcommand rest)
        invocation := by
  have absentUnderstood : "--".toList ∉ understoodWords subcommand rest :=
    fun member => absent (understoodWords_subset member)
  have split : arguments subcommand rest =
      ((splitFlags rest).1, (splitFlags rest).2.take (reserved subcommand),
        (splitFlags rest).2.drop (reserved subcommand)) := by
    rw [arguments]
    dsimp only
    rw [if_neg absent]
  rw [parse_cons_iff, grammar_bare_iff absentUnderstood, split]
  constructor
  · rintro ⟨-, counted, asked, same, named⟩
    obtain ⟨flags, stand, requests⟩ := (requests_iff).mpr ⟨counted, asked⟩
    refine ⟨⟨flags, _, reads_iff.mpr ⟨stand, ?_⟩, requests⟩, ?_⟩
    · rw [same]
      exact List.take_append_drop _ _
    · rw [same]
      exact named
  · rintro ⟨⟨flags, leading, reads, requests⟩, named⟩
    obtain ⟨stand, positionals⟩ := reads_iff.mp reads
    obtain ⟨counted, asked⟩ := (requests_iff).mp ⟨flags, stand, requests⟩
    have taken : (splitFlags rest).2.take (reserved subcommand) = leading := by
      rw [← positionals, ← counted]
      exact List.take_left
    have dropped : (splitFlags rest).2.drop (reserved subcommand) =
        invocation.pathspecs := by
      rw [← positionals, ← counted]
      exact List.drop_left
    rw [taken, dropped]
    exact ⟨requests.subcommand_head, counted, asked, rfl, named⟩

/-- The parser accepts the lines whose understood words are in the grammar. -/
theorem parse_eq_ok_iff
    {argv : List Text}
    {invocation : GitInvocation} :
    parse argv = .ok invocation ↔ Grammar (understood argv) invocation := by
  rcases argv with _ | ⟨name, _ | ⟨subcommand, rest⟩⟩
  · refine iff_of_false (error_ne_ok _ _) fun grammar => ?_
    cases grammar
  · refine iff_of_false (error_ne_ok _ _) fun grammar => ?_
    cases grammar
  · rw [understood]
    by_cases separated : "--".toList ∈ rest
    · obtain ⟨before, pathspecs, rfl, first⟩ :=
        List.eq_append_cons_of_mem separated
      rw [if_pos separated, takeWhile_separator first,
        dropWhile_separator first]
      exact parse_separated_iff first
    · rw [if_neg separated]
      exact parse_bare_iff separated

theorem not_isUnknown_of_ownFlag
    {subcommand word : Text}
    {flag : Flag}
    (own : ownFlag subcommand word = some flag) :
    ¬isUnknown subcommand word := by
  rintro ⟨-, meaningless, -⟩
  rw [own] at meaningless
  cases meaningless

/-- All words of a line of the grammar are understood. -/
theorem Reads.understoodWords_eq
    {subcommand : Text}
    {words positionals : List Text}
    {flags : List Flag}
    (reads : Reads subcommand words flags positionals) :
    understoodWords subcommand words = words := by
  have known : ∀ {word : Text} {rest : List Text},
      takesValue word = false -> ¬isUnknown subcommand word ->
        understoodWords subcommand rest = rest ->
          understoodWords subcommand (word :: rest) = word :: rest := by
    intro word rest alone known same
    cases rest with
    | nil => rw [understoodWords, if_neg known]
    | cons value rest =>
        rw [understoodWords, alone, if_neg Bool.false_ne_true, if_neg known,
          same]
  induction reads with
  | done => rfl
  | @positional word rest positionals flags plain reads hypothesis =>
      have alone : takesValue word = false := by
        rw [← Bool.not_eq_true]
        exact fun takes => plain (head_of_takesValue takes)
      exact known alone (fun unknown => plain unknown.1) hypothesis
  | flag spelled reads hypothesis =>
      exact known spelled.takesValue
        (not_isUnknown_of_ownFlag ((spells_iff).mp spelled)) hypothesis
  | @message word value rest positionals flags commits named reads hypothesis =>
      have takes : takesValue word = true := by
        rcases named with rfl | rfl <;> rfl
      rw [understoodWords, if_pos takes, if_pos commits, hypothesis]

theorem Grammar.understood_eq
    {argv : List Text}
    {invocation : GitInvocation}
    (grammar : Grammar argv invocation) : understood argv = argv := by
  cases grammar with
  | separated first reads requests named =>
      rw [understood, if_pos (by simp), takeWhile_separator first,
        dropWhile_separator first, reads.understoodWords_eq]
  | bare absent reads requests named =>
      rw [understood, if_neg absent, reads.understoodWords_eq]

/-- The parser accepts exactly the lines of the grammar, with what they ask for,
unless it overlooks a flag. -/
theorem parse_iff_grammar_iff (argv : List Text) :
    (∀ invocation, parse argv = .ok invocation ↔ Grammar argv invocation) ↔
      ¬Overlooks argv := by
  constructor
  · rintro exact ⟨changed, invocation, grammar⟩
    have accepted := parse_eq_ok_iff.mpr grammar
    exact changed ((exact invocation).mp accepted).understood_eq
  · intro noticed invocation
    rw [parse_eq_ok_iff]
    by_cases same : understood argv = argv
    · rw [same]
    · refine iff_of_false
        (fun grammar => noticed ⟨same, invocation, grammar⟩) ?_
      exact fun grammar => same grammar.understood_eq

/-- The clean that was to be a dry run. -/
def dryClean : List Text :=
  ["git".toList, "clean".toList, "-f".toList, "-n".toList, "a.txt".toList]

/-- The parser takes the dry run for a clean. -/
theorem parse_dryClean_not_grammar :
    parse dryClean = .ok ⟨.clean, ["a.txt".toList]⟩ ∧
      ∀ invocation, ¬Grammar dryClean invocation := by
  refine ⟨rfl, fun invocation grammar => ?_⟩
  have same := grammar.understood_eq
  revert same
  decide

end Exec
end Marsh
