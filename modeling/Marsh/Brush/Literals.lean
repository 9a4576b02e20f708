import Mathlib.Data.List.Chain
import Marsh.Brush.Words

/-!
# Expansion of literal words

A word of literal pieces expands to its own text, unless unquoted text holds a
blank or, taken together between quotes, a pattern.
-/

namespace Marsh
namespace Brush

open Library

/-! ## Letters -/

/-- A letter of a literal word: an unquoted character, or a quoted text. -/
inductive Letter
  | unquoted (char : Char)
  | quoted (text : Text)
  deriving DecidableEq, Repr

namespace Letter

/-- The text of a letter. -/
def text : Letter -> Text
  | .unquoted char => [char]
  | .quoted text => text

/-- Whether a field is split at a letter. -/
def isBlank : Letter -> Bool
  | .unquoted char => char ∈ ifs
  | .quoted _ => false

end Letter

/-- The unquoted texts of a word, each between two quoted ones. -/
def unquotedRuns : List Letter -> List Text
  | [] => [[]]
  | .quoted _ :: letters => [] :: unquotedRuns letters
  | .unquoted char :: letters =>
      match unquotedRuns letters with
      | [] => [[char]]
      | run :: runs => (char :: run) :: runs

/-- The letters of a field. -/
def WordField.letters (field : WordField) : List Letter :=
  field.flatMap fun piece =>
    match piece with
    | .unsplittable text => [.quoted text]
    | .splittable text => text.map Letter.unquoted

section Literals

variable (parser : Parser)

mutual

/-- The texts a literal piece stands for. -/
def literalTexts : WordPiece -> Option (List Text)
  | .text text | .singleQuotedText text => some [text]
  | .ansiCQuotedText text => some [parser.ansiCText text]
  | .doubleQuotedSequence pieces =>
      if pieces.isEmpty then some [[]] else allLiteralTexts pieces
  | .escapeSequence sequence => some [escaped sequence]
  | .gettextDoubleQuotedSequence _ | .tildeExpansion _ | .parameterExpansion _
  | .commandSubstitution _ | .backquotedCommandSubstitution _
  | .arithmeticExpression _ => none

/-- The texts a literal word's pieces stand for. -/
def allLiteralTexts : List WordPiece -> Option (List Text)
  | [] => some []
  | piece :: pieces =>
      (literalTexts piece).bind fun texts =>
        (allLiteralTexts pieces).map fun others => texts ++ others

end

/-- The letters of a literal piece. -/
def pieceLetters : WordPiece -> Option (List Letter)
  | .text text => some (text.map Letter.unquoted)
  | piece => (literalTexts parser piece).map (List.map Letter.quoted)

/-- The letters of a literal word. -/
def wordLetters : List WordPiece -> Option (List Letter)
  | [] => some []
  | piece :: pieces =>
      (pieceLetters parser piece).bind fun letters =>
        (wordLetters pieces).map fun others => letters ++ others

/-- The arguments a literal word is: its text, or none when nothing is left of
it. -/
def literalArguments (letters : List Letter) : List Text :=
  if letters = [] then [] else [letters.flatMap Letter.text]

/-! ## Expansion of the pieces -/

variable (world : World)

/-- A piece expands to one field, of these texts. -/
def ExpandsTo (piece : WordPiece) (texts : List Text) : Prop :=
  ∃ field : WordField, expandPiece parser world piece = ([], [field]) ∧
    field.map ExpansionPiece.text = texts

/-- Literal pieces expand to one field, of the texts of all. -/
theorem expandPieces_of_allLiteralTexts
    {pieces : List WordPiece}
    {texts : List Text}
    (nonempty : pieces ≠ [])
    (literal : allLiteralTexts parser pieces = some texts)
    (each : ∀ piece ∈ pieces, ∀ texts,
      literalTexts parser piece = some texts ->
        ExpandsTo parser world piece texts) :
    ∃ field, expandPieces parser world pieces = ([], [field]) ∧
      field.map ExpansionPiece.text = texts := by
  induction pieces generalizing texts with
  | nil => exact absurd rfl nonempty
  | cons piece pieces hypothesis =>
      rw [allLiteralTexts] at literal
      obtain ⟨first, firstLiteral, rest⟩ := Option.bind_eq_some_iff.mp literal
      obtain ⟨others, othersLiteral, rfl⟩ := Option.map_eq_some_iff.mp rest
      obtain ⟨field, expands, same⟩ :=
        each piece List.mem_cons_self first firstLiteral
      rw [expandPieces, expands]
      cases pieces with
      | nil =>
          obtain rfl := Option.some.inj othersLiteral
          exact ⟨field, rfl, by rw [same, List.append_nil]⟩
      | cons next pieces =>
          obtain ⟨other, otherExpands, otherSame⟩ :=
            hypothesis (List.cons_ne_nil next pieces) othersLiteral
              fun piece member => each piece (List.mem_cons_of_mem _ member)
          refine ⟨field ++ other, ?_, ?_⟩
          · rw [otherExpands]
            rfl
          · rw [List.map_append, same, otherSame]

/-- A literal piece expands to one field, of its own texts. -/
theorem expandPiece_of_literalTexts
    {piece : WordPiece}
    {texts : List Text}
    (literal : literalTexts parser piece = some texts) :
    ExpandsTo parser world piece texts := by
  match piece, literal with
  | .text text, literal =>
      obtain rfl := Option.some.inj literal
      exact ⟨[.splittable text], rfl, rfl⟩
  | .singleQuotedText text, literal =>
      obtain rfl := Option.some.inj literal
      exact ⟨[.unsplittable text], rfl, rfl⟩
  | .ansiCQuotedText text, literal =>
      obtain rfl := Option.some.inj literal
      exact ⟨[.unsplittable (parser.ansiCText text)], rfl, rfl⟩
  | .escapeSequence sequence, literal =>
      obtain rfl := Option.some.inj literal
      exact ⟨[.unsplittable (escaped sequence)], rfl, rfl⟩
  | .doubleQuotedSequence [], literal =>
      obtain rfl := Option.some.inj literal
      exact ⟨[.unsplittable []], rfl, rfl⟩
  | .doubleQuotedSequence (first :: pieces), literal =>
      obtain ⟨field, expands, same⟩ :=
        expandPieces_of_allLiteralTexts parser world
          (List.cons_ne_nil first pieces) literal
          fun piece _ _ own => expandPiece_of_literalTexts own
      refine ⟨field.map ExpansionPiece.makeUnsplittable, ?_, ?_⟩
      · rw [expandPiece, expands]
        rfl
      · rw [← same, List.map_map]
        rfl
termination_by piece

/-- A literal piece expands to one field, of its own letters. -/
theorem expandPiece_of_pieceLetters
    {piece : WordPiece}
    {letters : List Letter}
    (literal : pieceLetters parser piece = some letters) :
    ∃ field : WordField, expandPiece parser world piece = ([], [field]) ∧
      field.letters = letters := by
  cases piece with
  | text text =>
      obtain rfl := Option.some.inj literal
      exact ⟨[.splittable text], rfl, List.flatMap_singleton _ _⟩
  | singleQuotedText | ansiCQuotedText | escapeSequence =>
      obtain rfl := Option.some.inj literal
      exact ⟨_, rfl, rfl⟩
  | doubleQuotedSequence pieces =>
      obtain ⟨texts, stands, rfl⟩ := Option.map_eq_some_iff.mp literal
      cases pieces with
      | nil =>
          obtain rfl := Option.some.inj stands
          exact ⟨[.unsplittable []], rfl, rfl⟩
      | cons first pieces =>
          obtain ⟨field, expands, same⟩ :=
            expandPieces_of_allLiteralTexts parser world
              (List.cons_ne_nil first pieces) stands
              fun piece _ _ own => expandPiece_of_literalTexts parser world own
          refine ⟨field.map ExpansionPiece.makeUnsplittable, ?_, ?_⟩
          · rw [expandPiece, expands]
            rfl
          · rw [← same, List.map_map, WordField.letters, List.flatMap_map,
              List.map_eq_flatMap]
            rfl
  | gettextDoubleQuotedSequence | tildeExpansion | parameterExpansion
  | commandSubstitution | backquotedCommandSubstitution
  | arithmeticExpression => cases literal

theorem WordField.letters_append (left right : WordField) :
    WordField.letters (left ++ right) =
      WordField.letters left ++ WordField.letters right :=
  List.flatMap_append

/-- A literal word expands to one field at most, of its own letters. -/
theorem expandPieces_of_wordLetters
    {pieces : List WordPiece}
    {letters : List Letter}
    (literal : wordLetters parser pieces = some letters) :
    (pieces = [] ∧ letters = [] ∧
        expandPieces parser world pieces = ([], [])) ∨
      ∃ field : WordField,
        expandPieces parser world pieces = ([], [field]) ∧
          field.letters = letters := by
  induction pieces generalizing letters with
  | nil =>
      obtain rfl := Option.some.inj literal
      exact .inl ⟨rfl, rfl, rfl⟩
  | cons piece pieces hypothesis =>
      right
      rw [wordLetters] at literal
      obtain ⟨first, firstLiteral, rest⟩ := Option.bind_eq_some_iff.mp literal
      obtain ⟨others, othersLiteral, rfl⟩ := Option.map_eq_some_iff.mp rest
      obtain ⟨field, expands, rfl⟩ :=
        expandPiece_of_pieceLetters parser world firstLiteral
      obtain ⟨-, rfl, nothing⟩ | ⟨other, otherExpands, rfl⟩ :=
        hypothesis othersLiteral
      · refine ⟨field, ?_, (List.append_nil _).symm⟩
        rw [expandPieces, expands, nothing]
        rfl
      · refine ⟨field ++ other, ?_, field.letters_append other⟩
        rw [expandPieces, expands, otherExpands]
        rfl

end Literals

/-! ## Splitting -/

/-- The letters at which no field is split. -/
abbrev kept (letters : List Letter) : List Letter :=
  letters.filter fun letter => !letter.isBlank

/-- A field in which no unquoted text stands beside another. -/
structure Merged (field : WordField) : Prop where
  apart : field.IsChain fun left right =>
    (∃ text, left = .unsplittable text) ∨ ∃ text, right = .unsplittable text
  nonempty : .splittable [] ∉ field

theorem merged_nil : Merged [] where
  apart := List.isChain_nil
  nonempty := List.not_mem_nil

theorem Merged.append_unsplittable
    {field : WordField}
    (merged : Merged field)
    (text : Text) : Merged (field ++ [.unsplittable text]) where
  apart := by
    rw [List.isChain_append]
    refine ⟨merged.apart, List.isChain_singleton _, ?_⟩
    intro left _ right rightLast
    right
    exact ⟨text, (Option.some.inj rightLast).symm⟩
  nonempty := by simpa using merged.nonempty

theorem Merged.pushChar
    {field : WordField}
    (merged : Merged field)
    (char : Char) : Merged (pushChar field char) := by
  rw [Brush.pushChar]
  split
  · next last lastEq =>
    have split := List.dropLast_append_getLast? _ lastEq
    have chain := merged.apart
    rw [← split, List.isChain_append] at chain
    refine ⟨?_, ?_⟩
    · rw [List.isChain_append]
      refine ⟨chain.1, List.isChain_singleton _, ?_⟩
      intro left leftLast right rightLast
      obtain rfl := Option.some.inj rightLast
      obtain before | ⟨text, isQuoted⟩ :=
        chain.2.2 left leftLast _ rfl
      · exact .inl before
      · cases isQuoted
    · intro member
      have tail : ExpansionPiece.splittable [] ∈ field.dropLast := by
        simpa using member
      exact merged.nonempty (List.dropLast_subset field tail)
  · next other =>
    refine ⟨?_, by simpa using merged.nonempty⟩
    rw [List.isChain_append]
    refine ⟨merged.apart, List.isChain_singleton _, ?_⟩
    intro left leftLast right _
    left
    cases left with
    | unsplittable text => exact ⟨text, rfl⟩
    | splittable text => exact absurd leftLast (other text)

theorem letters_pushChar (field : WordField) (char : Char) :
    (pushChar field char).letters = field.letters ++ [.unquoted char] := by
  rw [pushChar]
  split
  · next last lastEq =>
    have split := List.dropLast_append_getLast? _ lastEq
    rw [← split, WordField.letters_append, WordField.letters_append]
    simp [WordField.letters]
  · rw [WordField.letters_append]
    rfl

/-- A field being split, by what was split off before it. -/
structure Split
    (letters : List Letter)
    (state : List WordField × WordField) : Prop where
  letters_eq :
    state.1.flatMap WordField.letters ++ WordField.letters state.2 =
      kept letters
  fields : ∀ field ∈ state.1, field ≠ [] ∧ Merged field
  merged : Merged state.2

theorem Split.splitChar
    {letters : List Letter}
    {state : List WordField × WordField}
    (before : Split letters state)
    (char : Char) :
    Split (letters ++ [.unquoted char]) (splitChar state char) := by
  obtain ⟨fields, current⟩ := state
  have same := before.letters_eq
  rw [Brush.splitChar]
  by_cases blank : char ∈ ifs
  · rw [if_pos blank]
    have keeps : kept (letters ++ [.unquoted char]) = kept letters := by
      simp [kept, Letter.isBlank, blank]
    by_cases empty : current = []
    · rw [if_pos empty]
      refine ⟨?_, before.fields, merged_nil⟩
      rw [keeps, ← same, empty]
    · rw [if_neg empty]
      refine ⟨?_, ?_, merged_nil⟩
      · rw [keeps, ← same]
        simp [WordField.letters]
      · intro field member
        obtain earlier | rfl := List.mem_append.mp member |>.imp_right
          List.mem_singleton.mp
        · exact before.fields field earlier
        · exact ⟨empty, before.merged⟩
  · rw [if_neg blank]
    refine ⟨?_, before.fields, before.merged.pushChar char⟩
    rw [letters_pushChar, ← List.append_assoc, same]
    simp [kept, Letter.isBlank, blank]

theorem Split.splitChars
    {letters : List Letter}
    {state : List WordField × WordField}
    (before : Split letters state)
    (text : Text) :
    Split (letters ++ text.map Letter.unquoted)
      (text.foldl Brush.splitChar state) := by
  induction text generalizing letters state with
  | nil => simpa using before
  | cons char text hypothesis =>
      rw [List.map_cons, List.append_cons]
      exact hypothesis (before.splitChar char)

theorem Split.splitPiece
    {letters : List Letter}
    {state : List WordField × WordField}
    (before : Split letters state)
    (piece : ExpansionPiece) :
    Split (letters ++ WordField.letters [piece]) (splitPiece state piece) := by
  obtain ⟨fields, current⟩ := state
  cases piece with
  | unsplittable text =>
      refine ⟨?_, before.fields, before.merged.append_unsplittable text⟩
      have same := before.letters_eq
      rw [Brush.splitPiece, WordField.letters_append, ← List.append_assoc, same]
      simp [kept, WordField.letters, Letter.isBlank]
  | splittable text =>
      have letters_eq : WordField.letters [.splittable text] =
          text.map Letter.unquoted := List.flatMap_singleton _ _
      rw [letters_eq]
      exact before.splitChars text

theorem Split.splitPieces
    {letters : List Letter}
    {state : List WordField × WordField}
    (before : Split letters state)
    (field : WordField) :
    Split (letters ++ field.letters) (field.foldl Brush.splitPiece state) := by
  induction field generalizing letters state with
  | nil => simpa [WordField.letters] using before
  | cons piece field hypothesis =>
      have letters_eq : WordField.letters (piece :: field) =
          WordField.letters [piece] ++ WordField.letters field :=
        WordField.letters_append [piece] field
      rw [letters_eq, ← List.append_assoc]
      exact hypothesis (before.splitPiece piece)

/-- The fields a field is split into keep the letters no field is split at. -/
theorem letters_splitFields_singleton (field : WordField) :
    (splitFields [field]).flatMap WordField.letters = kept field.letters ∧
      ∀ part ∈ splitFields [field], part ≠ [] ∧ Merged part := by
  have start : Split [] (([], []) : List WordField × WordField) :=
    ⟨rfl, by simp, merged_nil⟩
  have split := start.splitPieces field
  rw [List.nil_append] at split
  change (splitField [] field).flatMap WordField.letters = _ ∧
    ∀ part ∈ splitField [] field, _
  rw [splitField]
  revert split
  generalize field.foldl splitPiece ([], []) = state
  intro split
  obtain ⟨fields, current⟩ := state
  dsimp only
  split_ifs with empty
  · refine ⟨?_, split.fields⟩
    have same := split.letters_eq
    rw [empty] at same
    rw [← same]
    exact (List.append_nil _).symm
  · refine ⟨?_, ?_⟩
    · rw [← split.letters_eq]
      simp
    · intro part member
      obtain earlier | rfl := List.mem_append.mp member |>.imp_right
        List.mem_singleton.mp
      · exact split.fields part earlier
      · exact ⟨empty, split.merged⟩

/-- Nothing is split off where no blank is. -/
theorem foldl_splitChar_of_unblank
    {text : Text}
    {state : List WordField × WordField}
    (unblank : ∀ char ∈ text, char ∉ ifs) :
    (text.foldl splitChar state).1 = state.1 := by
  induction text generalizing state with
  | nil => rfl
  | cons char text hypothesis =>
      have here : (splitChar state char).1 = state.1 := by
        obtain ⟨fields, current⟩ := state
        rw [splitChar, if_neg (unblank char List.mem_cons_self)]
      rw [List.foldl_cons, hypothesis fun other member =>
        unblank other (List.mem_cons_of_mem char member), here]

theorem foldl_splitPiece_of_unblank
    {field : WordField}
    {state : List WordField × WordField}
    (unblank : ∀ letter ∈ field.letters, letter.isBlank = false) :
    (field.foldl splitPiece state).1 = state.1 := by
  induction field generalizing state with
  | nil => rfl
  | cons piece field hypothesis =>
      have letters_eq : WordField.letters (piece :: field) =
          WordField.letters [piece] ++ WordField.letters field :=
        WordField.letters_append [piece] field
      rw [letters_eq] at unblank
      have here : (splitPiece state piece).1 = state.1 := by
        obtain ⟨fields, current⟩ := state
        cases piece with
        | unsplittable text => rfl
        | splittable text =>
            refine foldl_splitChar_of_unblank fun char member => ?_
            have clear := unblank (.unquoted char) (List.mem_append_left _ (by
              simpa [WordField.letters] using member))
            simpa [Letter.isBlank] using clear
      rw [List.foldl_cons, hypothesis fun letter member =>
        unblank letter (List.mem_append_right _ member), here]

/-- A field with no blank stays one, or goes with its last letter. -/
theorem splitFields_of_unblank
    {field : WordField}
    (unblank : ∀ letter ∈ field.letters, letter.isBlank = false) :
    (splitFields [field] = [] ∧ field.letters = []) ∨
      ∃ part : WordField, splitFields [field] = [part] ∧
        part.letters = field.letters ∧ part ≠ [] ∧ Merged part := by
  obtain ⟨letters, parts⟩ := letters_splitFields_singleton field
  have keeps : kept field.letters = field.letters :=
    List.filter_eq_self.mpr fun letter member => by
      rw [unblank letter member]
      rfl
  rw [keeps] at letters
  have first : (field.foldl splitPiece ([], [])).1 = [] :=
    foldl_splitPiece_of_unblank unblank
  have shape : splitFields [field] = [] ∨
      ∃ part, splitFields [field] = [part] := by
    change splitField [] field = [] ∨ ∃ part, splitField [] field = [part]
    rw [splitField]
    revert first
    generalize field.foldl splitPiece ([], []) = state
    intro first
    obtain ⟨fields, current⟩ := state
    obtain rfl : fields = [] := first
    dsimp only
    split_ifs
    · exact .inl rfl
    · exact .inr ⟨current, rfl⟩
  obtain none | ⟨part, one⟩ := shape
  · rw [none] at letters
    exact .inl ⟨none, letters.symm⟩
  · rw [one] at letters parts
    obtain ⟨nonempty, merged⟩ := parts part List.mem_cons_self
    exact .inr ⟨part, one, (List.flatMap_singleton _ _).symm.trans letters,
      nonempty, merged⟩

/-! ## Patterns -/

/-- Unquoted text before the others begins their first run. -/
theorem unquotedRuns_append
    (text : Text)
    {letters : List Letter}
    {run : Text}
    {runs : List Text}
    (others : unquotedRuns letters = run :: runs) :
    unquotedRuns (text.map Letter.unquoted ++ letters) =
      (text ++ run) :: runs := by
  induction text with
  | nil => exact others
  | cons char text hypothesis =>
      rw [List.map_cons, List.cons_append, unquotedRuns, hypothesis]
      rfl

/-- Of a merged field, the pieces that can be patterns are its runs. -/
theorem exists_splittable_iff
    {field : WordField}
    {holds : Text -> Prop}
    (merged : Merged field)
    (empty : ¬holds []) :
    (∃ text, .splittable text ∈ field ∧ holds text) ↔
      ∃ run ∈ unquotedRuns field.letters, holds run := by
  induction field with
  | nil => simp [WordField.letters, unquotedRuns, empty]
  | cons piece field hypothesis =>
      have letters_eq : WordField.letters (piece :: field) =
          WordField.letters [piece] ++ WordField.letters field :=
        WordField.letters_append [piece] field
      obtain ⟨head, chain⟩ := List.isChain_cons.mp merged.apart
      have rest := hypothesis ⟨chain, fun member =>
        merged.nonempty (List.mem_cons_of_mem piece member)⟩
      rw [letters_eq]
      cases piece with
      | unsplittable text =>
          have runs : unquotedRuns (WordField.letters [.unsplittable text] ++
              WordField.letters field) =
              [] :: unquotedRuns (WordField.letters field) := rfl
          rw [runs]
          simpa [empty] using rest
      | splittable text =>
          have here : WordField.letters [.splittable text] =
              text.map Letter.unquoted := List.flatMap_singleton _ _
          -- The next piece is quoted, so that the run ends with this piece.
          have first : ∃ runs, unquotedRuns (WordField.letters field) =
              [] :: runs := by
            cases field with
            | nil => exact ⟨[], rfl⟩
            | cons next field =>
                obtain ⟨other, isQuoted⟩ | ⟨other, rfl⟩ := head next rfl
                · cases isQuoted
                · exact ⟨_, rfl⟩
          obtain ⟨runs, runsEq⟩ := first
          rw [runsEq] at rest
          rw [here, unquotedRuns_append text runsEq, List.append_nil]
          have later : (∃ other, .splittable other ∈ field ∧ holds other) ↔
              ∃ run ∈ runs, holds run := by simpa [empty] using rest
          constructor
          · rintro ⟨other, member, holdsOther⟩
            obtain same | member := List.mem_cons.mp member
            · obtain rfl := ExpansionPiece.splittable.inj same
              exact ⟨other, List.mem_cons_self, holdsOther⟩
            · obtain ⟨run, runMember, holdsRun⟩ :=
                later.mp ⟨other, member, holdsOther⟩
              exact ⟨run, List.mem_cons_of_mem text runMember, holdsRun⟩
          · rintro ⟨run, member, holdsRun⟩
            obtain rfl | member := List.mem_cons.mp member
            · exact ⟨run, List.mem_cons_self, holdsRun⟩
            · obtain ⟨other, otherMember, holdsOther⟩ :=
                later.mpr ⟨run, member, holdsRun⟩
              exact ⟨other, List.mem_cons_of_mem _ otherMember, holdsOther⟩

theorem text_eq_flatMap_letters (field : WordField) :
    field.text = field.letters.flatMap Letter.text := by
  rw [WordField.text, WordField.letters, List.flatMap_assoc]
  refine List.flatMap_congr fun piece _ => ?_
  cases piece with
  | unsplittable text => exact (List.append_nil text).symm
  | splittable text =>
      change text = (text.map Letter.unquoted).flatMap Letter.text
      rw [List.flatMap_map]
      exact (List.flatMap_singleton' text).symm

/-! ## Whole words -/

section Words

variable (parser : Parser) (options : RuntimeOptions)

/-- Whether an unquoted run is a pattern the shell matches. -/
def MatchesRun (run : Text) : Prop :=
  options.disableFilenameGlobbing = false ∧
    parser.hasGlobMetacharacters options.extendedGlobbing run = true

/-- A literal word stands for its own text: no unquoted blank splits it, and
nothing unquoted in it is a pattern. -/
structure StandsForItself (letters : List Letter) : Prop where
  unblank : ∀ letter ∈ letters, letter.isBlank = false
  unmatched : ∀ run ∈ unquotedRuns letters, ¬MatchesRun parser options run

theorem not_matchesRun_nil : ¬MatchesRun parser options [] := by
  rintro ⟨-, globs⟩
  rw [parser.hasGlobMetacharacters_eq _ _ List.not_mem_nil] at globs
  exact Bool.false_ne_true globs

variable {parser options} {world : World}

/-- Where no brace opens unquoted, a literal word expands to one field at most,
of its own letters. -/
theorem basicExpand_of_wordLetters
    {word : Text}
    {pieces : List WordPiece}
    {letters : List Letter}
    (parsed : parser.parseWord options.parserOptions word = some pieces)
    (braces : ∀ text, .text text ∈ pieces -> '{' ∉ text)
    (literal : wordLetters parser pieces = some letters) :
    ∃ fields, basicExpand parser world options word =
        { effects := [], result := some fields } ∧
      ((fields = [] ∧ letters = []) ∨
        ∃ field : WordField, fields = [field] ∧ field.letters = letters) := by
  rw [basicExpand]
  by_cases plain : NothingToExpand word
  · rw [if_pos plain]
    refine ⟨_, rfl, .inr ⟨_, rfl, ?_⟩⟩
    have pieces_eq := parsed.symm.trans
      (parser.parseWord_plain options.parserOptions word plain)
    obtain rfl := Option.some.inj pieces_eq
    have here : WordField.letters [.splittable word] =
        word.map Letter.unquoted := List.flatMap_singleton _ _
    rw [here]
    by_cases empty : word = []
    · rw [if_pos empty] at literal
      obtain rfl := Option.some.inj literal
      rw [empty]
      rfl
    · rw [if_neg empty] at literal
      have letters_eq : some (word.map Letter.unquoted ++ []) = some letters :=
        literal
      rw [List.append_nil] at letters_eq
      exact Option.some.inj letters_eq
  · have unchanged : (if options.performBraceExpansion then
          parser.expandBraces options.parserOptions word
        else word) = word := by
      rw [parser.expandBraces_quoted _ _ _ parsed braces]
      exact ite_self word
    rw [if_neg plain]
    dsimp only
    rw [unchanged, if_pos rfl, parsed]
    dsimp only
    obtain ⟨-, empty, expands⟩ | ⟨field, expands, letters_eq⟩ :=
      expandPieces_of_wordLetters parser world literal
    · exact ⟨[], by rw [expands, List.nil_append], .inl ⟨rfl, empty⟩⟩
    · exact ⟨[field], by rw [expands, List.nil_append],
        .inr ⟨field, rfl, letters_eq⟩⟩

/-- A field's pathnames, when it holds no pattern. -/
theorem expandPathnamesInField_of_unmatched
    {field : WordField}
    (nonempty : field ≠ [])
    (unmatched : field.any (isPattern parser options) = false) :
    expandPathnamesInField parser world options field =
      Evaluated.pure [field.text] := by
  rw [expandPathnamesInField, if_neg nonempty, unmatched]
  rfl

theorem any_isPattern_iff {field : WordField} :
    field.any (isPattern parser options) = true ↔
      ∃ text, .splittable text ∈ field ∧
        parser.hasGlobMetacharacters options.extendedGlobbing text = true := by
  rw [List.any_eq_true]
  constructor
  · rintro ⟨piece, member, globs⟩
    cases piece with
    | unsplittable text => cases globs
    | splittable text => exact ⟨text, member, globs⟩
  · rintro ⟨text, member, globs⟩
    exact ⟨.splittable text, member, globs⟩

/-- What becomes of one field of a literal word. -/
abbrev expandField
    (parser : Parser)
    (world : World)
    (options : RuntimeOptions)
    (field : WordField) : Evaluated (List Text) :=
  if options.disableFilenameGlobbing then Evaluated.pure [field.text]
  else expandPathnamesInField parser world options field

/-- A field whose runs are no patterns is its text. -/
theorem expandField_of_unmatched
    {field : WordField}
    (nonempty : field ≠ [])
    (merged : Merged field)
    (unmatched : ∀ run ∈ unquotedRuns field.letters,
      ¬MatchesRun parser options run) :
    expandField parser world options field = Evaluated.pure [field.text] := by
  rw [expandField]
  split_ifs with disabled
  · rfl
  · refine expandPathnamesInField_of_unmatched nonempty ?_
    rw [Bool.eq_false_iff]
    intro globs
    obtain ⟨text, member, textGlobs⟩ := any_isPattern_iff.mp globs
    obtain ⟨run, runMember, matchesRun⟩ :=
      (@exists_splittable_iff _ (MatchesRun parser options) merged
        (not_matchesRun_nil parser options)).mp
          ⟨text, member, Bool.eq_false_iff.mpr disabled, textGlobs⟩
    exact unmatched run runMember matchesRun

/-- A field that nothing was done for is its text, and is no pattern. -/
theorem expandField_of_quiet
    {field : WordField}
    (nonempty : field ≠ [])
    (quiet : (expandField parser world options field).effects = []) :
    expandField parser world options field = Evaluated.pure [field.text] ∧
      ∀ text, .splittable text ∈ field -> ¬MatchesRun parser options text := by
  rw [expandField] at quiet ⊢
  by_cases disabled : options.disableFilenameGlobbing = true
  · rw [if_pos disabled]
    refine ⟨rfl, ?_⟩
    rintro text - ⟨enabled, -⟩
    rw [disabled] at enabled
    cases enabled
  · rw [if_neg disabled] at quiet ⊢
    cases globs : field.any (isPattern parser options) with
    | true =>
        rw [expandPathnamesInField, if_neg nonempty, if_pos globs] at quiet
        cases quiet
    | false =>
        refine ⟨expandPathnamesInField_of_unmatched nonempty globs, ?_⟩
        rintro text member ⟨-, matchesText⟩
        rw [any_isPattern_iff.mpr ⟨text, member, matchesText⟩] at globs
        cases globs

theorem standsForItself_nil : StandsForItself parser options [] where
  unblank := by simp
  unmatched := by
    intro run member
    obtain rfl := List.mem_singleton.mp member
    exact not_matchesRun_nil parser options

end Words

/-! ## Evaluations that do nothing -/

namespace Evaluated

variable {Value Next : Type}

@[simp] theorem pure_andThen (value : Value) (next : Value -> Evaluated Next) :
    (pure value).andThen next = next value := rfl

theorem andThen_assoc
    {Last : Type}
    (first : Evaluated Value)
    (next : Value -> Evaluated Next)
    (last : Next -> Evaluated Last) :
    (first.andThen next).andThen last =
      first.andThen fun value => (next value).andThen last := by
  obtain ⟨effects, result⟩ := first
  cases result with
  | none => rfl
  | some value =>
      rw [andThen, andThen, andThen]
      dsimp only
      rw [andThen]
      cases (next value).result with
      | none => rfl
      | some other => simp

/-- What nothing was done for had two parts for which nothing was. -/
theorem quiet_andThen
    {first : Evaluated Value}
    {next : Value -> Evaluated Next}
    (quiet : (first.andThen next).effects = []) :
    first.effects = [] ∧
      ∀ value, first.result = some value -> (next value).effects = [] := by
  rw [andThen] at quiet
  cases result : first.result with
  | none =>
      rw [result] at quiet
      exact ⟨quiet, by simp⟩
  | some value =>
      rw [result] at quiet
      obtain ⟨firstQuiet, nextQuiet⟩ := List.append_eq_nil_iff.mp quiet
      refine ⟨firstQuiet, fun other same => ?_⟩
      obtain rfl := Option.some.inj same
      exact nextQuiet

theorem collect_eq_pure
    {evaluate : Value -> Evaluated (List Next)}
    (results : Value -> List Next)
    {values : List Value}
    (each : ∀ value ∈ values, evaluate value = pure (results value)) :
    collect evaluate values = pure (values.flatMap results) := by
  induction values with
  | nil => rfl
  | cons value values hypothesis =>
      rw [collect, each value List.mem_cons_self, pure_andThen,
        hypothesis fun other member => each other
          (List.mem_cons_of_mem value member)]
      rfl

/-- Where each value comes to something if nothing is done for it, all do if
nothing is. -/
theorem collect_of_quiet
    {evaluate : Value -> Evaluated (List Next)}
    (results : Value -> List Next)
    {values : List Value}
    (each : ∀ value ∈ values, (evaluate value).effects = [] ->
      evaluate value = pure (results value))
    (quiet : (collect evaluate values).effects = []) :
    ∀ value ∈ values, evaluate value = pure (results value) := by
  induction values with
  | nil => simp
  | cons value values hypothesis =>
      rw [collect] at quiet
      obtain ⟨firstQuiet, nextQuiet⟩ := quiet_andThen quiet
      have first := each value List.mem_cons_self firstQuiet
      have rest := nextQuiet (results value) (by rw [first]; rfl)
      intro other member
      obtain rfl | member := List.mem_cons.mp member
      · exact first
      · exact hypothesis (fun other member => each other
          (List.mem_cons_of_mem value member)) (quiet_andThen rest).1 other
            member

theorem mem_effects_andThen
    {first : Evaluated Value}
    {next : Value -> Evaluated Next}
    {effect : Effect}
    (member : effect ∈ first.effects) :
    effect ∈ (first.andThen next).effects := by
  rw [andThen]
  cases first.result with
  | none => exact member
  | some value => exact List.mem_append_left _ member

/-- What holds of all that is done for each value holds of all that is done. -/
theorem forall_effects_collect
    (holds : Effect -> Prop)
    {evaluate : Value -> Evaluated (List Next)}
    {values : List Value}
    (each : ∀ value ∈ values, ∀ effect ∈ (evaluate value).effects,
      holds effect) :
    ∀ effect ∈ (collect evaluate values).effects, holds effect := by
  induction values with
  | nil => simp [collect, pure]
  | cons value values hypothesis =>
      have rest := hypothesis fun other member =>
        each other (List.mem_cons_of_mem value member)
      intro effect member
      rw [collect, andThen] at member
      cases result : (evaluate value).result with
      | none =>
          rw [result] at member
          exact each value List.mem_cons_self effect member
      | some first =>
          rw [result] at member
          obtain here | later := List.mem_append.mp member
          · exact each value List.mem_cons_self effect here
          · rw [andThen] at later
            cases others : (collect evaluate values).result with
            | none =>
                rw [others] at later
                exact rest effect later
            | some others' =>
                rw [others] at later
                exact rest effect (by simpa [pure] using later)

end Evaluated

section Words

variable
  {parser : Parser} {options : RuntimeOptions} {world : World}
  {word : Text} {pieces : List WordPiece} {letters : List Letter}

/-- A literal word that stands for itself expands to its text. -/
theorem fullExpandWithSplitting_of_standsForItself
    (parsed : parser.parseWord options.parserOptions word = some pieces)
    (braces : ∀ text, .text text ∈ pieces -> '{' ∉ text)
    (literal : wordLetters parser pieces = some letters)
    (stands : StandsForItself parser options letters) :
    fullExpandWithSplitting parser world options word =
      Evaluated.pure (literalArguments letters) := by
  obtain ⟨fields, expands, ⟨rfl, rfl⟩ | ⟨field, rfl, rfl⟩⟩ :=
    @basicExpand_of_wordLetters _ _ world _ _ _ parsed braces literal
  · rw [fullExpandWithSplitting, expands]
    rfl
  · rw [fullExpandWithSplitting, expands]
    change Evaluated.andThen (Evaluated.pure [field]) _ = _
    rw [Evaluated.pure_andThen]
    obtain ⟨nothing, empty⟩ | ⟨part, one, letters_eq, nonempty, merged⟩ :=
      splitFields_of_unblank stands.unblank
    · rw [nothing, literalArguments, if_pos empty]
      rfl
    · have runs := stands.unmatched
      rw [← letters_eq] at runs
      have shown : field.letters ≠ [] := by
        intro empty
        rw [← letters_eq] at empty
        obtain ⟨piece, rest, rfl⟩ := List.exists_cons_of_ne_nil nonempty
        cases piece with
        | unsplittable text => cases empty
        | splittable text =>
            have textEmpty : text.map Letter.unquoted = [] :=
              (List.append_eq_nil_iff.mp empty).1
            rw [List.map_eq_nil_iff.mp textEmpty] at merged
            exact merged.nonempty List.mem_cons_self
      rw [one, Evaluated.collect_eq_pure fun field : WordField => [field.text]]
      · rw [literalArguments, if_neg shown, ← letters_eq,
          ← text_eq_flatMap_letters]
        rfl
      · intro other member
        obtain rfl := List.mem_singleton.mp member
        exact expandField_of_unmatched nonempty merged runs

/-- A literal word nothing is done for expands to the letters it is not split
at, and stands for itself if these are all. -/
theorem fullExpandWithSplitting_of_quiet
    (parsed : parser.parseWord options.parserOptions word = some pieces)
    (braces : ∀ text, .text text ∈ pieces -> '{' ∉ text)
    (literal : wordLetters parser pieces = some letters)
    (quiet : (fullExpandWithSplitting parser world options word).effects = []) :
    ∃ fields, fullExpandWithSplitting parser world options word =
        Evaluated.pure fields ∧
      fields.flatten = (kept letters).flatMap Letter.text ∧
      (kept letters = letters -> StandsForItself parser options letters) := by
  obtain ⟨fields, expands, ⟨rfl, rfl⟩ | ⟨field, rfl, rfl⟩⟩ :=
    @basicExpand_of_wordLetters _ _ world _ _ _ parsed braces literal
  · refine ⟨[], ?_, rfl, fun _ => standsForItself_nil⟩
    rw [fullExpandWithSplitting, expands]
    rfl
  · obtain ⟨keeps, parts⟩ := letters_splitFields_singleton field
    have whole : fullExpandWithSplitting parser world options word =
        Evaluated.collect (expandField parser world options)
          (splitFields [field]) := by
      rw [fullExpandWithSplitting, expands]
      rfl
    rw [whole] at quiet
    have each := Evaluated.collect_of_quiet
      (fun field : WordField => [field.text])
      (fun part member partQuiet =>
        (expandField_of_quiet (parts part member).1 partQuiet).1) quiet
    refine ⟨_, whole.trans (Evaluated.collect_eq_pure _ each), ?_, ?_⟩
    · rw [← keeps, List.flatMap_assoc, List.flatten_eq_flatMap,
        List.flatMap_assoc]
      refine List.flatMap_congr fun part _ => ?_
      rw [← text_eq_flatMap_letters]
      exact List.append_nil _
    · intro all
      have unblank : ∀ letter ∈ field.letters, letter.isBlank = false := by
        intro letter member
        have clear := List.filter_eq_self.mp all letter member
        simpa using clear
      refine ⟨unblank, ?_⟩
      obtain ⟨nothing, empty⟩ | ⟨part, one, letters_eq, nonempty, merged⟩ :=
        splitFields_of_unblank unblank
      · rw [empty]
        exact standsForItself_nil.unmatched
      · have member : part ∈ splitFields [field] := by rw [one]; simp
        have partQuiet : (expandField parser world options part).effects =
            [] := by rw [each part member]; rfl
        have unmatched := (expandField_of_quiet nonempty partQuiet).2
        rw [← letters_eq]
        intro run runMember matchesRun
        obtain ⟨text, textMember, matchesText⟩ :=
          (@exists_splittable_iff _ (MatchesRun parser options) merged
            (not_matchesRun_nil parser options)).mpr
              ⟨run, runMember, matchesRun⟩
        exact unmatched text textMember matchesText

/-- The only thing that can be done for a literal word is to match patterns. -/
theorem patternMatch_of_mem_fullExpandWithSplitting
    (parsed : parser.parseWord options.parserOptions word = some pieces)
    (braces : ∀ text, .text text ∈ pieces -> '{' ∉ text)
    (literal : wordLetters parser pieces = some letters) :
    ∀ effect ∈ (fullExpandWithSplitting parser world options word).effects,
      ∃ text, effect = .patternMatch text := by
  obtain ⟨fields, expands, -⟩ :=
    @basicExpand_of_wordLetters _ _ world _ _ _ parsed braces literal
  rw [fullExpandWithSplitting, expands]
  refine Evaluated.forall_effects_collect (fun effect : Effect =>
    ∃ text, effect = .patternMatch text) ?_
  intro field _ effect member
  split_ifs at member with disabled
  · cases member
  · rw [expandPathnamesInField] at member
    by_cases empty : field = []
    · rw [if_pos empty] at member
      cases member
    · rw [if_neg empty] at member
      by_cases globs : field.any (isPattern parser options) = true
      · rw [if_pos globs] at member
        exact ⟨field.text, List.mem_singleton.mp member⟩
      · rw [if_neg globs] at member
        cases member

end Words
end Brush
end Marsh
