import Marsh.Library.Language

/-!
# The last letter that changes something

A word is read as a run of letters some of which set a value.  The languages
"everything, then a setter, then letters that set nothing" describe the last
value set.
-/

namespace Library

variable {Letter Value : Type*}

/-- The value set by the last letter that sets one. -/
def lastChange
    (change : Letter -> Option Value)
    (word : List Letter) : Option Value :=
  word.foldl (fun last letter => (change letter).or last) none

variable (change : Letter -> Option Value)

@[simp] theorem lastChange_nil : lastChange change [] = none := rfl

/-- A letter that sets a value hides every earlier one. -/
@[simp] theorem lastChange_append_singleton
    (word : List Letter)
    (letter : Letter) :
    lastChange change (word ++ [letter]) =
      (change letter).or (lastChange change word) := by
  rw [lastChange, lastChange, List.foldl_append]
  rfl

/-- The last change of a concatenation is the later one. -/
theorem lastChange_append (left right : List Letter) :
    lastChange change (left ++ right) =
      (lastChange change right).or (lastChange change left) := by
  induction right using List.reverseRecOn with
  | nil => simp
  | append_singleton right letter hypothesis =>
      rw [← List.append_assoc, lastChange_append_singleton, hypothesis,
        lastChange_append_singleton, Option.or_assoc]

theorem lastChange_eq_none_iff (word : List Letter) :
    lastChange change word = none ↔ ∀ letter ∈ word, change letter = none := by
  induction word using List.reverseRecOn with
  | nil => simp
  | append_singleton word letter hypothesis =>
      rw [lastChange_append_singleton, Option.or_eq_none_iff, hypothesis]
      simp [or_imp, forall_and, and_comm]

theorem lastChange_eq_some_iff (word : List Letter) (value : Value) :
    lastChange change word = some value ↔
      ∃ before letter after, word = before ++ letter :: after ∧
        change letter = some value ∧
        ∀ later ∈ after, change later = none := by
  constructor
  · induction word using List.reverseRecOn with
    | nil => simp
    | append_singleton word letter hypothesis =>
        intro last
        rw [lastChange_append_singleton, Option.or_eq_some_iff] at last
        rcases last with sets | ⟨silent, last⟩
        · exact ⟨word, letter, [], rfl, sets, by simp⟩
        · obtain ⟨before, setter, after, rfl, sets, stable⟩ := hypothesis last
          refine ⟨before, setter, after ++ [letter], by simp, sets, ?_⟩
          intro later member
          rcases List.mem_append.mp member with member | member
          · exact stable later member
          · rw [List.mem_singleton.mp member]
            exact silent
  · rintro ⟨before, letter, after, rfl, sets, stable⟩
    have quiet := (lastChange_eq_none_iff change after).mpr stable
    rw [List.append_cons, lastChange_append, lastChange_append_singleton,
      quiet, sets]
    rfl

/-- A value is the last change when some letter sets it and no letter sets
another. -/
theorem lastChange_eq_some_of_unique
    {word : List Letter}
    {value : Value}
    (sets : ∃ letter ∈ word, change letter = some value)
    (only : ∀ letter ∈ word, change letter = none ∨ change letter = some value) :
    lastChange change word = some value := by
  obtain ⟨letter, member, changes⟩ := sets
  cases last : lastChange change word with
  | none =>
      rw [(lastChange_eq_none_iff change word).mp last letter member] at changes
      contradiction
  | some found =>
      obtain ⟨before, setter, after, rfl, found, -⟩ :=
        (lastChange_eq_some_iff change word found).mp last
      obtain silent | same := only setter (by simp)
      · rw [silent] at found
        contradiction
      · exact found.symm.trans same

/-- A last change that sets one value only depends on the letters that occur. -/
theorem lastChange_congr_mem
    {value : Value}
    {left right : List Letter}
    (only : ∀ letter ∈ left, change letter = none ∨ change letter = some value)
    (same : ∀ letter, letter ∈ left ↔ letter ∈ right) :
    lastChange change left = lastChange change right := by
  by_cases sets : ∃ letter ∈ left, change letter = some value
  · obtain ⟨letter, member, changes⟩ := sets
    rw [lastChange_eq_some_of_unique change ⟨letter, member, changes⟩ only,
      lastChange_eq_some_of_unique change
        ⟨letter, (same letter).mp member, changes⟩
        fun letter member => only letter ((same letter).mpr member)]
  · have silent : ∀ letter ∈ left, change letter = none := fun letter member =>
      (only letter member).resolve_right fun changes =>
        sets ⟨letter, member, changes⟩
    rw [(lastChange_eq_none_iff change left).mpr silent,
      (lastChange_eq_none_iff change right).mpr fun letter member =>
        silent letter ((same letter).mpr member)]

/-- A letter with its prefix is one of a shorter word, or the last one. -/
theorem exists_split_append_singleton
    {word : List Letter}
    {last : Letter}
    {holds : List Letter -> Letter -> Prop} :
    (∃ before letter after, word ++ [last] = before ++ letter :: after ∧
        holds before letter) ↔
      (∃ before letter after, word = before ++ letter :: after ∧
        holds before letter) ∨ holds word last := by
  constructor
  · rintro ⟨before, letter, after, split, holds⟩
    induction after using List.reverseRecOn with
    | nil =>
        obtain ⟨rfl, same⟩ := List.append_inj' split rfl
        obtain rfl : last = letter := by simpa using same
        exact .inr holds
    | append_singleton after final =>
        rw [← List.cons_append, ← List.append_assoc] at split
        obtain ⟨rfl, -⟩ := List.append_inj' split rfl
        exact .inl ⟨before, letter, after, rfl, holds⟩
  · rintro (⟨before, letter, after, rfl, holds⟩ | holds)
    · exact ⟨before, letter, after ++ [last], by simp, holds⟩
    · exact ⟨word, last, [], rfl, holds⟩

/-! ## Languages of the last change -/

/-- A star of one-letter words constrains each letter. -/
theorem mem_kstar_single
    {accepts : Letter -> Prop}
    {word : List Letter} :
    word ∈ KStar.kstar (Language.single accepts) ↔
      ∀ letter ∈ word, accepts letter := by
  rw [Language.mem_kstar]
  constructor
  · rintro ⟨pieces, rfl, single⟩ letter member
    obtain ⟨piece, pieceMember, letterMember⟩ := List.mem_flatten.mp member
    obtain ⟨only, rfl, accepted⟩ :=
      Language.mem_single.mp (single piece pieceMember)
    rw [List.mem_singleton.mp letterMember]
    exact accepted
  · intro accepted
    refine ⟨word.map fun letter => [letter], by simp [← List.flatMap_def], ?_⟩
    rintro piece member
    obtain ⟨letter, letterMember, rfl⟩ := List.mem_map.mp member
    exact Language.mem_single.mpr ⟨letter, rfl, accepted letter letterMember⟩

/-- Words whose letters all leave the value alone. -/
theorem mem_kstar_single_iff_lastChange
    {stable : Letter -> Prop}
    (quiet : ∀ letter, stable letter ↔ change letter = none)
    {word : List Letter} :
    word ∈ KStar.kstar (Language.single stable) ↔
      lastChange change word = none := by
  simp only [mem_kstar_single, lastChange_eq_none_iff, quiet]

/-- Words whose last change satisfies a property of its value. -/
theorem mem_setter_iff_lastChange
    {setter stable : Letter -> Prop}
    {sets : Value -> Prop}
    (quiet : ∀ letter, stable letter ↔ change letter = none)
    (changes : ∀ letter, setter letter ↔ ∃ value ∈ change letter, sets value)
    {word : List Letter} :
    word ∈ (⊤ : Language Letter) * (Language.single setter *
        KStar.kstar (Language.single stable)) ↔
      ∃ value ∈ lastChange change word, sets value := by
  simp only [Language.mem_mul, mem_kstar_single, Language.mem_single,
    Option.mem_def, lastChange_eq_some_iff, quiet, changes]
  constructor
  · rintro ⟨before, -, -, ⟨-, ⟨letter, rfl, value, change, holds⟩, after,
      stable, rfl⟩, rfl⟩
    exact ⟨value, ⟨before, letter, after, rfl, change, stable⟩, holds⟩
  · rintro ⟨value, ⟨before, letter, after, rfl, change, stable⟩, holds⟩
    exact ⟨before, Language.mem_top before, [letter] ++ after,
      ⟨[letter], ⟨letter, rfl, value, change, holds⟩, after, stable, rfl⟩, rfl⟩

end Library
