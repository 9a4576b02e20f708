import Mathlib.Computability.MyhillNerode

/-!
# Residuals of languages

The left quotient of a language by one letter has the words that follow the
letter in the language, and obeys the Leibniz rule on products and stars.  These
are the equations a derivative-based matcher implements one syntax node at a
time.
Finite families are written with `List.sum` and `List.prod` of the language
semiring, and with `Language.inter` for intersections.
-/

namespace Language

variable {letters : Type*}

/-- Words that complete `letter` to a word of the language. -/
def residual
    (letter : letters)
    (language : Language letters) : Language letters :=
  language.leftQuotient [letter]

@[simp] theorem mem_residual
    {letter : letters}
    {language : Language letters}
    {word : List letters} :
    word ∈ language.residual letter ↔ letter :: word ∈ language :=
  Iff.rfl

@[simp] theorem mem_top (word : List letters) :
    word ∈ (⊤ : Language letters) :=
  trivial

@[simp] theorem notMem_bot (word : List letters) :
    word ∉ (⊥ : Language letters) :=
  id

@[simp] theorem mem_compl_iff
    {language : Language letters}
    {word : List letters} :
    word ∈ languageᶜ ↔ word ∉ language :=
  Iff.rfl

/-- The words of length one whose only letter satisfies `accepts`. -/
def single (accepts : letters -> Prop) : Language letters :=
  { word | ∃ letter, word = [letter] ∧ accepts letter }

@[simp] theorem mem_single
    {accepts : letters -> Prop}
    {word : List letters} :
    word ∈ single accepts ↔ ∃ letter, word = [letter] ∧ accepts letter :=
  Iff.rfl

/-- The intersection of a finite family; the empty family is everything. -/
def inter (family : List (Language letters)) : Language letters :=
  { word | ∀ language ∈ family, word ∈ language }

@[simp] theorem mem_inter
    {family : List (Language letters)}
    {word : List letters} :
    word ∈ inter family ↔ ∀ language ∈ family, word ∈ language :=
  Iff.rfl

@[simp] theorem inter_nil :
    inter ([] : List (Language letters)) = ⊤ := by
  ext word
  simp

@[simp] theorem inter_cons
    (language : Language letters)
    (family : List (Language letters)) :
    inter (language :: family) = language ⊓ inter family := by
  ext word
  simp [mem_inf]

theorem mem_sum
    {family : List (Language letters)}
    {word : List letters} :
    word ∈ family.sum ↔ ∃ language ∈ family, word ∈ language := by
  induction family with
  | nil => simp
  | cons language family hypothesis =>
      rw [List.sum_cons, mem_add, hypothesis]
      simp

theorem nil_mem_mul
    {left right : Language letters} :
    [] ∈ left * right ↔ [] ∈ left ∧ [] ∈ right := by
  constructor
  · rintro ⟨first, firstMem, second, secondMem, joined⟩
    obtain ⟨rfl, rfl⟩ := List.append_eq_nil_iff.mp joined
    exact ⟨firstMem, secondMem⟩
  · rintro ⟨leftMem, rightMem⟩
    exact ⟨[], leftMem, [], rightMem, rfl⟩

theorem nil_mem_prod
    {family : List (Language letters)} :
    [] ∈ family.prod ↔ ∀ language ∈ family, [] ∈ language := by
  induction family with
  | nil => simp
  | cons language family hypothesis =>
      rw [List.prod_cons, nil_mem_mul, hypothesis]
      simp

/-! ## Residuals of the operations -/

variable (letter : letters)

@[simp] theorem residual_zero :
    (0 : Language letters).residual letter = 0 :=
  rfl

@[simp] theorem residual_one :
    (1 : Language letters).residual letter = 0 := by
  ext word
  simp

@[simp] theorem residual_top :
    (⊤ : Language letters).residual letter = ⊤ :=
  rfl

theorem residual_mul_of_nil_notMem
    {left : Language letters}
    (proper : [] ∉ left)
    (right : Language letters) :
    (left * right).residual letter = left.residual letter * right := by
  ext word
  simp only [mem_residual, mem_mul]
  constructor
  · rintro ⟨first, firstMem, second, secondMem, joined⟩
    cases first with
    | nil => exact absurd firstMem proper
    | cons head tail =>
        obtain ⟨rfl, rfl⟩ := List.cons_eq_cons.mp joined
        exact ⟨tail, firstMem, second, secondMem, rfl⟩
  · rintro ⟨first, firstMem, second, secondMem, rfl⟩
    exact ⟨letter :: first, firstMem, second, secondMem, rfl⟩

theorem residual_mul_of_nil_mem
    {left : Language letters}
    (nullable : [] ∈ left)
    (right : Language letters) :
    (left * right).residual letter =
      left.residual letter * right + right.residual letter := by
  ext word
  simp only [mem_residual, mem_add, mem_mul]
  constructor
  · rintro ⟨first, firstMem, second, secondMem, joined⟩
    cases first with
    | nil =>
        right
        rw [List.nil_append] at joined
        exact joined ▸ secondMem
    | cons head tail =>
        obtain ⟨rfl, rfl⟩ := List.cons_eq_cons.mp joined
        exact Or.inl ⟨tail, firstMem, second, secondMem, rfl⟩
  · rintro (⟨first, firstMem, second, secondMem, rfl⟩ | rightMem)
    · exact ⟨letter :: first, firstMem, second, secondMem, rfl⟩
    · exact ⟨[], nullable, letter :: word, rightMem, rfl⟩

theorem residual_kstar (language : Language letters) :
    (KStar.kstar language).residual letter =
      language.residual letter * KStar.kstar language := by
  ext word
  constructor
  · intro member
    obtain ⟨blocks, joined, blocksMem⟩ :=
      mem_kstar_iff_exists_nonempty.mp member
    cases blocks with
    | nil => simp at joined
    | cons block blocks =>
        obtain ⟨blockMem, blockNonempty⟩ := blocksMem block List.mem_cons_self
        cases block with
        | nil => exact absurd rfl blockNonempty
        | cons head tail =>
            rw [List.flatten_cons, List.cons_append] at joined
            obtain ⟨rfl, rfl⟩ := List.cons_eq_cons.mp joined
            refine ⟨tail, blockMem, blocks.flatten, ?_, rfl⟩
            exact join_mem_kstar fun other otherMem =>
              (blocksMem other (List.mem_cons_of_mem _ otherMem)).1
  · rintro ⟨first, firstMem, second, secondMem, rfl⟩
    obtain ⟨blocks, rfl, blocksMem⟩ := mem_kstar.mp secondMem
    refine mem_kstar.mpr ⟨(letter :: first) :: blocks, rfl, ?_⟩
    simp only [List.mem_cons, forall_eq_or_imp]
    exact ⟨firstMem, blocksMem⟩

/-! ## Stars of degenerate languages -/

theorem kstar_top : KStar.kstar (⊤ : Language letters) = ⊤ := by
  ext word
  simp only [mem_top, iff_true]
  exact mem_kstar.mpr ⟨[word], by simp, by simp⟩

theorem kstar_single_true :
    KStar.kstar (single fun _ : letters => True) = ⊤ := by
  ext word
  simp only [mem_top, iff_true]
  refine mem_kstar.mpr ⟨word.map fun letter => [letter], ?_, ?_⟩
  · induction word with
    | nil => rfl
    | cons head tail hypothesis => simpa using hypothesis
  · intro block blockMem
    obtain ⟨head, _, rfl⟩ := List.mem_map.mp blockMem
    exact ⟨head, rfl, trivial⟩

end Language
