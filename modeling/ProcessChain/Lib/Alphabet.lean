import Mathlib.Computability.RegularExpressions

/-! Regular expressions over a character set: classes and literal words as sums
and products of letters, and the letters a matched word can contain. -/

namespace ProcessChain.Lib

variable {α : Type}

def oneOf (letters : List α) : RegularExpression α :=
  letters.foldr (fun letter others => .char letter + others) 0

def literal (word : List α) : RegularExpression α :=
  word.foldr (fun letter rest => .char letter * rest) 1

def repeated (pattern : RegularExpression α) : RegularExpression α := pattern * pattern.star

/-- The letters written in a pattern. -/
def alphabet : RegularExpression α → List α
  | .zero => []
  | .epsilon => []
  | .char letter => [letter]
  | .plus first second => alphabet first ++ alphabet second
  | .comp first second => alphabet first ++ alphabet second
  | .star pattern => alphabet pattern

/-- A matched word is written in the letters of its pattern. -/
theorem matched_letters (pattern : RegularExpression α) {word : List α} (matched : word ∈ pattern.matches') :
    word ⊆ alphabet pattern := by
  induction pattern generalizing word with
  | zero => exact matched.elim
  | epsilon =>
    cases matched
    exact List.nil_subset _
  | char letter =>
    cases matched
    exact List.Subset.refl _
  | plus first second left right =>
    rcases matched with matched | matched
    · exact List.subset_append_of_subset_left _ (left matched)
    · exact List.subset_append_of_subset_right _ (right matched)
  | comp first second left right =>
    obtain ⟨before, matchedBefore, after, matchedAfter, rfl⟩ := Language.mem_mul.mp matched
    exact List.append_subset.mpr ⟨List.subset_append_of_subset_left _ (left matchedBefore),
      List.subset_append_of_subset_right _ (right matchedAfter)⟩
  | star pattern inner =>
    obtain ⟨words, rfl, each⟩ := Language.mem_kstar.mp matched
    intro letter member
    obtain ⟨word, chosen, inside⟩ := List.mem_flatten.mp member
    exact inner (each word chosen) inside

/-- A literal matches only its own word. -/
theorem matched_literal {word text : List α} (matched : text ∈ (literal word).matches') : text = word := by
  induction word generalizing text with
  | nil => exact matched
  | cons letter rest ih =>
    obtain ⟨first, single, others, matchedRest, rfl⟩ := Language.mem_mul.mp matched
    rw [ih matchedRest, Set.mem_singleton_iff.mp single, List.singleton_append]

theorem literal_matches (word : List α) : word ∈ (literal word).matches' := by
  induction word with
  | nil => exact Set.mem_singleton _
  | cons letter rest ih => exact Language.mem_mul.mpr ⟨[letter], rfl, rest, ih, rfl⟩

/-- A class matches its letters. -/
theorem oneOf_matches {letters : List α} {letter : α} (member : letter ∈ letters) : [letter] ∈ (oneOf letters).matches' := by
  induction letters with
  | nil => cases member
  | cons first others ih =>
    rcases List.mem_cons.mp member with rfl | later
    · exact Or.inl rfl
    · exact Or.inr (ih later)

theorem star_matches {letters word : List α} (inside : word ⊆ letters) : word ∈ (oneOf letters).star.matches' := by
  refine Language.mem_kstar.mpr ⟨word.map fun letter => [letter], ?_, fun single member => ?_⟩
  · induction word with
    | nil => rfl
    | cons letter rest ih =>
      rw [List.map_cons, List.flatten_cons, ← ih (List.subset_of_cons_subset inside), List.singleton_append]
  · obtain ⟨letter, chosen, rfl⟩ := List.mem_map.mp member
    exact oneOf_matches (inside chosen)

theorem repeated_matches {letters word : List α} (visible : word ≠ []) (inside : word ⊆ letters) :
    word ∈ (repeated (oneOf letters)).matches' := by
  obtain ⟨letter, rest, rfl⟩ := List.exists_cons_of_ne_nil visible
  obtain ⟨first, others⟩ := List.cons_subset.mp inside
  exact Language.mem_mul.mpr ⟨[letter], oneOf_matches first, rest, star_matches others, rfl⟩

/-- A text matched by a pattern that ends in a literal ends in its word. -/
theorem matched_ending {pattern : RegularExpression α} {word text : List α}
    (matched : text ∈ (pattern * literal word).matches') : word <:+ text := by
  obtain ⟨before, _, ending, matchedEnding, rfl⟩ := Language.mem_mul.mp matched
  rw [matched_literal matchedEnding]
  exact List.suffix_append before word

/-- A letter in front of a matched word gives another one. -/
def Extends (pattern : RegularExpression α) (letter : α) : Prop :=
  ∀ word ∈ pattern.matches', letter :: word ∈ pattern.matches'

/-- A repetition can always be made longer. -/
theorem repeated_extends {pattern : RegularExpression α} {letter : α} (single : [letter] ∈ pattern.matches') :
    Extends (repeated pattern) letter := by
  intro word matched
  obtain ⟨first, matchedFirst, others, matchedOthers, rfl⟩ := Language.mem_mul.mp matched
  obtain ⟨words, rfl, each⟩ := Language.mem_kstar.mp matchedOthers
  refine Language.mem_mul.mpr ⟨[letter], single, first ++ words.flatten, ?_, rfl⟩
  exact Language.mem_kstar.mpr ⟨first :: words, rfl, List.forall_mem_cons.mpr ⟨matchedFirst, each⟩⟩

/-- What can be put in front of the first part can be put in front of the whole. -/
theorem mul_extends {first : RegularExpression α} {letter : α} (extended : Extends first letter)
    (second : RegularExpression α) : Extends (first * second) letter := by
  intro word matched
  obtain ⟨before, matchedBefore, after, matchedAfter, rfl⟩ := Language.mem_mul.mp matched
  exact Language.mem_mul.mpr ⟨letter :: before, extended before matchedBefore, after, matchedAfter, rfl⟩

theorem Extends.replicate {pattern : RegularExpression α} {letter : α} (extended : Extends pattern letter)
    {word : List α} (matched : word ∈ pattern.matches') (count : Nat) :
    List.replicate count letter ++ word ∈ pattern.matches' := by
  induction count with
  | zero => exact matched
  | succ count ih => exact extended _ ih

end ProcessChain.Lib
